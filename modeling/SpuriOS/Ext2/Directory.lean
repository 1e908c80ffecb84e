import SpuriOS.Ext2.File
import SpuriOS.Lib.Loop

/-! # Looking a path up (`kernel/ext2.c`, `kernel/lib.c`)

`get_file_inode` and what it calls, over a disk whose reads succeed. The superblock and the block
group descriptors are a page of kernel memory, the inode a local variable, the bytes of a directory
a second page. A function yields `none` when it does not come back (a false `kassert`, a division
by zero, an endless loop), and when the scan of a directory leaves the bytes that were loaded. -/

namespace SpuriOS

/-- A path is the list of its bytes before the NUL. -/
abbrev PathString := List Byte

namespace PathString

/-- The byte at an index, with the NUL at the end. -/
def byte (s : PathString) (i : Nat) : Byte := s.getD i 0

/-- The loop of `char_pos`, from the index `i` on. -/
def charPosLoop (character : Byte) : PathString → Nat → Nat
  | [], _ => 0
  | c :: s, i => if c = character then i + 1 else charPosLoop character s (i + 1)

/-- `char_pos`: one more than the next index of `character`, 0 if there is none. -/
def charPos (s : PathString) (character : Byte) (start : Nat) : Nat :=
  charPosLoop character (s.drop start) start

end PathString

/-- `strncmp` from the index `i` on, with a first argument of which some bytes are there. -/
def strncmp (p : Nat → Option Byte) (q : Nat → Byte) : (i n : Nat) → Option Int
  | _, 0 => some 0
  | i, n + 1 => do
    let a ← p i
    let b := q i
    if a ≠ 0 ∧ b ≠ 0 ∧ a = b then strncmp p q (i + 1) n
    else
      some (if a ≠ 0 then if b ≠ 0 then a.toInt8.toInt - b.toInt8.toInt else 1
        else if b ≠ 0 then -1 else 0)

def slash : Byte := 47

/-- `struct str_ext2`; `sb` and `bgdt` are addresses. -/
structure Ext2 where
  loaded : Bool
  dev : BlockDev
  sb : Nat
  bgdt : Nat

/-- Where the page for the superblock, the page for the bytes of a directory and the local variable
for an inode are: three places apart. -/
structure Ext2Buffers where
  sbPage : Nat
  tmpPage : Nat
  miInodo : Nat
  sbPage_lt : sbPage + pageSize < 2 ^ 32
  tmpPage_lt : tmpPage + pageSize < 2 ^ 32
  miInodo_lt : miInodo + 128 < 2 ^ 32
  sbPage_tmpPage : sbPage + pageSize ≤ tmpPage ∨ tmpPage + pageSize ≤ sbPage
  sbPage_miInodo : sbPage + pageSize ≤ miInodo ∨ miInodo + 128 ≤ sbPage
  tmpPage_miInodo : tmpPage + pageSize ≤ miInodo ∨ miInodo + 128 ≤ tmpPage

namespace Ext2

/-- `1024 << s_log_block_size`; the shift takes the low five bits of its count. -/
def blockSize (fs : Ext2) (r : Ram) : Nat :=
  Word32.wrap (1024 <<< (Memory.le r.mem (fs.sb + 24) 4 % 32))

def blocksCount (fs : Ext2) (r : Ram) : Nat := Memory.le r.mem (fs.sb + 4) 4
def blocksPerGroup (fs : Ext2) (r : Ram) : Nat := Memory.le r.mem (fs.sb + 32) 4
def inodesPerGroup (fs : Ext2) (r : Ram) : Nat := Memory.le r.mem (fs.sb + 40) 4
def magic (fs : Ext2) (r : Ram) : Nat := Memory.le r.mem (fs.sb + 56) 2

/-- `bgdt_entry(bgdt, index)->bg_inode_table`. -/
def inodeTable (fs : Ext2) (index : Nat) (r : Ram) : Nat :=
  Memory.le r.mem (Word32.add fs.bgdt (Word32.mul index 32) + 8) 4

end Ext2

/-- The loop of `ext2_finally_create`. -/
def readSuperblockLoop (dev : BlockDev) : (i pos tmp : Nat) → Ram → Ram
  | 0, _, _, r => r
  | i + 1, pos, tmp, r =>
    let buf := (dev.read pos (fun k => r.mem (tmp + k)) dev.size).2
    readSuperblockLoop dev i (pos + 1) (tmp + dev.size)
      { r with mem := Memory.write r.mem tmp dev.size buf }

def ext2FinallyCreate (fs : Ext2) (sb : Nat) (r : Ram) : Option (Ext2 × Ram) :=
  let r := { r with mem := Memory.write r.mem sb pageSize fun _ => 0 }
  let fs := { fs with sb }
  let bgdt := sb + 1024
  let r := readSuperblockLoop fs.dev (1024 / fs.dev.size) (1024 / fs.dev.size) sb r
  -- kassert(s_magic == SUPERBLOCK_MAGIC)
  if fs.magic r ≠ 0xEF53 then none
  else if fs.blocksPerGroup r = 0 then none
  else
    let bGroupCount := fs.blocksCount r / fs.blocksPerGroup r
    let bGroupCount :=
      if fs.blocksCount r % fs.blocksPerGroup r ≠ 0 then Word32.add bGroupCount 1 else bGroupCount
    let r := hddEnhancedRead fs.dev 2048 bgdt (Word32.mul bGroupCount 32) r
    some ({ fs with bgdt, loaded := true }, r)

/-- The test that the functions on a file system start with. -/
def ext2Load (fs : Ext2) (bufs : Ext2Buffers) (r : Ram) : Option (Ext2 × Ram) :=
  if fs.loaded then some (fs, r) else ext2FinallyCreate fs bufs.sbPage r

/-- Where `str_get_inode` reads an inode; none for a division by zero. -/
def inodeStartingByte (fs : Ext2) (inode : Nat) (r : Ram) : Option Nat :=
  if fs.inodesPerGroup r = 0 then none
  else
    let bGroup := Word32.sub inode 1 / fs.inodesPerGroup r
    let index := Word32.sub inode 1 % fs.inodesPerGroup r
    some (Word32.add (Word32.mul (fs.inodeTable bGroup r) (fs.blockSize r)) (Word32.mul index 128))

/-- `mi_inodo.i_size`, and entry `k` of `mi_inodo.i_block`. -/
def iSize (bufs : Ext2Buffers) (r : Ram) : Nat := Memory.le r.mem (bufs.miInodo + 4) 4

def iBlock (bufs : Ext2Buffers) (k : Nat) (r : Ram) : Nat :=
  Memory.le r.mem (bufs.miInodo + (40 + 4 * k)) 4

/-- The loop that loads the bytes of a directory. Each round takes at least one byte off `tmpSize`,
unless the block size is 0. -/
def dirLoadLoop (dev : BlockDev) (bufs : Ext2Buffers) (blockSize : Nat) :
    (fuel inodeBlock tmpSize tmpPagePtr : Nat) → Ram → Option Ram
  | 0, _, tmpSize, _, r => if tmpSize = 0 then some r else none
  | fuel + 1, inodeBlock, tmpSize, tmpPagePtr, r =>
    if tmpSize = 0 then some r
    else
      let bytesLeidos := if tmpSize < blockSize then tmpSize else blockSize
      dirLoadLoop dev bufs blockSize fuel (inodeBlock + 1) (tmpSize - bytesLeidos)
        (tmpPagePtr + bytesLeidos)
        (hddEnhancedRead dev (Word32.mul (iBlock bufs inodeBlock r) blockSize) tmpPagePtr
          bytesLeidos r)

/-! The fields of the entry at the offset `off` of a directory with the bytes `e`. -/

def entryInode (e : Nat → Byte) (off : Nat) : Nat := Memory.le e off 4
def entryRecLen (e : Nat → Byte) (off : Nat) : Nat := Memory.le e (off + 4) 2
def entryNameLen (e : Nat → Byte) (off : Nat) : Nat := (e (off + 6)).toNat

/-- Byte `i` of the name, as far as it is one of the `size` bytes of the directory. -/
def entryName (e : Nat → Byte) (size off i : Nat) : Option Byte :=
  if off + 8 + i < size then some (e (off + 8 + i)) else none

/-- The two tests that compare an entry with a name: 0 when it is the one. -/
def entryCompare (e : Nat → Byte) (size : Nat) (str : Nat → Byte) (strLen off : Nat) :
    Option Int :=
  if entryNameLen e off = strLen then strncmp (entryName e size off) str 0 strLen else some 1

/-- A round of the loop that searches a directory. -/
def dirScanRound (e : Nat → Byte) (size : Nat) (str : Nat → Byte) (strLen tmpSize : Nat) :
    Option (Loop.Round Nat Nat) :=
  if tmpSize < size then
    -- the last byte that is read of the fields before the name is `name_len`
    if tmpSize + 6 < size then do
      let differs ← entryCompare e size str strLen tmpSize
      if differs = 0 then some (.done (entryInode e tmpSize))
      else some (.again (Word32.add tmpSize (entryRecLen e tmpSize)))
    else none
  else some (.done 0)

/-- The loop that searches a directory, with a round for each byte and one more. -/
def dirScan (e : Nat → Byte) (size : Nat) (str : Nat → Byte) (strLen : Nat) : Option Nat :=
  Loop.run (dirScanRound e size str strLen) (size + 1) 0

/-- The bytes of the temporary page. -/
def tmpBytes (bufs : Ext2Buffers) (r : Ram) (i : Nat) : Byte := r.mem (bufs.tmpPage + i)

/-- The bytes of an inode that is in `mi_inodo`, loaded into the temporary page. -/
def dirLoad (fs : Ext2) (bufs : Ext2Buffers) (blockSize : Nat) (r : Ram) : Option Ram :=
  let size := iSize bufs r
  dirLoadLoop fs.dev bufs blockSize size 0 size bufs.tmpPage
    { r with mem := Memory.write r.mem bufs.tmpPage size fun _ => 0 }

def strGetInode (fs : Ext2) (bufs : Ext2Buffers) (str : Nat → Byte) (strLen dirInode : Nat)
    (r : Ram) : Option (Nat × Ext2 × Ram) := do
  let (fs, r) ← ext2Load fs bufs r
  let blockSize := fs.blockSize r
  let startingByte ← inodeStartingByte fs dirInode r
  let r := hddEnhancedRead fs.dev startingByte bufs.miInodo 128 r
  -- kassert(mi_inodo.i_size <= PAGE_SIZE)
  if iSize bufs r ≤ pageSize then
    let r ← dirLoad fs bufs blockSize r
    let inodeResult ← dirScan (tmpBytes bufs r) (iSize bufs r) str strLen
    return (inodeResult, fs, r)
  else none

/-- What the loop of `get_file_inode` goes on with. -/
structure PathState where
  iFrom : Nat
  lastFoundInode : Nat
  fs : Ext2
  ram : Ram

/-- A round of the loop of `get_file_inode`, and what comes after it. -/
def getFileInodeRound (bufs : Ext2Buffers) (filename : PathString) (strLen : Nat) (s : PathState) :
    Option (Loop.Round PathState (Nat × Ext2 × Ram)) :=
  let str := fun i => filename.byte (s.iFrom + i)
  let iTo := filename.charPos slash s.iFrom
  if iTo ≠ 0 then do
    let (inode, fs, r) ← strGetInode s.fs bufs str (Word32.sub (Word32.sub iTo s.iFrom) 1)
      s.lastFoundInode s.ram
    if inode = 0 then some (.done (0, fs, r)) else some (.again ⟨iTo, inode, fs, r⟩)
  else do
    let found ← strGetInode s.fs bufs str (Word32.sub strLen s.iFrom) s.lastFoundInode s.ram
    return .done found

/-- `get_file_inode`. Each round comes to a later place of the path. -/
def getFileInode (fs : Ext2) (bufs : Ext2Buffers) (filename : PathString) (strLen : Nat) (r : Ram) :
    Option (Nat × Ext2 × Ram) := do
  let (fs, r) ← ext2Load fs bufs r
  -- kassert(filename[0] == '/')
  if filename.byte 0 = slash then
    let iFrom := filename.charPos slash 0
    if iFrom = strLen then return (2, fs, r)
    else Loop.run (getFileInodeRound bufs filename strLen) (filename.length + 1) ⟨iFrom, 2, fs, r⟩
  else none

end SpuriOS
