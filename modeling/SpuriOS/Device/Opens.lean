import SpuriOS.Console.Ring
import SpuriOS.Device.Refcounts
import SpuriOS.Ext2.Directory
import SpuriOS.Mm.Frames
import Mathlib.Data.Finset.Card
import Mathlib.Data.Finset.Range

/-! # Opens, all or nothing (`open` of `kernel/fs.c`, `pipe` of `kernel/pipe.c`)

The two calls from beginning to end, when no other process runs in between: over the tables of
`Device.Pools`, the ring of the consoles and the bitmap that the frames come from. Either a free
descriptor refers to what was opened, or nothing has changed. A call that does not come back (a
false `kassert`, an endless loop, a page fault in the kernel that ends the process) yields `none`.
Pages at address 0 are not mapped, so that the first byte behind a null pointer is such a fault. -/

namespace SpuriOS

/-- The devices with the ring of the consoles and the bitmap of the frames; `loaded` is a field of
the one file system there is. -/
structure OpenSystem where
  sys : DevSystem
  con : Con
  bitmap : Bitmap
  loaded : Bool

/-- What `ext2.c` finds on the disk. -/
structure Disk where
  /-- `ext2_finally_create` accepts the superblock. -/
  mounts : Bool
  /-- `i_size` of an inode and whether it is a directory; none for a division by zero. -/
  inode : (inode : Nat) → Option (Nat × Bool)
  /-- The inode of a name in a directory, 0 without one; none for a loop that does not end. -/
  search : (inode : Nat) → (name : PathString) → Option Nat
  blockSize : Nat
  /-- The loop of `read_dir` over the entries comes to an end. -/
  lists : (inode : Nat) → Bool

/-- The bytes of a string. -/
def pathString (l : List Char) : PathString := l.map fun c => UInt8.ofNat c.toNat

/-- The names `fs_open` compares with. -/
def serial0Name : PathString := pathString ['/', 's', 'e', 'r', 'i', 'a', 'l', '0']
def serial1Name : PathString := pathString ['/', 's', 'e', 'r', 'i', 'a', 'l', '1']
def consoleName : PathString := pathString ['/', 'c', 'o', 'n', 's', 'o', 'l', 'e']
def procCpuidName : PathString := pathString ['/', 'p', 'r', 'o', 'c', '/', 'c', 'p', 'u', 'i', 'd']
def diskPrefix : PathString := pathString ['/', 'd', 'i', 's', 'k', '/']

/-! ## Paths -/

section
variable {σ : Type}

/-- A round of the loop of `get_file_inode` with `look` for `str_get_inode`, on the place in the
path, the last inode and the rest of the state; and what comes after it. -/
def pathRound (look : PathString → Nat → σ → Option (Nat × σ)) (filename : PathString)
    (strLen : Nat) : Nat × Nat × σ → Option (Loop.Round (Nat × Nat × σ) (Nat × σ))
  | (iFrom, lastFoundInode, s) =>
    let iTo := filename.charPos slash iFrom
    if iTo ≠ 0 then
      (look ((filename.drop iFrom).take (iTo - iFrom - 1)) lastFoundInode s).map fun (inode, s) =>
        if inode = 0 then .done (0, s) else .again (iTo, inode, s)
    else
      (look ((filename.drop iFrom).take (strLen - iFrom)) lastFoundInode s).map .done

/-- `get_file_inode` after the file system is loaded. -/
def walkPath (look : PathString → Nat → σ → Option (Nat × σ)) (filename : PathString)
    (strLen : Nat) (s : σ) : Option (Nat × σ) :=
  -- kassert(filename[0] == '/')
  if filename.byte 0 = slash then
    let iFrom := filename.charPos slash 0
    if iFrom = strLen then some (2, s)
    else Loop.run (pathRound look filename strLen) (filename.length + 1) (iFrom, 2, s)
  else none

end

namespace OpenSystem

/-! ## Frames -/

def kalloc (s : OpenSystem) : Option (Option Nat × OpenSystem) :=
  (mmMemKalloc s.bitmap).map fun (frame, bitmap) =>
    let frame := if frame = 0 then none else some frame
    (frame, { s with sys := s.sys.kalloc frame, bitmap })

def free (frame : Option Nat) (s : OpenSystem) : Option OpenSystem :=
  (mmMemFree (frame.getD 0) s.bitmap).map fun bitmap => { s with sys := s.sys.free frame, bitmap }

/-! ## The opens of the drivers -/

def conOpen (s : OpenSystem) : Option (Option Nat × OpenSystem) :=
  match s.sys.freeSlot .consoles with
  | none => some (none, s)
  | some _ => do
    let (frame, bitmap) ← mmMemKalloc s.bitmap
    let frame := if frame = 0 then none else some frame
    let (dev, sys) := s.sys.conOpen frame
    let (_, con) ← SpuriOS.conOpen frame.isSome s.con
    return (dev, { s with sys, con, bitmap })

/-- What `ext2_open` starts with. -/
def load (disk : Disk) (s : OpenSystem) : Option OpenSystem :=
  if s.loaded then some s
  else do
    let (sb, s) ← s.kalloc
    -- memset(sb, 0, PAGE_SIZE)
    if sb = none ∨ disk.mounts = false then none else some { s with loaded := true }

def strGetInode (disk : Disk) (name : PathString) (dirInode : Nat) (s : OpenSystem) :
    Option (Nat × OpenSystem) := do
  let (size, _) ← disk.inode dirInode
  -- kassert(mi_inodo.i_size <= PAGE_SIZE)
  if size ≤ pageSize then
    let (tmpPage, s) ← s.kalloc
    -- memset(tmp_page, 0, mi_inodo.i_size)
    if tmpPage = none ∧ size ≠ 0 then none
    else
      let inodeResult ← disk.search dirInode name
      let s ← s.free tmpPage
      return (inodeResult, s)
  else none

def getFileInode (disk : Disk) (filename : PathString) (s : OpenSystem) :
    Option (Nat × OpenSystem) :=
  walkPath (strGetInode disk) filename filename.length s

/-- `block_count` of `ext2_open`; none for a division by zero. -/
def blockCount (disk : Disk) (fileSize : Nat) : Option Nat :=
  if disk.blockSize = 0 then none
  else if fileSize % disk.blockSize ≠ 0 then some (fileSize / disk.blockSize + 1)
  else some (fileSize / disk.blockSize)

/-- `block_list`, for a file of more than 12 blocks. -/
def loadBlockList (d blockCount : Nat) (s : OpenSystem) : Option OpenSystem :=
  let s := { s with sys := s.sys.setData d { s.sys.data d with blockList := none } }
  if blockCount > 12 then do
    let (blockList, s) ← s.kalloc
    -- hdd_enhanced_read(…, block_list, block_size)
    if blockList = none then none
    else some { s with sys := s.sys.setData d { s.sys.data d with blockList } }
  else some s

/-- `read_dir`, of a directory of `size` bytes. -/
def readDir (disk : Disk) (inode size : Nat) (buffer : Option Nat) (s : OpenSystem) :
    Option OpenSystem := do
  let (tmpPage, s) ← s.kalloc
  -- the bytes of the directory are read into the page, and the names written into the buffer
  if (tmpPage = none ∧ size ≠ 0) ∨ buffer = none ∨ disk.lists inode = false then none
  else s.free tmpPage

/-- `ext2_open` from the free slot `d` on. -/
def ext2File (disk : Disk) (inode d : Nat) (s : OpenSystem) : Option OpenSystem := do
  let sys := s.sys.setObject d
    { klass := .ext2File, refcount := 0, flush := some .ext2FileFlush
      read := some .ext2FileRead, write := none, seek := some .ext2FileSeek }
  let s := { s with sys }
  let (fileSize, isDir) ← disk.inode inode
  let blocks ← blockCount disk fileSize
  -- kassert(block_count <= 1036)
  if blocks ≤ 1036 then
    let s ← s.loadBlockList d blocks
    let (buffer, s) ← s.kalloc
    let s := { s with sys := s.sys.setData d { s.sys.data d with buffer } }
    if isDir then s.readDir disk inode fileSize buffer else some s
  else none

def ext2Open (disk : Disk) (filename : PathString) (flags : OpenFlags) (s : OpenSystem) :
    Option (Option Nat × OpenSystem) := do
  let s ← s.load disk
  if flags.wr then return (none, s)
  else
    let (inode, s) ← s.getFileInode disk filename
    if inode = 0 then return (none, s)
    else
      match s.sys.freeSlot .ext2Files with
      | none => return (none, s)
      | some d =>
        let s ← s.ext2File disk inode d
        return (some d, s)

/-! ## The two calls -/

/-- An open of a driver that allocates nothing. -/
def lift (s : OpenSystem) (r : Option Nat × DevSystem) : Option (Option Nat × OpenSystem) :=
  some (r.1, { s with sys := r.2 })

def fsOpen (disk : Disk) (filename : PathString) (flags : OpenFlags) (s : OpenSystem) :
    Option (Option Nat × OpenSystem) :=
  if ¬(flags.rd ∨ flags.wr) then some (none, s)
  else if filename = serial0Name then s.lift (s.sys.serialOpen Pool.serialDevs.base flags)
  else if filename = serial1Name then s.lift (s.sys.serialOpen (Pool.serialDevs.base + 1) flags)
  else if filename = consoleName then s.conOpen
  else if filename = procCpuidName then s.lift s.sys.procCpuidOpen
  else if filename.take 6 = diskPrefix then s.ext2Open disk (filename.drop 5) flags
  else some (none, s)

/-- `device_descriptor`, called by process `p`. -/
def descriptor (p : Pid) (d : Nat) (s : OpenSystem) : Nat × OpenSystem :=
  let r := deviceDescriptor d { s.sys.table with curPid := p }
  (r.1, { s with sys := { s.sys with table := r.2 } })

def «open» (disk : Disk) (p : Pid) (filename : PathString) (flags : OpenFlags) (s : OpenSystem) :
    Option (Int × OpenSystem) := do
  let (dev, s) ← s.fsOpen disk filename flags
  match dev with
  | none => return (DevSystem.openError, s)
  | some d =>
    let (fd, s) := s.descriptor p d
    return (fd, s)

/-- `pipe`, with what it stores in the array of the caller. The first `stores` of the two stores
do not fault. -/
def pipe (p : Pid) (stores : Nat) (s : OpenSystem) :
    Option (Int × Option (Nat × Nat) × OpenSystem) :=
  match s.sys.freeEnds with
  | inp :: out :: _ => do
    let (frame, bitmap) ← mmMemKalloc s.bitmap
    if frame = 0 then return (-enomem, none, { s with bitmap })
    else
      let s := { s with sys := s.sys.pipeOpen inp out frame, bitmap }
      let (fd₀, s) := s.descriptor p inp
      if stores < 1 then none
      else
        let (fd₁, s) := s.descriptor p out
        if stores < 2 then none
        else return (0, some (fd₀, fd₁), s)
  | _ => some (-enomem, none, s)

/-! ## What is said of them -/

/-- What a call that fails leaves behind. The buffer of a slot that is free is nobody's. -/
structure Unchanged (s s' : OpenSystem) : Prop where
  devices : s'.sys.table.devices = s.sys.table.devices
  objects : s'.sys.table.objects = s.sys.table.objects
  data : ∀ d, s.sys.klass d ≠ .none → s'.sys.data d = s.sys.data d
  frames : ∀ p, s'.bitmap.bit p = s.bitmap.bit p
  ring : s'.con.next = s.con.next ∧ s'.con.prev = s.con.prev
  focus : s'.con.current = s.con.current

/-- Two new references of process `p`, to the two ends of one new pipe. -/
structure PipeOpened (p : Pid) (fd₀ fd₁ inp out : Nat) (s s' : OpenSystem) : Prop where
  ne : fd₀ ≠ fd₁
  lt : fd₀ < maxFd ∧ fd₁ < maxFd
  empty : s.sys.fds p fd₀ = none ∧ s.sys.fds p fd₁ = none
  devices : s'.sys.table.devices = Function.update
    (Function.update s.sys.table.devices (cell p fd₀) (some inp)) (cell p fd₁) (some out)
  slots : inp ≠ out ∧ s.sys.klass inp = .none ∧ s.sys.klass out = .none
  reads : s'.sys.klass inp = .pipe ∧ (s'.sys.table.objects inp).read = some .pipeRead
  writes : s'.sys.klass out = .pipe ∧ (s'.sys.table.objects out).write = some .pipeWrite
  pair : (s'.sys.data inp).pair = out ∧ (s'.sys.data out).pair = inp
  buffer : ∃ frame, (s'.sys.data inp).buffer = some frame ∧ (s'.sys.data out).buffer = some frame

end OpenSystem

/-! ## When they keep to it -/

/-- The free frames of the kernel zone. -/
def Bitmap.kernelFree (b : Bitmap) : Finset Nat :=
  (Finset.range (8 * kernelBytes)).filter fun p => b.bit p = false

namespace Disk

/-- What `str_get_inode` finds, with or without a frame for its page. -/
def lookup (disk : Disk) (hasFrame : Bool) (name : PathString) (dirInode : Nat) (_ : Unit) :
    Option (Nat × Unit) := do
  let (size, _) ← disk.inode dirInode
  if size ≤ pageSize ∧ (hasFrame ∨ size = 0) then
    let inodeResult ← disk.search dirInode name
    return (inodeResult, ())
  else none

/-- The inode of a path, 0 without one. -/
def resolve (disk : Disk) (hasFrame : Bool) (filename : PathString) : Option Nat :=
  (walkPath (disk.lookup hasFrame) filename filename.length ()).map (·.1)

/-- The file can be loaded with `n` frames. -/
def Loads (disk : Disk) (inode n : Nat) : Prop :=
  ∃ size isDir blocks, disk.inode inode = some (size, isDir) ∧
    OpenSystem.blockCount disk size = some blocks ∧ blocks ≤ 1036 ∧
    (12 < blocks → 0 < n) ∧
    (isDir = true → disk.lists inode = true ∧
      (if 12 < blocks then 1 else 0) + (if size = 0 then 1 else 2) ≤ n)

theorem loads_iff {disk : Disk} {inode n size blocks : Nat} {isDir : Bool}
    (hinode : disk.inode inode = some (size, isDir))
    (hcount : OpenSystem.blockCount disk size = some blocks) : disk.Loads inode n ↔
      blocks ≤ 1036 ∧ (12 < blocks → 0 < n) ∧ (isDir = true → disk.lists inode = true ∧
        (if 12 < blocks then 1 else 0) + (if size = 0 then 1 else 2) ≤ n) := by
  constructor
  · rintro ⟨size', isDir', blocks', hsome, hblocks, hl⟩
    rw [hinode] at hsome
    cases hsome
    rw [hcount] at hblocks
    cases hblocks
    exact hl
  · exact fun hl => ⟨size, isDir, blocks, hinode, hcount, hl⟩

end Disk

namespace OpenSystem

/-- The free frames after `ext2_finally_create`. -/
def framesAfterLoad (s : OpenSystem) : Nat :=
  if s.loaded then s.bitmap.kernelFree.card else s.bitmap.kernelFree.card - 1

/-- `ext2_open` gives none, and the file system was loaded before. -/
def Ext2Fails (disk : Disk) (filename : PathString) (flags : OpenFlags) (s : OpenSystem) : Prop :=
  s.loaded = true ∧ (flags.wr = true ∨
    ∃ inode, disk.resolve (0 < s.framesAfterLoad) filename = some inode ∧
      (inode = 0 ∨ s.sys.freeSlot .ext2Files = none))

/-- `fs_open` gives none, and has not loaded the file system. -/
def Fails (disk : Disk) (filename : PathString) (flags : OpenFlags) (s : OpenSystem) : Prop :=
  (flags.rd = true ∨ flags.wr = true) →
    if filename = serial0Name then s.sys.klass Pool.serialDevs.base ≠ .none
    else if filename = serial1Name then s.sys.klass (Pool.serialDevs.base + 1) ≠ .none
    else if filename = consoleName then
      s.sys.freeSlot .consoles = none ∨ s.bitmap.kernelFree = ∅
    else if filename = procCpuidName then s.sys.freeSlot .procCpuidDevs = none
    else filename.take 6 = diskPrefix → s.Ext2Fails disk (filename.drop 5) flags

end OpenSystem

/-! ## Frames -/

section
variable {b b' : Bitmap} {p : Nat}

namespace Bitmap

theorem mem_kernelFree : p ∈ b.kernelFree ↔ p / 8 < kernelBytes ∧ b.bit p = false := by
  rw [kernelFree, Finset.mem_filter, Finset.mem_range]
  exact and_congr_left fun _ => by omega

theorem kernelFree_congr (h : ∀ p, b'.bit p = b.bit p) : b'.kernelFree = b.kernelFree := by
  ext p
  rw [mem_kernelFree, mem_kernelFree, h]

theorem kernelFree_mark : (b.mark p).kernelFree = b.kernelFree.erase p := by
  ext q
  rw [Finset.mem_erase, mem_kernelFree, mem_kernelFree, bit_mark, Bool.or_eq_false_iff,
    decide_eq_false_iff_not]
  exact ⟨fun h => ⟨fun he => h.2.2 he.symm, h.1, h.2.1⟩,
    fun h => ⟨h.2.1, h.2.2, fun he => h.1 he.symm⟩⟩

theorem bit_unmark_mark (h : b.bit p = false) (q : Nat) :
    ((b.mark p).unmark p).bit q = b.bit q := by
  rw [bit_unmark, bit_mark]
  by_cases hq : p = q
  · rw [← hq, h]
    simp
  · simp [hq]

end Bitmap

theorem mmMemKalloc_spec (h : kernelBytes ≤ b.byteLen) :
    (b.kernelFree = ∅ ∧ mmMemKalloc b = some (0, b)) ∨
      ∃ p ∈ b.kernelFree, mmMemKalloc b = some (frameAt p, b.mark p) ∧ frameAt p ≠ 0 := by
  obtain ⟨f, b', hseek⟩ := mmMemSeek_total h .kernel
  have hcases := mmMemSeek_cases hseek
  obtain ⟨rfl, rfl, hfull⟩ | ⟨p, -, hp, -, hclear, -, rfl, rfl⟩ := hcases
  · refine .inl ⟨Finset.eq_empty_of_forall_notMem fun p hp => ?_, hseek⟩
    rw [Bitmap.mem_kernelFree] at hp
    have := hfull p (Nat.zero_le _) hp.1
    rw [hp.2] at this
    cases this
  · exact .inr ⟨p, Bitmap.mem_kernelFree.2 ⟨hp, hclear⟩, hseek,
      frameAt_ne_zero (Nat.lt_of_lt_of_le hp (show kernelBytes ≤ maxByteLen by decide))⟩

/-- Freeing the null pointer clears a bit in front of the bitmap. -/
theorem mmMemFree_zero : ∃ b', mmMemFree 0 b = some b' ∧ b'.byteLen = b.byteLen ∧
    ∀ p, b'.bit p = b.bit p := by
  have hpos : (toInt32 ((0 + (2 ^ 32 - himemBegin)) % 2 ^ 32)).tdiv pageSize = -256 := by decide
  have hclear : clearBit (-256) b = some ⟨Function.update b.byte (-32)
      (b.byte (-32) &&& (1#8 <<< bitShift (-256) ^^^ 0xFF#8)), b.byteLen⟩ := by
    have hoffset : bitOffset (-256) ≤ b.byteLen :=
      Int.le_trans (show bitOffset (-256) ≤ 0 by decide) (Int.natCast_nonneg _)
    rw [clearBit]
    dsimp only
    rw [if_neg (not_not_intro hoffset), if_neg (by decide)]
    rfl
  refine ⟨_, (congrArg (clearBit · b) hpos).trans hclear, rfl, fun p => ?_⟩
  have hne : ((p / 8 : Nat) : Int) ≠ -32 := by omega
  rw [Bitmap.bit, Bitmap.bit]
  dsimp only
  rw [Function.update_of_ne hne]

end

namespace OpenSystem

/-- The states differ in nothing but the ghost of the frames and what is in front of the bitmap. -/
structure Alike (s s' : OpenSystem) : Prop where
  table : s'.sys.table = s.sys.table
  data : s'.sys.data = s.sys.data
  con : s'.con = s.con
  loaded : s'.loaded = s.loaded
  byteLen : s'.bitmap.byteLen = s.bitmap.byteLen
  bits : ∀ p, s'.bitmap.bit p = s.bitmap.bit p

section
variable {s s' s₁ : OpenSystem} {disk : Disk} {name filename : PathString} {frame : Option Nat}
  {inode dirInode d q : Nat} {flags : OpenFlags}

theorem Alike.refl : s.Alike s := ⟨rfl, rfl, rfl, rfl, rfl, fun _ => rfl⟩

theorem Alike.trans (h : s.Alike s₁) (h' : s₁.Alike s') : s.Alike s' :=
  ⟨h'.table.trans h.table, h'.data.trans h.data, h'.con.trans h.con, h'.loaded.trans h.loaded,
    h'.byteLen.trans h.byteLen, fun p => (h'.bits p).trans (h.bits p)⟩

theorem Alike.kernelFree (h : s.Alike s') : s'.bitmap.kernelFree = s.bitmap.kernelFree :=
  Bitmap.kernelFree_congr h.bits

theorem kalloc_spec (h : kernelBytes ≤ s.bitmap.byteLen) :
    (s.bitmap.kernelFree = ∅ ∧ s.kalloc = some (none, s)) ∨
      ∃ q ∈ s.bitmap.kernelFree, s.kalloc = some (some (frameAt q),
        { s with sys := s.sys.kalloc (some (frameAt q)), bitmap := s.bitmap.mark q }) := by
  obtain ⟨hempty, hk⟩ | ⟨q, hq, hk, hne⟩ := mmMemKalloc_spec h
  · refine .inl ⟨hempty, ?_⟩
    rw [kalloc, hk]
    rfl
  · refine .inr ⟨q, hq, ?_⟩
    rw [kalloc, hk, Option.map_some]
    dsimp only
    rw [if_neg hne]

/-- A page that is taken and given back. -/
theorem kalloc_free (h : kernelBytes ≤ s.bitmap.byteLen) : ∃ frame s₁, s.kalloc = some (frame, s₁) ∧
    (frame = none ↔ s.bitmap.kernelFree = ∅) ∧ ∃ s', s₁.free frame = some s' ∧ s.Alike s' := by
  obtain ⟨hempty, hk⟩ | ⟨q, hq, hk⟩ := kalloc_spec h
  · obtain ⟨b, hfree, hlen, hbits⟩ := mmMemFree_zero (b := s.bitmap)
    have hs : s.free none = some { s with bitmap := b } := by
      rw [free, Option.getD_none, hfree]
      rfl
    exact ⟨none, s, hk, iff_of_true rfl hempty, _, hs, rfl, rfl, rfl, rfl, hlen, hbits⟩
  · have hq' := Bitmap.mem_kernelFree.1 hq
    have hmax : q / 8 < maxByteLen := Nat.lt_of_lt_of_le hq'.1 (by decide)
    have hlt : frameAt q < 0x80100000 := by
      have hzone : q / 8 < 96 := hq'.1
      rw [frameAt_eq hmax, himemBegin, pageSize_eq]
      omega
    have hfree : mmMemFree (frameAt q) (s.bitmap.mark q) = some ((s.bitmap.mark q).unmark q) :=
      mmMemFree_eq (Nat.le_trans (Nat.le_of_lt hq'.1) h) hmax hlt
    refine ⟨some (frameAt q), _, hk, iff_of_false (Option.some_ne_none _)
      (Finset.ne_empty_of_mem hq), _,
      congrArg (Option.map _) hfree, rfl, rfl, rfl, rfl, rfl, Bitmap.bit_unmark_mark hq'.2⟩

/-! ## Looking a path up -/

/-- `str_get_inode` finds what is on the disk, and gives its page back. -/
theorem strGetInode_spec {hasFrame : Bool} (h : kernelBytes ≤ s.bitmap.byteLen)
    (hhas : hasFrame = true ↔ s.bitmap.kernelFree.Nonempty) :
    ∃ s', s.Alike s' ∧ s.strGetInode disk name dirInode =
      (disk.lookup hasFrame name dirInode ()).map fun r => (r.1, s') := by
  obtain ⟨frame, s₁, hk, hframe, s', hfree, halike⟩ := kalloc_free h
  have hframe' : frame = none ↔ hasFrame = false := by
    rw [hframe, ← Finset.not_nonempty_iff_eq_empty, ← hhas, Bool.not_eq_true]
  refine ⟨s', halike, ?_⟩
  rw [Disk.lookup, strGetInode]
  cases disk.inode dirInode with
  | none => rfl
  | some x =>
    simp only [Option.bind_eq_bind, Option.bind_some, hk]
    by_cases hsize : x.1 ≤ pageSize
    · rw [if_pos hsize]
      by_cases hfits : hasFrame = true ∨ x.1 = 0
      · have hnot : ¬(frame = none ∧ x.1 ≠ 0) := fun hc =>
          hfits.elim (fun hf => by simp [hframe'.1 hc.1] at hf) hc.2
        rw [if_neg hnot, if_pos (show x.1 ≤ pageSize ∧ _ from ⟨hsize, hfits⟩)]
        cases disk.search dirInode name with
        | none => rfl
        | some inode =>
          rw [Option.bind_some, hfree]
          rfl
      · have hno : ¬(x.1 ≤ pageSize ∧ (hasFrame = true ∨ x.1 = 0)) := fun hc => hfits hc.2
        rw [not_or, Bool.not_eq_true] at hfits
        rw [if_pos (show frame = none ∧ x.1 ≠ 0 from ⟨hframe'.2 hfits.1, hfits.2⟩), if_neg hno]
        rfl
    · rw [if_neg hsize, if_neg fun hc => hsize hc.1]
      rfl

/-- Two searches that find the same, one of them on states that all have a property. -/
theorem walkPath_map {look : PathString → Nat → OpenSystem → Option (Nat × OpenSystem)}
    {look' : PathString → Nat → Unit → Option (Nat × Unit)} {I : OpenSystem → Prop} {n : Nat}
    (hlook : ∀ name dir s, I s → ∃ s', I s' ∧
      look name dir s = (look' name dir ()).map fun r => (r.1, s')) (hs : I s) :
    ∃ s', I s' ∧ walkPath look filename n s =
      (walkPath look' filename n ()).map fun r => (r.1, s') := by
  have hrun : ∀ (fuel iFrom last : Nat) (s : OpenSystem), I s → ∃ s', I s' ∧
      Loop.run (pathRound look filename n) fuel (iFrom, last, s) =
        (Loop.run (pathRound look' filename n) fuel (iFrom, last, ())).map fun r => (r.1, s') := by
    intro fuel
    induction fuel with
    | zero => exact fun iFrom last s hs => ⟨s, hs, rfl⟩
    | succ fuel ih =>
      intro iFrom last s hs
      rw [Loop.run, Loop.run, pathRound, pathRound]
      dsimp only
      by_cases hto : filename.charPos slash iFrom ≠ 0
      · obtain ⟨s₁, hs₁, heq⟩ := hlook
          ((filename.drop iFrom).take (filename.charPos slash iFrom - iFrom - 1)) last s hs
        rw [if_pos hto, if_pos hto, heq]
        cases look' ((filename.drop iFrom).take (filename.charPos slash iFrom - iFrom - 1)) last ()
          with
        | none => exact ⟨s, hs, rfl⟩
        | some r =>
          simp only [Option.map_some]
          by_cases hr : r.1 = 0
          · rw [if_pos hr, if_pos hr]
            exact ⟨s₁, hs₁, rfl⟩
          · rw [if_neg hr, if_neg hr]
            exact ih _ _ s₁ hs₁
      · obtain ⟨s₁, hs₁, heq⟩ := hlook ((filename.drop iFrom).take (n - iFrom)) last s hs
        rw [if_neg hto, if_neg hto, heq]
        cases look' ((filename.drop iFrom).take (n - iFrom)) last () with
        | none => exact ⟨s, hs, rfl⟩
        | some r => exact ⟨s₁, hs₁, rfl⟩
  rw [walkPath, walkPath]
  split
  next hslash =>
    dsimp only
    split
    next => exact ⟨s, hs, rfl⟩
    next => exact hrun _ _ _ s hs
  next => exact ⟨s, hs, rfl⟩

theorem getFileInode_spec {hasFrame : Bool} (h : kernelBytes ≤ s.bitmap.byteLen)
    (hhas : hasFrame = true ↔ s.bitmap.kernelFree.Nonempty) :
    ∃ s', s.Alike s' ∧ s.getFileInode disk filename =
      (disk.resolve hasFrame filename).map fun inode => (inode, s') := by
  have hlook : ∀ name dir s₁, s.Alike s₁ → ∃ s', s.Alike s' ∧ s₁.strGetInode disk name dir =
      (disk.lookup hasFrame name dir ()).map fun r => (r.1, s') := fun name dir s₁ hs₁ => by
    obtain ⟨s', hs', heq⟩ :=
      strGetInode_spec (hs₁.byteLen ▸ h) (hhas.trans (by rw [hs₁.kernelFree]))
    exact ⟨s', hs₁.trans hs', heq⟩
  obtain ⟨s', hs', heq⟩ := walkPath_map hlook .refl
  refine ⟨s', hs', ?_⟩
  rw [getFileInode, heq, Disk.resolve, Option.map_map]
  rfl

/-! ## Opening a file -/

/-- What a page that stays leaves as it was. -/
structure Took (n : Nat) (s s' : OpenSystem) : Prop where
  table : s'.sys.table = s.sys.table
  con : s'.con = s.con
  byteLen : s'.bitmap.byteLen = s.bitmap.byteLen
  card : s'.bitmap.kernelFree.card = s.bitmap.kernelFree.card - n

theorem Took.trans {m n : Nat} (h : s.Took m s₁) (h' : s₁.Took n s') : s.Took (m + n) s' :=
  ⟨h'.table.trans h.table, h'.con.trans h.con, h'.byteLen.trans h.byteLen, by
    rw [h'.card, h.card, Nat.sub_sub]⟩

/-- How an open ends, when `opens` says that it gives a device and `fails` that it gives none and
changes nothing. -/
inductive FsOutcome (s : OpenSystem) (opens fails : Prop) :
    Option (Option Nat × OpenSystem) → Prop
  | opened {d : Nat} {s₁ : OpenSystem} : opens → ¬fails → s.sys.klass d = .none →
    s₁.sys.table.devices = s.sys.table.devices → FsOutcome s opens fails (some (some d, s₁))
  | failed {s₁ : OpenSystem} : fails → s.Unchanged s₁ → FsOutcome s opens fails (some (none, s₁))
  /-- A frame stays behind. -/
  | allocated {s₁ : OpenSystem} : ¬opens → ¬fails → ¬s.Unchanged s₁ →
    FsOutcome s opens fails (some (none, s₁))
  | stuck : ¬opens → ¬fails → FsOutcome s opens fails none

theorem Unchanged.refl : s.Unchanged s := ⟨rfl, rfl, fun _ _ => rfl, fun _ => rfl, ⟨rfl, rfl⟩, rfl⟩

/-- What the file system is after `ext2_finally_create`: a frame more is taken, if it was not
loaded before. -/
theorem load_spec (h : kernelBytes ≤ s.bitmap.byteLen) (disk : Disk) :
    (s.load disk = none ∧ s.loaded = false ∧ ¬(disk.mounts = true ∧ s.bitmap.kernelFree.Nonempty)) ∨
      ∃ s₀, s.load disk = some s₀ ∧
        (s.loaded = false → disk.mounts = true ∧ s.bitmap.kernelFree.Nonempty) ∧
        s₀.sys.table = s.sys.table ∧ s₀.bitmap.byteLen = s.bitmap.byteLen ∧
        s₀.bitmap.kernelFree.card = s.framesAfterLoad ∧
        (s.loaded = true → s₀ = s) ∧
        (s.loaded = false → ∃ q, s.bitmap.bit q = false ∧ s₀.bitmap.bit q = true) := by
  rw [load, framesAfterLoad]
  cases hl : s.loaded with
  | true => exact .inr ⟨s, rfl, nofun, rfl, rfl, (if_pos rfl).symm, fun _ => rfl, nofun⟩
  | false =>
    obtain ⟨hempty, hk⟩ | ⟨q, hq, hk⟩ := kalloc_spec h
    · refine .inl ⟨?_, rfl, fun hm => ?_⟩
      · rw [hk]
        rfl
      · rw [hempty] at hm
        exact Finset.not_nonempty_empty hm.2
    · rw [hk]
      cases hm : disk.mounts with
      | false => exact .inl ⟨rfl, rfl, fun hm => nomatch hm.1⟩
      | true =>
        refine .inr ⟨_, rfl, fun _ => ⟨rfl, q, hq⟩, rfl, rfl, ?_, nofun, fun _ => ⟨q,
          (Bitmap.mem_kernelFree.1 hq).2, ?_⟩⟩
        · exact (congrArg _ Bitmap.kernelFree_mark).trans (Finset.card_erase_of_mem hq)
        · exact Bitmap.bit_mark.trans (by simp)

theorem FsOutcome.congr {opens opens' fails fails' : Prop} {r} (h : FsOutcome s opens fails r)
    (ho : opens' ↔ opens) (hf : fails' ↔ fails) : FsOutcome s opens' fails' r := by
  rwa [propext ho, propext hf]

variable {p : Pid} {inp out buffer fd₀ fd₁ : Nat} {s₀ : OpenSystem}

end

/-- After `device_init`, with all frames free. -/
def booted : OpenSystem := ⟨bootDevices, Con.boot, ⟨fun _ => 0, kernelBytes⟩, false⟩

end OpenSystem

end SpuriOS
