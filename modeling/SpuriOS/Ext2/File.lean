import SpuriOS.User

/-! # Open ext2 files (`kernel/ext2.c`)

The functions on an open file, over a disk whose reads succeed. Kernel memory and the static
sector buffer of `hdd_enhanced_read` are the two parts of a `Ram`; the memory of the process
that reads is a `UserMem`. A function that does not come back (it loads from an unmapped word,
or a `kassert` stops it) yields `none`. -/

namespace SpuriOS

/-- A block device, reduced to what `read` uses: its block size and what is in each block. -/
structure BlockDev where
  size : Nat
  sector : Nat → Nat → Byte

/-- `dev->read(dev, pos, buf, size)` for a device without errors. -/
def BlockDev.read (dev : BlockDev) (pos : Nat) (buf : Nat → Byte) (size : Nat) :
    Int × (Nat → Byte) :=
  if dev.size ≠ size then (-1, buf) else (size, Memory.write buf 0 size (dev.sector pos))

/-- The byte of the device at the absolute position `a`. -/
def BlockDev.byte (dev : BlockDev) (a : Nat) : Byte := dev.sector (a / dev.size) (a % dev.size)

theorem BlockDev.byte_add {dev : BlockDev} {pos i : Nat} (h : i < dev.size) :
    dev.byte (pos * dev.size + i) = dev.sector pos i := by
  have h0 : 0 < dev.size := by omega
  rw [byte, Nat.add_comm, Nat.add_mul_div_right _ _ h0, Nat.div_eq_of_lt h, Nat.zero_add,
    Nat.add_mul_mod_self_right, Nat.mod_eq_of_lt h]

structure Ram where
  mem : Nat → Byte
  hddEnhancedBuffer : Nat → Byte

/-- The loop of `hdd_enhanced_read`, with the local variables it updates as arguments. -/
def hddEnhancedReadLoop (dev : BlockDev) :
    (blockCount pos readSpan byteCount bufPtr : Nat) → Ram → Ram
  | 0, _, _, _, _, r => r
  | blockCount + 1, pos, readSpan, byteCount, bufPtr, r =>
    let buf := (dev.read pos r.hddEnhancedBuffer dev.size).2
    let copiedBytes :=
      if Word32.sub dev.size readSpan < byteCount then Word32.sub dev.size readSpan else byteCount
    hddEnhancedReadLoop dev blockCount (Word32.add pos 1) (Word32.sub readSpan readSpan)
      (Word32.sub byteCount copiedBytes) (Word32.add bufPtr copiedBytes)
      { mem := Memory.write r.mem bufPtr copiedBytes fun i => buf (readSpan + i)
        hddEnhancedBuffer := buf }

def hddEnhancedRead (dev : BlockDev) (startingByte buffer byteCount : Nat) (r : Ram) : Ram :=
  let realByteCount := Word32.add (startingByte % dev.size) byteCount
  let blockCount := realByteCount / dev.size
  let blockCount := if realByteCount % dev.size ≠ 0 then blockCount + 1 else blockCount
  hddEnhancedReadLoop dev blockCount (startingByte / dev.size) (startingByte % dev.size)
    byteCount buffer r

section
variable {dev : BlockDev}

/-- What the loop stores, as long as the blocks left cover the bytes left. -/
theorem hddEnhancedReadLoop_mem (hs : dev.size < 2 ^ 32) {blockCount pos readSpan byteCount
    bufPtr : Nat} {r : Ram} (hspan : readSpan < dev.size)
    (hcover : readSpan + byteCount ≤ blockCount * dev.size) (hpos : pos + blockCount ≤ 2 ^ 32)
    (hcount : byteCount < 2 ^ 32) (hbuf : bufPtr + byteCount ≤ 2 ^ 32) :
    (hddEnhancedReadLoop dev blockCount pos readSpan byteCount bufPtr r).mem =
      Memory.write r.mem bufPtr byteCount fun i => dev.byte (pos * dev.size + (readSpan + i)) := by
  induction blockCount generalizing pos readSpan byteCount bufPtr r with
  | zero =>
    obtain rfl : byteCount = 0 := by omega
    simp [hddEnhancedReadLoop]
  | succ blockCount ih =>
    have hsub : Word32.sub dev.size readSpan = dev.size - readSpan := Word32.sub_of_le (by omega) hs
    have hread : ∀ i < dev.size, (dev.read pos r.hddEnhancedBuffer dev.size).2 i =
        dev.sector pos i := fun i hi => by simp [BlockDev.read, Memory.write, hi]
    have hcopy : ∀ n, n ≤ dev.size - readSpan → ∀ i < n,
        (dev.read pos r.hddEnhancedBuffer dev.size).2 (readSpan + i) =
          dev.byte (pos * dev.size + (readSpan + i)) := fun n hn i hi => by
      rw [hread _ (by omega), BlockDev.byte_add (by omega)]
    rw [hddEnhancedReadLoop]
    simp only [hsub]
    split
    next hlt =>
      -- the block ends before the request does, so there is a next block
      have hmul : (blockCount + 1) * dev.size = blockCount * dev.size + dev.size :=
        Nat.succ_mul _ _
      have hmore : 0 < blockCount := by
        rcases Nat.eq_zero_or_pos blockCount with rfl | h
        · omega
        · exact h
      rw [Word32.sub_self (by omega), Word32.sub_of_le (by omega) (by omega),
        Word32.add_of_lt (by omega), Word32.add_of_lt (by omega),
        ih (by omega) (by omega) (by omega) (by omega) (by omega),
        Memory.write_append (hcopy _ (Nat.le_refl _)) (fun i _ => ?_),
        Nat.add_sub_cancel' (by omega)]
      rw [Nat.succ_mul]
      congr 1; omega
    next hge =>
      -- the last bytes of the request; further rounds would copy nothing
      rw [Word32.sub_self (by omega), Word32.sub_self (by omega)]
      rcases blockCount with _ | blockCount
      · exact Memory.write_congr (hcopy _ (by omega))
      · have hptr : Word32.add bufPtr byteCount < 2 ^ 32 := Nat.mod_lt _ (by decide)
        rw [Word32.add_of_lt (by omega), ih (by omega) (Nat.zero_le _) (by omega) (by decide)
          (by omega), Memory.write_zero]
        exact Memory.write_congr (hcopy _ (by omega))

/-- The number of blocks `hdd_enhanced_read` goes through covers the request, and no more. -/
theorem blockCount_bounds {size n : Nat} (h0 : 0 < size) :
    let k := if n % size ≠ 0 then n / size + 1 else n / size
    n ≤ k * size ∧ k * size < n + size := by
  have hdiv := Nat.div_add_mod n size
  have hmod := Nat.mod_lt n h0
  rw [Nat.mul_comm] at hdiv
  dsimp only
  split <;> (try rw [Nat.succ_mul]) <;> omega

/-- `hdd_enhanced_read` stores the requested slice of the device and nothing else. -/
theorem hddEnhancedRead_mem (h0 : 0 < dev.size) (hs : dev.size < 2 ^ 32) {startingByte buffer
    byteCount : Nat} {r : Ram} (hend : startingByte + byteCount ≤ 2 ^ 32 * dev.size)
    (hreal : startingByte % dev.size + byteCount < 2 ^ 32) (hbuf : buffer + byteCount ≤ 2 ^ 32) :
    (hddEnhancedRead dev startingByte buffer byteCount r).mem =
      Memory.write r.mem buffer byteCount fun i => dev.byte (startingByte + i) := by
  have hdiv := Nat.div_add_mod startingByte dev.size
  rw [Nat.mul_comm] at hdiv
  have hk := blockCount_bounds (n := startingByte % dev.size + byteCount) h0
  simp only [hddEnhancedRead, Word32.add_of_lt hreal]
  dsimp only at hk
  generalize (if (startingByte % dev.size + byteCount) % dev.size ≠ 0 then _ else _) = k at hk ⊢
  have hpos : startingByte / dev.size + k ≤ 2 ^ 32 := by
    by_contra hlt
    have hmul : 2 ^ 32 * dev.size + dev.size ≤ (startingByte / dev.size + k) * dev.size := by
      rw [← Nat.succ_mul]; exact Nat.mul_le_mul_right _ (by omega)
    rw [Nat.add_mul] at hmul
    omega
  rw [hddEnhancedReadLoop_mem hs (Nat.mod_lt _ h0) hk.1 hpos (by omega) hbuf]
  refine Memory.write_congr fun i _ => ?_
  rw [← Nat.add_assoc, hdiv]

end

/-- The fields of `struct str_ext2_file` that its operations use. `blockList i` is the word at
`block_list[i]`, `none` where nothing is mapped: a null `block_list` points to page 0, which is
left out of the kernel page table. -/
structure Ext2File where
  dev : BlockDev
  logBlockSize : Nat
  iBlock : Nat → Nat
  fileSize : Nat
  blockList : Nat → Option Nat
  streamPos : Nat
  buffer : Nat
  bufPos : Nat
  bufLen : Nat
  bufferEmpty : Bool

/-- `1024 << s_log_block_size`. -/
def Ext2File.blockSize (f : Ext2File) : Nat := Word32.wrap (1024 <<< f.logBlockSize)

/-- The block number `e2f_load_buffer` finds for a block of the file. -/
def Ext2File.lookup (f : Ext2File) (inodeBlock : Nat) : Option Nat :=
  if inodeBlock < 12 then some (f.iBlock inodeBlock) else f.blockList (inodeBlock - 12)

/-- The loop of `e2f_load_buffer`. Each round takes at least one byte off `tmpSize`, so `tmpSize`
rounds are enough unless the block size is 0. -/
def e2fLoadBufferLoop (f : Ext2File) :
    (fuel inodeBlock tmpSize localBufferPtr : Nat) → Ram → Option Ram
  | 0, _, tmpSize, _, r => if tmpSize = 0 then some r else none
  | fuel + 1, inodeBlock, tmpSize, localBufferPtr, r =>
    if tmpSize = 0 then some r
    else do
      let block ← f.lookup inodeBlock
      let startingByte := Word32.mul block f.blockSize
      let bytesLeidos := if tmpSize < f.blockSize then tmpSize else f.blockSize
      e2fLoadBufferLoop f fuel (inodeBlock + 1) (Word32.sub tmpSize bytesLeidos)
        (localBufferPtr + bytesLeidos)
        (hddEnhancedRead f.dev startingByte localBufferPtr bytesLeidos r)

def e2fLoadBuffer (f : Ext2File) (r : Ram) : Option (Ext2File × Ram) := do
  let fileOffset := f.streamPos / f.bufLen * f.bufLen
  let r ← e2fLoadBufferLoop f f.bufLen (fileOffset / f.blockSize) f.bufLen f.buffer r
  return ({ f with bufPos := f.streamPos % f.bufLen, bufferEmpty := false }, r)

namespace Ext2File
variable {f : Ext2File}

/-- The block number of a block of the file, 0 where the lookup faults. -/
def block (f : Ext2File) (b : Nat) : Nat := (f.lookup b).getD 0

/-- The byte of the disk that loading the page of position `i` puts at position `i`: the product
of block number and block size is a word. -/
def byteAt (f : Ext2File) (i : Nat) : Byte :=
  f.dev.byte (Word32.wrap (f.block (i / 1024) * 1024) + i % 1024)

/-- The four block numbers that loading the page of position `p` looks up are mapped words. -/
def PageMapped (f : Ext2File) (p : Nat) : Prop :=
  ∀ j < 4, (f.lookup (p / pageSize * 4 + j)).isSome

/-- What never changes while a file is open. -/
structure Static (f : Ext2File) : Prop where
  devSize : 0 < f.dev.size ∧ f.dev.size ≤ 512
  blockSize : f.blockSize = 1024
  bufLen : f.bufLen = pageSize
  buffer : f.buffer + pageSize < 2 ^ 32

theorem loadLoop_mem (hf : f.Static) {k fuel b ptr : Nat} {r : Ram} (hfuel : k ≤ fuel)
    (hlook : ∀ j < k, (f.lookup (b + j)).isSome) (hptr : ptr + k * 1024 < 2 ^ 32) :
    ∃ r', e2fLoadBufferLoop f fuel b (k * 1024) ptr r = some r' ∧
      r'.mem = Memory.write r.mem ptr (k * 1024) fun i => f.byteAt (b * 1024 + i) := by
  have h512 := hf.devSize.2
  have h0 := hf.devSize.1
  induction k generalizing fuel b ptr r with
  | zero => cases fuel <;> simp [e2fLoadBufferLoop]
  | succ k ih =>
    obtain ⟨fuel, rfl⟩ : ∃ n, fuel = n + 1 := ⟨fuel - 1, by omega⟩
    obtain ⟨blk, hblk⟩ := Option.isSome_iff_exists.1 (hlook 0 (by omega))
    have hmul : Word32.mul blk 1024 + 1024 ≤ 2 ^ 32 := by simp only [Word32.mul, Word32.wrap]; omega
    have hmod := Nat.mod_lt (Word32.mul blk 1024) hf.devSize.1
    obtain ⟨r', hr', hmem⟩ := @ih fuel (b + 1) (ptr + 1024)
      (hddEnhancedRead f.dev (Word32.mul blk 1024) ptr 1024 r) (by omega)
      (fun j hj => by simpa [Nat.add_right_comm, Nat.add_assoc] using hlook (j + 1) (by omega))
      (by omega)
    refine ⟨r', ?_, ?_⟩
    · rw [e2fLoadBufferLoop, if_neg (by omega), show f.lookup b = some blk from hblk]
      simp only [Option.bind_eq_bind, Option.bind_some, hf.blockSize,
        if_neg (show ¬(k + 1) * 1024 < 1024 by omega)]
      rw [Word32.sub_of_le (by omega) (by omega),
        show (k + 1) * 1024 - 1024 = k * 1024 by omega, hr']
    · rw [hmem, hddEnhancedRead_mem h0 (by omega) (by omega) (by omega) (by omega),
        Memory.write_append (h := fun i => f.byteAt (b * 1024 + i)) (fun i hi => ?_)
          (fun i hi => ?_)]
      · rw [Nat.add_comm 1024, ← Nat.succ_mul]
      · have hdiv : (b * 1024 + i) / 1024 = b := by omega
        have hmod : (b * 1024 + i) % 1024 = i := by omega
        simp [byteAt, hdiv, hmod, block, show f.lookup b = some blk from hblk, Word32.mul]
      · rw [← Nat.add_assoc, Nat.succ_mul]

/-- `e2f_load_buffer` fills the buffer with the page of the current position. -/
theorem load_spec (hf : f.Static) {r : Ram} (h : f.PageMapped f.streamPos) :
    ∃ r', e2fLoadBuffer f r =
        some ({ f with bufPos := f.streamPos % pageSize, bufferEmpty := false }, r') ∧
      ∀ i < pageSize, r'.mem (f.buffer + i) =
        f.byteAt (f.streamPos / pageSize * pageSize + i) := by
  have hbuf := hf.buffer
  obtain ⟨r', hr', hmem⟩ := @loadLoop_mem f hf 4 pageSize (f.streamPos / pageSize * 4) f.buffer r
    (by decide) h (by simpa [pageSize] using hbuf)
  refine ⟨r', ?_, fun i hi => ?_⟩
  · have hb : f.streamPos / pageSize * pageSize / 1024 = f.streamPos / pageSize * 4 := by
      simp only [pageSize]; omega
    have hloop : e2fLoadBufferLoop f pageSize (f.streamPos / pageSize * 4) pageSize f.buffer r =
        some r' := hr'
    rw [e2fLoadBuffer, hf.bufLen, hf.blockSize, hb, hloop, Option.bind_eq_bind, Option.bind_some]
    rfl
  · rw [hmem, Memory.write_add (by simpa [pageSize] using hi), Nat.mul_assoc]
    rfl

end Ext2File

/-- The loop of `ext2_file_read`, with `size` as corrected. Every round but the first, which may
find the buffer used up, takes at least one byte off `remainingSize`. -/
def ext2FileReadLoop (size : Nat) :
    (fuel remainingSize totalCopiedBytes buf : Nat) → Ext2File → Ram → UserMem →
      Option (Int × Ext2File × Ram × UserMem)
  | 0, _, _, _, _, _, _ => none
  | fuel + 1, remainingSize, totalCopiedBytes, buf, f, r, u =>
    if remainingSize = 0 then
      -- kassert(total_copied_bytes == size)
      if totalCopiedBytes = size then some (totalCopiedBytes, f, r, u) else none
    else
      let left := Word32.sub f.bufLen f.bufPos
      let bytesCopiados := if remainingSize < left then remainingSize else left
      match copy2user (fun i => r.mem (f.buffer + f.bufPos + i)) buf bytesCopiados u with
      | (effective, u) =>
        if effective ≠ bytesCopiados then some (-1, f, r, u)
        else
          let f := { f with
            bufPos := Word32.add f.bufPos bytesCopiados
            streamPos := Word32.add f.streamPos bytesCopiados }
          let remainingSize := Word32.sub remainingSize bytesCopiados
          if remainingSize > 0 then do
            let (f, r) ← e2fLoadBuffer f r
            ext2FileReadLoop size fuel remainingSize (totalCopiedBytes + bytesCopiados)
              (buf + bytesCopiados) f r u
          else
            ext2FileReadLoop size fuel remainingSize (totalCopiedBytes + bytesCopiados)
              (buf + bytesCopiados) f r u

def ext2FileRead (f : Ext2File) (buf size : Nat) (r : Ram) (u : UserMem) :
    Option (Int × Ext2File × Ram × UserMem) :=
  if size = 0 then some (0, f, r, u)
  else do
    let (f, r) ← if f.bufferEmpty then e2fLoadBuffer f r else some (f, r)
    let size :=
      if Word32.add f.streamPos size > f.fileSize then Word32.sub f.fileSize f.streamPos else size
    ext2FileReadLoop size (size + 2) size 0 buf f r u

def ext2FileSeek (f : Ext2File) (position : Nat) (r : Ram) : Option (Int × Ext2File × Ram) :=
  if position > f.fileSize then some (-einvalid, f, r)
  else if f.streamPos / f.bufLen ≠ position / f.bufLen then do
    let (f, r) ← e2fLoadBuffer { f with streamPos := position } r
    return (position, f, r)
  else
    let f := { f with streamPos := position, bufPos := position % f.bufLen }
    if f.bufferEmpty then do
      let (f, r) ← e2fLoadBuffer f r
      return (position, f, r)
    else some (position, f, r)

end SpuriOS
