import SpuriOS.Ext2.BlockList
import SpuriOS.Ext2.Scans
import SpuriOS.Lib.Stores
import Mathlib.Data.List.Flatten

/-! # The listing of a directory (`read_dir` of `kernel/ext2.c`)

`ext2_open` of a directory fills the page of the open file with a text: every record in the colour
of a directory or of something else. The bytes of the directory go to a temporary page, which holds
four blocks, and the records that are not in use are shown too. A block from 4 GB on is looked for
below 4 GB, where another disk with the same directory has another record. -/

namespace SpuriOS

/-- `EXT2_FT_DIR`. -/
def ext2FtDir : Byte := 2

/-- The string `"\\c0A"`, for a directory. -/
def dirColor : List Byte := [92, 99, 48, 65]

/-- The string `"\\c07"`. -/
def fileColor : List Byte := [92, 99, 48, 55]

def Ram.store (a : Nat) (l : List Byte) (r : Ram) : Ram := { r with mem := Memory.put r.mem a l }

/-- `memcpy` of `n` bytes. -/
def Ram.memcpy (src dst n : Nat) (r : Ram) : Ram :=
  { r with mem := Memory.write r.mem dst n fun i => r.mem (src + i) }

/-- The loop that loads the directory, with `tmp_page_ptr` as it is after it. -/
def readDirLoop (dev : BlockDev) (bufs : Ext2Buffers) (blockSize : Nat) :
    (fuel inodeBlock tmpSize tmpPagePtr : Nat) → Ram → Option (Nat × Ram)
  | 0, _, tmpSize, tmpPagePtr, r => if tmpSize = 0 then some (tmpPagePtr, r) else none
  | fuel + 1, inodeBlock, tmpSize, tmpPagePtr, r =>
    if tmpSize = 0 then some (tmpPagePtr, r)
    else
      let bytesLeidos := if tmpSize < blockSize then tmpSize else blockSize
      readDirLoop dev bufs blockSize fuel (inodeBlock + 1) (tmpSize - bytesLeidos)
        (tmpPagePtr + bytesLeidos)
        (hddEnhancedRead dev (Word32.mul (iBlock bufs inodeBlock r) blockSize) tmpPagePtr
          bytesLeidos r)

/-- What the loop over the records goes on with. -/
structure Listing where
  tmpSize : Nat
  localBufferOffset : Nat
  ram : Ram

/-- A round of it; the record is read where the source reads it. -/
def listRound (bufs : Ext2Buffers) (buffer : Nat) (s : Listing) :
    Option (Loop.Round Listing Listing) :=
  if s.tmpSize < iSize bufs s.ram then
    let isDir := tmpBytes bufs s.ram (s.tmpSize + 7) = ext2FtDir
    let r := s.ram.store (buffer + s.localBufferOffset) (if isDir then dirColor else fileColor)
    let offset := s.localBufferOffset + 4
    let r := r.memcpy (bufs.tmpPage + (s.tmpSize + 8)) (buffer + offset)
      (entryNameLen (tmpBytes bufs r) s.tmpSize)
    let offset := offset + entryNameLen (tmpBytes bufs r) s.tmpSize
    let r := r.store (buffer + offset) [9]
    some (.again
      { tmpSize := Word32.add s.tmpSize (entryRecLen (tmpBytes bufs r) s.tmpSize)
        localBufferOffset := offset + 1
        ram := r })
  else some (.done s)

/-- What `read_dir` returns, and how far it went: in the temporary page and in `buffer`. -/
structure DirText where
  result : Nat
  copied : Nat
  written : Nat
  ram : Ram

def readDir (fs : Ext2) (bufs : Ext2Buffers) (buffer : Nat) (r : Ram) : Option DirText := do
  let blockSize := fs.blockSize r
  let size := iSize bufs r
  let (tmpPagePtr, r) ← readDirLoop fs.dev bufs blockSize size 0 size bufs.tmpPage r
  let s ← Loop.run (listRound bufs buffer) (size + 1) ⟨0, 0, r⟩
  some
    { result := s.localBufferOffset + 2
      copied := tmpPagePtr - bufs.tmpPage
      written := s.localBufferOffset + 2
      ram := s.ram.store (buffer + s.localBufferOffset) [10, 0] }

/-! ## Well-formed directories -/

/-- A record; the inode is 0 when it is not in use. -/
structure DirRecord where
  inode : Nat
  fileType : Byte
  name : List Byte

/-- Between the offsets `off` and `stop`, the bytes `e` are tiled by records. -/
inductive Records (e : Nat → Byte) (stop : Nat) : Nat → List DirRecord → Prop
  | nil : Records e stop stop []
  | cons {off d ds} : entryInode e off = d.inode → e (off + 7) = d.fileType →
    entryNameLen e off = d.name.length → (∀ i < d.name.length, e (off + 8 + i) = d.name.getD i 0) →
    4 ∣ entryRecLen e off → 8 + d.name.length ≤ entryRecLen e off →
    Records e stop (off + entryRecLen e off) ds → Records e stop off (d :: ds)

/-- The bytes of the directory whose inode is at `bufs.miInodo`, by the block map of the format. A
hole is all zeros. -/
def dirByte (dev : BlockDev) (bufs : Ext2Buffers) (r : Ram) (i : Nat) : Byte :=
  let block := dev.block (fun k => iBlock bufs k r) (i / 1024)
  if block = 0 then 0 else dev.byte (block * 1024 + i % 1024)

/-- The inode at `bufs.miInodo` is a directory of blocks of 1024 bytes, and `blocks` are their
records. -/
structure DirOk (fs : Ext2) (bufs : Ext2Buffers) (r : Ram) (blocks : List (List DirRecord)) :
    Prop where
  devSize : fs.dev.size = 512
  blockSize : fs.blockSize r = 1024
  size : iSize bufs r = 1024 * blocks.length
  records : ∀ k (h : k < blocks.length),
    Records (dirByte fs.dev bufs r) (1024 * (k + 1)) (1024 * k) blocks[k]

/-- The first `n` blocks start below 4 GB. -/
def DirNear (bufs : Ext2Buffers) (r : Ram) (n : Nat) : Prop := ∀ k < n, iBlock bufs k r < 2 ^ 22

/-- Where the code looks for a block from 4 GB on, there is no other one of the first `n`. -/
def DirApart (bufs : Ext2Buffers) (r : Ram) (n : Nat) : Prop :=
  ∀ j < n, ∀ k < n, 2 ^ 22 ≤ iBlock bufs k r → iBlock bufs j r ≠ iBlock bufs k r % 2 ^ 22

/-- The page of the open file, apart from the temporary page and the inode. -/
structure DirPages (bufs : Ext2Buffers) (buffer : Nat) : Prop where
  tmpPage : buffer + pageSize ≤ bufs.tmpPage ∨ bufs.tmpPage + pageSize ≤ buffer
  miInodo : buffer + pageSize ≤ bufs.miInodo ∨ bufs.miInodo + 128 ≤ buffer

def DirRecord.shown (d : DirRecord) : List Byte :=
  (if d.fileType = ext2FtDir then dirColor else fileColor) ++ d.name ++ [9]

/-- The text for some records, without its end. -/
def dirLines (ds : List DirRecord) : List Byte := ds.flatMap DirRecord.shown

/-- The text for the records in use. -/
def dirText (ds : List DirRecord) : List Byte :=
  dirLines (ds.filter fun d => d.inode ≠ 0) ++ [10, 0]

/-- The listing of a directory is exact, and both pages are enough for it. -/
structure DirListed (fs : Ext2) (bufs : Ext2Buffers) (buffer : Nat) (r : Ram)
    (ds : List DirRecord) (t : DirText) : Prop where
  returns : readDir fs bufs buffer r = some t
  result : t.result = (dirText ds).length
  text : Circular.slice t.ram.mem buffer t.result = dirText ds
  copied : t.copied ≤ pageSize
  written : t.written ≤ pageSize
  outside : ∀ a, ¬(bufs.tmpPage ≤ a ∧ a < bufs.tmpPage + pageSize) →
    ¬(buffer ≤ a ∧ a < buffer + pageSize) → t.ram.mem a = r.mem a

@[simp] theorem dirLines_nil : dirLines [] = [] := rfl

@[simp] theorem dirLines_cons (d : DirRecord) (ds : List DirRecord) :
    dirLines (d :: ds) = d.shown ++ dirLines ds := rfl

/-! ## Tilings -/

section
variable {e e' : Nat → Byte} {stop mid off size : Nat} {ds ds' : List DirRecord} {d : DirRecord}

theorem Records.le (h : Records e stop off ds) : off ≤ stop := by
  induction h with
  | nil => exact Nat.le_refl _
  | cons => omega

theorem Records.eq_of_nil (h : Records e stop off []) : off = stop := by
  cases h
  rfl

theorem Records.append (h : Records e mid off ds) (h' : Records e stop mid ds') :
    Records e stop off (ds ++ ds') := by
  induction h with
  | nil => exact h'
  | cons hinode htype hlen hname hdvd hrec _ ih => exact .cons hinode htype hlen hname hdvd hrec ih

theorem Records.congr (h : Records e stop off ds) (he : ∀ i, off ≤ i → i < stop → e' i = e i) :
    Records e' stop off ds := by
  induction h with
  | nil => exact .nil
  | @cons off d ds hinode htype hlen hname hdvd hrec hrest ih =>
    have hle := hrest.le
    have hinode' : entryInode e' off = entryInode e off :=
      Memory.le_congr fun i hi => he _ (by omega) (by omega)
    have hrec' : entryRecLen e' off = entryRecLen e off :=
      Memory.le_congr fun i hi => he _ (by omega) (by omega)
    have hlen' : entryNameLen e' off = entryNameLen e off := by
      rw [entryNameLen, entryNameLen, he _ (by omega) (by omega)]
    refine .cons (hinode'.trans hinode) ((he _ (by omega) (by omega)).trans htype)
      (hlen'.trans hlen) (fun i hi => (he _ (by omega) (by omega)).trans (hname i hi))
      (hrec' ▸ hdvd) (hrec' ▸ hrec) ?_
    rw [hrec']
    exact ih fun i hlo => he i (by omega)

/-- The records of the blocks are the records of the directory. -/
theorem Records.flatten {blocks : List (List DirRecord)} (lo : Nat)
    (h : ∀ k (h : k < blocks.length), Records e (1024 * (lo + k + 1)) (1024 * (lo + k)) blocks[k]) :
    Records e (1024 * (lo + blocks.length)) (1024 * lo) blocks.flatten := by
  induction blocks generalizing lo with
  | nil => exact .nil
  | cons b blocks ih =>
    rw [List.flatten_cons, List.length_cons, Nat.add_comm blocks.length, ← Nat.add_assoc]
    refine (h 0 (Nat.succ_pos _)).append (ih (lo + 1) fun k hk => ?_)
    have := h (k + 1) (Nat.succ_lt_succ hk)
    rwa [← Nat.add_assoc, Nat.add_right_comm lo k 1] at this

/-- Every record is longer than what is shown of it. -/
theorem Records.length_lines (h : Records e stop off ds) :
    off + (dirLines ds).length + 3 * ds.length ≤ stop := by
  induction h with
  | nil => exact Nat.le_refl _
  | @cons off d ds _ _ _ _ _ hrec _ ih =>
    have hshown : d.shown.length = d.name.length + 5 := by
      rw [DirRecord.shown, List.length_append, List.length_append]
      split <;> simp [dirColor, fileColor] <;> omega
    rw [dirLines_cons, List.length_append, List.length_cons, hshown]
    omega

theorem shown_pos (d : DirRecord) : 0 < d.shown.length := by
  rw [DirRecord.shown, List.length_append]
  exact Nat.succ_pos _

/-- The text without the unused records is shorter, unless there are none. -/
theorem length_lines_filter : (dirLines (ds.filter fun d => d.inode ≠ 0)).length =
    (dirLines ds).length ↔ ∀ d ∈ ds, d.inode ≠ 0 := by
  have hle : ∀ ds : List DirRecord,
      (dirLines (ds.filter fun d => d.inode ≠ 0)).length ≤ (dirLines ds).length := fun ds =>
    (List.filter_sublist.flatMap _).length_le
  induction ds with
  | nil => exact iff_of_true rfl fun d hd => nomatch hd
  | cons d ds ih =>
    have := hle ds
    have := shown_pos d
    by_cases hd : d.inode = 0
    · rw [List.filter_cons_of_neg (by simpa using hd)]
      refine iff_of_false (fun heq => ?_) fun hall => hall d List.mem_cons_self hd
      rw [dirLines_cons, List.length_append] at heq
      omega
    · rw [List.filter_cons_of_pos (by simpa using hd), List.forall_mem_cons, dirLines_cons,
        dirLines_cons, List.length_append, List.length_append, Nat.add_left_cancel_iff]
      exact ih.trans (and_iff_right hd).symm

end

/-! ## The two loops -/

section
variable {fs : Ext2} {bufs : Ext2Buffers} {buffer size off : Nat} {r r₀ : Ram}
  {e : Nat → Byte} {ds : List DirRecord} {d : DirRecord} {out : List Byte}

/-- The first loop is the one of `str_get_inode`, and ends behind the last byte it puts. -/
theorem readDirLoop_eq {dev : BlockDev} {bs fuel b size ptr : Nat} :
    readDirLoop dev bufs bs fuel b size ptr r =
      (dirLoadLoop dev bufs bs fuel b size ptr r).map fun r => (ptr + size, r) := by
  induction fuel generalizing b size ptr r with
  | zero =>
    rw [readDirLoop, dirLoadLoop]
    split
    next h => rw [h]; rfl
    · rfl
  | succ fuel ih =>
    rw [readDirLoop, dirLoadLoop]
    split
    next h => rw [h]; rfl
    · dsimp only
      rw [ih]
      refine congrArg₂ Option.map (funext fun r => congrArg (·, r) ?_) rfl
      split <;> omega

/-- Only text was stored since the temporary page was loaded. -/
structure Shows (bufs : Ext2Buffers) (buffer : Nat) (r₀ : Ram) (out : List Byte) (r : Ram) :
    Prop where
  mem : r.mem = Memory.put r₀.mem buffer out
  length : out.length ≤ pageSize

theorem Shows.tmpBytes (h : Shows bufs buffer r₀ out r) (hp : DirPages bufs buffer) {i : Nat}
    (hi : i < pageSize) : tmpBytes bufs r i = tmpBytes bufs r₀ i := by
  have := hp.tmpPage
  have := h.length
  rw [SpuriOS.tmpBytes, SpuriOS.tmpBytes, h.mem, Memory.put_of_not (by omega)]

theorem Shows.iSize (h : Shows bufs buffer r₀ out r) (hp : DirPages bufs buffer) :
    iSize bufs r = iSize bufs r₀ := by
  have := hp.miInodo
  have := h.length
  refine Memory.le_congr fun i hi => ?_
  rw [h.mem, Memory.put_of_not (by omega)]

theorem Shows.store (h : Shows bufs buffer r₀ out r) {l : List Byte}
    (hl : (out ++ l).length ≤ pageSize) :
    Shows bufs buffer r₀ (out ++ l) (r.store (buffer + out.length) l) where
  mem := by
    rw [Ram.store, h.mem]
    exact Memory.put_append
  length := hl

/-- The bytes of the page are what is copied. -/
theorem Shows.memcpy (h : Shows bufs buffer r₀ out r) (hp : DirPages bufs buffer) {l : List Byte}
    {a : Nat} (ha : a + l.length ≤ pageSize)
    (hname : ∀ i < l.length, SpuriOS.tmpBytes bufs r₀ (a + i) = l.getD i 0)
    (hl : (out ++ l).length ≤ pageSize) :
    Shows bufs buffer r₀ (out ++ l)
      (r.memcpy (bufs.tmpPage + a) (buffer + out.length) l.length) where
  mem := by
    rw [Ram.memcpy, Memory.write_eq_put (l := l) rfl fun i hi => ?_]
    · dsimp only
      rw [h.mem]
      exact Memory.put_append
    · have := h.tmpBytes hp (i := a + i) (by omega)
      rw [hname i hi, SpuriOS.tmpBytes, ← Nat.add_assoc] at this
      exact this
  length := hl

theorem Shows.nameLen (h : Shows bufs buffer r₀ out r) (hp : DirPages bufs buffer) (off : Nat)
    (hoff : off + 6 < pageSize) :
    entryNameLen (SpuriOS.tmpBytes bufs r) off = entryNameLen (SpuriOS.tmpBytes bufs r₀) off := by
  rw [entryNameLen, entryNameLen, h.tmpBytes hp hoff]

theorem Shows.recLen (h : Shows bufs buffer r₀ out r) (hp : DirPages bufs buffer) (off : Nat)
    (hoff : off + 6 < pageSize) :
    entryRecLen (SpuriOS.tmpBytes bufs r) off = entryRecLen (SpuriOS.tmpBytes bufs r₀) off :=
  Memory.le_congr fun i hi => h.tmpBytes hp (by omega)

/-- The colour of a record. -/
def DirRecord.color (d : DirRecord) : List Byte :=
  if d.fileType = ext2FtDir then dirColor else fileColor

theorem DirRecord.length_color (d : DirRecord) : d.color.length = 4 := by
  rw [color]
  split <;> rfl

/-- A round shows one record. -/
theorem listRound_shows (hp : DirPages bufs buffer) (h : Shows bufs buffer r₀ out r)
    (hsize : iSize bufs r₀ = size) (hpage : size ≤ pageSize)
    (hr : Records (tmpBytes bufs r₀) size off (d :: ds)) (hlen : out.length ≤ off) :
    ∃ r', listRound bufs buffer ⟨off, out.length, r⟩ = some (.again
        ⟨off + entryRecLen (tmpBytes bufs r₀) off, (out ++ d.shown).length, r'⟩) ∧
      Shows bufs buffer r₀ (out ++ d.shown) r' := by
  cases hr with
  | cons hinode htype hnameLen hname hdvd hrec hrest =>
    have hle := hrest.le
    have hps := pageSize_eq
    have hcolor := d.length_color
    have hrecLt : entryRecLen (tmpBytes bufs r₀) off < 2 ^ 16 := entryRecLen_lt
    have h₁ := h.store (l := d.color) (by rw [List.length_append]; omega)
    have hl₁ : (out ++ d.color).length = out.length + 4 := by rw [List.length_append, hcolor]
    have hn₁ := (h₁.nameLen hp off (by omega)).trans hnameLen
    have h₂ := h₁.memcpy hp (l := d.name) (a := off + 8) (by omega)
      (fun i hi => hname i hi) (by rw [List.length_append, hl₁]; omega)
    have hl₂ : (out ++ d.color ++ d.name).length = out.length + 4 + d.name.length := by
      rw [List.length_append, hl₁]
    have hn₂ := (h₂.nameLen hp off (by omega)).trans hnameLen
    have h₃ := h₂.store (l := [9]) (by rw [List.length_append, hl₂, List.length_singleton]; omega)
    have hr₃ := h₃.recLen hp off (by omega)
    have hout : out ++ d.color ++ d.name ++ [9] = out ++ d.shown := by
      rw [DirRecord.shown, List.append_assoc, List.append_assoc, List.append_assoc]
      rfl
    rw [hl₁] at h₂ hn₂
    rw [hl₁, hl₂] at h₃ hr₃
    rw [hout] at h₃
    refine ⟨_, ?_, h₃⟩
    rw [listRound, if_pos (by dsimp only; rw [h.iSize hp, hsize]; omega)]
    dsimp only
    rw [h.tmpBytes hp (by omega), htype, ← DirRecord.color, hn₁, hn₂, hr₃,
      Word32.add_of_lt (by omega), ← hout, List.length_append, hl₂]
    rfl

/-- The second loop shows the records in order. -/
theorem listLoop_shows (hp : DirPages bufs buffer) (hsize : iSize bufs r₀ = size)
    (hpage : size ≤ pageSize) {n : Nat} (h : Shows bufs buffer r₀ out r)
    (hr : Records (tmpBytes bufs r₀) size off ds) (hlen : out.length ≤ off)
    (hn : size < off + n) : ∃ r', Loop.run (listRound bufs buffer) n ⟨off, out.length, r⟩ =
        some ⟨size, (out ++ dirLines ds).length, r'⟩ ∧
      Shows bufs buffer r₀ (out ++ dirLines ds) r' := by
  induction n generalizing off out r ds with
  | zero =>
    have := hr.le
    omega
  | succ n ih =>
    cases ds with
    | nil =>
      cases hr
      refine ⟨r, ?_, by rwa [dirLines_nil, List.append_nil]⟩
      rw [Loop.run_done, dirLines_nil, List.append_nil]
      rw [listRound, if_neg (by dsimp only; rw [h.iSize hp, hsize]; omega)]
    | cons d ds =>
      obtain ⟨r₁, hround, h₁⟩ := listRound_shows hp h hsize hpage hr hlen
      have hlines := hr.length_lines
      rw [dirLines_cons, List.length_append, List.length_cons] at hlines
      cases hr with
      | cons hinode htype hnameLen hname hdvd hrec hrest =>
        have hshown : d.shown.length = d.name.length + 5 := by
          rw [DirRecord.shown, ← DirRecord.color, List.length_append, List.length_append,
            d.length_color, List.length_singleton]
          omega
        obtain ⟨r', hrun, h'⟩ := ih h₁ hrest (by rw [List.length_append]; omega) (by omega)
        rw [List.append_assoc, ← dirLines_cons] at hrun h'
        exact ⟨r', (Loop.run_again hround).trans hrun, h'⟩

end

/-! ## The listing -/

section
variable {fs : Ext2} {bufs : Ext2Buffers} {buffer : Nat} {r : Ram}
  {blocks : List (List DirRecord)} {t : DirText}

theorem DirOk.records_all (h : DirOk fs bufs r blocks) :
    Records (dirByte fs.dev bufs r) (1024 * blocks.length) 0 blocks.flatten := by
  have := Records.flatten 0 fun k (hk : k < blocks.length) => by
    rw [Nat.zero_add]
    exact h.records k hk
  rwa [Nat.mul_zero, Nat.zero_add] at this

theorem blockMap_direct {pointer : Nat → Nat → Nat} {blocks : Nat → Nat} {k : Nat} (hk : k < 12) :
    blockMap pointer blocks k = blocks k := if_pos hk

/-- A hole has no records. -/
theorem DirOk.block_ne (h : DirOk fs bufs r blocks) {k : Nat} (hk : k < blocks.length)
    (hdirect : k < 12) : iBlock bufs k r ≠ 0 := by
  intro h0
  have hzero : ∀ i, 1024 * k ≤ i → i < 1024 * (k + 1) → dirByte fs.dev bufs r i = 0 := by
    intro i hlo hhi
    rw [dirByte, BlockDev.block, show i / 1024 = k by omega, blockMap_direct hdirect]
    exact if_pos h0
  have hrecords := h.records k hk
  generalize blocks[k] = ds at hrecords
  generalize hstop : 1024 * (k + 1) = stop at hrecords
  cases ds with
  | nil =>
    have := hrecords.eq_of_nil
    omega
  | cons d ds =>
    cases hrecords with
    | cons _ _ _ _ _ hrec _ =>
      have hlen : entryRecLen (dirByte fs.dev bufs r) (1024 * k) = 0 := by
        rw [entryRecLen, Memory.le, Memory.le, hzero _ (by omega) (by omega),
          hzero _ (by omega) (by omega)]
        rfl
      omega

/-- The blocks of a page are direct ones, and they are found where they are. -/
theorem DirOk.inodeByte_eq (h : DirOk fs bufs r blocks) {i : Nat} (hi : i < 1024 * blocks.length)
    (hpage : i < pageSize) (hnear : iBlock bufs (i / 1024) r < 2 ^ 22) :
    inodeByte fs.dev bufs 1024 r i = dirByte fs.dev bufs r i := by
  have hdirect : i / 1024 < 12 := by
    rw [pageSize_eq] at hpage
    omega
  have hne := h.block_ne (k := i / 1024) (by omega) hdirect
  rw [inodeByte, dirByte, BlockDev.block, blockMap_direct hdirect, Word32.mul,
    Word32.wrap_of_lt (by omega)]
  exact (if_neg hne).symm

/-- The records that the code comes to in at most four blocks are shown, in use or not. -/
theorem readDir_shows (hdev : fs.dev.size = 512) (hbs : fs.blockSize r = 1024)
    (hsize : iSize bufs r = 1024 * blocks.length) (hp : DirPages bufs buffer)
    (hrecords : Records (inodeByte fs.dev bufs 1024 r) (1024 * blocks.length) 0 blocks.flatten)
    (hfour : blocks.length ≤ 4) : ∃ t, readDir fs bufs buffer r = some t ∧
      t.result = (dirLines blocks.flatten ++ [10, 0]).length ∧
      Circular.slice t.ram.mem buffer t.result = dirLines blocks.flatten ++ [10, 0] ∧
      t.copied ≤ pageSize ∧ t.written ≤ pageSize ∧
      ∀ a, ¬(bufs.tmpPage ≤ a ∧ a < bufs.tmpPage + pageSize) →
        ¬(buffer ≤ a ∧ a < buffer + pageSize) → t.ram.mem a = r.mem a := by
  have hps := pageSize_eq
  have hlt := bufs.tmpPage_lt
  have hapart := bufs.tmpPage_miInodo
  obtain ⟨r₀, hload, hmem⟩ := @dirLoadLoop_spec fs.dev bufs 1024 r hdev (Nat.le_refl _)
    (iSize bufs r) 0 (iSize bufs r) bufs.tmpPage (Nat.le_refl _) (fun _ => by omega)
    (Nat.le_refl _) (by omega)
  have hbyte : ∀ i < 1024 * blocks.length,
      tmpBytes bufs r₀ i = inodeByte fs.dev bufs 1024 r i := fun i hi => by
    rw [tmpBytes, hmem, Memory.write_add (by omega), Nat.zero_mul, Nat.zero_add]
  have hrecords : Records (tmpBytes bufs r₀) (1024 * blocks.length) 0 blocks.flatten :=
    hrecords.congr fun i _ => hbyte i
  have hsize₀ : iSize bufs r₀ = 1024 * blocks.length := by
    rw [← hsize]
    refine Memory.le_congr fun i hi => ?_
    rw [hmem, Memory.write_of_not (by omega)]
  have hlines := hrecords.length_lines
  have hnone : Shows bufs buffer r₀ [] r₀ := ⟨Memory.put_nil.symm, Nat.zero_le _⟩
  obtain ⟨r', hrun, hshows⟩ := listLoop_shows hp hsize₀ (by omega) hnone hrecords (Nat.zero_le _)
    (show 1024 * blocks.length < 0 + (iSize bufs r + 1) by omega)
  rw [List.nil_append, List.length_nil] at hrun
  rw [List.nil_append] at hshows
  have htext : (dirLines blocks.flatten ++ [10, 0]).length = (dirLines blocks.flatten).length + 2 :=
    List.length_append
  have hlen : (dirLines blocks.flatten ++ [10, 0]).length ≤ pageSize := by
    rw [htext]
    cases hds : blocks.flatten with
    | nil =>
      rw [dirLines_nil, List.length_nil]
      omega
    | cons d ds =>
      rw [hds, List.length_cons] at hlines
      omega
  have hend := hshows.store (l := [10, 0]) hlen
  have hret : SpuriOS.readDir fs bufs buffer r = some
      { result := (dirLines blocks.flatten).length + 2
        copied := bufs.tmpPage + iSize bufs r - bufs.tmpPage
        written := (dirLines blocks.flatten).length + 2
        ram := r'.store (buffer + (dirLines blocks.flatten).length) [10, 0] } := by
    rw [SpuriOS.readDir, hbs]
    dsimp only
    rw [readDirLoop_eq, hload, Option.map_some, Option.bind_eq_bind, Option.bind_some]
    dsimp only
    rw [hrun, Option.bind_eq_bind, Option.bind_some]
  refine ⟨_, hret, htext.symm, ?_, ?_, ?_, fun a htmp hbuf => ?_⟩
  · rw [← htext, hend.mem]
    exact Memory.slice_put
  · dsimp only
    omega
  · dsimp only
    omega
  · dsimp only
    rw [hend.mem, Memory.put_of_not (by omega), hmem, Memory.write_of_not (by omega)]

/-- A directory of at most four blocks below 4 GB is shown with all its records. -/
theorem DirOk.readDir (h : DirOk fs bufs r blocks) (hp : DirPages bufs buffer)
    (hfour : blocks.length ≤ 4) (hnear : DirNear bufs r blocks.length) :
    ∃ t, readDir fs bufs buffer r = some t ∧
      t.result = (dirLines blocks.flatten ++ [10, 0]).length ∧
      Circular.slice t.ram.mem buffer t.result = dirLines blocks.flatten ++ [10, 0] ∧
      t.copied ≤ pageSize ∧ t.written ≤ pageSize ∧
      ∀ a, ¬(bufs.tmpPage ≤ a ∧ a < bufs.tmpPage + pageSize) →
        ¬(buffer ≤ a ∧ a < buffer + pageSize) → t.ram.mem a = r.mem a :=
  readDir_shows h.devSize h.blockSize h.size hp (h.records_all.congr fun i _ hi =>
    h.inodeByte_eq hi (by rw [pageSize_eq]; omega) (hnear _ (by omega))) hfour

/-- What is copied is the whole directory. -/
theorem DirOk.copied (h : DirOk fs bufs r blocks) (ht : SpuriOS.readDir fs bufs buffer r = some t) :
    t.copied = 1024 * blocks.length := by
  rw [SpuriOS.readDir] at ht
  dsimp only at ht
  rw [readDirLoop_eq, Option.bind_eq_bind, Option.bind_eq_some_iff] at ht
  obtain ⟨x, hx, ht⟩ := ht
  obtain ⟨r', -, rfl⟩ := Option.map_eq_some_iff.1 hx
  rw [Option.bind_eq_bind, Option.bind_eq_some_iff] at ht
  obtain ⟨s, -, ht⟩ := ht
  cases ht
  dsimp only
  rw [Nat.add_sub_cancel_left, h.size]

end

/-! ## Blocks from 4 GB on -/

/-- The bytes of a block that is one record, of a regular file with the name `c`. -/
def recordByte (c : Byte) (i : Nat) : Byte := [12, 0, 0, 0, 0, 4, 1, 1, c].getD i 0

def oneRecord (c : Byte) : DirRecord := ⟨12, 1, [c]⟩

/-- The disk with such a record in each block of `s`. -/
def BlockDev.decoy (dev : BlockDev) (s : Nat → Prop) [DecidablePred s] (c : Byte) : BlockDev where
  size := dev.size
  sector pos i :=
    let a := pos * dev.size + i
    if s (a / 1024) then recordByte c (a % 1024) else dev.byte a

section
variable {e : Nat → Byte} {off : Nat} {c c' : Byte} {blocks : List (List DirRecord)}

theorem records_one (h : ∀ i < 1024, e (off + i) = recordByte c i) :
    Records e (off + 1024) off [oneRecord c] := by
  have hrec : entryRecLen e off = 1024 := by
    have hle : entryRecLen e off = Memory.le (recordByte c) 4 2 :=
      Memory.le_congr fun i hi => by rw [Nat.add_assoc, h _ (by omega)]
    exact hle.trans rfl
  have hend : Records e (off + 1024) (off + entryRecLen e off) [] := by
    rw [hrec]
    exact .nil
  refine .cons ?_ (h 7 (by decide)) ?_ (fun i hi => ?_) (by rw [hrec]; decide)
    (by rw [hrec]; exact (by decide : 8 + 1 ≤ 1024)) hend
  · have hle : entryInode e off = Memory.le (recordByte c) 0 4 :=
      Memory.le_congr fun i hi => by rw [h _ (by omega), Nat.zero_add]
    exact hle.trans rfl
  · rw [entryNameLen, h 6 (by decide)]
    rfl
  · obtain rfl : i = 0 := Nat.lt_one_iff.1 hi
    exact h 8 (by decide)

theorem dirLines_append (ds ds' : List DirRecord) :
    dirLines (ds ++ ds') = dirLines ds ++ dirLines ds' := List.flatMap_append

/-- The text tells which record is in some of the blocks. -/
theorem dirLines_decoy_inj {far : Nat → Prop} [DecidablePred far]
    (hfar : ∃ k < blocks.length, far k)
    (h : dirLines (blocks.mapIdx fun k b => if far k then [oneRecord c] else b).flatten =
      dirLines (blocks.mapIdx fun k b => if far k then [oneRecord c'] else b).flatten) : c = c' := by
  induction blocks generalizing far with
  | nil =>
    obtain ⟨k, hk, -⟩ := hfar
    exact absurd hk (Nat.not_lt_zero k)
  | cons b blocks ih =>
    rw [List.mapIdx_cons, List.mapIdx_cons, List.flatten_cons, List.flatten_cons, dirLines_append,
      dirLines_append] at h
    by_cases h0 : far 0
    · rw [if_pos h0, if_pos h0] at h
      exact Option.some.inj (congrArg (·[4]?) h)
    · rw [if_neg h0, if_neg h0] at h
      obtain ⟨k, hk, hfar⟩ := hfar
      cases k with
      | zero => exact absurd hfar h0
      | succ k => exact ih ⟨k, Nat.lt_of_succ_lt_succ hk, hfar⟩ (List.append_cancel_left h)

end

section
variable {fs : Ext2} {bufs : Ext2Buffers} {buffer : Nat} {r : Ram}
  {blocks : List (List DirRecord)}

/-- Where the code looks for the blocks from 4 GB on. -/
def FarTwin (bufs : Ext2Buffers) (r : Ram) (n x : Nat) : Prop :=
  ∃ k < n, 2 ^ 22 ≤ iBlock bufs k r ∧ x = iBlock bufs k r % 2 ^ 22

instance {n : Nat} : DecidablePred (FarTwin bufs r n) := fun _ =>
  inferInstanceAs (Decidable (∃ _ < _, _ ∧ _))

theorem byte_decoy {dev : BlockDev} {s : Nat → Prop} [DecidablePred s] {c : Byte} {x i : Nat}
    (hi : i < 1024) : (dev.decoy s c).byte (x * 1024 + i) =
      if s x then recordByte c i else dev.byte (x * 1024 + i) := by
  rw [BlockDev.byte, BlockDev.decoy]
  dsimp only
  rw [Nat.div_add_mod', show (x * 1024 + i) / 1024 = x by omega,
    show (x * 1024 + i) % 1024 = i by omega]

/-- The disk with other records there has the same directory. -/
theorem DirOk.decoy (h : DirOk fs bufs r blocks) (hfour : blocks.length ≤ 4)
    (hapart : DirApart bufs r blocks.length) (c : Byte) :
    DirOk { fs with dev := fs.dev.decoy (FarTwin bufs r blocks.length) c } bufs r blocks where
  devSize := h.devSize
  blockSize := h.blockSize
  size := h.size
  records k hk := (h.records k hk).congr fun i _ hi => by
    have hlt : i / 1024 < blocks.length := by omega
    rw [dirByte, dirByte, BlockDev.block, BlockDev.block, blockMap_direct (by omega),
      blockMap_direct (by omega)]
    refine if_congr Iff.rfl rfl ((byte_decoy (Nat.mod_lt _ (by decide))).trans (if_neg ?_))
    rintro ⟨j, hj, hfar, heq⟩
    exact hapart _ hlt j hj hfar heq

/-- What the code comes to on it. -/
theorem DirOk.inodeByte_decoy (h : DirOk fs bufs r blocks) (hfour : blocks.length ≤ 4)
    (hapart : DirApart bufs r blocks.length) (c : Byte) :
    Records (inodeByte (fs.dev.decoy (FarTwin bufs r blocks.length) c) bufs 1024 r)
      (1024 * blocks.length) 0
      (blocks.mapIdx fun k b => if 2 ^ 22 ≤ iBlock bufs k r then [oneRecord c] else b).flatten := by
  have hok := h.decoy hfour hapart c
  have hps := pageSize_eq
  have := @Records.flatten (inodeByte (fs.dev.decoy (FarTwin bufs r blocks.length) c) bufs 1024 r)
    (blocks.mapIdx fun k b => if 2 ^ 22 ≤ iBlock bufs k r then [oneRecord c] else b) 0
    fun k hk => by
      rw [List.length_mapIdx] at hk
      rw [List.getElem_mapIdx, Nat.zero_add]
      split
      next hfar =>
        refine records_one fun i hi => ?_
        change inodeByte _ _ _ _ (1024 * k + i) = _
        have hx : Word32.mul (iBlock bufs k r) 1024 = iBlock bufs k r % 2 ^ 22 * 1024 := by
          rw [Word32.mul, Word32.wrap]
          omega
        rw [inodeByte, show (1024 * k + i) / 1024 = k by omega,
          show (1024 * k + i) % 1024 = i by omega, hx, byte_decoy hi]
        exact if_pos ⟨k, hk, hfar, rfl⟩
      next hnear =>
        refine (hok.records k hk).congr fun i hlo hhi => hok.inodeByte_eq ?_ ?_ ?_
        · omega
        · omega
        · rw [show i / 1024 = k by omega]
          exact Nat.lt_of_not_le hnear
  rwa [List.length_mapIdx, Nat.mul_zero, Nat.zero_add] at this

/-! ## When a listing is exact -/

theorem DirOk.length_le (h : DirOk fs bufs r blocks) {t : DirText}
    (ht : DirListed fs bufs buffer r blocks.flatten t) : blocks.length ≤ 4 := by
  have hcopied := h.copied ht.returns
  have hle := ht.copied
  rw [pageSize_eq] at hle
  omega

theorem DirOk.listed_iff (h : DirOk fs bufs r blocks) (hp : DirPages bufs buffer)
    (hnear : DirNear bufs r blocks.length) :
    (∃ t, DirListed fs bufs buffer r blocks.flatten t) ↔
      blocks.length ≤ 4 ∧ ∀ d ∈ blocks.flatten, d.inode ≠ 0 := by
  constructor
  · rintro ⟨t, ht⟩
    have hfour := h.length_le ht
    obtain ⟨t', ht', hresult, -⟩ := h.readDir hp hfour hnear
    obtain rfl := Option.some.inj (ht.returns.symm.trans ht')
    rw [ht.result, dirText, List.length_append, List.length_append] at hresult
    exact ⟨hfour, length_lines_filter.1 (Nat.add_right_cancel hresult)⟩
  · rintro ⟨hfour, hused⟩
    obtain ⟨t, ht, hresult, htext, hcopied, hwritten, houtside⟩ := h.readDir hp hfour hnear
    have hall : dirText blocks.flatten = dirLines blocks.flatten ++ [10, 0] := by
      rw [dirText, List.filter_eq_self.2 fun d hd => by simpa using hused d hd]
    exact ⟨t, ht, hall ▸ hresult, hall ▸ htext, hcopied, hwritten, houtside⟩

/-- A block from 4 GB on is shown with the record that the disk has where the code looks for it. -/
theorem DirOk.near_of_listed (h : DirOk fs bufs r blocks) (hp : DirPages bufs buffer)
    (hapart : DirApart bufs r blocks.length)
    (hall : ∀ dev, DirOk { fs with dev } bufs r blocks →
      ∃ t, DirListed { fs with dev } bufs buffer r blocks.flatten t) :
    DirNear bufs r blocks.length := by
  obtain ⟨t, ht⟩ := hall fs.dev h
  have hfour := h.length_le ht
  intro k hk
  refine Nat.lt_of_not_le fun hfar => ?_
  have htext : ∀ c, dirText blocks.flatten = dirLines (blocks.mapIdx fun k b =>
      if 2 ^ 22 ≤ iBlock bufs k r then [oneRecord c] else b).flatten ++ [10, 0] := by
    intro c
    have hok := h.decoy hfour hapart c
    obtain ⟨t, ht⟩ := hall _ hok
    obtain ⟨t', ht', -, htext, -⟩ := @readDir_shows _ bufs buffer r (blocks.mapIdx fun k b =>
      if 2 ^ 22 ≤ iBlock bufs k r then [oneRecord c] else b) hok.devSize hok.blockSize
      (by rw [List.length_mapIdx, h.size]) hp
      (by rw [List.length_mapIdx]; exact h.inodeByte_decoy hfour hapart c)
      (by rw [List.length_mapIdx]; exact hfour)
    obtain rfl := Option.some.inj (ht.returns.symm.trans ht')
    exact ht.text.symm.trans htext
  have hab := List.append_cancel_right ((htext 97).symm.trans (htext 98))
  exact absurd (dirLines_decoy_inj ⟨k, hk, hfar⟩ hab) (by decide)

end

/-- The listing of a directory below 4 GB is exact and inside its page just when the directory has
at most four blocks and all its records are in use. It is so on every disk with the directory just
if it is also below 4 GB. -/
theorem readDir_listed_iff {fs : Ext2} {bufs : Ext2Buffers} {buffer : Nat} {r : Ram}
    {blocks : List (List DirRecord)} (h : DirOk fs bufs r blocks) (hp : DirPages bufs buffer) :
    (DirNear bufs r blocks.length →
      ((∃ t, DirListed fs bufs buffer r blocks.flatten t) ↔
        blocks.length ≤ 4 ∧ ∀ d ∈ blocks.flatten, d.inode ≠ 0)) ∧
    (DirApart bufs r blocks.length →
      ((∀ dev, DirOk { fs with dev } bufs r blocks →
          ∃ t, DirListed { fs with dev } bufs buffer r blocks.flatten t) ↔
        blocks.length ≤ 4 ∧ (∀ d ∈ blocks.flatten, d.inode ≠ 0) ∧
          DirNear bufs r blocks.length)) := by
  refine ⟨h.listed_iff hp, fun hapart => ⟨fun hall => ?_, ?_⟩⟩
  · have hnear := h.near_of_listed hp hapart hall
    obtain ⟨hfour, hused⟩ := (h.listed_iff hp hnear).1 (hall fs.dev h)
    exact ⟨hfour, hused, hnear⟩
  · rintro ⟨hfour, hused, hnear⟩ dev hdev
    exact (hdev.listed_iff hp hnear).2 ⟨hfour, hused⟩

/-- A disk whose blocks of 1024 bytes all are one record of a regular file `f`. -/
def recordDisk : BlockDev where
  size := 512
  sector pos i := recordByte 102 ((pos * 512 + i) % 1024)

/-- The inode of a directory of up to eight of its blocks. -/
def recordRam (blocks : Nat) : Ram where
  mem a := if a = 0x8005 then UInt8.ofNat (4 * blocks)
    else if 0x8028 ≤ a ∧ a < 0x8048 ∧ a % 4 = 0 then 10 + UInt8.ofNat ((a - 0x8028) / 4) else 0
  hddEnhancedBuffer _ := 0

theorem recordRam_iBlock : ∀ n ≤ 5, ∀ k < 5, iBlock twoPageBuffers k (recordRam n) = 10 + k := by
  decide +kernel

theorem recordRam_dirOk (n : Nat) (hn : n ≤ 5) :
    DirOk ⟨true, recordDisk, 0x1000, 0x1400⟩ twoPageBuffers (recordRam n)
      (List.replicate n [oneRecord 102]) where
  devSize := rfl
  blockSize := rfl
  size := by
    rw [List.length_replicate]
    revert n
    decide
  records k hk := by
    rw [List.length_replicate] at hk
    rw [List.getElem_replicate]
    refine records_one fun i hi => ?_
    change dirByte _ _ _ (1024 * k + i) = _
    have hbyte : ∀ a, recordDisk.byte a = recordByte 102 (a % 1024) := fun a => by
      rw [BlockDev.byte, recordDisk]
      dsimp only
      rw [Nat.div_add_mod']
    rw [dirByte, BlockDev.block, show (1024 * k + i) / 1024 = k by omega,
      blockMap_direct (by omega), recordRam_iBlock n hn k (by omega)]
    refine (if_neg (by omega)).trans ((hbyte _).trans (congrArg _ ?_))
    omega

theorem recordRam_pages : DirPages twoPageBuffers 0x4000 where
  tmpPage := by decide
  miInodo := by decide

/-- A directory of three blocks with a file in each. -/
theorem readDir_listed_three : ∃ t, DirListed ⟨true, recordDisk, 0x1000, 0x1400⟩ twoPageBuffers
    0x4000 (recordRam 3) [oneRecord 102, oneRecord 102, oneRecord 102] t :=
  ((readDir_listed_iff (recordRam_dirOk 3 (by decide)) recordRam_pages).1 fun k hk => by
    rw [List.length_replicate] at hk
    rw [recordRam_iBlock 3 (by decide) k (by omega)]
    omega).2 ⟨by decide, fun d hd => by
      obtain ⟨l, hl, hd⟩ := List.mem_flatten.1 hd
      obtain rfl := List.eq_of_mem_replicate hl
      obtain rfl := List.mem_singleton.1 hd
      decide⟩

/-- A directory of five blocks. -/
theorem five_blocks_overflow : ∃ fs r blocks, DirOk fs twoPageBuffers r blocks ∧
    blocks.length = 5 ∧ ¬∃ t, DirListed fs twoPageBuffers 0x4000 r blocks.flatten t := by
  have hok := recordRam_dirOk 5 (Nat.le_refl 5)
  refine ⟨_, _, _, hok, rfl, ?_⟩
  rintro ⟨t, ht⟩
  exact absurd (hok.length_le ht) (by decide)

end SpuriOS
