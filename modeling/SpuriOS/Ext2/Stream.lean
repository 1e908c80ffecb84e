import SpuriOS.Ext2.File
import SpuriOS.Lib.Transition

/-! # An open file is a stream

What a regular file is for: a fixed content and a position. `Stream` says it abstractly, `Session`
runs an open file next to the stream it stands for, and the invariant says what the one page
buffer holds. After a read that ends at a page boundary the buffer still holds the page before
the position, and a seek into the page of the position does not load it; that is the only way the
buffer shows. -/

namespace SpuriOS

/-- A content of `length` bytes with a position. -/
structure Stream where
  length : Nat
  content : Nat → Byte
  pos : Nat

namespace Stream

/-- How many bytes a read of `size` delivers. -/
def count (t : Stream) (size : Nat) : Nat := min size (t.length - t.pos)

def read (t : Stream) (size : Nat) : Stream := { t with pos := t.pos + t.count size }

def seek (t : Stream) (position : Nat) : Stream := { t with pos := position }

end Stream

namespace Ext2File

/-- The content the block map of the inode gives: byte `i` is in block `i / 1024`. -/
def content (f : Ext2File) (i : Nat) : Byte := f.dev.byte (f.block (i / 1024) * 1024 + i % 1024)

/-- A regular file of at most 1036 blocks as `ext2_open` returns it. `block_list` is null when the
direct blocks are enough, else a page of words that has the numbers of the other blocks. -/
structure Fresh (f : Ext2File) : Prop extends Static f where
  fileSize : f.fileSize ≤ 1036 * 1024
  blockList_null : f.fileSize ≤ 12 * 1024 → ∀ i < 1024, f.blockList i = none
  blockList_page : 12 * 1024 < f.fileSize → ∀ i < 1024, (f.blockList i).isSome
  streamPos : f.streamPos = 0
  bufPos : f.bufPos = 0
  bufferEmpty : f.bufferEmpty = true

def toStream (f : Ext2File) : Stream where
  length := f.fileSize
  content := f.content
  pos := 0

end Ext2File

/-- An open file, the kernel memory with its buffer, and the stream it stands for. -/
structure Session where
  file : Ext2File
  ram : Ram
  stream : Stream

inductive FileOp where
  | read (buf size : Nat) (user : UserMem)
  | seek (position : Nat)

inductive FileStep : Session → FileOp → Session → Prop
  | read {s : Session} {buf size u n f r u'} :
    ext2FileRead s.file buf size s.ram u = some (n, f, r, u') →
    FileStep s (.read buf size u) ⟨f, r, s.stream.read size⟩
  | seek {s : Session} {position n f r} :
    ext2FileSeek s.file position s.ram = some (n, f, r) →
    FileStep s (.seek position) ⟨f, r, s.stream.seek position⟩

/-- The runs of a freshly opened file. -/
def fileSystem (f : Ext2File) : Transition.System Session FileOp where
  init s := s.file = f ∧ s.stream = f.toStream
  step := FileStep

namespace FileOp

/-- The calls in question: no overflow of the position, every address of the destination at user
level, no seek past the end. -/
def Valid (s : Session) : FileOp → Prop
  | .read buf size u => s.stream.pos + size < 2 ^ 32 ∧ ∀ j < size, u.isUser (buf + j) = true
  | .seek position => position ≤ s.stream.length

/-- The call does what the stream does: a read returns the number of bytes, puts exactly them in
the destination and moves the position; a seek returns the new position. -/
def Answers (s : Session) : FileOp → Prop
  | .read buf size u => ∃ f r u', ext2FileRead s.file buf size s.ram u =
        some (((s.stream.count size : Nat) : Int), f, r, u') ∧
      (∀ i < s.stream.count size, u'.byte (buf + i) = s.stream.content (s.stream.pos + i)) ∧
      (∀ a, ¬(buf ≤ a ∧ a < buf + s.stream.count size) → u'.byte a = u.byte a) ∧
      f.streamPos = (s.stream.read size).pos
  | .seek position => ∃ f r, ext2FileSeek s.file position s.ram = some ((position : Int), f, r) ∧
      f.streamPos = (s.stream.seek position).pos

/-- The seeks that load what they have to: the buffer is not one page behind, and the block
numbers of a page that gets loaded are mapped words. -/
def Loads (s : Session) : FileOp → Prop
  | .read _ _ _ => True
  | .seek position =>
    ¬(s.file.bufPos = s.file.bufLen ∧ position / pageSize = s.file.streamPos / pageSize ∧
      s.file.streamPos < s.file.fileSize) ∧
    (position / pageSize ≠ s.file.streamPos / pageSize → s.file.PageMapped position)

end FileOp

/-! ## The buffer -/

namespace Ext2File
variable {f : Ext2File} {r : Ram} {u : UserMem} {pos bp : Nat}

/-- The open file `f` after operations that left it at position `pos` and the buffer at `bp`. -/
def at' (f : Ext2File) (pos bp : Nat) : Ext2File :=
  { f with streamPos := pos, bufPos := bp, bufferEmpty := false }

@[simp] theorem at'_streamPos : (f.at' pos bp).streamPos = pos := rfl
@[simp] theorem at'_bufPos : (f.at' pos bp).bufPos = bp := rfl
@[simp] theorem at'_fileSize : (f.at' pos bp).fileSize = f.fileSize := rfl
@[simp] theorem at'_bufLen : (f.at' pos bp).bufLen = f.bufLen := rfl
@[simp] theorem at'_bufferEmpty : (f.at' pos bp).bufferEmpty = false := rfl

/-- The buffer holds the page of `p`. -/
def Holds (f : Ext2File) (r : Ram) (p : Nat) : Prop :=
  ∀ i < pageSize, r.mem (f.buffer + i) = f.byteAt (p / pageSize * pageSize + i)

/-- How buffer and position go together: the page of the position is in the buffer, or the
position is at a page boundary and the buffer is used up, or nothing is left to read. -/
def InBuffer (f : Ext2File) (r : Ram) (pos bp : Nat) : Prop :=
  (bp = pos % pageSize ∧ f.Holds r pos) ∨ (bp = pageSize ∧ pos % pageSize = 0) ∨
    (pos = f.fileSize ∧ pos % pageSize = 0)

theorem Fresh.pageMapped (hf : f.Fresh) {p : Nat} (h : p < f.fileSize ∨ p < pageSize) :
    f.PageMapped p := by
  intro j hj
  have hsize := hf.fileSize
  rw [pageSize_eq] at h ⊢
  rw [lookup]
  split
  · rfl
  · exact hf.blockList_page (by omega) _ (by omega)

/-- Loading at a position, whatever the buffer was before. -/
theorem load_at (hf : f.Static) (be : Bool) (h : f.PageMapped pos) :
    ∃ r', e2fLoadBuffer { f with streamPos := pos, bufPos := bp, bufferEmpty := be } r =
        some (f.at' pos (pos % pageSize), r') ∧ f.Holds r' pos :=
  load_spec (f := { f with streamPos := pos, bufPos := bp, bufferEmpty := be })
    ⟨hf.1, hf.2, hf.3, hf.4⟩ h

/-- One round of the copy loop: `c` bytes go from the buffer to the destination, and the next page
is loaded when that was not all. -/
theorem readLoop_round (hf : f.Static) {fuel size rem total buf c : Nat} (h0 : rem ≠ 0)
    (hc : c = min rem (pageSize - bp)) (hbp : bp ≤ pageSize) (hpos : pos + rem < 2 ^ 32)
    (huser : u.isUser buf = true) :
    let u' := { u with byte := Memory.write u.byte buf c fun i => r.mem (f.buffer + bp + i) }
    ext2FileReadLoop size (fuel + 1) rem total buf (f.at' pos bp) r u =
      if rem - c > 0 then (e2fLoadBuffer (f.at' (pos + c) (bp + c)) r).bind fun x =>
        ext2FileReadLoop size fuel (rem - c) (total + c) (buf + c) x.1 x.2 u'
      else
        ext2FileReadLoop size fuel (rem - c) (total + c) (buf + c) (f.at' (pos + c) (bp + c)) r
          u' := by
  have hps := pageSize_eq
  have hleft : Word32.sub (f.at' pos bp).bufLen (f.at' pos bp).bufPos = pageSize - bp := by
    rw [at'_bufLen, hf.bufLen]
    exact Word32.sub_of_le hbp (by decide)
  have hmin : (if rem < pageSize - bp then rem else pageSize - bp) = c := by
    rw [hc]; split <;> omega
  have hat : { f.at' pos bp with
      bufPos := Word32.add (f.at' pos bp).bufPos c
      streamPos := Word32.add (f.at' pos bp).streamPos c } = f.at' (pos + c) (bp + c) := by
    simp only [at']
    rw [Word32.add_of_lt (by omega), Word32.add_of_lt (by omega)]
  rw [ext2FileReadLoop, if_neg h0]
  simp only [hleft, hmin, copy2user_eq huser, hat, Word32.sub_of_le (show c ≤ rem by omega)
    (show rem < 2 ^ 32 by omega), ne_eq, not_true_eq_false, if_false]
  rfl

/-- The copy loop delivers the rest of the request: by induction on the rounds, with the buffer in
line with the position at the start of each. -/
theorem readLoop_spec (hf : f.Fresh) {fuel size rem total buf : Nat} (hbuf : f.InBuffer r pos bp)
    (hbp : bp ≤ pageSize) (hfuel : rem < fuel) (hfull : bp = pageSize → rem + 1 < fuel)
    (hend : pos + rem ≤ f.fileSize) (htotal : total + rem = size)
    (huser : ∀ j < rem, u.isUser (buf + j) = true) :
    ∃ bp' r', ext2FileReadLoop size fuel rem total buf (f.at' pos bp) r u =
        some ((size : Int), f.at' (pos + rem) bp', r',
          { u with byte := Memory.write u.byte buf rem fun i => f.byteAt (pos + i) }) ∧
      f.InBuffer r' (pos + rem) bp' ∧ bp' ≤ pageSize := by
  have hsize := hf.fileSize
  have hps := pageSize_eq
  induction fuel generalizing pos bp rem total buf r u with
  | zero => omega
  | succ fuel ih =>
    by_cases h0 : rem = 0
    · subst h0
      refine ⟨bp, r, ?_, by rwa [Nat.add_zero], hbp⟩
      rw [ext2FileReadLoop, if_pos rfl, if_pos (by omega), Memory.write_zero, Nat.add_zero,
        ← htotal, Nat.add_zero]
    generalize hc : min rem (pageSize - bp) = c
    have hcopy : ∀ i < c, r.mem (f.buffer + bp + i) = f.byteAt (pos + i) := by
      intro i hi
      obtain ⟨rfl, hholds⟩ | ⟨rfl, -⟩ | ⟨rfl, -⟩ := hbuf
      · have hdiv := Nat.div_add_mod pos pageSize
        rw [Nat.mul_comm] at hdiv
        rw [Nat.add_assoc, hholds _ (by omega), ← Nat.add_assoc, hdiv]
      · omega
      · omega
    have huser' : ∀ j < rem - c, u.isUser (buf + c + j) = true := fun j hj => by
      rw [Nat.add_assoc]; exact huser _ (by omega)
    have hwrite : ∀ n, c + n = rem →
        Memory.write (Memory.write u.byte buf c fun i => r.mem (f.buffer + bp + i)) (buf + c) n
          (fun i => f.byteAt (pos + c + i)) =
        Memory.write u.byte buf rem fun i => f.byteAt (pos + i) := by
      rintro n rfl
      exact Memory.write_append hcopy fun i _ => by rw [Nat.add_assoc]
    have huser0 : u.isUser buf = true := huser 0 (by omega)
    rw [readLoop_round hf.toStatic h0 hc.symm hbp (by omega) huser0]
    by_cases hmore : rem - c > 0
    · -- the buffer is used up, and the rest of the request starts at a page boundary
      obtain ⟨r', hload, hholds⟩ := @load_at f r (pos + c) (bp + c) hf.toStatic false
        (hf.pageMapped (.inl (by omega)))
      have hmod := Nat.mod_lt (pos + c) (show 0 < pageSize by omega)
      obtain ⟨bp', r'', hloop, hin, hle⟩ := @ih r'
        { u with byte := Memory.write u.byte buf c fun i => r.mem (f.buffer + bp + i) } (pos + c)
        ((pos + c) % pageSize) (rem - c) (total + c) (buf + c) (.inl ⟨rfl, hholds⟩) (by omega)
        (by omega) (by omega) (by omega) (by omega) huser'
      rw [if_pos hmore, at', hload, Option.bind_some, hloop, hwrite _ (by omega)]
      rw [show pos + c + (rem - c) = pos + rem by omega] at hin ⊢
      exact ⟨bp', r'', rfl, hin, hle⟩
    · obtain rfl : c = rem := by omega
      obtain ⟨fuel, rfl⟩ : ∃ n, fuel = n + 1 := ⟨fuel - 1, by omega⟩
      rw [if_neg hmore, Nat.sub_self, ext2FileReadLoop, if_pos rfl, if_pos htotal, htotal,
        ← hwrite 0 rfl, Memory.write_zero]
      refine ⟨bp + c, r, rfl, ?_, by omega⟩
      obtain ⟨rfl, hholds⟩ | ⟨rfl, -⟩ | ⟨rfl, -⟩ := hbuf
      · simp only [InBuffer, Holds, hps] at hholds hbp hc ⊢
        by_cases hend : pos % 4096 + c = 4096
        · exact .inr (.inl ⟨hend, by omega⟩)
        · refine .inl ⟨by omega, ?_⟩
          rwa [show (pos + c) / 4096 = pos / 4096 by omega]
      · omega
      · omega

/-- A read from an open file whose buffer is in line with its position. -/
theorem read_at (hf : f.Fresh) {size buf : Nat} (hbuf : f.InBuffer r pos bp) (hbp : bp ≤ pageSize)
    (hpos : pos ≤ f.fileSize) (hadd : pos + size < 2 ^ 32)
    (huser : ∀ j < size, u.isUser (buf + j) = true) :
    ∃ bp' r', ext2FileRead (f.at' pos bp) buf size r u =
        some (((min size (f.fileSize - pos) : Nat) : Int),
          f.at' (pos + min size (f.fileSize - pos)) bp', r',
          { u with byte := Memory.write u.byte buf (min size (f.fileSize - pos)) fun i =>
            f.byteAt (pos + i) }) ∧
      f.InBuffer r' (pos + min size (f.fileSize - pos)) bp' ∧ bp' ≤ pageSize := by
  have hsize := hf.fileSize
  by_cases h0 : size = 0
  · subst h0
    refine ⟨bp, r, ?_, ?_, hbp⟩
    · rw [ext2FileRead, if_pos rfl, Nat.zero_min, Memory.write_zero]; rfl
    · rwa [Nat.zero_min]
  · have hcorr : (if Word32.add (f.at' pos bp).streamPos size > (f.at' pos bp).fileSize then
        Word32.sub (f.at' pos bp).fileSize (f.at' pos bp).streamPos else size) =
        min size (f.fileSize - pos) := by
      rw [at'_streamPos, at'_fileSize, Word32.add_of_lt hadd, Word32.sub_of_le hpos (by omega)]
      split <;> omega
    rw [ext2FileRead, if_neg h0, at'_bufferEmpty, if_neg (by simp), Option.bind_eq_bind,
      Option.bind_some]
    dsimp only
    rw [hcorr]
    exact readLoop_spec hf hbuf hbp (by omega) (by omega) (by omega) (by omega)
      fun j hj => huser j (by omega)

/-- The first read loads page 0 and goes on as any other. -/
theorem read_fresh (hf : f.Fresh) {size buf : Nat} (h0 : size ≠ 0) :
    ∃ r', ext2FileRead f buf size r u = ext2FileRead (f.at' 0 0) buf size r' u ∧
      f.InBuffer r' 0 0 := by
  obtain ⟨r', hload, hholds⟩ := @load_at f r 0 f.bufPos hf.toStatic f.bufferEmpty
    (hf.pageMapped (.inr (by decide)))
  rw [show { f with streamPos := 0 } = f by rw [← hf.streamPos]] at hload
  refine ⟨r', ?_, .inl ⟨rfl, hholds⟩⟩
  rw [ext2FileRead, ext2FileRead, if_neg h0, if_neg h0, hf.bufferEmpty, if_pos rfl, hload]
  rfl

/-! The three branches of a seek that is accepted. -/

section
variable {g : Ext2File} {r' : Ram} {position : Nat} (hp : position ≤ f.fileSize)
include hp

theorem seek_page (hpage : position / f.bufLen ≠ f.streamPos / f.bufLen)
    (hload : e2fLoadBuffer { f with streamPos := position } r = some (g, r')) :
    ext2FileSeek f position r = some ((position : Int), g, r') := by
  rw [ext2FileSeek, if_neg (by omega), if_pos hpage.symm, hload]
  rfl

theorem seek_empty (hpage : position / f.bufLen = f.streamPos / f.bufLen)
    (hempty : f.bufferEmpty = true)
    (hload : e2fLoadBuffer { f with streamPos := position, bufPos := position % f.bufLen } r =
      some (g, r')) :
    ext2FileSeek f position r = some ((position : Int), g, r') := by
  rw [ext2FileSeek, if_neg (by omega), if_neg (not_not_intro hpage.symm)]
  dsimp only
  rw [if_pos hempty, hload]
  rfl

theorem seek_buffered (hpage : position / f.bufLen = f.streamPos / f.bufLen)
    (hempty : f.bufferEmpty = false) :
    ext2FileSeek f position r = some ((position : Int),
      { f with streamPos := position, bufPos := position % f.bufLen }, r) := by
  rw [ext2FileSeek, if_neg (by omega), if_neg (not_not_intro hpage.symm)]
  dsimp only
  rw [if_neg (by simp [hempty])]

end

theorem seek_at (hf : f.Fresh) {position : Nat} (hbuf : f.InBuffer r pos bp)
    (hpos : pos ≤ f.fileSize) (hp : position ≤ f.fileSize)
    (hstale : ¬(bp = pageSize ∧ position / pageSize = pos / pageSize ∧ pos < f.fileSize))
    (hmapped : position / pageSize ≠ pos / pageSize → f.PageMapped position) :
    ∃ r', ext2FileSeek (f.at' pos bp) position r =
        some ((position : Int), f.at' position (position % pageSize), r') ∧
      f.InBuffer r' position (position % pageSize) := by
  by_cases hpage : position / pageSize = pos / pageSize
  · refine ⟨r, ?_, ?_⟩
    · rw [seek_buffered (f := f.at' pos bp) hp (by rw [at'_bufLen, hf.bufLen]; exact hpage) rfl,
        at'_bufLen, hf.bufLen, ← hf.bufLen]
      rfl
    obtain ⟨rfl, hholds⟩ | ⟨rfl, h0⟩ | ⟨rfl, h0⟩ := hbuf
    · left; exact ⟨rfl, by rwa [Holds, hpage]⟩
    -- the seeks left in these two cases are to the end of the file
    all_goals
      right; right
      rw [pageSize_eq] at *
      exact ⟨by omega, by omega⟩
  · obtain ⟨r', hload, hholds⟩ := @load_at f r position bp hf.toStatic false (hmapped hpage)
    exact ⟨r', seek_page (f := f.at' pos bp) hp (by rw [at'_bufLen, hf.bufLen]; exact hpage) hload,
      .inl ⟨rfl, hholds⟩⟩

theorem seek_fresh (hf : f.Fresh) {position : Nat} (hp : position ≤ f.fileSize)
    (hmapped : position / pageSize ≠ 0 → f.PageMapped position) :
    ∃ r', ext2FileSeek f position r =
        some ((position : Int), f.at' position (position % pageSize), r') ∧
      f.InBuffer r' position (position % pageSize) := by
  have hmapped : f.PageMapped position := by
    by_cases h0 : position / pageSize = 0
    · rw [pageSize_eq] at h0
      exact hf.pageMapped (.inr (by rw [pageSize_eq]; omega))
    · exact hmapped h0
  by_cases hpage : position / f.bufLen = f.streamPos / f.bufLen
  · obtain ⟨r', hload, hholds⟩ :=
      @load_at f r position (position % f.bufLen) hf.toStatic f.bufferEmpty hmapped
    exact ⟨r', seek_empty hp hpage hf.bufferEmpty hload, .inl ⟨rfl, hholds⟩⟩
  · obtain ⟨r', hload, hholds⟩ := @load_at f r position f.bufPos hf.toStatic f.bufferEmpty hmapped
    exact ⟨r', seek_page hp hpage hload, .inl ⟨rfl, hholds⟩⟩

/-- The blocks of the file start below 4 GB. -/
def SmallBlocks (f : Ext2File) : Prop := ∀ b, b * 1024 < f.fileSize → f.block b < 2 ^ 22

theorem byteAt_eq_content (hb : f.SmallBlocks) {i : Nat} (hi : i < f.fileSize) :
    f.byteAt i = f.content i := by
  have := hb (i / 1024) (by omega)
  rw [byteAt, content, Word32.wrap_of_lt (by omega)]

end Ext2File

/-! ## Runs -/

/-- How the open file stands to its stream, along a run that starts with the file `f`. -/
structure Session.Inv (f : Ext2File) (s : Session) : Prop where
  stream : s.stream = { f.toStream with pos := s.stream.pos }
  pos_le : s.stream.pos ≤ f.fileSize
  file : (s.file = f ∧ s.stream.pos = 0) ∨
    ∃ bp ≤ pageSize, s.file = f.at' s.stream.pos bp ∧ f.InBuffer s.ram s.stream.pos bp

section
variable {f : Ext2File} {s : Session}

theorem Session.Inv.length (h : s.Inv f) : s.stream.length = f.fileSize := by rw [h.stream]; rfl

theorem Session.Inv.content (h : s.Inv f) : s.stream.content = f.content := by rw [h.stream]; rfl

theorem Session.Inv.count (h : s.Inv f) (size : Nat) :
    s.stream.count size = min size (f.fileSize - s.stream.pos) := by
  rw [Stream.count, h.length]

theorem Session.Inv.init (hfile : s.file = f) (hstream : s.stream = f.toStream) : s.Inv f where
  stream := by rw [hstream]
  pos_le := by rw [hstream]; exact Nat.zero_le _
  file := .inl ⟨hfile, by rw [hstream]; rfl⟩

/-- A valid read answers as the stream does and keeps the invariant. -/
theorem Session.Inv.read (hf : f.Fresh) (h : s.Inv f) {buf size : Nat} {u : UserMem}
    (hv : (FileOp.read buf size u).Valid s) :
    ∃ g r', ext2FileRead s.file buf size s.ram u = some (((s.stream.count size : Nat) : Int), g, r',
          { u with byte := Memory.write u.byte buf (s.stream.count size) fun i =>
            f.byteAt (s.stream.pos + i) }) ∧
      g.streamPos = s.stream.pos + s.stream.count size ∧
      Session.Inv f ⟨g, r', s.stream.read size⟩ := by
  have hkeep : ∀ bp r', bp ≤ pageSize →
      f.InBuffer r' (s.stream.pos + s.stream.count size) bp →
      Session.Inv f ⟨f.at' (s.stream.pos + s.stream.count size) bp, r', s.stream.read size⟩ :=
    fun bp r' hbp hin =>
      { stream := by rw [Stream.read, h.stream]
        pos_le := by
          have := h.pos_le
          rw [Stream.read, h.count]; dsimp only; omega
        file := .inr ⟨bp, hbp, rfl, hin⟩ }
  have hat : ∀ {bp r}, bp ≤ pageSize → f.InBuffer r s.stream.pos bp → ∃ g r',
      ext2FileRead (f.at' s.stream.pos bp) buf size r u =
        some (((s.stream.count size : Nat) : Int), g, r',
          { u with byte := Memory.write u.byte buf (s.stream.count size) fun i =>
            f.byteAt (s.stream.pos + i) }) ∧
      g.streamPos = s.stream.pos + s.stream.count size ∧
      Session.Inv f ⟨g, r', s.stream.read size⟩ := by
    intro bp r hbp hin
    obtain ⟨bp', r', hread, hin', hbp'⟩ := Ext2File.read_at hf hin hbp h.pos_le hv.1 hv.2
    rw [← h.count] at hread hin'
    exact ⟨_, r', hread, rfl, hkeep bp' r' hbp' hin'⟩
  obtain ⟨hfile, hpos⟩ | ⟨bp, hbp, hfile, hin⟩ := h.file
  · by_cases h0 : size = 0
    · subst h0
      have hcount : s.stream.count 0 = 0 := Nat.zero_min _
      refine ⟨f, s.ram, ?_, ?_, ?_⟩
      · rw [hfile, ext2FileRead, if_pos rfl, hcount, Memory.write_zero]; rfl
      · rw [hcount, hpos, hf.streamPos]
      · rw [Stream.read, hcount]
        exact ⟨h.stream, h.pos_le, .inl ⟨rfl, hpos⟩⟩
    · obtain ⟨r', hread, hin⟩ := Ext2File.read_fresh hf (r := s.ram) h0
      rw [hfile, hread]
      rw [← hpos] at hin ⊢
      exact hat (by omega) hin
  · rw [hfile]
    exact hat hbp hin

/-- A valid seek that loads what it has to answers as the stream does and keeps the invariant. -/
theorem Session.Inv.seek (hf : f.Fresh) (h : s.Inv f) {position : Nat}
    (hv : (FileOp.seek position).Valid s) (hl : (FileOp.seek position).Loads s) :
    ∃ g r', ext2FileSeek s.file position s.ram = some ((position : Int), g, r') ∧
      g.streamPos = position ∧ Session.Inv f ⟨g, r', s.stream.seek position⟩ := by
  have hp : position ≤ f.fileSize := h.length ▸ hv
  obtain ⟨r', hseek, hin⟩ : ∃ r', ext2FileSeek s.file position s.ram =
      some ((position : Int), f.at' position (position % pageSize), r') ∧
        f.InBuffer r' position (position % pageSize) := by
    obtain ⟨hfile, hpos⟩ | ⟨bp, hbp, hfile, hin⟩ := h.file
    · rw [hfile]
      refine Ext2File.seek_fresh hf hp fun h0 => ?_
      have := hl.2
      rw [hfile, hf.streamPos] at this
      exact this (by rwa [Nat.zero_div])
    · rw [hfile]
      simp only [FileOp.Loads, hfile, Ext2File.at'_streamPos, Ext2File.at'_bufPos,
        Ext2File.at'_bufLen, Ext2File.at'_fileSize, hf.bufLen] at hl
      exact Ext2File.seek_at hf hin h.pos_le hp hl.1 hl.2
  refine ⟨_, r', hseek, rfl, ?_⟩
  exact { stream := by rw [Stream.seek, h.stream], pos_le := hp
          file := .inr ⟨_, Nat.le_of_lt (Nat.mod_lt _ (by decide)), rfl, hin⟩ }

theorem FileStep.inv (hf : f.Fresh) {op : FileOp} {s' : Session} (h : s.Inv f) (hv : op.Valid s)
    (hl : op.Loads s) (hs : FileStep s op s') : s'.Inv f := by
  cases hs with
  | read hread =>
    obtain ⟨g, r', heq, -, hinv⟩ := h.read hf hv
    rw [hread] at heq
    cases heq
    exact hinv
  | seek hseek =>
    obtain ⟨g, r', heq, -, hinv⟩ := h.seek hf hv hl
    rw [hseek] at heq
    cases heq
    exact hinv

/-- In every run of reads and seeks that load what they have to, every call answers as the stream
does: the page buffer does not show. -/
theorem ext2File_answers (hf : f.Fresh) (hb : f.SmallBlocks)
    (hs : Transition.Reach (fileSystem f) (fun s op => op.Valid s ∧ op.Loads s) s) {op : FileOp}
    (hv : op.Valid s) (hl : op.Loads s) : op.Answers s := by
  have h : s.Inv f := Transition.Reach.invariant (M := fileSystem f) (I := Session.Inv f)
    (fun h => .init h.1 h.2) (fun hinv hok hstep => FileStep.inv hf hinv hok.1 hok.2 hstep) hs
  cases op with
  | read buf size u =>
    obtain ⟨g, r', hread, hpos, -⟩ := h.read hf hv
    refine ⟨g, r', _, hread, ?_, ?_, hpos⟩
    · intro i hi
      have hle := h.pos_le
      dsimp only
      rw [Memory.write_add hi, h.content]
      rw [h.count] at hi
      exact Ext2File.byteAt_eq_content hb (by omega)
    · intro a ha
      dsimp only
      exact Memory.write_of_not ha
  | seek position =>
    obtain ⟨g, r', hseek, hpos, -⟩ := h.seek hf hv hl
    exact ⟨g, r', hseek, hpos⟩

end

/-- A file of two pages on a disk whose blocks 1 to 4 hold zeros and the next ones hold ones. -/
def twoPages : Ext2File where
  dev := { size := 512, sector := fun pos _ => if pos < 10 then 0 else 1 }
  logBlockSize := 0
  iBlock b := b + 1
  fileSize := 8192
  blockList _ := none
  streamPos := 0
  buffer := 0x200000
  bufPos := 0
  bufLen := pageSize
  bufferEmpty := true

def zeroRam : Ram := ⟨fun _ => 0, fun _ => 0⟩

def userPages : UserMem := ⟨fun _ => 0, fun _ => true⟩

theorem twoPages_fresh : twoPages.Fresh where
  devSize := by decide
  blockSize := by decide
  bufLen := rfl
  buffer := by decide
  fileSize := by decide
  blockList_null _ _ _ := rfl
  blockList_page h := absurd h (by decide)
  streamPos := rfl
  bufPos := rfl
  bufferEmpty := rfl

theorem twoPages_smallBlocks : twoPages.SmallBlocks := by
  intro b hb
  have hb : b < 8 := by simp only [twoPages] at hb; omega
  have hlookup : twoPages.lookup b = some (b + 1) := if_pos (by omega)
  rw [Ext2File.block, hlookup, Option.getD_some]
  omega

/-- A read over the page boundary, as the first call. -/
theorem ext2File_answers_twoPages :
    (FileOp.read 0 5000 userPages).Answers ⟨twoPages, zeroRam, twoPages.toStream⟩ :=
  ext2File_answers twoPages_fresh twoPages_smallBlocks (.init ⟨rfl, rfl⟩)
    ⟨by decide, fun _ _ => rfl⟩ trivial

/-- Read page 0, seek to the position reached, read one byte: the byte is that of position 0. -/
theorem stale_page : twoPages.Fresh ∧ twoPages.SmallBlocks ∧ ∃ (s : Session) (op : FileOp),
    Transition.Reach (fileSystem twoPages) (fun s op => FileOp.Valid s op) s ∧ op.Valid s ∧
      ¬op.Answers s := by
  have hrun : (do
      let (_, f, r, _) ← ext2FileRead twoPages 0 4096 zeroRam userPages
      let (_, f, r) ← ext2FileSeek f 4096 r
      let (_, _, _, u) ← ext2FileRead f 0 1 r userPages
      return u.byte 0) = some 0 := by decide +kernel
  simp only [Option.bind_eq_bind, Option.bind_eq_some_iff] at hrun
  obtain ⟨⟨_, f₁, r₁, u₁⟩, h1, ⟨_, f₂, r₂⟩, h2, ⟨_, f₃, r₃, u₃⟩, h3, hbyte⟩ := hrun
  refine ⟨twoPages_fresh, twoPages_smallBlocks,
    ⟨f₂, r₂, ⟨8192, twoPages.content, 4096⟩⟩, .read 0 1 userPages, ?_, ?_, ?_⟩
  · have h0 : Transition.Reach (fileSystem twoPages) (fun s op => FileOp.Valid s op)
        ⟨twoPages, zeroRam, twoPages.toStream⟩ := .init ⟨rfl, rfl⟩
    refine (h0.step ?_ (FileStep.read h1)).step ?_ (FileStep.seek h2)
    · exact ⟨by decide, fun _ _ => rfl⟩
    · exact show 4096 ≤ 8192 by decide
  · exact ⟨show 4096 + 1 < 2 ^ 32 by decide, fun _ _ => rfl⟩
  · rintro ⟨f, r, u, hread, hdata, -⟩
    rw [h3] at hread
    cases hread
    have hdata := hdata 0 (show 0 < min 1 (8192 - 4096) by decide)
    dsimp only at hdata
    have hone : twoPages.content (4096 + 0) = 1 := by decide +kernel
    rw [hone, Nat.zero_add, show u₃.byte 0 = 0 from Option.some.inj hbyte] at hdata
    exact absurd hdata (by decide)

end SpuriOS
