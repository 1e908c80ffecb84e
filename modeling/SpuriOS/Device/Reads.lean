import SpuriOS.Device.Confinement
import SpuriOS.Ext2.Lookups
import Mathlib.Tactic.IntervalCases

/-! # Reads up to the end (`ext2_file_read`, `proc_cpuid_read`)

Both devices are a content with a position, and cut the size of a read where the content ends. The
sum that they compare with its length is a word: where it wraps, nothing is cut. -/

namespace SpuriOS

open Transition

/-- The number of bytes that were copied. -/
def moved (log : List Transfer) : Nat := ((log.filter (·.done)).map (·.size)).sum

@[simp] theorem moved_nil : moved [] = 0 := rfl

theorem moved_append (log : List Transfer) (t : Transfer) :
    moved (log ++ [t]) = moved log + if t.done then t.size else 0 := by
  cases hdone : t.done <;> simp [moved, hdone]

/-- The caller after a copy that is allowed. -/
def Caller.after (c : Caller) (src : Nat → Byte) (buf n : Nat) : Caller where
  user := { c.user with byte := Memory.write c.user.byte buf n src }
  log := c.log ++ [⟨buf, n, true⟩]

theorem Caller.copy2user_true {c : Caller} {src : Nat → Byte} {buf : Nat}
    (h : c.user.isUser buf = true) (n : Nat) : (c.copy2user src buf n).2 = c.after src buf n := by
  rw [Caller.copy2user, copy2user_eq h, h]
  rfl

/-- A copy that is refused leaves the memory of the caller. -/
theorem Caller.copy2user_false {c : Caller} {src : Nat → Byte} {buf : Nat}
    (h : c.user.isUser buf = false) (n : Nat) :
    (c.copy2user src buf n).2 = { c with log := c.log ++ [⟨buf, n, false⟩] } := by
  rw [Caller.copy2user, SpuriOS.copy2user, h]
  rfl

theorem Caller.after_of_not {c : Caller} {src : Nat → Byte} {buf n a : Nat}
    (h : ¬(buf ≤ a ∧ a < buf + n)) : (c.after src buf n).user.byte a = c.user.byte a :=
  Memory.write_of_not h

theorem Caller.after_add {c : Caller} {src : Nat → Byte} {buf n i : Nat} (h : i < n) :
    (c.after src buf n).user.byte (buf + i) = src i :=
  Memory.write_add h

/-! ## Open files with blocks of any size -/

namespace Ext2File
variable {f : Ext2File} {r r' r₁ : Ram} {S : Nat → Byte} {pos bp p k rem buf : Nat}
  {c c' c₁ : Caller}

/-- What `ext2_open` leaves as long as the file is open: at most 1036 blocks of 1 to 64 KB, the
number of a block in the inode or in the list. -/
structure Opened (f : Ext2File) : Prop where
  devSize : f.dev.size = 512
  blockSize : ∃ k ≤ 6, f.blockSize = 1024 * 2 ^ k
  bufLen : f.bufLen = pageSize
  buffer : f.buffer + pageSize < 2 ^ 32
  fileSize : f.fileSize ≤ 1036 * f.blockSize
  list : 12 * f.blockSize < f.fileSize → ∀ i < 1024, (f.blockList i).isSome

/-- The block numbers that `e2f_load_buffer` looks up for the page of `p` are there. -/
def Mapped (f : Ext2File) (p : Nat) : Prop := ∀ j, j * f.blockSize < pageSize →
  (f.lookup (p / pageSize * pageSize / f.blockSize + j)).isSome

/-- Byte `i` of the page of `p`, as it is loaded. -/
def pageByte (f : Ext2File) (p i : Nat) : Byte :=
  f.dev.byte (Word32.mul (f.block (p / pageSize * pageSize / f.blockSize + i / f.blockSize))
    f.blockSize + i % f.blockSize)

/-- Every block of a page of the file is one of the 1036. -/
theorem page_blocks {size bs j k : Nat} (hk : k ≤ 6) (hbs : bs = 1024 * 2 ^ k)
    (hsize : size ≤ 1036 * bs) (hp : p < size ∨ p < 4096) (hj : j * bs < 4096)
    (hdirect : ¬p / 4096 * 4096 / bs + j < 12) :
    12 * bs < size ∧ p / 4096 * 4096 / bs + j - 12 < 1024 := by
  subst hbs
  interval_cases k <;> omega

theorem Opened.mapped (h : f.Opened) (hp : p < f.fileSize ∨ p < pageSize) : f.Mapped p := by
  intro j hj
  rw [lookup]
  split
  · rfl
  next hdirect =>
    obtain ⟨k, hk, hbs⟩ := h.blockSize
    obtain ⟨hsize, hlt⟩ := page_blocks hk hbs h.fileSize hp hj hdirect
    exact h.list hsize _ hlt

/-- The loop of `e2f_load_buffer`, from block `b` on. -/
theorem Opened.loadLoop (h : f.Opened) {fuel b n ptr : Nat} (hfuel : n ≤ fuel)
    (hlook : ∀ j, j * f.blockSize < n → (f.lookup (b + j)).isSome) (hn : n ≤ pageSize)
    (hptr : ptr + n < 2 ^ 32) :
    ∃ r', e2fLoadBufferLoop f fuel b n ptr r = some r' ∧
      r'.mem = Memory.write r.mem ptr n fun i =>
        f.dev.byte (Word32.mul (f.block (b + i / f.blockSize)) f.blockSize + i % f.blockSize) := by
  have hdev := h.devSize
  have hps := pageSize_eq
  have h0 : 0 < f.blockSize := by
    obtain ⟨k, -, hbs⟩ := h.blockSize
    rw [hbs]
    exact Nat.mul_pos (by decide) (Nat.two_pow_pos k)
  induction fuel generalizing b n ptr r with
  | zero =>
    obtain rfl : n = 0 := by omega
    exact ⟨r, rfl, Memory.write_zero.symm⟩
  | succ fuel ih =>
    rw [e2fLoadBufferLoop]
    by_cases hn0 : n = 0
    · subst hn0
      exact ⟨r, rfl, Memory.write_zero.symm⟩
    rw [if_neg hn0]
    obtain ⟨block, hblock⟩ := Option.isSome_iff_exists.1 (hlook 0 (by omega))
    rw [Nat.add_zero] at hblock
    rw [hblock, Option.bind_eq_bind, Option.bind_some]
    generalize hk : (if n < f.blockSize then n else f.blockSize) = k
    have hk' : k ≤ n ∧ k ≤ f.blockSize ∧ 0 < k ∧ (n - k ≠ 0 → k = f.blockSize) := by
      rw [← hk]
      split <;> omega
    dsimp only
    have hstart : Word32.mul block f.blockSize < 2 ^ 32 := Word32.wrap_lt _
    have hspan := Nat.mod_lt (Word32.mul block f.blockSize) (show 0 < f.dev.size by omega)
    have hread := @hddEnhancedRead_mem f.dev (by omega) (by omega) (Word32.mul block f.blockSize)
      ptr k r (by omega) (by omega) (by omega)
    generalize hddEnhancedRead f.dev (Word32.mul block f.blockSize) ptr k r = r₁ at hread ⊢
    rw [Word32.sub_of_le hk'.1 (by omega)]
    obtain ⟨r', hr', hmem⟩ := @ih r₁ (b + 1) (n - k) (ptr + k) (by omega) (fun j hj => by
      have hfull := hk'.2.2.2 (by omega)
      have := hlook (j + 1) (by rw [Nat.succ_mul]; omega)
      rwa [Nat.add_comm j 1, ← Nat.add_assoc] at this) (by omega) (by omega)
    refine ⟨r', hr', ?_⟩
    rw [hmem, hread, Memory.write_append (h := fun i => f.dev.byte (Word32.mul
      (f.block (b + i / f.blockSize)) f.blockSize + i % f.blockSize)) (fun i hi => ?_)
      (fun i hi => ?_), Nat.add_sub_cancel' hk'.1]
    · -- a byte of block `b`
      rw [Nat.div_eq_of_lt (by omega), Nat.mod_eq_of_lt (by omega), Nat.add_zero, Ext2File.block,
        hblock]
      rfl
    · rw [hk'.2.2.2 (by omega), Nat.add_div_left _ h0, Nat.add_mod_left,
        Nat.add_comm (i / f.blockSize) 1, Nat.add_assoc]

/-- A load in the file, or in its first page. -/
theorem Opened.load_self (h : f.Opened) (hp : f.streamPos < f.fileSize ∨ f.streamPos < pageSize) :
    ∃ r', e2fLoadBuffer f r =
        some ({ f with bufPos := f.streamPos % pageSize, bufferEmpty := false }, r') ∧
      ∀ i < pageSize, r'.mem (f.buffer + i) = f.pageByte f.streamPos i := by
  obtain ⟨r', hr', hmem⟩ := @Opened.loadLoop f r h pageSize
    (f.streamPos / pageSize * pageSize / f.blockSize) pageSize f.buffer (Nat.le_refl _)
    (h.mapped hp) (Nat.le_refl _) h.buffer
  refine ⟨r', ?_, fun i hi => ?_⟩
  · rw [e2fLoadBuffer, h.bufLen]
    rw [hr', Option.bind_eq_bind, Option.bind_some]
    rfl
  · rw [hmem, Memory.write_add hi]
    rfl

theorem Opened.load (h : f.Opened) (be : Bool) (hp : pos < f.fileSize ∨ pos < pageSize) :
    ∃ r', e2fLoadBuffer { f with streamPos := pos, bufPos := bp, bufferEmpty := be } r =
        some (f.at' pos (pos % pageSize), r') ∧
      ∀ i < pageSize, r'.mem (f.buffer + i) = f.pageByte pos i :=
  Opened.load_self (f := { f with streamPos := pos, bufPos := bp, bufferEmpty := be })
    ⟨h.1, h.2, h.3, h.4, h.5, h.6⟩ hp

/-! ## The copy loop -/

/-- How the buffer goes with the position, for a file with the content `S`: it holds the page of
the position, or it is used up, or nothing is left. -/
def InLine (f : Ext2File) (S : Nat → Byte) (r : Ram) (pos bp : Nat) : Prop :=
  (bp = pos % pageSize ∧ ∀ i < pageSize, pos / pageSize * pageSize + i < f.fileSize →
    r.mem (f.buffer + i) = S (pos / pageSize * pageSize + i)) ∨
  (bp = pageSize ∧ pos % pageSize = 0 ∧ 0 < pos) ∨ pos = f.fileSize

/-- The pages behind the first are loaded from the content `S`. -/
def Paged (f : Ext2File) (S : Nat → Byte) : Prop := ∀ p i, pageSize ≤ p → i < pageSize →
  p / pageSize * pageSize + i < f.fileSize → f.pageByte p i = S (p / pageSize * pageSize + i)

/-- `m` bytes of the stream have moved from the position `pos` on to `buf`. -/
structure Moves (f : Ext2File) (S : Nat → Byte) (r r' : Ram) (pos bp bp' buf m : Nat)
    (c c' : Caller) : Prop where
  moved : moved c'.log = SpuriOS.moved c.log + m
  isUser : c'.user.isUser = c.user.isUser
  outside : ∀ a, ¬(buf ≤ a ∧ a < buf + m) → c'.user.byte a = c.user.byte a
  content : f.Paged S → f.InLine S r pos bp → f.InLine S r' (pos + m) bp' ∧
    ∀ i < m, c'.user.byte (buf + i) = S (pos + i)

theorem Moves.refl (f : Ext2File) (S : Nat → Byte) (r : Ram) (pos bp buf : Nat) (c : Caller) :
    f.Moves S r r pos bp bp buf 0 c c :=
  ⟨rfl, rfl, fun _ _ => rfl, fun _ hin => ⟨hin, fun _ hi => absurd hi (Nat.not_lt_zero _)⟩⟩

theorem Moves.trans {bp₁ bp' m : Nat} (h : f.Moves S r r₁ pos bp bp₁ buf k c c₁)
    (h' : f.Moves S r₁ r' (pos + k) bp₁ bp' (buf + k) m c₁ c') :
    f.Moves S r r' pos bp bp' buf (k + m) c c' where
  moved := by rw [h'.moved, h.moved, Nat.add_assoc]
  isUser := h'.isUser.trans h.isUser
  outside a ha := (h'.outside a (by omega)).trans (h.outside a (by omega))
  content hp hin := by
    obtain ⟨hin₁, hbytes⟩ := h.content hp hin
    obtain ⟨hin', hbytes'⟩ := h'.content hp hin₁
    refine ⟨by rwa [← Nat.add_assoc], fun i hi => ?_⟩
    by_cases hik : i < k
    · rw [h'.outside _ (by omega), hbytes i hik]
    · have := hbytes' (i - k) (by omega)
      rwa [show buf + k + (i - k) = buf + i by omega,
        show pos + k + (i - k) = pos + i by omega] at this

/-- The chunk that a round copies from a buffer in line with the position. -/
theorem InLine.chunk (hin : f.InLine S r pos bp) (hk : k = min rem (pageSize - bp))
    (h0 : rem ≠ 0) (hend : pos + rem ≤ f.fileSize) {i : Nat} (hi : i < k) :
    r.mem (f.buffer + bp + i) = S (pos + i) := by
  obtain ⟨rfl, hholds⟩ | ⟨rfl, -⟩ | rfl := hin
  · have hdiv := Nat.div_add_mod pos pageSize
    rw [Nat.mul_comm] at hdiv
    rw [Nat.add_assoc, hholds _ (by omega) (by omega), ← Nat.add_assoc, hdiv]
  · omega
  · omega

/-- When the request is not done, the position is at a page behind the first. -/
theorem InLine.next_page (hin : f.InLine S r pos bp) (hk : k = min rem (pageSize - bp))
    (hmore : k < rem) (hend : pos + rem ≤ f.fileSize) : pageSize ≤ pos + k := by
  have hps := pageSize_eq
  obtain ⟨rfl, -⟩ | ⟨rfl, hmod, hpos⟩ | rfl := hin
  · have := Nat.mod_le pos pageSize
    have := Nat.mod_lt pos (show 0 < pageSize by omega)
    omega
  · have := Nat.le_of_dvd hpos (Nat.dvd_of_mod_eq_zero hmod)
    omega
  · omega

/-- The end of the request leaves the buffer in line. -/
theorem InLine.done (hin : f.InLine S r pos bp) (hle : rem ≤ pageSize - bp) (h0 : rem ≠ 0)
    (hend : pos + rem ≤ f.fileSize) : f.InLine S r (pos + rem) (bp + rem) := by
  have hps := pageSize_eq
  obtain ⟨rfl, hholds⟩ | ⟨rfl, -⟩ | rfl := hin
  · by_cases hfull : pos % pageSize + rem = pageSize
    · refine .inr (.inl ⟨hfull, ?_, by omega⟩)
      rw [hps] at hfull ⊢
      omega
    · rw [hps] at hfull hle
      have hpage : (pos + rem) / pageSize = pos / pageSize := by
        rw [hps]
        omega
      refine .inl ⟨?_, fun i hi hlt => ?_⟩
      · rw [hps]
        omega
      · rw [hpage] at hlt ⊢
        exact hholds i hi hlt
  · omega
  · omega

/-- What is copied in a round, when the next page is loaded after it. -/
theorem Moves.chunk_load (hk : k = min rem (pageSize - bp)) (hmore : k < rem)
    (hend : pos + rem ≤ f.fileSize)
    (hload : ∀ i < pageSize, r₁.mem (f.buffer + i) = f.pageByte (pos + k) i) :
    f.Moves S r r₁ pos bp ((pos + k) % pageSize) buf k c
      (c.after (fun i => r.mem (f.buffer + bp + i)) buf k) where
  moved := moved_append ..
  isUser := rfl
  outside a ha := Caller.after_of_not ha
  content hp hin := ⟨.inl ⟨rfl, fun i hi hlt => (hload i hi).trans
      (hp _ _ (hin.next_page hk hmore hend) hi hlt)⟩,
    fun i hi => (Caller.after_add hi).trans (hin.chunk hk (by omega) hend hi)⟩

/-- And when it is the last one. -/
theorem Moves.chunk_done (h0 : rem ≠ 0) (hle : rem ≤ pageSize - bp)
    (hend : pos + rem ≤ f.fileSize) :
    f.Moves S r r pos bp (bp + rem) buf rem c
      (c.after (fun i => r.mem (f.buffer + bp + i)) buf rem) where
  moved := moved_append ..
  isUser := rfl
  outside a ha := Caller.after_of_not ha
  content _ hin := ⟨hin.done hle h0 hend, fun i hi => (Caller.after_add hi).trans
    (hin.chunk (by omega) h0 hend hi)⟩

/-- The copy loop comes back, and moves no more than is left of the request. -/
theorem Opened.readLogged (h : f.Opened) (S : Nat → Byte) {fuel size total : Nat}
    (hbp : bp ≤ pageSize) (hfuel : rem < fuel) (hfull : bp = pageSize → 0 < rem → rem + 1 < fuel)
    (hend : pos + rem ≤ f.fileSize) (hlt : f.fileSize < 2 ^ 32) (htotal : total + rem = size) :
    ∃ n m bp' r' c', ext2FileReadLogged size fuel rem total buf (f.at' pos bp) r c =
        (some (n, f.at' (pos + m) bp', r'), c') ∧ m ≤ rem ∧ bp' ≤ pageSize ∧
      (n = -1 ∨ n = size ∧ m = rem) ∧ f.Moves S r r' pos bp bp' buf m c c' := by
  have hps := pageSize_eq
  induction fuel generalizing pos bp rem total buf r c with
  | zero => omega
  | succ fuel ih =>
    by_cases h0 : rem = 0
    · subst h0
      refine ⟨total, 0, bp, r, c, ?_, Nat.le_refl _, hbp, .inr ⟨by omega, rfl⟩, .refl ..⟩
      rw [ext2FileReadLogged, if_pos rfl, if_pos (by omega), Nat.add_zero]
    have hchunk : (f.at' pos bp).chunk rem = min rem (pageSize - bp) := by
      rw [chunk, at'_bufLen, h.bufLen, at'_bufPos, Word32.sub_of_le hbp (by omega)]
      split <;> omega
    rw [ext2FileReadLogged, if_neg h0]
    dsimp only
    rw [hchunk]
    generalize hk : min rem (pageSize - bp) = k
    cases huser : c.user.isUser buf with
    | false =>
      rw [if_pos Bool.false_ne_true, Caller.copy2user_false huser]
      refine ⟨-1, 0, bp, r, _, by rw [Nat.add_zero], Nat.zero_le _, hbp, .inl rfl, ?_⟩
      have hrefl := Moves.refl f S r pos bp buf c
      exact ⟨(moved_append ..).trans (Nat.add_zero _), rfl, hrefl.outside, hrefl.content⟩
    | true =>
      have hadvance : (f.at' pos bp).advance k = f.at' (pos + k) (bp + k) := by
        rw [advance, at'_bufPos, at'_streamPos, Word32.add_of_lt (by omega),
          Word32.add_of_lt (by omega)]
        rfl
      rw [if_neg (not_not_intro rfl), Caller.copy2user_true huser, hadvance,
        Word32.sub_of_le (by omega) (by omega)]
      by_cases hmore : rem - k > 0
      · obtain ⟨r₁, hload, hbytes⟩ := @Opened.load f r (pos + k) (bp + k) h false (.inl (by omega))
        have hmod := Nat.mod_lt (pos + k) (show 0 < pageSize by omega)
        have hround := @Moves.chunk_load f r r₁ S pos bp k rem buf c hk.symm (by omega) hend hbytes
        obtain ⟨n, m, bp', r', c', hrun, hle, hbp', hn, hmoves⟩ := @ih r₁ (pos + k)
          ((pos + k) % pageSize) (rem - k) (buf + k) _ (total + k) (by omega) (by omega) (by omega)
          (by omega) (by omega)
        have hload' : e2fLoadBuffer (f.at' (pos + k) (bp + k)) r = _ := hload
        rw [if_pos hmore, hload']
        refine ⟨n, k + m, bp', r', c', ?_, by omega, hbp', ?_, hround.trans hmoves⟩
        · rw [← Nat.add_assoc]
          exact hrun
        · rcases hn with hn | ⟨hn, hm⟩
          · exact .inl hn
          · exact .inr ⟨hn, by omega⟩
      · obtain rfl : k = rem := by omega
        obtain ⟨fuel, rfl⟩ : ∃ n, fuel = n + 1 := ⟨fuel - 1, by omega⟩
        rw [if_neg hmore, Nat.sub_self, ext2FileReadLogged, if_pos rfl, if_pos htotal]
        exact ⟨_, k, bp + k, r, _, rfl, Nat.le_refl _, by omega, .inr ⟨by rw [htotal], rfl⟩,
          .chunk_done h0 (by omega) hend⟩

/-! ## A read of an open file -/

/-- Nothing was read yet, or the buffer is in line with the position. -/
def Synced (f : Ext2File) (S : Nat → Byte) (g : Ext2File) (r : Ram) : Prop :=
  (g = f ∧ f.bufferEmpty = true) ∨ ∃ pos bp, g = f.at' pos bp ∧ f.InLine S r pos bp

/-- The first page is loaded from the content `S`. -/
def FirstPage (f : Ext2File) (S : Nat → Byte) : Prop :=
  f.bufferEmpty = true → ∀ i < pageSize, i < f.fileSize → f.pageByte 0 i = S i

/-- A read of `f` in the state `g` has moved `m` bytes. -/
structure ReadsTo (f : Ext2File) (S : Nat → Byte) (g g' : Ext2File) (r r' : Ram) (buf m : Nat)
    (n : Int) (c c' : Caller) : Prop where
  le : m ≤ f.fileSize - g.streamPos
  result : n = -1 ∨ n = m
  used : f.Used g'
  streamPos : g'.streamPos = g.streamPos + m
  moved : SpuriOS.moved c'.log = SpuriOS.moved c.log + m
  content : f.Paged S → f.FirstPage S → f.Synced S g r → f.Synced S g' r' ∧
    ∀ i < m, c'.user.byte (buf + i) = S (g.streamPos + i)

theorem Opened.fileSize_lt (h : f.Opened) : f.fileSize < 2 ^ 31 := by
  have hsize := h.fileSize
  obtain ⟨k, hk, hbs⟩ := h.blockSize
  have hle : 2 ^ k ≤ 2 ^ 6 := Nat.pow_le_pow_right (by decide) hk
  omega

theorem Opened.read_at (h : f.Opened) (S : Nat → Byte) {size : Nat} (h0 : size ≠ 0)
    (hpos : pos ≤ f.fileSize) (hbp : bp ≤ pageSize) (hadd : pos + size < 2 ^ 32) :
    ∃ n m g' r' c', ext2FileReadCall (f.at' pos bp) r buf size c = (some (n, g', r'), c') ∧
      f.ReadsTo S (f.at' pos bp) g' r r' buf m n c c' := by
  have hlt := h.fileSize_lt
  have hclip : (f.at' pos bp).clip size = min size (f.fileSize - pos) := by
    rw [clip, at'_streamPos, at'_fileSize, Word32.add_of_lt hadd, Word32.sub_of_le hpos (by omega)]
    split <;> omega
  obtain ⟨n, m, bp', r', c', hrun, hle, hbp', hn, hmoves⟩ := @Opened.readLogged f r pos bp
    (min size (f.fileSize - pos)) buf c h S (min size (f.fileSize - pos) + 2)
    (min size (f.fileSize - pos)) 0 hbp (by omega) (fun _ _ => by omega) (by omega) (by omega)
    (Nat.zero_add _)
  refine ⟨n, m, _, r', c', ?_, ?_, ?_, .inr ⟨pos + m, by omega, bp', hbp', rfl⟩, rfl, hmoves.moved,
    fun hp _ hs => ?_⟩
  · rw [ext2FileReadCall, if_neg h0, loaded, at'_bufferEmpty, if_neg Bool.false_ne_true]
    dsimp only
    rw [hclip]
    exact hrun
  · dsimp only [at'_streamPos]
    omega
  · rcases hn with hn | ⟨hn, hm⟩
    · exact .inl hn
    · exact .inr (by rw [hn, hm])
  · obtain ⟨hf, hempty⟩ | ⟨pos', bp₁, heq, hin⟩ := hs
    · exact absurd hempty (by rw [← hf]; exact Bool.false_ne_true)
    · obtain ⟨hpos', hbp₁⟩ : pos = pos' ∧ bp = bp₁ :=
        ⟨congrArg streamPos heq, congrArg bufPos heq⟩
      subst hpos' hbp₁
      obtain ⟨hin', hbytes⟩ := hmoves.content hp hin
      exact ⟨.inr ⟨_, _, rfl, hin'⟩, hbytes⟩

/-- The first read loads the first page. -/
theorem Opened.read_first (h : f.Opened) (S : Nat → Byte) {size : Nat} (h0 : size ≠ 0)
    (hstart : f.streamPos = 0) (hempty : f.bufferEmpty = true) (hadd : size < 2 ^ 32) :
    ∃ n m g' r' c', ext2FileReadCall f r buf size c = (some (n, g', r'), c') ∧
      f.ReadsTo S f g' r r' buf m n c c' := by
  obtain ⟨r₁, hload, hbytes⟩ := @Opened.load_self f r h (.inr (by rw [hstart]; decide))
  have hat : { f with bufPos := f.streamPos % pageSize, bufferEmpty := false } = f.at' 0 0 := by
    rw [at', hstart]
    congr
  rw [hat] at hload
  obtain ⟨n, m, g', r', c', hrun, hto⟩ := @Opened.read_at f r₁ 0 0 buf c h S size h0 (Nat.zero_le _)
    (Nat.zero_le _) (by omega)
  refine ⟨n, m, g', r', c', ?_, ?_, hto.result, hto.used, ?_, hto.moved, fun hp hfirst _ => ?_⟩
  · rw [ext2FileReadCall, if_neg h0] at hrun ⊢
    rw [loaded, hempty, if_pos rfl, hload]
    rw [loaded, at'_bufferEmpty, if_neg Bool.false_ne_true] at hrun
    exact hrun
  · rw [hstart]
    exact hto.le
  · rw [hstart]
    exact hto.streamPos
  · have hin : f.InLine S r₁ 0 0 := .inl ⟨rfl, fun i hi hlt => by
      rw [hbytes i hi, hstart]
      rw [Nat.zero_div, Nat.zero_mul, Nat.zero_add] at hlt ⊢
      exact hfirst hempty i hi hlt⟩
    obtain ⟨hsync, hcopy⟩ := hto.content hp hfirst (.inr ⟨0, 0, rfl, hin⟩)
    exact ⟨hsync, by rw [hstart]; exact hcopy⟩

theorem at'_zero (hstart : f.streamPos = 0 ∧ f.bufPos = 0) (hempty : f.bufferEmpty = false) :
    f.at' 0 0 = f := by
  rw [at', ← hstart.1]
  congr
  · exact hstart.1.trans hstart.2.symm
  · exact hempty.symm

/-- And of a directory the listing is there. -/
theorem Opened.read_open (h : f.Opened) (S : Nat → Byte) {size : Nat} (h0 : size ≠ 0)
    (hstart : f.streamPos = 0 ∧ f.bufPos = 0) (hempty : f.bufferEmpty = false)
    (hadd : size < 2 ^ 32) :
    ∃ n m g' r' c', ext2FileReadCall f r buf size c = (some (n, g', r'), c') ∧
      f.ReadsTo S f g' r r' buf m n c c' := by
  have hread := @Opened.read_at f r 0 0 buf c h S size h0 (Nat.zero_le _) (Nat.zero_le _) (by omega)
  rwa [at'_zero hstart hempty] at hread

/-- A read of an open file, wherever it is. -/
theorem Opened.readCall (h : f.Opened) (S : Nat → Byte) {g : Ext2File} (hg : f.Used g) {size : Nat}
    (hstart : f.streamPos = 0 ∧ f.bufPos = 0) (hadd : g.streamPos + size < 2 ^ 32) :
    ∃ n m g' r' c', ext2FileReadCall g r buf size c = (some (n, g', r'), c') ∧
      f.ReadsTo S g g' r r' buf m n c c' := by
  by_cases h0 : size = 0
  · refine ⟨0, 0, g, r, c, by rw [ext2FileReadCall, if_pos h0], Nat.zero_le _, .inr rfl, hg, rfl,
      rfl, fun _ _ hs => ⟨hs, fun _ hi => absurd hi (Nat.not_lt_zero _)⟩⟩
  obtain rfl | ⟨pos, hpos, bp, hbp, rfl⟩ := hg
  · cases hempty : g.bufferEmpty with
    | true => exact h.read_first S h0 hstart.1 hempty (by omega)
    | false => exact h.read_open S h0 hstart hempty (by omega)
  · exact h.read_at S h0 hpos hbp hadd

/-- Where every byte is at user level, a read that comes back has copied all it asked for. -/
theorem logged_all {f : Ext2File} {fuel size total : Nat} {x : Int × Ext2File × Ram}
    (hu : ∀ a, c.user.isUser a = true) (hrem : rem < 2 ^ 32)
    (h : (ext2FileReadLogged size fuel rem total buf f r c).1 = some x) :
    moved (ext2FileReadLogged size fuel rem total buf f r c).2.log = moved c.log + rem := by
  induction fuel generalizing rem total buf f r c with
  | zero => cases h
  | succ fuel ih =>
    by_cases h0 : rem = 0
    · rw [ext2FileReadLogged, if_pos h0, h0]
      rfl
    have hle : f.chunk rem ≤ rem := by
      rw [chunk]
      split <;> omega
    rw [ext2FileReadLogged, if_neg h0] at h ⊢
    dsimp only at h ⊢
    rw [if_neg (not_not_intro (hu buf)), Caller.copy2user_true (hu buf),
      Word32.sub_of_le hle hrem] at h ⊢
    have hmoved (src : Nat → Byte) : moved (c.after src buf (f.chunk rem)).log =
      moved c.log + f.chunk rem := moved_append ..
    have hu' (src : Nat → Byte) (a : Nat) :
      (c.after src buf (f.chunk rem)).user.isUser a = true := hu a
    split at h
    next hmore =>
      rw [if_pos hmore]
      split at h
      next => cases h
      next f₁ r₁ hload =>
        rw [ih (hu' _) (by omega) h, hmoved]
        omega
    next hmore =>
      rw [if_neg hmore, ih (hu' _) (by omega) h, hmoved]
      omega

/-- Byte `i` of the content that is loaded page by page. -/
theorem pageByte_page {p i : Nat} (hi : i < pageSize) :
    f.pageByte (p / pageSize * pageSize + i) ((p / pageSize * pageSize + i) % pageSize) =
      f.pageByte p i := by
  rw [pageSize_eq] at hi ⊢
  rw [pageByte, pageByte, pageSize_eq, show (p / 4096 * 4096 + i) % 4096 = i by omega,
    show (p / 4096 * 4096 + i) / 4096 = p / 4096 by omega]

theorem blockList_of_open {dev : BlockDev} {bs fileSize page : Nat} {iBlock : Nat → Nat}
    {list : Option Nat}
    (hopen : ext2OpenBlockList dev bs iBlock fileSize page r = some (list, r')) :
    ext2BlockCount fileSize bs ≤ 1036 ∧ (12 < ext2BlockCount fileSize bs → list.isSome) := by
  rw [ext2OpenBlockList] at hopen
  split at hopen
  next hle =>
    refine ⟨hle, fun hmany => ?_⟩
    rw [if_pos hmany] at hopen
    obtain rfl := congrArg Prod.fst (Option.some.inj hopen)
    rfl
  next hgt => cases hopen

/-- A regular file is open in this sense once `ext2_open` has its list. -/
theorem opened_of_open {dev : BlockDev} {k fileSize page buffer : Nat} {iBlock : Nat → Nat}
    {r₀ : Ram} (hdev : dev.size = 512) (hk : k ≤ 6) (hbuffer : buffer + pageSize < 2 ^ 32)
    (hopen : ext2OpenFile dev k iBlock fileSize page buffer r₀ = some (f, r)) :
    f.Opened ∧ f.streamPos = 0 ∧ f.bufPos = 0 := by
  have hbs : Word32.wrap (1024 <<< k) = 1024 * 2 ^ k := by
    rw [Nat.shiftLeft_eq]
    interval_cases k <;> rfl
  have h0 : 0 < 1024 * 2 ^ k := Nat.mul_pos (by decide) (Nat.two_pow_pos k)
  obtain ⟨hcover, -⟩ := @blockCount_bounds (1024 * 2 ^ k) fileSize h0
  rw [← ext2BlockCount] at hcover
  rw [ext2OpenFile, hbs, Option.bind_eq_bind, Option.bind_eq_some_iff] at hopen
  obtain ⟨⟨list, r₁⟩, hblocks, hopen⟩ := hopen
  obtain ⟨hle, hsome⟩ := blockList_of_open hblocks
  cases hopen
  refine ⟨⟨hdev, ⟨k, hk, hbs⟩, rfl, hbuffer, ?_, fun hlist i hi => ?_⟩, rfl, rfl⟩
  · rw [blockSize, hbs]
    exact hcover.trans (Nat.mul_le_mul_right _ hle)
  · rw [blockSize, hbs] at hlist
    dsimp only at hlist ⊢
    rw [if_pos hi, Option.isSome_map]
    exact hsome (Nat.lt_of_mul_lt_mul_right (hlist.trans_le hcover))

end Ext2File

/-! ## `/proc/cpuid` -/

/-- `PROC_CPUID_BUFSZ`. -/
def procCpuidBufsz : Nat := 100

namespace DevProcCpuid
variable {d : DevProcCpuid} {buf size : Nat} {c : Caller}

theorem clip_of_le (hp : d.streamPosition ≤ d.streamLength) (hlen : d.streamLength < 2 ^ 32)
    (hadd : d.streamPosition + size < 2 ^ 32) :
    d.clip size = min size (d.streamLength - d.streamPosition) := by
  rw [clip, Word32.add_of_lt hadd, Word32.sub_of_le hp hlen]
  split <;> omega

theorem read_false (h : c.user.isUser buf = false) : procCpuidRead d buf size c =
    (-1, d, { c with log := c.log ++ [⟨buf, d.clip size, false⟩] }) := by
  rw [procCpuidRead, Caller.copy2user_false h, Caller.copy2user, h]
  rfl

theorem read_true (h : c.user.isUser buf = true) (hlt : d.streamPosition + d.clip size < 2 ^ 31) :
    procCpuidRead d buf size c =
      ((d.clip size : Int), { d with streamPosition := d.streamPosition + d.clip size },
        c.after (fun i => d.buffer (d.streamPosition + i)) buf (d.clip size)) := by
  rw [procCpuidRead, Caller.copy2user_true h, Caller.copy2user, h, if_pos rfl]
  generalize d.clip size = n at hlt
  dsimp only
  rw [toInt32_of_lt (by omega), Int.toNat_natCast, Word32.add_of_lt (by omega)]
  split
  next hpos => rfl
  next hzero =>
    obtain rfl : n = 0 := by omega
    rfl

end DevProcCpuid

/-! ## The two devices -/

/-- An open device that has an end. -/
inductive StreamDev where
  | ext2File (f : Ext2File) (r : Ram)
  | procCpuid (d : DevProcCpuid)

inductive StreamOp where
  | read (buf size : Nat) (u : UserMem)
  | seek (position : Nat)

namespace StreamDev
open Circular (slice)

def length : StreamDev → Nat
  | ext2File f _ => f.fileSize
  | procCpuid d => d.streamLength

def position : StreamDev → Nat
  | ext2File f _ => f.streamPos
  | procCpuid d => d.streamPosition

/-- What there is to read after the opening: the pages of a file as they are loaded, of a directory
the listing that is in its buffer. -/
def content : StreamDev → Nat → Byte
  | ext2File f r, i =>
    if ¬f.bufferEmpty ∧ i < pageSize then r.mem (f.buffer + i) else f.pageByte i (i % pageSize)
  | procCpuid d, i => d.buffer i

/-- What `ext2_open` and `proc_cpuid_open` leave. -/
def OnOpen : StreamDev → Prop
  | ext2File f _ => f.Opened ∧ f.streamPos = 0 ∧ f.bufPos = 0
  | procCpuid d => d.streamLength ≤ procCpuidBufsz ∧ d.streamPosition = 0

def read (buf size : Nat) (c : Caller) : StreamDev → Option (Int × StreamDev) × Caller
  | ext2File f r =>
    let x := ext2FileReadCall f r buf size c
    (x.1.map fun (n, f, r) => (n, ext2File f r), x.2)
  | procCpuid d =>
    let x := procCpuidRead d buf size c
    (some (x.1, procCpuid x.2.1), x.2.2)

/-- `/proc/cpuid` has no `seek`. -/
def seek (position : Nat) : StreamDev → Option StreamDev
  | ext2File f r => (ext2FileSeek f position r).map fun (_, f, r) => ext2File f r
  | procCpuid _ => none

/-- A device with the bytes that its reads have delivered so far. -/
def call (x : StreamDev × List Byte) : StreamOp → Option (StreamDev × List Byte)
  | .read buf size u =>
    let y := x.1.read buf size ⟨u, []⟩
    y.1.map fun z => (z.2, x.2 ++ slice y.2.user.byte buf (moved y.2.log))
  | .seek position => (x.1.seek position).map (·, x.2)

/-- The calls on a device, from its opening on. -/
def runs (s₀ : StreamDev) : System (StreamDev × List Byte) StreamOp :=
  .ofFun (· = (s₀, [])) call

/-- The sum of position and size is none that wraps. -/
def NoWrap (x : StreamDev × List Byte) : StreamOp → Prop
  | .read _ size _ => x.1.position + size < 2 ^ 32
  | .seek _ => True

/-- And the call is a read. -/
def NoSeek (x : StreamDev × List Byte) : StreamOp → Prop
  | .read _ size _ => x.1.position + size < 2 ^ 32
  | .seek _ => False

/-- The read comes back, has moved no more than there is up to the end, says how much or that it
failed, and the position goes with it. -/
def Bounded (s : StreamDev) (buf size : Nat) (u : UserMem) : Prop :=
  ∃ n s' c, s.read buf size ⟨u, []⟩ = (some (n, s'), c) ∧
    moved c.log ≤ s.length - s.position ∧ (n = moved c.log ∨ n < 0) ∧
    s'.length = s.length ∧ s'.position = s.position + moved c.log ∧ s'.position ≤ s'.length

/-- A device after calls since its opening. -/
def Follows : StreamDev → StreamDev → Prop
  | ext2File f _, ext2File g _ => f.Used g
  | procCpuid d, procCpuid d' => ∃ p ≤ d.streamLength, d' = { d with streamPosition := p }
  | _, _ => False

/-- The same after reads only: the buffer goes with the position. -/
def InStep (s₀ s : StreamDev) : Prop :=
  match s₀, s with
  | ext2File f r₀, ext2File g r => f.Synced (content (ext2File f r₀)) g r
  | procCpuid d, procCpuid d' => d'.buffer = d.buffer
  | _, _ => False

variable {s₀ s s' : StreamDev} {x : StreamDev × List Byte} {buf size : Nat} {u : UserMem}

theorem Follows.position_le (h : s₀.OnOpen) (hs : s₀.Follows s) :
    s.length = s₀.length ∧ s.position ≤ s₀.length := by
  match s₀, s, h, hs with
  | ext2File f _, ext2File g _, h, hs =>
    obtain rfl | ⟨pos, hpos, bp, -, rfl⟩ := hs
    · exact ⟨rfl, h.2.1.trans_le (Nat.zero_le _)⟩
    · exact ⟨rfl, hpos⟩
  | procCpuid d, procCpuid d', _, hs =>
    obtain ⟨p, hp, rfl⟩ := hs
    exact ⟨rfl, hp⟩

theorem Follows.refl (h : s₀.OnOpen) : s₀.Follows s₀ := by
  cases s₀ with
  | ext2File f r => exact .inl rfl
  | procCpuid d => exact ⟨0, Nat.zero_le _, by rw [← h.2]⟩

section
variable {f : Ext2File} {r : Ram}

theorem content_paged : f.Paged (content (ext2File f r)) := by
  intro p i hp hi _
  have hps := pageSize_eq
  have hpage : ¬p / pageSize * pageSize + i < pageSize := by
    rw [hps] at hp ⊢
    omega
  rw [content, if_neg fun h => hpage h.2, Ext2File.pageByte_page hi]

theorem content_firstPage : f.FirstPage (content (ext2File f r)) := by
  intro hempty i hi _
  have hbyte := @Ext2File.pageByte_page f 0 i hi
  rw [Nat.zero_div, Nat.zero_mul, Nat.zero_add] at hbyte
  rw [content, if_neg fun h => h.1 hempty, hbyte]

end

/-- A file after its opening holds its content, or nothing yet. -/
theorem InStep.refl (h : s₀.OnOpen) : s₀.InStep s₀ := by
  cases s₀ with
  | ext2File f r =>
    cases hempty : f.bufferEmpty with
    | true => exact .inl ⟨rfl, hempty⟩
    | false =>
      refine .inr ⟨0, 0, (Ext2File.at'_zero h.2 hempty).symm, .inl ⟨rfl, fun i hi _ => ?_⟩⟩
      rw [Nat.zero_div, Nat.zero_mul, Nat.zero_add, content, hempty,
        if_pos ⟨Bool.false_ne_true, hi⟩]
  | procCpuid d => rfl

/-- What a read does from a position `p` in the stream: it moves `m` bytes. -/
structure Reads (s₀ s s' : StreamDev) (buf : Nat) (n : Int) (c : Caller) : Prop where
  le : moved c.log ≤ s.length - s.position
  result : n = moved c.log ∨ n < 0
  follows : s₀.Follows s'
  position : s'.position = s.position + moved c.log
  content : s₀.InStep s → s₀.InStep s' ∧
    slice c.user.byte buf (moved c.log) = slice s₀.content s.position (moved c.log)

theorem read_ext2File {f g : Ext2File} {r₀ r : Ram} (h : (ext2File f r₀).OnOpen) (hg : f.Used g)
    (hadd : g.streamPos + size < 2 ^ 32) :
    ∃ n s' c, (ext2File g r).read buf size ⟨u, []⟩ = (some (n, s'), c) ∧
      Reads (ext2File f r₀) (ext2File g r) s' buf n c := by
  obtain ⟨n, m, g', r', c, hread, hto⟩ := @Ext2File.Opened.readCall f r buf ⟨u, []⟩ h.1
    (content (ext2File f r₀)) g hg size h.2 hadd
  have hm : moved c.log = m := hto.moved.trans (Nat.zero_add m)
  have hlen : g.fileSize = f.fileSize := (Follows.position_le (s := ext2File g r) h hg).1
  refine ⟨n, ext2File g' r', c, ?_, ?_, ?_, hto.used, ?_, fun hstep => ?_⟩
  · rw [read, hread]
    rfl
  · rw [hm, length, hlen]
    exact hto.le
  · rw [hm]
    exact hto.result.symm.imp_right fun hn => by rw [hn]; decide
  · rw [hm]
    exact hto.streamPos
  · obtain ⟨hstep', hbytes⟩ := hto.content content_paged content_firstPage hstep
    rw [hm]
    exact ⟨hstep', Circular.slice_congr hbytes⟩

theorem read_procCpuid {d d' : DevProcCpuid} (h : (procCpuid d).OnOpen)
    (hd : (procCpuid d).Follows (procCpuid d')) (hadd : d'.streamPosition + size < 2 ^ 32) :
    ∃ n s' c, (procCpuid d').read buf size ⟨u, []⟩ = (some (n, s'), c) ∧
      Reads (procCpuid d) (procCpuid d') s' buf n c := by
  obtain ⟨p, hp, rfl⟩ := hd
  have hlen : d.streamLength ≤ 100 := h.1
  have hclip := @DevProcCpuid.clip_of_le { d with streamPosition := p } size hp
    (by dsimp only; omega) hadd
  cases huser : u.isUser buf with
  | false =>
    exact ⟨-1, procCpuid { d with streamPosition := p }, _,
      by rw [read, DevProcCpuid.read_false huser], Nat.zero_le _, .inr (by decide), ⟨p, hp, rfl⟩,
      rfl, fun hstep => ⟨hstep, rfl⟩⟩
  | true =>
    refine ⟨_, _, _, by rw [read, DevProcCpuid.read_true huser (by rw [hclip]; dsimp only; omega)],
      ?_⟩
    rw [hclip]
    dsimp only
    generalize hk : min size (d.streamLength - p) = k
    have hmoved : moved ((⟨u, []⟩ : Caller).after (fun i => d.buffer (p + i)) buf k).log = k :=
      (moved_append ..).trans (Nat.zero_add k)
    refine ⟨?_, .inl (by rw [hmoved]), ⟨p + k, by omega, rfl⟩, by rw [hmoved]; rfl, fun hstep => ?_⟩
    · rw [hmoved, length, position]
      dsimp only
      omega
    · rw [hmoved]
      exact ⟨hstep, Circular.slice_congr fun i hi => Caller.after_add hi⟩

theorem OnOpen.read (h : s₀.OnOpen) (hs : s₀.Follows s) (hadd : s.position + size < 2 ^ 32)
    (buf : Nat) (u : UserMem) : ∃ n s' c, s.read buf size ⟨u, []⟩ = (some (n, s'), c) ∧
      Reads s₀ s s' buf n c := by
  match s₀, s, h, hs with
  | ext2File f _, ext2File g _, h, hs => exact read_ext2File h hs hadd
  | procCpuid d, procCpuid d', h, hs => exact read_procCpuid h hs hadd

/-- A read whose sum wraps asks for more than there is, and nothing is cut. -/
theorem OnOpen.read_wraps (h : s₀.OnOpen) (hs : s₀.Follows s) (hsize : size < 2 ^ 32)
    (hadd : 2 ^ 32 ≤ s.position + size) (hu : ∀ a, u.isUser a = true) {z : Int × StreamDev}
    (hread : (s.read buf size ⟨u, []⟩).1 = some z) :
    s.length - s.position < moved (s.read buf size ⟨u, []⟩).2.log := by
  obtain ⟨hlen, hpos⟩ := hs.position_le h
  have hwrap : Word32.add s.position size = s.position + size - 2 ^ 32 ∨ 2 ^ 32 ≤ s.position := by
    rw [Word32.add, Word32.wrap]
    omega
  cases s₀ with
  | ext2File f r₀ =>
    obtain ⟨g, r⟩ | d' := s
    case procCpuid => exact hs.elim
    have hlt := h.1.fileSize_lt
    rw [length, length] at hlen
    rw [length] at hpos
    rw [position] at hadd hpos hwrap
    have hclip : ∀ {g' : Ext2File}, g'.streamPos = g.streamPos → g'.fileSize = g.fileSize →
        g'.clip size = size := fun hp hl => by
      rw [Ext2File.clip, hp, hl, if_neg (by omega)]
    rw [StreamDev.read] at hread ⊢
    dsimp only at hread ⊢
    obtain ⟨x, hread, -⟩ := Option.map_eq_some_iff.1 hread
    rw [ext2FileReadCall, if_neg (by omega)] at hread ⊢
    cases hload : g.loaded r with
    | none =>
      rw [hload] at hread
      cases hread
    | some y =>
      have hy : y.1.streamPos = g.streamPos ∧ y.1.fileSize = g.fileSize := by
        rw [Ext2File.loaded] at hload
        split at hload
        · rw [Ext2File.load_file hload]
          exact ⟨rfl, rfl⟩
        · cases hload
          exact ⟨rfl, rfl⟩
      rw [hload] at hread
      dsimp only at hread ⊢
      rw [hclip hy.1 hy.2] at hread ⊢
      rw [Ext2File.logged_all hu hsize hread, length, position, moved_nil]
      omega
  | procCpuid d =>
    obtain ⟨g, r⟩ | d' := s
    case ext2File => exact hs.elim
    have hlt : d.streamLength ≤ 100 := h.1
    rw [length, length] at hlen
    rw [length] at hpos
    rw [position] at hadd hpos hwrap
    have hclip : d'.clip size = size := by
      rw [DevProcCpuid.clip, if_neg (by omega)]
    have hlog := (DevCall.run_procCpuidRead d' u buf size).2
    rw [hclip, hu buf] at hlog
    have hmoved : moved ((procCpuid d').read buf size ⟨u, []⟩).2.log = size := by
      rw [show ((procCpuid d').read buf size ⟨u, []⟩).2.log = _ from hlog]
      rfl
    rw [hmoved, length, position]
    omega

/-- A read keeps to what is left of the stream just when the sum of position and size is none that
wraps. -/
theorem OnOpen.bounded_iff (h : s₀.OnOpen) (hs : s₀.Follows s) (hsize : size < 2 ^ 32) :
    (∀ buf u, s.Bounded buf size u) ↔ s.position + size < 2 ^ 32 := by
  obtain ⟨hlen, hpos⟩ := hs.position_le h
  constructor
  · intro hbounded
    by_contra hadd
    obtain ⟨n, s', c, hread, hle, -⟩ := hbounded 0 ⟨fun _ => 0, fun _ => true⟩
    have hmore := h.read_wraps hs hsize (by omega) (fun _ => rfl) (congrArg Prod.fst hread)
    rw [hread] at hmore
    exact absurd hmore (Nat.not_lt.2 hle)
  · intro hadd buf u
    obtain ⟨n, s', c, hread, hreads⟩ := h.read hs hadd buf u
    obtain ⟨hlen', hpos'⟩ := hreads.follows.position_le h
    exact ⟨n, s', c, hread, hreads.le, hreads.result, hlen'.trans hlen.symm, hreads.position,
      hlen' ▸ hpos'⟩

theorem Follows.seek (h : s₀.OnOpen) (hs : s₀.Follows s) {position : Nat}
    (hseek : s.seek position = some s') : s₀.Follows s' := by
  match s₀, s, h, hs with
  | ext2File f _, ext2File g r, h, hs =>
    obtain ⟨⟨n, g', r'⟩, hfile, rfl⟩ := Option.map_eq_some_iff.1 hseek
    exact Ext2File.Used.seek h.1.bufLen hs hfile

theorem OnOpen.position_eq (h : s₀.OnOpen) : s₀.position = 0 := by
  cases s₀ with
  | ext2File f r => exact h.2.1
  | procCpuid d => exact h.2

theorem call_follows (h : s₀.OnOpen) {op : StreamOp} {x' : StreamDev × List Byte}
    (hs : s₀.Follows x.1) (hop : NoWrap x op) (hcall : call x op = some x') : s₀.Follows x'.1 := by
  cases op with
  | read buf size u =>
    obtain ⟨n, s', c, hread, hreads⟩ := h.read hs hop buf u
    rw [call, hread] at hcall
    cases hcall
    exact hreads.follows
  | seek position =>
    obtain ⟨s', hseek, rfl⟩ := Option.map_eq_some_iff.1 hcall
    exact hs.seek h hseek

/-- After reads only: what was delivered is the stream up to the position. -/
structure Delivered (s₀ : StreamDev) (x : StreamDev × List Byte) : Prop where
  follows : s₀.Follows x.1
  inStep : s₀.InStep x.1
  position : x.1.position = x.2.length
  bytes : x.2 = slice s₀.content 0 x.2.length

theorem Delivered.call (h : s₀.OnOpen) {op : StreamOp} {x' : StreamDev × List Byte}
    (hx : s₀.Delivered x) (hop : NoSeek x op) (hcall : call x op = some x') :
    s₀.Delivered x' := by
  cases op with
  | read buf size u =>
    obtain ⟨n, s', c, hread, hreads⟩ := h.read hx.follows hop buf u
    rw [StreamDev.call, hread] at hcall
    cases hcall
    obtain ⟨hstep, hbytes⟩ := hreads.content hx.inStep
    have hlen : (x.2 ++ slice c.user.byte buf (moved c.log)).length =
        x.2.length + moved c.log := by
      rw [List.length_append, Circular.length_slice]
    refine ⟨hreads.follows, hstep, ?_, ?_⟩
    · rw [hlen, ← hx.position]
      exact hreads.position
    · rw [hlen, Circular.slice_add, ← hx.bytes, Nat.zero_add, ← hx.position, ← hbytes]
  | seek => exact hop.elim

end StreamDev

/-- In every run whose reads do not wrap the sum of position and size, a read keeps to what is left
of the stream just when it does not either; and reads alone deliver the stream from its first byte
on, up to the position. -/
theorem reads_in_stream_iff {s₀ : StreamDev} (h : s₀.OnOpen) {x : StreamDev × List Byte} :
    (Reach s₀.runs StreamDev.NoWrap x → x.1.position ≤ x.1.length ∧ ∀ size < 2 ^ 32,
      (∀ buf u, x.1.Bounded buf size u) ↔ x.1.position + size < 2 ^ 32) ∧
    (Reach s₀.runs StreamDev.NoSeek x → x.2.length ≤ s₀.length ∧
      x.2 = Circular.slice s₀.content 0 x.2.length ∧ x.1.position = x.2.length) := by
  constructor
  · intro hrun
    have hs : s₀.Follows x.1 := Reach.invariant (M := s₀.runs) (I := fun x => s₀.Follows x.1)
      (fun hx => hx ▸ .refl h) (fun hs hop hcall => StreamDev.call_follows h hs hop hcall) hrun
    obtain ⟨hlen, hpos⟩ := hs.position_le h
    exact ⟨hlen ▸ hpos, fun size hsize => h.bounded_iff hs hsize⟩
  · intro hrun
    have hx : s₀.Delivered x := Reach.invariant (M := s₀.runs)
      (fun hx => hx ▸ ⟨.refl h, .refl h, h.position_eq, rfl⟩)
      (fun hx hop hcall => hx.call h hop hcall) hrun
    refine ⟨?_, hx.bytes, hx.position⟩
    rw [← hx.position]
    exact (hx.follows.position_le h).2

/-- After 30 of the 38 bytes of `/proc/cpuid`, a read of as many keeps to the last 8. -/
theorem reads_in_stream_thirty :
    let x := (StreamDev.procCpuid { cpuidText with streamPosition := 30 }, List.replicate 30 0x20)
    (∀ buf u, x.1.Bounded buf 30 u) ∧
      x.2 = Circular.slice (StreamDev.procCpuid cpuidText).content 0 30 := by
  intro x
  have hopen : (StreamDev.procCpuid cpuidText).OnOpen := ⟨by decide, rfl⟩
  have hlt : (StreamDev.procCpuid cpuidText).position + 30 < 2 ^ 32 := by decide
  have hcall : StreamDev.call (.procCpuid cpuidText, []) (.read 0 30 userPages) = some x := rfl
  obtain ⟨-, hbounded⟩ := (reads_in_stream_iff hopen (x := x)).1 (.step
    (M := (StreamDev.procCpuid cpuidText).runs) (a := .read 0 30 userPages) (.init rfl) hlt hcall)
  obtain ⟨-, hbytes, -⟩ := (reads_in_stream_iff hopen (x := x)).2 (.step
    (M := (StreamDev.procCpuid cpuidText).runs) (a := .read 0 30 userPages) (.init rfl) hlt hcall)
  exact ⟨(hbounded 30 (by decide)).2 (by decide), hbytes⟩

/-- After one byte of `/proc/cpuid` a read of 2³² - 1 bytes copies them all. -/
theorem wrapped_read_overruns :
    ∃ x, Reach (StreamDev.procCpuid cpuidText).runs StreamDev.NoSeek x ∧
      ¬x.1.Bounded 0 (2 ^ 32 - 1) userPages := by
  have hlt : (StreamDev.procCpuid cpuidText).position + 1 < 2 ^ 32 := by decide
  refine ⟨(.procCpuid { cpuidText with streamPosition := 1 }, [0x20]),
    .step (M := (StreamDev.procCpuid cpuidText).runs) (a := .read 0 1 userPages) (.init rfl) hlt
      rfl,
    ?_⟩
  rintro ⟨n, s', c, hread, hle, -⟩
  have hmoved : moved c.log = 2 ^ 32 - 1 := by
    have hc := congrArg Prod.snd hread
    dsimp only at hc
    rw [← hc]
    rfl
  rw [hmoved] at hle
  exact absurd hle (by decide)

end SpuriOS
