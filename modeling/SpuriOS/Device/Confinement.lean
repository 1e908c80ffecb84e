import SpuriOS.Device.Buffers

/-! # Which bytes of its buffer a call gets to

Byte by byte, from the size of the call, the position of the device and the bytes that it has,
without the loops of the drivers. A call keeps to the pages of its user if and only if all these
bytes are there, or the device asks about the first and is told that it is not. -/

namespace SpuriOS

/-- How many bytes a read of `size` bytes at `pos` goes for, of a text or file of `len` bytes: the
rest of it at most. The sum of position and size is a word, so one that passes `2 ^ 32` is taken
for a small one. -/
def transferSize (pos size len : Nat) : Nat :=
  if pos ≤ len ∧ pos + size < 2 ^ 32 then min size (len - pos)
  else if (pos + size) % 2 ^ 32 ≤ len then size
  else Word32.sub len pos

namespace Ext2File

/-- Loading the page of position `p` finds all its block numbers. -/
def PageLoads (f : Ext2File) (p : Nat) : Prop :=
  0 < f.blockSize ∧ ∀ j, j * f.blockSize < pageSize →
    (f.lookup (p / pageSize * pageSize / f.blockSize + j)).isSome

/-- The number of bytes that the buffer of the file has from the position on. -/
def inBuffer (f : Ext2File) : Nat :=
  if f.bufferEmpty then pageSize - f.streamPos % pageSize else Word32.sub pageSize f.bufPos

/-- A page is loaded behind the bytes of the buffer and at each page border after that, and no load
up to byte `i` faults. -/
def Reaches (f : Ext2File) (size i : Nat) : Prop :=
  size ≠ 0 ∧ i < transferSize f.streamPos size f.fileSize ∧
    (f.bufferEmpty → f.PageLoads f.streamPos) ∧
    ∀ n ≤ i, n = f.inBuffer ∨ f.inBuffer < n ∧ (f.streamPos + n) % pageSize = 0 →
      f.PageLoads (Word32.add f.streamPos n)

end Ext2File

namespace PipeCall

/-- What the pipe has for the call: the bytes in it, or the room. -/
def ready (c : PipeCall) (s : Pipes) : Nat :=
  if c.writing then Word32.sub bufferSize (s.endpoints c.self).bytesAvailable
  else (s.endpoints c.self).bytesAvailable

/-- The other end is closed, and for a read the pipe is empty. -/
def Ends (c : PipeCall) (s : Pipes) : Prop :=
  (s.pair c.self).klass = .none ∧
    (c.writing = false → (s.endpoints c.self).bytesAvailable = 0)

/-- Of a chunk that goes round the end of the pipe's buffer, both parts are at the begin of the
caller's. -/
def chunkReach (pos n : Nat) : Nat :=
  if pos + n > bufferSize then max (bufferSize - pos) (n - (bufferSize - pos)) else n

/-- Every chunk is at the begin of the buffer, and byte `i` is one of a chunk. -/
def Reaches (c : PipeCall) (env : List Pipes) (i : Nat) : Prop :=
  ∃ before s after, env = before ++ s :: after ∧ (∀ t ∈ before, ¬c.Ends t) ∧ ¬c.Ends s ∧
    i < chunkReach (s.endpoints c.self).pos
      (min (c.ready s) (c.size - (c.sz + (before.map c.ready).sum)))

end PipeCall

/-- The length of the item at `p`: `\c` with two digits, another backslash with the character
behind it, or a character. -/
def itemLength (string : Nat → Byte) (p : Nat) : Nat :=
  if string p = '\\'.toUInt8 then if string (p + 1) = 'c'.toUInt8 then 4 else 2 else 1

/-- From `a` on there are whole items up to `p`, and no NUL. -/
inductive ItemAt (string : Nat → Byte) : (a p : Nat) → Prop where
  | here {p : Nat} : ItemAt string p p
  | next {a p : Nat} : string a ≠ 0 → ItemAt string (a + itemLength string a) p →
    ItemAt string a p

namespace DevCall

/-- The call gets to byte `i` of the buffer, if it is let. -/
def Reaches (call : DevCall) (u : UserMem) (buf size i : Nat) : Prop :=
  match call with
  | .ext2FileRead f _ _ => f.Reaches size i
  | .procCpuidRead d => i < transferSize d.streamPosition size d.streamLength
  | .pipeRead self env => PipeCall.Reaches ⟨false, self, buf, size, 0, u⟩ env i
  | .pipeWrite self env => PipeCall.Reaches ⟨true, self, buf, size, 0, u⟩ env i
  | .conRead chars => i = 0 ∧ 0 < size ∧ ∃ c ∈ chars, c ≠ 0
  | .conWrite =>
    let string := fun j => u.byte (buf + j)
    ∃ p < size, ItemAt string 0 p ∧ p ≤ i ∧ i < p + itemLength string p
  | .serialRead d woken =>
    ∃ port, (if d.bufferFree then woken else some d) = some port ∧ i < min size port.ptrTo
  | .serialWrite lstat => i < min size (lstat.count true)

/-- All bytes that the call gets to are at user level, or the first of the buffer is not and the
device says so. -/
def Safe (call : DevCall) (u : UserMem) (buf size : Nat) : Prop :=
  (∀ i, call.Reaches u buf size i → u.isUser (buf + i) = true) ∨
    call.Checks ∧ u.isUser buf = false

end DevCall

/-! ## The loops get so far -/

section
variable {u : UserMem} {f : Ext2File} {r : Ram} {c : PipeCall} {env : List Pipes}
  {string : Nat → Byte} {buf size pos len i n : Nat}

theorem transferSize_eq : transferSize pos size len =
    if Word32.add pos size > len then Word32.sub len pos else size := by
  rw [show Word32.add pos size = (pos + size) % 2 ^ 32 from rfl, transferSize]
  split
  next h =>
    rw [Nat.mod_eq_of_lt h.2]
    by_cases hlt : pos + size > len
    · rw [if_pos hlt, Word32.sub_of_le h.1 (by omega), min_eq_right (by omega)]
    · rw [if_neg hlt, min_eq_left (by omega)]
  next h =>
    by_cases hle : (pos + size) % 2 ^ 32 ≤ len
    · rw [if_pos hle, if_neg (Nat.not_lt.2 hle)]
    · rw [if_neg hle, if_pos (Nat.lt_of_not_le hle)]

theorem ItemAt.iff {a p : Nat} : ItemAt string a p ↔
    p = a ∨ string a ≠ 0 ∧ ItemAt string (a + itemLength string a) p := by
  constructor
  · rintro (_ | ⟨h0, h⟩)
    · exact .inl rfl
    · exact .inr ⟨h0, h⟩
  · rintro (rfl | ⟨h0, h⟩)
    · exact .here
    · exact .next h0 h

theorem ItemAt.le {a p : Nat} (h : ItemAt string a p) : a ≤ p := by
  induction h with
  | here => exact Nat.le_refl _
  | next _ _ ih => omega

theorem itemLength_pos (p : Nat) : 0 < itemLength string p := by
  rw [itemLength]
  split
  · split <;> decide
  · decide

/-- The loop of `vga_writebuf` goes over one item after the other. -/
theorem vgaSpan_succ {fuel sz : Nat} (h : sz < size) : vgaSpan string size (fuel + 1) sz =
    if string sz = 0 then sz + 1 else vgaSpan string size fuel (sz + itemLength string sz) := by
  rw [vgaSpan, if_pos h, itemLength]
  split
  · rfl
  · split
    · split <;> rfl
    · rfl

theorem lt_vgaSpan {fuel sz : Nat} (hfuel : size ≤ sz + fuel) :
    i < vgaSpan string size fuel sz ↔
      i < sz ∨ ∃ p < size, ItemAt string sz p ∧ p ≤ i ∧ i < p + itemLength string p := by
  have hend : ∀ sz, size ≤ sz →
      ¬∃ p < size, ItemAt string sz p ∧ p ≤ i ∧ i < p + itemLength string p := by
    rintro sz hsz ⟨p, hp, hitem, -⟩
    have := hitem.le
    omega
  induction fuel generalizing sz with
  | zero =>
    rw [vgaSpan, or_iff_left (hend sz hfuel)]
  | succ fuel ih =>
    by_cases hlt : sz < size
    · rw [vgaSpan_succ hlt]
      split
      next h0 =>
        have hlen : itemLength string sz = 1 := by
          rw [itemLength, if_neg (by rw [h0]; decide)]
        constructor
        · intro hi
          by_cases hsz : i < sz
          · exact .inl hsz
          · exact .inr ⟨sz, hlt, .here, by omega, by omega⟩
        · rintro (hi | ⟨p, -, hitem, -, hi⟩)
          · omega
          · obtain rfl | ⟨hne, -⟩ := ItemAt.iff.1 hitem
            · omega
            · exact (hne h0).elim
      next h0 =>
        have hpos : 0 < itemLength string sz := itemLength_pos sz
        refine (ih (by omega)).trans ?_
        constructor
        · rintro (hi | ⟨p, hp, hitem, hle, hi⟩)
          · by_cases hsz : i < sz
            · exact .inl hsz
            · exact .inr ⟨sz, hlt, .here, by omega, hi⟩
          · exact .inr ⟨p, hp, .next h0 hitem, hle, hi⟩
        · rintro (hi | ⟨p, hp, hitem, hle, hi⟩)
          · exact .inl (by omega)
          · obtain rfl | ⟨-, hitem⟩ := ItemAt.iff.1 hitem
            · exact .inl hi
            · exact .inr ⟨p, hp, hitem, hle, hi⟩
    · rw [vgaSpan.eq_2, if_neg hlt, or_iff_left (hend sz (Nat.le_of_not_lt hlt))]

/-! ### Pipes -/

theorem PipeCall.chunkReach_zero (pos : Nat) : chunkReach pos 0 = 0 := by
  rw [chunkReach]
  split <;> omega

theorem PipeCall.effSize_eq (c : PipeCall) (s : Pipes) :
    c.effSize s = min (c.ready s) (c.size - c.sz) := by
  rw [effSize, ready]
  split <;> rfl

/-- The round at `s`, and those after it. -/
theorem PipeCall.reaches_cons {s : Pipes} : c.Reaches (s :: env) i ↔
    ¬c.Ends s ∧ (i < chunkReach (s.endpoints c.self).pos (c.effSize s) ∨
      { c with sz := c.sz + c.ready s }.Reaches env i) := by
  rw [effSize_eq]
  constructor
  · rintro ⟨before, t, after, henv, hbefore, ht, hi⟩
    cases before with
    | nil =>
      cases henv
      exact ⟨ht, .inl hi⟩
    | cons s' before =>
      cases henv
      rw [List.forall_mem_cons] at hbefore
      rw [List.map_cons, List.sum_cons, ← Nat.add_assoc] at hi
      exact ⟨hbefore.1, .inr ⟨before, t, after, rfl, hbefore.2, ht, hi⟩⟩
  · rintro ⟨hs, hi | ⟨before, t, after, rfl, hbefore, ht, hi⟩⟩
    · exact ⟨[], s, env, rfl, by simp, hs, hi⟩
    · refine ⟨s :: before, t, after, rfl, List.forall_mem_cons.2 ⟨hs, hbefore⟩, ht, ?_⟩
      rw [List.map_cons, List.sum_cons, ← Nat.add_assoc]
      exact hi

/-- How much was moved does not matter but for what is left of the size. -/
theorem PipeCall.reaches_congr {c' : PipeCall} (hw : c'.writing = c.writing)
    (hself : c'.self = c.self) (hsize : ∀ n, c'.size - (c'.sz + n) = c.size - (c.sz + n)) :
    c'.Reaches env i ↔ c.Reaches env i := by
  have hends : ∀ s, c'.Ends s ↔ c.Ends s := fun s => by rw [Ends, Ends, hw, hself]
  have hready : c'.ready = c.ready := by
    funext s
    rw [ready, ready, hw, hself]
  simp only [Reaches, hends, hready, hself, hsize]

theorem PipeCall.not_reaches_of_full (h : c.size ≤ c.sz) : ¬c.Reaches env i := by
  rintro ⟨before, s, after, -, -, -, hi⟩
  rw [show c.size - (c.sz + (before.map c.ready).sum) = 0 by omega, Nat.min_zero,
    chunkReach_zero] at hi
  omega

theorem lt_pipeSpan : i < pipeSpan env c ↔ c.Reaches env i := by
  induction env generalizing c with
  | nil =>
    refine iff_of_false (Nat.not_lt_zero i) ?_
    rintro ⟨before, s, after, henv, -⟩
    cases before <;> cases henv
  | cons s env ih =>
    by_cases hfull : c.size ≤ c.sz
    · refine iff_of_false ?_ (PipeCall.not_reaches_of_full hfull)
      have hround : (pipeRound s c).2.2 = .done c.sz := by
        rw [pipeRound]
        split
        · rw [pipeWriteRound, if_pos (by omega)]
        · rw [pipeReadRound, if_pos (by omega)]
      rw [pipeSpan, hround]
      exact Nat.not_lt_zero i
    have hnext : ∀ c' : PipeCall, c'.writing = c.writing → c'.self = c.self → c'.size = c.size →
        c'.sz = c.sz + c.effSize s →
        (i < pipeSpan env c' ↔ { c with sz := c.sz + c.ready s }.Reaches env i) := by
      intro c' hw hself hsize hsz
      rw [ih]
      refine PipeCall.reaches_congr hw hself fun n => ?_
      dsimp only
      rw [hsize, hsz, PipeCall.effSize_eq]
      omega
    rw [PipeCall.reaches_cons, pipeSpan]
    have hcases := pipeRound_cases s c
    generalize pipeRound s c = x at hcases
    cases hcases with
    | full h => omega
    | readEnd hw _ hpair hempty | writeEnd hw _ hpair =>
      refine iff_of_false (Nat.not_lt_zero i) fun h => h.1 ⟨hpair, fun hw' => ?_⟩
      first
        | exact hempty
        | exact absurd (hw.symm.trans hw') (by simp)
    | readBlock hw _ hpair hempty | writeBlock hw _ hpair hfull' =>
      have hzero : c.ready s = 0 := by
        rw [PipeCall.ready, hw]
        first
          | exact hempty
          | rw [if_pos rfl, hfull']; rfl
      rw [and_iff_right fun h => hpair h.1, PipeCall.effSize_eq,
        show min (c.ready s) (c.size - c.sz) = 0 by omega, PipeCall.chunkReach_zero,
        or_iff_right (Nat.not_lt_zero i)]
      exact hnext c rfl rfl rfl (by rw [PipeCall.effSize_eq]; omega)
    | readMove hw _ hready =>
      rw [and_iff_right fun h => hready (h.2 hw), ← hnext (readCall s c) rfl rfl rfl ?_]
      · exact lt_max_iff
      · rw [PipeCall.effSize, hw]
        rfl
    | writeMove hw _ hpair _ =>
      rw [and_iff_right fun h => hpair h.1, ← hnext (writeCall s c) rfl rfl rfl ?_]
      · exact lt_max_iff
      · rw [PipeCall.effSize, hw]
        rfl

/-! ### Files -/

namespace Ext2File

/-- A load goes through the blocks of the page, whatever is in memory. -/
theorem loadLoop_isSome {fuel b n ptr : Nat} (hfuel : n ≤ fuel) (hblock : 0 < f.blockSize)
    (hn : n < 2 ^ 32) : (e2fLoadBufferLoop f fuel b n ptr r).isSome ↔
      ∀ j, j * f.blockSize < n → (f.lookup (b + j)).isSome := by
  induction fuel generalizing b n ptr r with
  | zero =>
    obtain rfl : n = 0 := by omega
    simp [e2fLoadBufferLoop]
  | succ fuel ih =>
    rw [e2fLoadBufferLoop]
    split
    next h0 => simp [h0]
    next h0 =>
      have hsub : Word32.sub n (if n < f.blockSize then n else f.blockSize) = n - f.blockSize := by
        split
        · rw [Word32.sub_self hn]
          omega
        · exact Word32.sub_of_le (by omega) hn
      dsimp only
      rw [hsub]
      have hsplit : (∀ j, j * f.blockSize < n → (f.lookup (b + j)).isSome) ↔
          (f.lookup b).isSome ∧
            ∀ j, j * f.blockSize < n - f.blockSize → (f.lookup (b + 1 + j)).isSome := by
        constructor
        · intro h
          refine ⟨h 0 (by omega), fun j hj => ?_⟩
          have := h (j + 1) (by rw [Nat.succ_mul]; omega)
          rwa [Nat.add_assoc, Nat.add_comm 1 j]
        · rintro ⟨h0, h⟩ j hj
          cases j with
          | zero => exact h0
          | succ j =>
            rw [Nat.succ_mul] at hj
            have := h j (by omega)
            rwa [Nat.add_assoc, Nat.add_comm 1 j] at this
      rw [hsplit]
      cases f.lookup b with
      | none => simp
      | some block =>
        simp only [Option.isSome_some, true_and]
        exact ih (by omega) (by omega)

theorem loadBuffer_isSome (hlen : f.bufLen = pageSize) :
    (e2fLoadBuffer f r).isSome ↔ f.PageLoads f.streamPos := by
  have hmap : (e2fLoadBuffer f r).isSome = (e2fLoadBufferLoop f f.bufLen
      (f.streamPos / f.bufLen * f.bufLen / f.blockSize) f.bufLen f.buffer r).isSome := by
    rw [e2fLoadBuffer]
    cases e2fLoadBufferLoop f f.bufLen (f.streamPos / f.bufLen * f.bufLen / f.blockSize) f.bufLen
      f.buffer r <;> rfl
  rw [hmap, hlen, PageLoads]
  rcases Nat.eq_zero_or_pos f.blockSize with h0 | hpos
  · -- a round takes nothing off the size
    refine iff_of_false ?_ fun h => by omega
    have hstuck : ∀ fuel b ptr r, ¬(e2fLoadBufferLoop f fuel b pageSize ptr r).isSome := by
      intro fuel
      induction fuel with
      | zero => simp [e2fLoadBufferLoop, pageSize]
      | succ fuel ih =>
        intro b ptr r
        rw [e2fLoadBufferLoop, if_neg (by decide)]
        cases f.lookup b with
        | none => simp
        | some block =>
          have hround := ih (b + 1) (ptr + 0)
          rw [h0]
          exact hround _
    exact hstuck _ _ _ _
  · rw [and_iff_right hpos]
    exact loadLoop_isSome (Nat.le_refl _) hpos (by decide)

/-- What a load leaves as it was. -/
theorem loadBuffer_spec {f' : Ext2File} {r' : Ram} (hlen : f.bufLen = pageSize)
    (h : e2fLoadBuffer f r = some (f', r')) :
    f' = { f with bufPos := f.streamPos % pageSize, bufferEmpty := false } := by
  rw [e2fLoadBuffer, hlen] at h
  simp only [Option.bind_eq_bind, Option.bind_eq_some_iff] at h
  obtain ⟨r'', -, h⟩ := h
  cases h
  rw [hlen]

/-- The bytes of the buffer, and the loads behind them. -/
theorem lt_ext2Span {fuel n : Nat} (hlen : f.bufLen = pageSize)
    (hfuel : n + (if Word32.sub pageSize f.bufPos = 0 then 2 else 1) ≤ fuel) (hn : n < 2 ^ 32) :
    i < ext2Span fuel n f r ↔ i < n ∧
      ∀ m ≤ i, m = Word32.sub pageSize f.bufPos ∨
        Word32.sub pageSize f.bufPos < m ∧ (f.streamPos + m) % pageSize = 0 →
          f.PageLoads (Word32.add f.streamPos m) := by
  induction fuel generalizing f n i r with
  | zero => split at hfuel <;> omega
  | succ fuel ih =>
    rw [ext2Span]
    split
    next h0 => exact iff_of_false (Nat.not_lt_zero i) fun h => by omega
    next h0 =>
      dsimp only
      rw [chunk, hlen]
      generalize hleft : Word32.sub pageSize f.bufPos = left at hfuel
      by_cases hlast : n ≤ left
      · -- the buffer has all that is left
        have hchunk : (if n < left then n else left) = n := by split <;> omega
        rw [hchunk, Word32.sub_self hn, if_neg (Nat.lt_irrefl 0)]
        exact ⟨fun hi => ⟨hi, fun m hm hload => by omega⟩, And.left⟩
      · have hchunk : (if n < left then n else left) = left := by split <;> omega
        rw [hchunk, Word32.sub_of_le (by omega) hn, if_pos (by omega)]
        have hlen' : (f.advance left).bufLen = pageSize := hlen
        have hloads : (e2fLoadBuffer (f.advance left) r).isSome ↔
            f.PageLoads (Word32.add f.streamPos left) := loadBuffer_isSome hlen'
        cases hload : e2fLoadBuffer (f.advance left) r with
        | none =>
          rw [hload] at hloads
          dsimp only
          constructor
          · exact fun hi => ⟨by omega, fun m hm hm' => by omega⟩
          · rintro ⟨-, h⟩
            by_contra hi
            have := hloads.2 (h left (by omega) (.inl rfl))
            cases this
        | some x =>
          obtain ⟨f', r'⟩ := x
          rw [hload] at hloads
          have hfirst := hloads.1 rfl
          have hf' := loadBuffer_spec hlen' hload
          have hpos' : f'.streamPos = (f.streamPos + left) % 2 ^ 32 := by
            rw [hf']
            rfl
          have hlookup : ∀ p, f'.PageLoads p ↔ f.PageLoads p := fun p => by
            rw [hf']
            exact Iff.rfl
          have hleft' : Word32.sub pageSize f'.bufPos = pageSize - f'.streamPos % pageSize := by
            rw [hf', advance]
            have := Nat.mod_lt (Word32.add f.streamPos left) (show 0 < pageSize by decide)
            exact Word32.sub_of_le (Nat.le_of_lt this) (by decide)
          have hrest := ih (f := f') (n := n - left) (i := i - left) (r := r')
            (by rw [hf']; exact hlen) (by
              rw [hleft', pageSize_eq]
              split <;> split at hfuel <;> omega) (by omega)
          dsimp only
          by_cases hi : i < left
          · exact iff_of_true (by omega) ⟨by omega, fun m hm hm' => by omega⟩
          have hshift : i < left + ext2Span fuel (n - left) f' r' ↔
              i - left < ext2Span fuel (n - left) f' r' := by omega
          rw [hshift, hrest, hleft']
          refine and_congr (by omega) ⟨fun h m hm hm' => ?_, fun h m hm hm' => ?_⟩
          · obtain rfl | ⟨hlt, halign⟩ := hm'
            · exact hfirst
            · have hmod : (f'.streamPos + (m - left)) % pageSize = 0 := by
                rw [hpos', pageSize_eq]
                rw [pageSize_eq] at halign
                omega
              have := (hlookup _).1 (h (m - left) (by omega) (by
                rw [pageSize_eq] at hmod ⊢
                omega))
              rwa [hpos', Word32.add, Word32.wrap, Nat.mod_add_mod, Nat.add_assoc,
                Nat.add_sub_cancel' (Nat.le_of_lt hlt)] at this
          · have hmod : (f.streamPos + (left + m)) % pageSize = 0 := by
              rw [hpos', pageSize_eq] at hm'
              rw [pageSize_eq]
              omega
            have := h (left + m) (by omega) (.inr ⟨by rw [pageSize_eq] at hm'; omega, hmod⟩)
            rw [hlookup, hpos', Word32.add, Word32.wrap, Nat.mod_add_mod, Nat.add_assoc]
            exact this

end Ext2File

/-! ### All calls -/

theorem ext2Reaches_iff (hlen : f.bufLen = pageSize) (hsize : size < 2 ^ 32) :
    f.Reaches size i ↔ i < (DevCall.ext2FileRead f hlen r).span u buf size := by
  dsimp only [DevCall.span]
  rw [Ext2File.Reaches]
  by_cases h0 : size = 0
  · rw [if_pos h0]
    exact iff_of_false (fun h => h.1 h0) (Nat.not_lt_zero i)
  rw [if_neg h0, and_iff_right h0]
  have hclip : f.clip size = transferSize f.streamPos size f.fileSize := transferSize_eq.symm
  have hlt : transferSize f.streamPos size f.fileSize < 2 ^ 32 := by
    rw [transferSize_eq]
    split
    · exact Word32.wrap_lt _
    · exact hsize
  rw [Ext2File.loaded, Ext2File.inBuffer]
  cases hempty : f.bufferEmpty with
  | false =>
    rw [if_neg (by simp), if_neg (by simp)]
    dsimp only
    rw [hclip, Ext2File.lt_ext2Span hlen (by split <;> omega) hlt]
    simp
  | true =>
    rw [if_pos rfl, if_pos rfl]
    have hloads : (e2fLoadBuffer f r).isSome ↔ f.PageLoads f.streamPos :=
      Ext2File.loadBuffer_isSome hlen
    cases hload : e2fLoadBuffer f r with
    | none =>
      rw [hload] at hloads
      exact iff_of_false (fun h => by cases hloads.2 (h.2.1 rfl)) (Nat.not_lt_zero i)
    | some x =>
      obtain ⟨f', r'⟩ := x
      rw [hload] at hloads
      have hf' := Ext2File.loadBuffer_spec hlen hload
      have hleft : Word32.sub pageSize f'.bufPos = pageSize - f.streamPos % pageSize := by
        rw [hf']
        have := Nat.mod_lt f.streamPos (show 0 < pageSize by decide)
        exact Word32.sub_of_le (Nat.le_of_lt this) (by decide)
      have hsame : f'.clip size = f.clip size ∧ f'.streamPos = f.streamPos ∧
          ∀ p, f'.PageLoads p ↔ f.PageLoads p := by
        rw [hf']
        exact ⟨rfl, rfl, fun _ => Iff.rfl⟩
      dsimp only
      rw [Ext2File.lt_ext2Span (by rw [hf']; exact hlen) (by split <;> omega)
        (by rw [hsame.1, hclip]; exact hlt), hsame.1, hsame.2.1, hleft, hclip]
      simp only [hsame.2.2]
      rw [and_iff_right fun _ => hloads.1 rfl]

/-- The bytes that a call gets to are those of its span. -/
theorem DevCall.reaches_iff (call : DevCall) (hsize : size < 2 ^ 32) :
    call.Reaches u buf size i ↔ i < call.span u buf size := by
  cases call with
  | ext2FileRead f hlen r => exact ext2Reaches_iff hlen hsize
  | procCpuidRead d =>
    rw [Reaches, transferSize_eq]
    rfl
  | pipeRead self env | pipeWrite self env => exact lt_pipeSpan.symm
  | conRead chars =>
    dsimp only [Reaches, span]
    split
    next h => rw [and_iff_left h, Nat.lt_one_iff]
    next h => exact iff_of_false (fun hr => h hr.2) (Nat.not_lt_zero i)
  | conWrite =>
    dsimp only [Reaches, span]
    rw [lt_vgaSpan (by omega), or_iff_right (Nat.not_lt_zero i)]
  | serialRead d woken =>
    dsimp only [Reaches, span]
    by_cases hpos : size > 0
    · rw [if_pos hpos]
      cases (if d.bufferFree then woken else some d) with
      | none => simp
      | some port =>
        simp only [Option.some.injEq, exists_eq_left']
        split <;> omega
    · rw [if_neg hpos]
      refine iff_of_false ?_ (Nat.not_lt_zero i)
      rintro ⟨port, -, h⟩
      omega
  | serialWrite lstat => exact Iff.rfl

/-- A call keeps to the pages of its user if and only if the bytes that it gets to are there, or it
asks and the first is not. -/
theorem buffers_confined_iff (call : DevCall) (dir : PageDir) (byte : Nat → Byte)
    (buf size : UInt32) :
    UserConfined (dir.userMem byte) (call.run (dir.userMem byte) buf.toNat size.toNat) ↔
      call.Safe (dir.userMem byte) buf.toNat size.toNat := by
  rw [call.confined_iff_span, DevCall.Safe]
  simp only [call.reaches_iff size.toNat_lt]

end

/-- The stacks of a process: the page of the kernel stack follows that of the user stack. -/
def stackDir : PageDir where
  pde i := if i = 0x3fd then some 0x200 else none
  pte n :=
    if n = 0xff7fe then ⟨true, true, true, false, false, false, false, 0x500⟩
    else if n = 0xff7ff then ⟨true, true, false, false, false, false, false, 0x501⟩
    else .zero

/-- `/proc/cpuid` with 38 bytes. -/
def cpuidText : DevProcCpuid := ⟨fun _ => 0x20, 38, 0⟩

/-- Of 38 bytes that are read to the last 16 of the user stack, 22 go to the kernel stack. -/
theorem kernel_stack_overwritten :
    ((DevCall.procCpuidRead cpuidText).run (stackDir.userMem fun _ => 0) 0xff7feff0 38).1 =
        some 38 ∧
      mmPlOfVaddr 0xff7ff000 stackDir = .kernel ∧
      ¬UserConfined (stackDir.userMem fun _ => 0)
        ((DevCall.procCpuidRead cpuidText).run (stackDir.userMem fun _ => 0) 0xff7feff0 38) := by
  obtain ⟨hres, hlog⟩ := DevCall.run_procCpuidRead cpuidText
    (stackDir.userMem fun _ => 0) 0xff7feff0 38
  have hclip : cpuidText.clip 38 = 38 := by decide
  have hfirst : (stackDir.userMem fun _ => 0).isUser 0xff7feff0 = true := by decide
  rw [hclip, hfirst] at hres hlog
  refine ⟨hres, by decide, ?_⟩
  rintro (h | ⟨-, h⟩)
  · rw [hlog, List.forall_mem_singleton] at h
    exact absurd (h 16 (by decide)) (by decide)
  · rw [hlog, List.forall_mem_singleton] at h
    exact absurd (h rfl) (by decide)

end SpuriOS
