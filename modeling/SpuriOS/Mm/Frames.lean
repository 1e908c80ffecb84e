import SpuriOS.Lib.Transition
import SpuriOS.Mm.Bitmap

/-! # Frames that are held (`mm_mem_kalloc`, `mm_mem_alloc`, `mm_mem_free` of `kernel/mm.c`)

The bitmap with the frames that were handed out and not freed. `mm_mem_free` takes a frame for an
`int`: from 1 MB above 2 GB on it computes a position before the bitmap. -/

namespace SpuriOS

open Transition

/-- The bitmap at the start, now, and the frames held. -/
structure Frames where
  reserved : Bitmap
  bitmap : Bitmap
  held : List Nat

inductive FrameLabel where
  | alloc (r : MmRequest)
  | free (frame : Nat)

/-- A frame is freed only while it is held. -/
inductive FrameStep : Frames → FrameLabel → Frames → Prop
  | full {s : Frames} {r b'} : mmMemSeek r s.bitmap = some (0, b') →
    FrameStep s (.alloc r) { s with bitmap := b' }
  | alloc {s : Frames} {r frame b'} : mmMemSeek r s.bitmap = some (frame, b') → frame ≠ 0 →
    FrameStep s (.alloc r) { s with bitmap := b', held := frame :: s.held }
  | free {s : Frames} {frame b'} : frame ∈ s.held → mmMemFree frame s.bitmap = some b' →
    FrameStep s (.free frame) { s with bitmap := b', held := s.held.erase frame }

/-- The length of a bitmap for all of 4 GB. -/
def maxByteLen : Nat := (2 ^ 32 - himemBegin) / pageSize / 8

theorem maxByteLen_eq : maxByteLen = 131040 := rfl

structure Frames.Initial (s : Frames) : Prop where
  bitmap : s.bitmap = s.reserved
  held : s.held = []
  lo : kernelBytes ≤ s.reserved.byteLen
  hi : s.reserved.byteLen ≤ maxByteLen

def frameSystem : System Frames FrameLabel where
  init := Frames.Initial
  step := FrameStep

/-- The frames of a zone, in a bitmap of any length. -/
def inZone : MmRequest → Nat → Prop
  | .kernel, frame => himemBegin ≤ frame ∧ frame < mmKernelLimit
  | .user, frame => mmKernelLimit ≤ frame

/-- The bits are those set at the start and those of the frames held, and a request yields a frame
of its zone that is neither, or the zone is full. -/
structure Frames.Exclusive (s : Frames) : Prop where
  byteLen : s.bitmap.byteLen = s.reserved.byteLen
  outside : ∀ o : Int, ¬(0 ≤ o ∧ o < s.reserved.byteLen) → s.bitmap.byte o = s.reserved.byte o
  bits : ∀ p : Nat, p / 8 < s.reserved.byteLen →
    (s.bitmap.bit p = true ↔ s.reserved.bit p = true ∨ frameAt p ∈ s.held)
  nodup : s.held.Nodup
  request : ∀ r, ∃ frame b', mmMemSeek r s.bitmap = some (frame, b') ∧
    (frame ≠ 0 → frame % pageSize = 0 ∧ inZone r frame ∧ frame ∉ s.held ∧
      ∃ p : Nat, frame = frameAt p ∧ p / 8 < s.reserved.byteLen ∧ s.reserved.bit p = false) ∧
    (frame = 0 → ∀ p, zoneBegin r ≤ p / 8 → p / 8 < zoneEnd s.bitmap r → s.bitmap.bit p = true)
  free : ∀ frame ∈ s.held, frame < 0x80100000 → ∃ b', mmMemFree frame s.bitmap = some b'

/-! ## Frames and positions -/

section
variable {s s' : Frames} {b b' : Bitmap} {p q frame : Nat} {r : MmRequest}

theorem frameAt_eq (h : p / 8 < maxByteLen) : frameAt p = himemBegin + p * pageSize := by
  rw [maxByteLen_eq] at h
  simp only [frameAt, himemBegin, pageSize_eq]
  omega

theorem frameAt_inj (hp : p / 8 < maxByteLen) (hq : q / 8 < maxByteLen)
    (h : frameAt p = frameAt q) : p = q := by
  rw [frameAt_eq hp, frameAt_eq hq, pageSize_eq] at h
  omega

theorem inZone_frameAt (hp : p / 8 < maxByteLen) (hlo : zoneBegin r ≤ p / 8)
    (hhi : p / 8 < zoneEnd b r) : inZone r (frameAt p) := by
  rw [frameAt_eq hp, pageSize_eq]
  cases r with
  | kernel =>
    have : p / 8 < 96 := hhi
    simp only [inZone, himemBegin, mmKernelLimit]
    omega
  | user =>
    have : 96 ≤ p / 8 := hlo
    simp only [inZone, himemBegin, mmKernelLimit]
    omega

theorem frameAt_ne_zero (hp : p / 8 < maxByteLen) : frameAt p ≠ 0 := by
  rw [frameAt_eq hp]
  exact Nat.ne_of_gt (Nat.add_pos_left (by decide) _)

/-- Below 1 MB above 2 GB, `mm_mem_free` finds the bit of the frame. -/
theorem mmMemFree_eq (hp : p / 8 ≤ b.byteLen) (hmax : p / 8 < maxByteLen)
    (hlt : frameAt p < 0x80100000) : mmMemFree (frameAt p) b = some (b.unmark p) := by
  have hpos : (toInt32 ((frameAt p + (2 ^ 32 - himemBegin)) % 2 ^ 32)).tdiv pageSize = p := by
    rw [frameAt_eq hmax, himemBegin, pageSize_eq] at hlt ⊢
    rw [toInt32_of_lt (by omega), Int.tdiv_eq_ediv_of_nonneg (by omega)]
    omega
  rw [mmMemFree, hpos, Bitmap.clearBit_eq hp]

theorem zoneEnd_le (h : kernelBytes ≤ b.byteLen) (r : MmRequest) : zoneEnd b r ≤ b.byteLen := by
  cases r with
  | kernel => exact h
  | user => exact Nat.le_refl _

/-- A search comes back, with the first clear position of its zone if there is one. -/
theorem mmMemSeek_total (h : kernelBytes ≤ b.byteLen) (r : MmRequest) :
    ∃ f b', mmMemSeek r b = some (f, b') := by
  have hend := zoneEnd_le h r
  have hzone : zoneBegin r ≤ zoneEnd b r := by
    cases r with
    | kernel => exact Nat.zero_le _
    | user => exact h
  by_cases hz : ∃ p, zoneBegin r ≤ p / 8 ∧ p / 8 < zoneEnd b r ∧ b.bit p = false
  · obtain ⟨hlo, hhi, hp⟩ := Nat.find_spec hz
    refine ⟨_, _, mmMemSeek_first hlo hhi hp (fun q hq hlt => ?_) (by omega)⟩
    by_contra hb
    exact Nat.find_min hz hlt ⟨hq, by omega, Bool.eq_false_iff.2 hb⟩
  · refine ⟨_, _, mmMemSeek_full hzone fun q hlo hhi => ?_⟩
    by_contra hb
    exact hz ⟨q, hlo, hhi, Bool.eq_false_iff.2 hb⟩

/-! ## The invariant -/

/-- The frames held are those of bits that were clear at the start. -/
structure Frames.Inv (s : Frames) : Prop where
  byteLen : s.bitmap.byteLen = s.reserved.byteLen
  lo : kernelBytes ≤ s.reserved.byteLen
  hi : s.reserved.byteLen ≤ maxByteLen
  outside : ∀ o : Int, ¬(0 ≤ o ∧ o < s.reserved.byteLen) → s.bitmap.byte o = s.reserved.byte o
  bits : ∀ p : Nat, p / 8 < s.reserved.byteLen →
    (s.bitmap.bit p = true ↔ s.reserved.bit p = true ∨ frameAt p ∈ s.held)
  held : ∀ frame ∈ s.held, ∃ p : Nat, frame = frameAt p ∧ p / 8 < s.reserved.byteLen ∧
    s.reserved.bit p = false
  nodup : s.held.Nodup

theorem Frames.Initial.inv (h : s.Initial) : s.Inv where
  byteLen := by rw [h.bitmap]
  lo := h.lo
  hi := h.hi
  outside o _ := by rw [h.bitmap]
  bits p _ := by simp [h.bitmap, h.held]
  held frame hf := by simp [h.held] at hf
  nodup := by simp [h.held]

namespace Frames.Inv

theorem lt_max (h : s.Inv) (hp : p / 8 < s.reserved.byteLen) : p / 8 < maxByteLen :=
  Nat.lt_of_lt_of_le hp h.hi

theorem reserved_of_clear (h : s.Inv) (hp : p / 8 < s.reserved.byteLen)
    (hclear : s.bitmap.bit p = false) : s.reserved.bit p = false ∧ frameAt p ∉ s.held := by
  have := (h.bits p hp).not
  rw [not_or, Bool.not_eq_true, Bool.not_eq_true] at this
  exact this.1 hclear

/-- The bit of a frame that is handed out is set. -/
theorem mark (h : s.Inv) (hp : p / 8 < s.reserved.byteLen) (hclear : s.bitmap.bit p = false) :
    Frames.Inv { s with bitmap := s.bitmap.mark p, held := frameAt p :: s.held } := by
  obtain ⟨hres, hheld⟩ := h.reserved_of_clear hp hclear
  refine { h with
    outside := fun o ho => ?_
    bits := fun q hq => ?_
    held := fun frame hf => ?_
    nodup := List.nodup_cons.2 ⟨hheld, h.nodup⟩ }
  · have hne : o ≠ (p / 8 : Nat) := fun he => ho (by dsimp only; omega)
    exact (Function.update_of_ne hne ..).trans (h.outside o ho)
  · have hq' := h.bits q hq
    have hinj : frameAt q = frameAt p ↔ p = q :=
      ⟨fun he => (frameAt_inj (h.lt_max hq) (h.lt_max hp) he).symm, fun he => he ▸ rfl⟩
    rw [Bitmap.bit_mark, Bool.or_eq_true, hq', decide_eq_true_iff, List.mem_cons, hinj]
    exact or_assoc.trans (or_congr_right or_comm)
  · rcases List.mem_cons.1 hf with rfl | hf
    · exact ⟨p, rfl, hp, hres⟩
    · exact h.held frame hf

/-- The bit of a frame that is freed is cleared. -/
theorem unmark (h : s.Inv) (hp : p / 8 < s.reserved.byteLen) (hres : s.reserved.bit p = false) :
    Frames.Inv { s with bitmap := s.bitmap.unmark p, held := s.held.erase (frameAt p) } := by
  refine { h with
    outside := fun o ho => ?_
    bits := fun q hq => ?_
    held := fun frame hf => h.held frame (List.mem_of_mem_erase hf)
    nodup := h.nodup.erase _ }
  · have hne : o ≠ (p / 8 : Nat) := fun he => ho (by dsimp only; omega)
    exact (Function.update_of_ne hne ..).trans (h.outside o ho)
  · have hq' := h.bits q hq
    rw [Bitmap.bit_unmark, Bool.and_eq_true, hq', decide_eq_true_iff, h.nodup.mem_erase_iff]
    have hinj : frameAt q = frameAt p ↔ p = q :=
      ⟨fun he => (frameAt_inj (h.lt_max hq) (h.lt_max hp) he).symm, fun he => he ▸ rfl⟩
    constructor
    · rintro ⟨hq | hq, hne⟩
      · exact .inl hq
      · exact .inr ⟨fun he => hne (hinj.1 he), hq⟩
    · rintro (hq | ⟨hne, hq⟩)
      · refine ⟨.inl hq, fun he => ?_⟩
        subst he
        rw [hres] at hq
        exact nomatch hq
      · exact ⟨.inr hq, fun he => hne (hinj.2 he)⟩

theorem free_eq (h : s.Inv) (hp : p / 8 < s.reserved.byteLen) (hlt : frameAt p < 0x80100000) :
    mmMemFree (frameAt p) s.bitmap = some (s.bitmap.unmark p) :=
  mmMemFree_eq (by rw [h.byteLen]; exact Nat.le_of_lt hp) (h.lt_max hp) hlt

/-- What a request yields. -/
theorem request (h : s.Inv) (hseek : mmMemSeek r s.bitmap = some (frame, b')) :
    (frame = 0 ∧ b' = s.bitmap ∧
      ∀ p, zoneBegin r ≤ p / 8 → p / 8 < zoneEnd s.bitmap r → s.bitmap.bit p = true) ∨
    ∃ p : Nat, frame = frameAt p ∧ frame ≠ 0 ∧ b' = s.bitmap.mark p ∧
      p / 8 < s.reserved.byteLen ∧ s.bitmap.bit p = false ∧ inZone r frame := by
  rcases mmMemSeek_cases hseek with hfull | ⟨p, hlo, hhi, -, hclear, -, rfl, rfl⟩
  · exact .inl hfull
  · have hend := zoneEnd_le (b := s.bitmap) (h.byteLen ▸ h.lo) r
    rw [h.byteLen] at hend
    have hp : p / 8 < s.reserved.byteLen := Nat.lt_of_lt_of_le hhi hend
    exact .inr ⟨p, rfl, frameAt_ne_zero (h.lt_max hp), rfl, hp, hclear,
      inZone_frameAt (h.lt_max hp) hlo hhi⟩

theorem exclusive (h : s.Inv) : s.Exclusive where
  byteLen := h.byteLen
  outside := h.outside
  bits := h.bits
  nodup := h.nodup
  request r := by
    obtain ⟨frame, b', hseek⟩ := mmMemSeek_total (h.byteLen ▸ h.lo) r
    refine ⟨frame, b', hseek, fun hne => ?_, fun h0 => ?_⟩
    · obtain ⟨p, rfl, -, -, hp, hclear, hzone⟩ :=
        (h.request hseek).resolve_left fun hfull => hne hfull.1
      obtain ⟨hres, hheld⟩ := h.reserved_of_clear hp hclear
      refine ⟨?_, hzone, hheld, p, rfl, hp, hres⟩
      rw [frameAt_eq (h.lt_max hp), himemBegin, pageSize_eq]
      omega
    · rcases h.request hseek with ⟨-, -, hfull⟩ | ⟨p, -, hne, -⟩
      · exact hfull
      · exact absurd h0 hne
  free frame hf hlt := by
    obtain ⟨p, rfl, hp, -⟩ := h.held frame hf
    exact ⟨_, h.free_eq hp hlt⟩

end Frames.Inv

/-! ## Runs -/

/-- No frame from 1 MB above 2 GB on is freed. -/
def freesBelow (_ : Frames) : FrameLabel → Prop
  | .alloc _ => True
  | .free frame => frame < 0x80100000

theorem Frames.Inv.step {a : FrameLabel} (h : s.Inv) (hok : freesBelow s a)
    (hs : FrameStep s a s') : s'.Inv := by
  cases hs with
  | full hseek =>
    rcases h.request hseek with ⟨-, rfl, -⟩ | ⟨p, -, hne, -⟩
    · exact h
    · exact absurd rfl hne
  | alloc hseek hne =>
    obtain ⟨p, rfl, -, rfl, hp, hclear, -⟩ :=
      (h.request hseek).resolve_left fun hfull => hne hfull.1
    exact h.mark hp hclear
  | @free frame b' hheld hfree =>
    obtain ⟨p, rfl, hp, hres⟩ := h.held frame hheld
    rw [h.free_eq hp hok] at hfree
    obtain rfl := Option.some.inj hfree
    exact h.unmark hp hres

/-- In every run in which no frame from 1 MB above 2 GB on is freed, frames are handed out
exclusively, and a free undoes the request. -/
theorem frames_exclusive (h : Reach frameSystem freesBelow s) : s.Exclusive :=
  (Reach.invariant Frames.Initial.inv Frames.Inv.step h).exclusive

end

/-- A frame of the kernel zone is requested and freed again. -/
theorem frames_exclusive_free : ∃ s : Frames, s.held = [] ∧ s.Exclusive := by
  let b : Bitmap := ⟨fun _ => 0, 96⟩
  have hinit : Reach frameSystem freesBelow ⟨b, b, []⟩ :=
    .init ⟨rfl, rfl, Nat.le_refl _, by decide⟩
  have hseek : mmMemSeek .kernel b = some (0x100000, b.mark 0) :=
    mmMemSeek_first (p := 0) (by decide) (by decide) (by decide) (fun q _ hq => by omega)
      (by decide)
  have halloc : Reach frameSystem freesBelow ⟨b, b.mark 0, [0x100000]⟩ :=
    .step hinit (show freesBelow _ (.alloc .kernel) from trivial) (.alloc hseek (by decide))
  have hfree : mmMemFree 0x100000 (b.mark 0) = some ((b.mark 0).unmark 0) :=
    mmMemFree_eq (p := 0) (by decide) (by decide) (by decide)
  have hlt : 0x100000 < 0x80100000 := by decide
  exact ⟨_, rfl, frames_exclusive (.step halloc (show freesBelow _ (.free 0x100000) from hlt)
    (.free List.mem_cons_self hfree))⟩

/-! ## A frame above 2 GB -/

/-- All frames but the one at 2 GB and 1 MB are reserved. -/
def allButOne : Bitmap where
  byte o := if o = 65536 then 0x7F else 0xFF
  byteLen := maxByteLen

theorem allButOne_seek : mmMemSeek .user allButOne = some (0x80100000, allButOne.mark 524288) := by
  refine mmMemSeek_first (p := 524288) (by decide) (by decide) (by decide) (fun q _ hq => ?_)
    (by decide)
  have hbyte : allButOne.byte (q / 8 : Nat) = 0xFF#8 := if_neg (by omega)
  exact Bitmap.byte_full.1 hbyte q rfl

theorem mmMemFree_above (b : Bitmap) : mmMemFree 0x80100000 b =
    some { b with byte := Function.update b.byte (-65536) (b.byte (-65536) &&& 0x7F#8) } := by
  have hpos :
      (toInt32 ((0x80100000 + (2 ^ 32 - himemBegin)) % 2 ^ 32)).tdiv pageSize = -524288 := by
    decide
  have hoff : bitOffset (-524288) = -65536 := by decide
  rw [mmMemFree, hpos, clearBit]
  simp only [hoff]
  rw [if_neg (by omega), if_neg (by omega)]
  rfl

/-- The free of that frame clears a bit in front of the bitmap. -/
theorem free_above : ∃ s, Reach frameSystem anyStep s ∧ ¬s.Exclusive := by
  have hinit : Reach frameSystem anyStep ⟨allButOne, allButOne, []⟩ :=
    .init ⟨rfl, rfl, by decide, Nat.le_refl _⟩
  have halloc : Reach frameSystem anyStep ⟨allButOne, allButOne.mark 524288, [0x80100000]⟩ :=
    .step hinit trivial
      (@FrameStep.alloc ⟨allButOne, allButOne, []⟩ _ _ _ allButOne_seek (by omega))
  refine ⟨_, .step halloc trivial (.free List.mem_cons_self (mmMemFree_above _)), fun h => ?_⟩
  have hbyte := h.outside (-65536) fun ho => absurd ho.1 (by decide)
  dsimp only at hbyte
  rw [Function.update_self] at hbyte
  exact absurd hbyte (by decide)

end SpuriOS
