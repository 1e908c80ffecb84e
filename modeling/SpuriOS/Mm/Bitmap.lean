import SpuriOS.Common
import Mathlib.Data.Nat.Find
import Mathlib.Logic.Function.Basic
import Mathlib.Tactic.Common

/-! # The frame bitmap (`kernel/mm.c`)

The bits of the frames from `HIMEM_BEGIN` on, most significant bit of a byte first, and the
search for a free one. The positions are the `int`s of the source. The bytes are those of all
memory, counted from the bitmap, since a wrong position may lead out of it. A function that a
`kassert` stops yields `none`. -/

namespace SpuriOS

def himemBegin : Nat := 0x100000

def mmKernelLimit : Nat := 0x400000

/-- `mm_bitmap` and `mm_bitmap_byte_len`. -/
structure Bitmap where
  byte : Int → BitVec 8
  byteLen : Nat

def bitOffset (position : Int) : Int := position.tdiv 8

def bitShift (position : Int) : Nat := (7 - (position - bitOffset position * 8)).toNat

def getBit (position : Int) (b : Bitmap) : Option Bool :=
  let offset := bitOffset position
  if ¬offset ≤ b.byteLen then none
  else if ¬position - offset * 8 ≤ 8 then none
  else some ((b.byte offset >>> bitShift position) &&& 1#8 = 1#8)

def setBit (position : Int) (b : Bitmap) : Option Bitmap :=
  let offset := bitOffset position
  if ¬offset ≤ b.byteLen then none
  else if ¬position - offset * 8 ≤ 8 then none
  else
    let tmpBit := 1#8 <<< bitShift position
    some { b with byte := Function.update b.byte offset (b.byte offset ||| tmpBit) }

def clearBit (position : Int) (b : Bitmap) : Option Bitmap :=
  let offset := bitOffset position
  if ¬offset ≤ b.byteLen then none
  else if ¬position - offset * 8 ≤ 8 then none
  else
    let tmpBit := 1#8 <<< bitShift position ^^^ 0xFF#8
    some { b with byte := Function.update b.byte offset (b.byte offset &&& tmpBit) }

/-- The kernel zone ends, and the user zone starts, at this byte of the bitmap. -/
def kernelBytes : Nat := (mmKernelLimit - himemBegin) / pageSize / 8

/-- `HIMEM_BEGIN + position * PAGE_SIZE` as an address of 32 bits. -/
def frameAt (position : Int) : Nat := ((himemBegin + position * pageSize) % 2 ^ 32).toNat

/-- The cursor after the loop over the full bytes, of which there are at most `n`. -/
def skipFull (b : Bitmap) : Nat → Nat → Nat
  | 0, cursor => cursor
  | n + 1, cursor => if b.byte cursor ≠ 0xFF#8 then cursor else skipFull b n (cursor + 1)

/-- The loop over the `n` bits from `i` on, with `dir` for its result. -/
def takeBit (b : Bitmap) : Nat → Nat → Option (Nat × Bitmap)
  | 0, _ => some (0, b)
  | n + 1, i => do
    let bit ← getBit i b
    if bit = false then
      let b ← setBit i b
      some (frameAt i, b)
    else takeBit b n (i + 1)

inductive MmRequest where
  | kernel
  | user
  deriving DecidableEq

def zoneBegin : MmRequest → Nat
  | .kernel => 0
  | .user => kernelBytes

def zoneEnd (b : Bitmap) : MmRequest → Nat
  | .kernel => kernelBytes
  | .user => b.byteLen

def mmMemSeek (requestType : MmRequest) (b : Bitmap) : Option (Nat × Bitmap) :=
  let limit := zoneEnd b requestType
  let cursor := skipFull b (limit - zoneBegin requestType) (zoneBegin requestType)
  if cursor = limit then some (0, b)
  else do
    let (dir, b) ← takeBit b 8 (cursor * 8)
    if dir &&& 0xfff ≠ 0 then none else some (dir, b)

def mmMemKalloc : Bitmap → Option (Nat × Bitmap) := mmMemSeek .kernel

def mmMemAlloc : Bitmap → Option (Nat × Bitmap) := mmMemSeek .user

/-- The value of a word of 32 bits as an `int`. -/
def toInt32 (a : Nat) : Int := if a < 2 ^ 31 then a else a - 2 ^ 32

/-- The difference of two `int`s wraps around; the division rounds towards zero. -/
def mmMemFree (frame : Nat) (b : Bitmap) : Option Bitmap :=
  clearBit ((toInt32 ((frame + (2 ^ 32 - himemBegin)) % 2 ^ 32)).tdiv pageSize) b

theorem toInt32_of_lt {a : Nat} (h : a < 2 ^ 31) : toInt32 a = a := if_pos h

/-! ## Positions of the bitmap -/

namespace Bitmap

/-- The bit of a position. -/
def bit (b : Bitmap) (p : Nat) : Bool := (b.byte (p / 8 : Nat)).getLsbD (7 - p % 8)

def mark (b : Bitmap) (p : Nat) : Bitmap :=
  { b with byte := Function.update b.byte (p / 8 : Nat)
                     (b.byte (p / 8 : Nat) ||| 1#8 <<< (7 - p % 8)) }

def unmark (b : Bitmap) (p : Nat) : Bitmap :=
  { b with byte := Function.update b.byte (p / 8 : Nat)
                     (b.byte (p / 8 : Nat) &&& (1#8 <<< (7 - p % 8) ^^^ 0xFF#8)) }

variable {b : Bitmap} {p q : Nat}

@[simp] theorem mark_byteLen : (b.mark p).byteLen = b.byteLen := rfl

@[simp] theorem unmark_byteLen : (b.unmark p).byteLen = b.byteLen := rfl

theorem offset_shift (p : Nat) : bitOffset p = (p / 8 : Nat) ∧
    ((p : Int) - bitOffset p * 8 ≤ 8) ∧ bitShift p = 7 - p % 8 := by
  have h : bitOffset p = (p / 8 : Nat) := by
    rw [bitOffset, Int.tdiv_eq_ediv_of_nonneg (by omega)]
    omega
  refine ⟨h, ?_, ?_⟩
  · rw [h]; omega
  · rw [bitShift, h]; omega

theorem getBit_eq (h : p / 8 ≤ b.byteLen) : getBit p b = some (b.bit p) := by
  obtain ⟨hoff, hbit, hshift⟩ := offset_shift p
  simp only [getBit, hoff, hshift] at hbit ⊢
  rw [if_neg (by omega), if_neg (by omega), bit, Option.some.injEq, Bool.eq_iff_iff,
    decide_eq_true_iff]
  rw [BitVec.and_one_eq_setWidth_ofBool_getLsbD, BitVec.getLsbD_ushiftRight, Nat.add_zero]
  cases (b.byte (p / 8 : Nat)).getLsbD (7 - p % 8) <;> decide

theorem setBit_eq (h : p / 8 ≤ b.byteLen) : setBit p b = some (b.mark p) := by
  obtain ⟨hoff, hbit, hshift⟩ := offset_shift p
  simp only [setBit, hoff, hshift] at hbit ⊢
  rw [if_neg (by omega), if_neg (by omega), mark]

theorem clearBit_eq (h : p / 8 ≤ b.byteLen) : clearBit p b = some (b.unmark p) := by
  obtain ⟨hoff, hbit, hshift⟩ := offset_shift p
  simp only [clearBit, hoff, hshift] at hbit ⊢
  rw [if_neg (by omega), if_neg (by omega), unmark]

theorem getLsbD_tmpBit {m n : Nat} (hn : n < 8) : (1#8 <<< n).getLsbD m = decide (n = m) := by
  rw [← BitVec.twoPow_eq, BitVec.getLsbD_twoPow, decide_eq_true hn, Bool.true_and]

theorem getLsbD_full : ∀ m < 8, (0xFF#8).getLsbD m = true := by decide

@[simp] theorem bit_mark : (b.mark p).bit q = (b.bit q || decide (p = q)) := by
  by_cases ho : p / 8 = q / 8
  · simp only [bit, mark, ho, Function.update_self, BitVec.getLsbD_or]
    rw [getLsbD_tmpBit (by omega)]
    congr 1
    rw [decide_eq_decide]
    omega
  · simp only [bit, mark]
    rw [Function.update_of_ne (by omega), decide_eq_false (by omega), Bool.or_false]

@[simp] theorem bit_unmark : (b.unmark p).bit q = (b.bit q && decide (p ≠ q)) := by
  by_cases ho : p / 8 = q / 8
  · simp only [bit, unmark, ho, Function.update_self, BitVec.getLsbD_and, BitVec.getLsbD_xor]
    rw [getLsbD_tmpBit (by omega), getLsbD_full _ (by omega), Bool.xor_true, ← decide_not]
    congr 1
    rw [decide_eq_decide]
    omega
  · simp only [bit, unmark]
    rw [Function.update_of_ne (by omega), decide_eq_true (by omega), Bool.and_true]

/-- A byte is full when its bits are. -/
theorem byte_full {o : Nat} : b.byte o = 0xFF#8 ↔ ∀ p, p / 8 = o → b.bit p = true := by
  constructor
  · rintro h p rfl
    rw [bit, h]
    exact getLsbD_full _ (by omega)
  · intro h
    refine BitVec.eq_of_getLsbD_eq fun m hm => ?_
    have hb := h (8 * o + (7 - m)) (by omega)
    rw [bit, show (8 * o + (7 - m)) / 8 = o by omega,
      show 7 - (8 * o + (7 - m)) % 8 = m by omega] at hb
    exact hb.trans (getLsbD_full m hm).symm

end Bitmap

/-! ## The search -/

section
variable {b : Bitmap}

theorem skipFull_spec (n c : Nat) : ∃ m ≤ n, skipFull b n c = c + m ∧
    (∀ p, c ≤ p / 8 → p / 8 < c + m → b.bit p = true) ∧ (m < n → b.byte ↑(c + m) ≠ 0xFF#8) := by
  induction n generalizing c with
  | zero => exact ⟨0, Nat.le_refl _, rfl, fun p _ _ => by omega, fun h => by omega⟩
  | succ n ih =>
    rw [skipFull]
    split
    next h => exact ⟨0, Nat.zero_le _, rfl, fun p _ _ => by omega, fun _ => h⟩
    next h =>
      obtain ⟨m, hm, heq, hfull, hne⟩ := ih (c + 1)
      refine ⟨m + 1, by omega, by omega, fun p hp hp' => ?_, fun hlt => ?_⟩
      · rcases Nat.lt_or_ge c (p / 8) with hlt | hge
        · exact hfull p (by omega) (by omega)
        · exact Bitmap.byte_full.1 (Decidable.not_not.1 h) p (by omega)
      · rw [show c + (m + 1) = c + 1 + m by omega]
        exact hne (by omega)

theorem takeBit_spec {n i p : Nat} (hi : i ≤ p) (hn : p < i + n) (hp : b.bit p = false)
    (hfull : ∀ q, i ≤ q → q < p → b.bit q = true) (hlen : p / 8 ≤ b.byteLen) :
    takeBit b n i = some (frameAt p, b.mark p) := by
  induction n generalizing i with
  | zero => omega
  | succ n ih =>
    rw [takeBit, Bitmap.getBit_eq (by omega)]
    obtain rfl | hlt := Nat.eq_or_lt_of_le hi
    · simp only [hp, Bitmap.setBit_eq hlen, Option.bind_eq_bind, Option.bind_some, if_true]
    · simp only [hfull i (Nat.le_refl _) hlt, Option.bind_eq_bind, Option.bind_some]
      exact ih hlt (by omega) fun q hq => hfull q (by omega)

theorem takeBit_none {i : Nat} (h : b.byteLen < i / 8) (n : Nat) (hn : n ≠ 0) :
    takeBit b n i = none := by
  obtain ⟨hoff, -, -⟩ := Bitmap.offset_shift i
  cases n with
  | zero => exact absurd rfl hn
  | succ n =>
    have : getBit i b = none := by
      simp only [getBit, hoff]
      rw [if_pos (by omega)]
    rw [takeBit, this]
    rfl

theorem frameAt_aligned (p : Nat) : frameAt p &&& 0xfff = 0 := by
  rw [show 0xfff = 2 ^ 12 - 1 from rfl, Nat.and_two_pow_sub_one_eq_mod, frameAt, himemBegin,
    pageSize]
  omega

/-- The loop over the full bytes stops at the byte of the first clear bit. -/
theorem skipFull_first {lo hi p : Nat} (hlo : lo ≤ p / 8) (hhi : p / 8 < hi)
    (hp : b.bit p = false) (hfull : ∀ q, lo ≤ q / 8 → q < p → b.bit q = true) :
    skipFull b (hi - lo) lo = p / 8 := by
  obtain ⟨m, hm, heq, hskip, hne⟩ := skipFull_spec (b := b) (hi - lo) lo
  have hle : lo + m ≤ p / 8 := by
    by_contra hlt
    rw [hskip p hlo (by omega)] at hp
    cases hp
  have hge : p / 8 ≤ lo + m := by
    by_contra hlt
    exact hne (by omega) (Bitmap.byte_full.2 fun q hq => hfull q (by omega) (by omega))
  omega

/-- The first clear bit of the zone is taken. -/
theorem mmMemSeek_first {r : MmRequest} {p : Nat} (hlo : zoneBegin r ≤ p / 8)
    (hhi : p / 8 < zoneEnd b r) (hp : b.bit p = false)
    (hfull : ∀ q, zoneBegin r ≤ q / 8 → q < p → b.bit q = true) (hlen : p / 8 ≤ b.byteLen) :
    mmMemSeek r b = some (frameAt p, b.mark p) := by
  rw [mmMemSeek, skipFull_first hlo hhi hp hfull]
  simp only
  rw [if_neg (by omega), takeBit_spec (p := p) (by omega) (by omega) hp
    (fun q _ hq => hfull q (by omega) hq) hlen]
  simp only [Option.bind_eq_bind, Option.bind_some]
  rw [if_neg (by simp [frameAt_aligned])]

/-- Past the end of the bitmap the search is stopped by the `kassert` of `get_bit`. -/
theorem mmMemSeek_stopped {r : MmRequest} {c : Nat}
    (hskip : skipFull b (zoneEnd b r - zoneBegin r) (zoneBegin r) = c) (hc : c ≠ zoneEnd b r)
    (hlen : b.byteLen < c) : mmMemSeek r b = none := by
  rw [mmMemSeek, hskip]
  simp only
  rw [if_neg hc, takeBit_none (by omega) 8 (by decide)]
  rfl

theorem mmMemSeek_full {r : MmRequest} (h : zoneBegin r ≤ zoneEnd b r)
    (hfull : ∀ q, zoneBegin r ≤ q / 8 → q / 8 < zoneEnd b r → b.bit q = true) :
    mmMemSeek r b = some (0, b) := by
  obtain ⟨m, hm, heq, -, hne⟩ := skipFull_spec (b := b) (zoneEnd b r - zoneBegin r) (zoneBegin r)
  have : m = zoneEnd b r - zoneBegin r := by
    by_contra hlt
    exact hne (by omega) (Bitmap.byte_full.2 fun q hq => hfull q (by omega) (by omega))
  rw [mmMemSeek, heq]
  exact if_pos (by omega)

/-- All that a search which comes back can do. -/
theorem mmMemSeek_cases {r : MmRequest} {f : Nat} {b' : Bitmap}
    (h : mmMemSeek r b = some (f, b')) :
    (f = 0 ∧ b' = b ∧ ∀ q, zoneBegin r ≤ q / 8 → q / 8 < zoneEnd b r → b.bit q = true) ∨
    ∃ p, zoneBegin r ≤ p / 8 ∧ p / 8 < zoneEnd b r ∧ p / 8 ≤ b.byteLen ∧ b.bit p = false ∧
      (∀ q, zoneBegin r ≤ q / 8 → q < p → b.bit q = true) ∧ f = frameAt p ∧ b' = b.mark p := by
  by_cases hz : ∃ p, zoneBegin r ≤ p / 8 ∧ p / 8 < zoneEnd b r ∧ b.bit p = false
  · -- the least clear position of the zone
    obtain ⟨hlo, hhi, hp⟩ := Nat.find_spec hz
    have hfull : ∀ q, zoneBegin r ≤ q / 8 → q < Nat.find hz → b.bit q = true := fun q hq hlt => by
      have hq' := Nat.find_min hz hlt
      by_contra hb
      exact hq' ⟨hq, by omega, Bool.eq_false_iff.2 hb⟩
    generalize Nat.find hz = p at hlo hhi hp hfull
    by_cases hlen : p / 8 ≤ b.byteLen
    · rw [mmMemSeek_first hlo hhi hp hfull hlen] at h
      cases h
      exact .inr ⟨p, hlo, hhi, hlen, hp, hfull, rfl, rfl⟩
    · rw [mmMemSeek_stopped (skipFull_first hlo hhi hp hfull) (by omega) (by omega)] at h
      cases h
  · have hfull : ∀ q, zoneBegin r ≤ q / 8 → q / 8 < zoneEnd b r → b.bit q = true := by
      intro q hlo hhi
      by_contra hb
      exact hz ⟨q, hlo, hhi, Bool.eq_false_iff.2 hb⟩
    rcases Nat.lt_or_ge (zoneEnd b r) (zoneBegin r) with hlt | hle
    · -- a user zone that ends before it begins
      have hr : b.byteLen < zoneBegin r := by
        cases r with
        | kernel => exact absurd hlt (Nat.not_lt_zero _)
        | user => exact hlt
      have hskip : skipFull b (zoneEnd b r - zoneBegin r) (zoneBegin r) = zoneBegin r := by
        rw [Nat.sub_eq_zero_of_le (Nat.le_of_lt hlt), skipFull]
      rw [mmMemSeek_stopped hskip (by omega) hr] at h
      cases h
    · rw [mmMemSeek_full hle hfull] at h
      cases h
      exact .inl ⟨rfl, rfl, hfull⟩

end

end SpuriOS
