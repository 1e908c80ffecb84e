import SpuriOS.Lib.Counting
import SpuriOS.Mm.Frames

/-! # Counting the free frames (`kernel/mm.c`)

`mm_free_page_count` complements the bytes and shifts their bits out from the right, and
`mm_mem_seek` looks at the bits from the left. Both see the same positions clear. -/

namespace SpuriOS

/-- The loop that shifts the bits of a byte out, with `free_pg_count`, a word of 32 bits. -/
def countBits (bitfld : BitVec 8) (freePgCount : Nat) : Nat :=
  if bitfld = 0#8 then freePgCount
  else countBits (bitfld >>> 1)
    (if bitfld &&& 1#8 ≠ 0#8 then (freePgCount + 1) % 2 ^ 32 else freePgCount)
termination_by bitfld.toNat
decreasing_by
  rename_i h
  have hpos : bitfld.toNat ≠ 0 := fun h0 => h (BitVec.eq_of_toNat_eq h0)
  rw [BitVec.toNat_ushiftRight, Nat.shiftRight_eq_div_pow]
  omega

/-- The loop over the `n` bytes from `cursor` on. -/
def countBytes (b : Bitmap) : Nat → Nat → Nat → Nat
  | 0, _, freePgCount => freePgCount
  | n + 1, cursor, freePgCount => countBytes b n (cursor + 1)
      (if b.byte cursor ≠ 0xFF#8 then countBits (~~~b.byte cursor) freePgCount else freePgCount)

def mmFreePageCount (requestType : MmRequest) (b : Bitmap) : Nat :=
  countBytes b (zoneEnd b requestType - zoneBegin requestType) (zoneBegin requestType) 0

/-- The positions of a zone. -/
def zonePositions (requestType : MmRequest) (b : Bitmap) : List Nat :=
  List.range' (8 * zoneBegin requestType) (8 * (zoneEnd b requestType - zoneBegin requestType))

/-- `mm_mem_seek` takes the clear position `p`, and gives `b'`. -/
structure Bitmap.Takes (b : Bitmap) (r : MmRequest) (p : Nat) (b' : Bitmap) : Prop where
  seek : mmMemSeek r b = some (himemBegin + p * pageSize, b')
  address : himemBegin + p * pageSize < 2 ^ 32
  mem : p ∈ zonePositions r b
  clear : getBit p b = some false
  lowest : ∀ q ∈ zonePositions r b, q < p → getBit q b = some true
  byteLen : b'.byteLen = b.byteLen
  bytes : ∀ o, o ≠ bitOffset p → b'.byte o = b.byte o
  bits : ∀ q < 8 * b.byteLen, getBit q b' = if q = p then some true else getBit q b
  count : mmFreePageCount r b' + 1 = mmFreePageCount r b
  other : ∀ r' ≠ r, mmFreePageCount r' b' = mmFreePageCount r' b

/-- The search and the count agree on what is free. -/
structure Bitmap.Accounted (b : Bitmap) (r : MmRequest) : Prop where
  count : mmFreePageCount r b = (zonePositions r b).countP fun p : Nat => getBit p b = some false
  none : mmMemSeek r b = some (0, b) ↔ mmFreePageCount r b = 0
  zero : ∀ b', mmMemSeek r b = some (0, b') → b' = b
  some : mmFreePageCount r b ≠ 0 → ∃ p b', b.Takes r p b'

section
variable {b : Bitmap} {r : MmRequest} {x : BitVec 8} {c n p q : Nat}

/-! ## The count -/

theorem shiftOut_and_one : x &&& 1#8 ≠ 0#8 ↔ x.getLsbD 0 = true := by
  rw [BitVec.and_one_eq_setWidth_ofBool_getLsbD]
  cases x.getLsbD 0 <;> decide

/-- The loop counts the bits that are set. -/
theorem countBits_eq (hx : x.toNat < 2 ^ n) (hc : c + n < 2 ^ 32) :
    countBits x c = c + (List.range n).countP x.getLsbD := by
  induction n generalizing x c with
  | zero =>
    have hx0 : x = 0#8 := BitVec.eq_of_toNat_eq (Nat.lt_one_iff.1 hx)
    rw [countBits, if_pos hx0]
    rfl
  | succ n ih =>
    rw [countBits]
    split
    next hx0 =>
      subst hx0
      have hzero : (List.range (n + 1)).countP (0#8).getLsbD = 0 :=
        List.countP_eq_zero.2 fun i _ => by simp
      rw [hzero, Nat.add_zero]
    · have hshift : (x >>> 1).toNat < 2 ^ n := by
        rw [BitVec.toNat_ushiftRight, Nat.shiftRight_eq_div_pow]
        rw [Nat.pow_succ] at hx
        omega
      have htail : (List.range n).countP (x >>> 1).getLsbD =
          (List.range n).countP fun i => x.getLsbD (i + 1) :=
        List.countP_congr fun i _ => by rw [BitVec.getLsbD_ushiftRight, Nat.add_comm]
      rw [List.range_succ_eq_map, List.countP_cons, List.countP_map]
      by_cases h0 : x.getLsbD 0 = true
      · rw [if_pos (shiftOut_and_one.2 h0), if_pos h0, Nat.mod_eq_of_lt (by omega),
          ih hshift (by omega), htail]
        exact Nat.add_right_comm ..
      · rw [if_neg (mt shiftOut_and_one.1 h0), if_neg h0, ih hshift (by omega), htail]
        rfl

/-- The clear positions of a byte. -/
theorem countP_byte (o : Nat) :
    ((List.range' (8 * o) 8).countP fun p => !b.bit p) =
      (List.range 8).countP (~~~b.byte o).getLsbD := by
  have hbit : ∀ i < 8, b.bit (8 * o + i) = (b.byte o).getLsbD (7 - i) := fun i hi => by
    rw [Bitmap.bit, show (8 * o + i) / 8 = o by omega, show (8 * o + i) % 8 = i by omega]
  -- the positions of a byte are its bits from the left
  have hrev : (List.range 8).map (7 - ·) = (List.range 8).reverse := rfl
  calc ((List.range' (8 * o) 8).countP fun p => !b.bit p)
    _ = (List.range 8).countP ((fun i => !(b.byte o).getLsbD i) ∘ (7 - ·)) := by
      rw [List.range'_eq_map_range, List.countP_map]
      exact List.countP_congr fun i hi => by
        rw [Function.comp_apply, Function.comp_apply, hbit i (List.mem_range.1 hi)]
    _ = (List.range 8).countP fun i => !(b.byte o).getLsbD i := by
      rw [← List.countP_map, hrev, List.countP_reverse]
    _ = (List.range 8).countP (~~~b.byte o).getLsbD :=
      List.countP_congr fun i hi => by
        rw [BitVec.getLsbD_not, decide_eq_true (List.mem_range.1 hi), Bool.true_and]

/-- And those of the bytes from `o` on. -/
theorem countBytes_eq {o : Nat} (h : c + 8 * n < 2 ^ 32) : countBytes b n o c =
    c + (List.range' (8 * o) (8 * n)).countP fun p => !b.bit p := by
  induction n generalizing o c with
  | zero => rfl
  | succ n ih =>
    have hbyte : (if b.byte o ≠ 0xFF#8 then countBits (~~~b.byte o) c else c) =
        c + (List.range' (8 * o) 8).countP fun p => !b.bit p := by
      split
      · rw [countP_byte, countBits_eq (BitVec.isLt _) (by omega)]
      next hfull =>
        have hzero : ((List.range' (8 * o) 8).countP fun p => !b.bit p) = 0 := by
          refine List.countP_eq_zero.2 fun p hp => ?_
          rw [List.mem_range'_1] at hp
          rw [Bitmap.byte_full.1 (Decidable.not_not.1 hfull) p (by omega)]
          exact Bool.false_ne_true
        rw [hzero, Nat.add_zero]
    have hle : ((List.range' (8 * o) 8).countP fun p => !b.bit p) ≤ 8 :=
      List.countP_le_length.trans_eq List.length_range'
    rw [countBytes, hbyte, ih (by omega), show 8 * (n + 1) = 8 + 8 * n by omega,
      ← List.range'_append_1, List.countP_append, Nat.add_assoc]
    rfl

theorem mem_zonePositions : p ∈ zonePositions r b ↔
    zoneBegin r ≤ p / 8 ∧ p / 8 < zoneEnd b r := by
  rw [zonePositions, List.mem_range'_1]
  omega

theorem zoneBegin_le (h : kernelBytes ≤ b.byteLen) : zoneBegin r ≤ zoneEnd b r := by
  cases r with
  | kernel => exact Nat.zero_le _
  | user => exact h

/-- No position is in both zones. -/
theorem zonePositions_disjoint {r' : MmRequest} (hr : r' ≠ r) (h : p ∈ zonePositions r b) :
    p ∉ zonePositions r' b := by
  rw [mem_zonePositions] at h ⊢
  cases r <;> cases r' <;> simp only [zoneBegin, zoneEnd] at h ⊢
  · exact absurd rfl hr
  · omega
  · omega
  · exact absurd rfl hr

theorem mmFreePageCount_eq (hle : kernelBytes ≤ b.byteLen) (hmax : b.byteLen ≤ maxByteLen) :
    mmFreePageCount r b = (zonePositions r b).countP fun p => !b.bit p := by
  have := zoneEnd_le hle r
  have := maxByteLen_eq
  rw [mmFreePageCount, countBytes_eq (by omega), Nat.zero_add, zonePositions]

theorem mmFreePageCount_eq_zero (hle : kernelBytes ≤ b.byteLen) (hmax : b.byteLen ≤ maxByteLen) :
    mmFreePageCount r b = 0 ↔ ∀ p ∈ zonePositions r b, b.bit p = true := by
  rw [mmFreePageCount_eq hle hmax, List.countP_eq_zero]
  simp only [Bool.not_eq_true', Bool.not_eq_false]

/-! ## The search takes one from the count -/

theorem mmFreePageCount_mark (hle : kernelBytes ≤ b.byteLen) (hmax : b.byteLen ≤ maxByteLen)
    (hp : p ∈ zonePositions r b) (hclear : b.bit p = false) :
    mmFreePageCount r (b.mark p) + 1 = mmFreePageCount r b := by
  rw [mmFreePageCount_eq hle hmax, mmFreePageCount_eq (b := b.mark p) hle hmax]
  refine (Counting.countP_insert (l := zonePositions r b) (a := p) List.nodup_range' hp ?_ ?_
    fun q _ hq => ?_).symm
  · rw [Bitmap.bit_mark, decide_eq_true rfl, Bool.or_true]
    rfl
  · rw [hclear]
    rfl
  · rw [Bitmap.bit_mark, decide_eq_false (Ne.symm hq), Bool.or_false]

theorem mmFreePageCount_mark_other {r' : MmRequest} (hle : kernelBytes ≤ b.byteLen)
    (hmax : b.byteLen ≤ maxByteLen) (hr : r' ≠ r) (hp : p ∈ zonePositions r b) :
    mmFreePageCount r' (b.mark p) = mmFreePageCount r' b := by
  rw [mmFreePageCount_eq hle hmax, mmFreePageCount_eq (b := b.mark p) hle hmax]
  refine List.countP_congr fun q hq => ?_
  have hne : p ≠ q := fun he => zonePositions_disjoint hr hp (he ▸ hq)
  rw [Bitmap.bit_mark, decide_eq_false hne, Bool.or_false]

theorem Bitmap.takes_mark (hle : kernelBytes ≤ b.byteLen) (hmax : b.byteLen ≤ maxByteLen)
    (hp : p ∈ zonePositions r b) (hclear : b.bit p = false)
    (hfull : ∀ q ∈ zonePositions r b, q < p → b.bit q = true) : b.Takes r p (b.mark p) := by
  obtain ⟨hlo, hhi⟩ := mem_zonePositions.1 hp
  have hend := zoneEnd_le hle r
  have hframe := frameAt_eq (p := p) (by omega)
  have hlow : ∀ q, zoneBegin r ≤ q / 8 → q < p → b.bit q = true := fun q hq hlt =>
    hfull q (mem_zonePositions.2 ⟨hq, by omega⟩) hlt
  refine ⟨hframe ▸ mmMemSeek_first hlo hhi hclear hlow (by omega), ?_, hp, ?_, fun q hq hlt => ?_,
    rfl, fun o ho => ?_, fun q hq => ?_, mmFreePageCount_mark hle hmax hp hclear,
    fun r' hr => mmFreePageCount_mark_other hle hmax hr hp⟩
  · rw [maxByteLen_eq] at hmax
    rw [himemBegin, pageSize_eq]
    omega
  · rw [getBit_eq (by omega), hclear]
  · have := (mem_zonePositions.1 hq).2
    rw [getBit_eq (by omega), hfull q hq hlt]
  · rw [(offset_shift p).1] at ho
    exact Function.update_of_ne ho ..
  · rw [getBit_eq (b := b.mark p) (show q / 8 ≤ b.byteLen by omega), bit_mark]
    split
    next he => rw [decide_eq_true he.symm, Bool.or_true]
    next hne =>
      rw [decide_eq_false (Ne.symm hne), Bool.or_false, getBit_eq (by omega)]

end

/-- For every bitmap from the kernel zone's to that of 4GB. -/
theorem mm_accounted (b : Bitmap) (r : MmRequest) (hle : kernelBytes ≤ b.byteLen)
    (hmax : b.byteLen ≤ maxByteLen) : b.Accounted r := by
  have hzero := mmFreePageCount_eq_zero (r := r) hle hmax
  have hend := zoneEnd_le hle r
  have hseek : ∀ b', mmMemSeek r b = some (0, b') →
      b' = b ∧ ∀ p ∈ zonePositions r b, b.bit p = true := fun b' h => by
    rcases mmMemSeek_cases h with ⟨-, hb, hfull⟩ | ⟨p, -, hhi, -, -, -, hf, -⟩
    · exact ⟨hb, fun p hp => hfull p (mem_zonePositions.1 hp).1 (mem_zonePositions.1 hp).2⟩
    · exact absurd hf.symm (frameAt_ne_zero (by omega))
  refine ⟨?_, ⟨fun h => hzero.2 (hseek b h).2, fun h => ?_⟩, fun b' h => (hseek b' h).1,
    fun h => ?_⟩
  · rw [mmFreePageCount_eq hle hmax]
    refine List.countP_congr fun p hp => ?_
    have := (mem_zonePositions.1 hp).2
    rw [Bitmap.getBit_eq (by omega)]
    cases b.bit p <;> decide
  · exact mmMemSeek_full (zoneBegin_le hle) fun q hlo hhi =>
      hzero.1 h q (mem_zonePositions.2 ⟨hlo, hhi⟩)
  · -- the least clear position of the zone
    have hz : ∃ p, p ∈ zonePositions r b ∧ b.bit p = false := by
      by_contra hz
      refine h (hzero.2 fun p hp => ?_)
      by_contra hb
      exact hz ⟨p, hp, Bool.eq_false_iff.2 hb⟩
    obtain ⟨hp, hclear⟩ := Nat.find_spec hz
    refine ⟨_, _, Bitmap.takes_mark hle hmax hp hclear fun q hq hlt => ?_⟩
    by_contra hb
    exact Nat.find_min hz hlt ⟨hq, Bool.eq_false_iff.2 hb⟩

/-- A bitmap of 128 bytes: the kernel zone is full but for position 29, and in the user zone the
first byte and half of the second are taken. -/
def someTaken : Bitmap where
  byte o := if o = 3 then 0xFB else if o < 97 then 0xFF else if o = 97 then 0xA5 else 0
  byteLen := 128

/-- Both zones have clear bits, which are counted, found in order and taken. -/
theorem mm_accounted_zones : someTaken.Accounted .kernel ∧ someTaken.Accounted .user ∧
    (zonePositions .kernel someTaken).countP (fun p : Nat => getBit p someTaken = some false) = 1 ∧
    (zonePositions .user someTaken).countP
      (fun p : Nat => getBit p someTaken = some false) = 244 :=
  ⟨mm_accounted someTaken .kernel (by decide) (by decide),
    mm_accounted someTaken .user (by decide) (by decide), by decide +kernel, by decide +kernel⟩

end SpuriOS
