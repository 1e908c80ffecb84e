import SpuriOS.Printf.Model
import SpuriOS.Vga.Traced

/-! # Printed numbers are read back -/

namespace SpuriOS.Printf

open Numeral

/-! ## Reading -/

def digitValue (c : Byte) : Nat := if c < asciiLowerA then c.toNat - 48 else c.toNat - 87

/-- A digit of the base, of which those from ten on are small letters. -/
def IsDigit (base : Nat) (c : Byte) : Prop :=
  ('0'.toUInt8 ≤ c ∧ c ≤ '9'.toUInt8 ∨ 'a'.toUInt8 ≤ c ∧ c ≤ 'f'.toUInt8) ∧ digitValue c < base

instance (base : Nat) (c : Byte) : Decidable (IsDigit base c) := inferInstanceAs (Decidable (_ ∧ _))

/-- The number that the digits stand for. -/
def readNat (base : Nat) (digits : List Byte) : Nat :=
  digits.foldl (fun n c => n * base + digitValue c) 0

/-- The number of digits that a number has. -/
def digitCount (base n : Nat) : Nat := max 1 (Nat.digits base n).length

/-! ## Printing -/

/-- The characters one after the other. -/
def chars (text : List Byte) (c : Byte) : List Byte := text ++ [c]

def decChars (number : Int) : List Byte := (emitDec chars number []).2
def udecChars (number : Nat) : List Byte := (emitUdec chars number []).2
def uhexChars (number : Nat) : List Byte := (emitUhex chars number []).2

/-- `mult` in round `i` of the loops of `put_dec` and `print_udec`, whose number has `ln` digits. -/
def decMult (ln i : Nat) : Int := (Int.tdiv · 10)^[i] (pow 10 (Word32.sub ln 1))

/-- `mult` in round `i` of the loop of `put_uhex`. -/
def uhexMult (ln i : Nat) : Nat := (· / 16)^[i] (ofInt32 (pow 16 (Word32.sub ln 1)))

/-- `put_dec` and the `print_dec` of the screen print a number that can be read. -/
structure DecFaithful (number : Int) : Prop where
  lib : ∀ o, (putDec number o).2 = (decChars number).foldl Out.put o
  vga : ∀ t, (Traced.printDec number t).2 = (decChars number).foldl Traced.putDigit t
  digits : ∃ digits, decChars number = (if number < 0 then ['-'.toUInt8] else []) ++ digits ∧
    (∀ c ∈ digits, IsDigit 10 c) ∧ digits.length = len number 10 ∧
    number = if number < 0 then -(readNat 10 digits : Int) else readNat 10 digits
  len : len number 10 = digitCount 10 number.natAbs
  /-- Round `i` is there for `i < ln`, and divides by `mult`. -/
  mult : ∀ i, decMult (Printf.len number 10) i = 0 ↔ Printf.len number 10 ≤ i
  rounds : ∀ {σ : Type} (put : σ → Byte → σ) (o : σ) (n : Int),
    emitDecLoop put n (Printf.len number 10) (pow 10 (Word32.sub (Printf.len number 10) 1)) o =
      (List.range (Printf.len number 10)).foldl (fun o i =>
        put o (digitByte (ofInt32 ((n.tdiv (decMult (Printf.len number 10) i)).tmod 10)))) o

structure UdecFaithful (number : Nat) : Prop where
  lib : ∀ o, (printUdec number o).2 = (udecChars number).foldl Out.put o
  vga : ∀ t, (Traced.printUdec number t).2 = (udecChars number).foldl Traced.putDigit t
  digits : ∀ c ∈ udecChars number, IsDigit 10 c
  length : (udecChars number).length = ulen number 10
  read : readNat 10 (udecChars number) = number
  ulen : ulen number 10 = digitCount 10 number
  mult : ∀ i, decMult (Printf.ulen number 10) i = 0 ↔ Printf.ulen number 10 ≤ i
  rounds : ∀ {σ : Type} (put : σ → Byte → σ) (o : σ),
    emitUdecLoop put number (Printf.ulen number 10)
      (pow 10 (Word32.sub (Printf.ulen number 10) 1)) o =
      (List.range (Printf.ulen number 10)).foldl (fun o i =>
        put o (digitByte (number / ofInt32 (decMult (Printf.ulen number 10) i) % 10))) o

structure UhexFaithful (number : Nat) : Prop where
  lib : ∀ o, (putUhex number o).2 = (uhexChars number).foldl Out.put o
  vga : ∀ t, (Traced.printUhex number t).2 = (uhexChars number).foldl Traced.putDigit t
  digits : ∃ digits, uhexChars number =
      ['0'.toUInt8, 'x'.toUInt8] ++ List.replicate (8 - ulen number 16) '0'.toUInt8 ++ digits ∧
    (∀ c ∈ digits, IsDigit 16 c) ∧ digits.length = ulen number 16 ∧ readNat 16 digits = number
  ulen : ulen number 16 = digitCount 16 number
  mult : ∀ i, uhexMult (Printf.ulen number 16) i = 0 ↔ Printf.ulen number 16 ≤ i
  rounds : ∀ {σ : Type} (put : σ → Byte → σ) (o : σ),
    emitUhexLoop put number (Printf.ulen number 16)
      (ofInt32 (pow 16 (Word32.sub (Printf.ulen number 16) 1))) o =
      (List.range (Printf.ulen number 16)).foldl (fun o i =>
        put o (hexByte (number / uhexMult (Printf.ulen number 16) i % 16))) o

/-! ## The loops -/

/-- A loop whose state `m` goes to `next m` in every round. -/
theorem loop_rounds {μ σ : Type} {loop : Nat → μ → σ → σ} {next : μ → μ} {step : μ → σ → σ}
    (hzero : ∀ m o, loop 0 m o = o)
    (hsucc : ∀ rounds m o, loop (rounds + 1) m o = loop rounds (next m) (step m o))
    (rounds : Nat) (m : μ) (o : σ) :
    loop rounds m o = (List.range rounds).foldl (fun o i => step (next^[i] m) o) o := by
  induction rounds generalizing m o with
  | zero => exact hzero m o
  | succ rounds ih =>
    rw [hsucc, ih, List.range_succ_eq_map, List.foldl_cons, List.foldl_map]
    rfl

section
variable {σ : Type} (put : σ → Byte → σ) (o : σ)

/-- The divisions of `put_dec` are by `decMult`. -/
theorem emitDecLoop_rounds (number : Int) (ln : Nat) :
    emitDecLoop put number ln (pow 10 (Word32.sub ln 1)) o = (List.range ln).foldl
      (fun o i => put o (digitByte (ofInt32 ((number.tdiv (decMult ln i)).tmod 10)))) o :=
  @loop_rounds Int σ (emitDecLoop put number) (Int.tdiv · 10)
    (fun mult o => put o (digitByte (ofInt32 ((number.tdiv mult).tmod 10))))
    (fun _ _ => rfl) (fun _ _ _ => rfl) ln _ o

theorem emitUdecLoop_rounds (number ln : Nat) :
    emitUdecLoop put number ln (pow 10 (Word32.sub ln 1)) o = (List.range ln).foldl
      (fun o i => put o (digitByte (number / ofInt32 (decMult ln i) % 10))) o :=
  @loop_rounds Int σ (emitUdecLoop put number) (Int.tdiv · 10)
    (fun mult o => put o (digitByte (number / ofInt32 mult % 10)))
    (fun _ _ => rfl) (fun _ _ _ => rfl) ln _ o

theorem emitUhexLoop_rounds (number ln : Nat) :
    emitUhexLoop put number ln (ofInt32 (pow 16 (Word32.sub ln 1))) o = (List.range ln).foldl
      (fun o i => put o (hexByte (number / uhexMult ln i % 16))) o :=
  @loop_rounds Nat σ (emitUhexLoop put number) (· / 16)
    (fun mult o => put o (hexByte (number / mult % 16)))
    (fun _ _ => rfl) (fun _ _ _ => rfl) ln _ o

end

theorem iterate_tdiv (m i : Nat) : (Int.tdiv · 10)^[i] (m : Int) = ((· / 10)^[i] m : Nat) := by
  induction i generalizing m with
  | zero => rfl
  | succ i ih =>
    rw [Function.iterate_succ_apply, Function.iterate_succ_apply, ← ih]
    rfl

theorem decMult_eq_zero_iff {ln : Nat} (h : 1 ≤ ln ∧ ln ≤ 10) (i : Nat) :
    decMult ln i = 0 ↔ ln ≤ i := by
  rw [decMult, Word32.sub_of_le h.1 (by omega), pow_eq (by decide) (ten_pow_lt (by omega)),
    iterate_tdiv, Int.natCast_eq_zero, iterate_div_pow_eq_zero_iff (by decide),
    Nat.sub_add_cancel h.1]

theorem uhexMult_eq_zero_iff {ln : Nat} (h : 1 ≤ ln ∧ ln ≤ 8) (i : Nat) :
    uhexMult ln i = 0 ↔ ln ≤ i := by
  have hpow : 16 ^ (ln - 1) < 2 ^ 31 :=
    (Nat.pow_le_pow_right (by decide) (show ln - 1 ≤ 7 by omega)).trans_lt (by decide)
  rw [uhexMult, Word32.sub_of_le h.1 (by omega), pow_eq (by decide) hpow,
    ofInt32_natCast (by omega), iterate_div_pow_eq_zero_iff (by decide), Nat.sub_add_cancel h.1]

/-! ## The digits -/

theorem digitByte_spec {d : Nat} (h : d < 10) :
    IsDigit 10 (digitByte d) ∧ digitValue (digitByte d) = d := by
  revert d
  decide

theorem hexByte_spec {d : Nat} (h : d < 16) :
    IsDigit 16 (hexByte d) ∧ digitValue (hexByte d) = d := by
  revert d
  decide

section
variable {base number : Nat} {f : Nat → Byte}

/-- The numeral is read back, when its digits are. -/
theorem readNat_numeral (hb : 2 ≤ base) (hf : ∀ d < base, digitValue (f d) = d) :
    readNat base ((numeral base number).map f) = number := by
  rw [readNat, List.foldl_map]
  refine Eq.trans (List.foldl_ext _ _ _ fun v d hd => ?_) (foldl_numeral hb)
  rw [hf d (lt_of_mem_numeral hb hd)]

theorem isDigit_numeral (hb : 2 ≤ base) (hf : ∀ d < base, IsDigit base (f d)) :
    ∀ c ∈ (numeral base number).map f, IsDigit base c :=
  List.forall_mem_map.2 fun d hd => hf d (lt_of_mem_numeral hb hd)

end

theorem foldl_chars (text o : List Byte) : text.foldl chars o = o ++ text := by
  induction text generalizing o with
  | nil => exact (List.append_nil o).symm
  | cons c text ih => rw [List.foldl_cons, ih, chars, List.append_assoc]; rfl

/-! ## The three conversions -/

section
variable {number : Nat}

theorem ulen_le (h : number < 2 ^ 32) : 1 ≤ ulen number 10 ∧ ulen number 10 ≤ 10 := by
  obtain ⟨k, hk, hlen⟩ := numeral_ten h
  rw [ulen_eq (by decide) h, hlen]
  omega

theorem udecChars_eq (h : number < 2 ^ 32) : udecChars number = udecText number := by
  rw [udecChars, emitUdec_eq h, foldl_chars, List.nil_append]

theorem udecFaithful (h : number < 2 ^ 32) : UdecFaithful number where
  lib o := by rw [printUdec, emitUdec_eq h, udecChars_eq h]
  vga t := by rw [Traced.printUdec, emitUdec_eq h, udecChars_eq h]
  digits := by
    rw [udecChars_eq h]
    exact isDigit_numeral (by decide) fun d hd => (digitByte_spec hd).1
  length := by rw [udecChars_eq h, udecText, List.length_map, ulen_eq (by decide) h]
  read := by
    rw [udecChars_eq h]
    exact readNat_numeral (by decide) fun d hd => (digitByte_spec hd).2
  ulen := by rw [ulen_eq (by decide) h, length_numeral, digitCount]
  mult := decMult_eq_zero_iff (ulen_le h)
  rounds put o := emitUdecLoop_rounds put o number _

theorem uhexFaithful (h : number < 2 ^ 32) : UhexFaithful number := by
  obtain ⟨k, hk, hlen⟩ := numeral_eight h
  have hulen := @ulen_eq 16 number (by decide) h
  have hchars : uhexChars number = hexText number := by
    rw [uhexChars, emitUhex_eq h, foldl_chars, List.nil_append]
  refine ⟨fun o => ?_, fun t => ?_, ⟨(numeral 16 number).map hexByte, ?_, ?_, ?_, ?_⟩, ?_, ?_,
    fun put o => emitUhexLoop_rounds put o number _⟩
  · rw [putUhex, emitUhex_eq h, hchars]
  · rw [Traced.printUhex, emitUhex_eq h, hchars]
  · rw [hchars, hexText, places_pad (by decide) (by omega), hulen, List.map_append,
      List.map_replicate, List.append_assoc]
    rfl
  · exact isDigit_numeral (by decide) fun d hd => (hexByte_spec hd).1
  · rw [List.length_map, hulen]
  · exact readNat_numeral (by decide) fun d hd => (hexByte_spec hd).2
  · rw [hulen, length_numeral, digitCount]
  · exact uhexMult_eq_zero_iff (by omega)

end

section
variable {number : Int}

theorem len_count (h : -2 ^ 31 ≤ number ∧ number < 2 ^ 31) :
    len number 10 = digitCount 10 number.natAbs := by
  rw [len_eq h, length_numeral, digitCount]

theorem decFaithful (h : intMin < number ∧ number < 2 ^ 31) : DecFaithful number := by
  have hrange := h
  rw [intMin] at hrange
  obtain ⟨k, hk, hlen⟩ := @numeral_ten number.natAbs (by omega)
  have hchars : decChars number = decText number := by
    rw [decChars, emitDec_eq h, foldl_chars, List.nil_append]
  have hread : readNat 10 ((numeral 10 number.natAbs).map digitByte) = number.natAbs :=
    readNat_numeral (by decide) fun d hd => (digitByte_spec hd).2
  have hcount := @len_eq number (by omega)
  refine ⟨fun o => ?_, fun t => ?_, ⟨(numeral 10 number.natAbs).map digitByte, ?_, ?_, ?_, ?_⟩,
    len_count (by omega), decMult_eq_zero_iff (by omega),
    fun put o n => emitDecLoop_rounds put o n _⟩
  · rw [putDec, emitDec_eq h, hchars]
  · rw [Traced.printDec, emitDec_eq h, hchars]
  · rw [hchars, decText]
  · exact isDigit_numeral (by decide) fun d hd => (digitByte_spec hd).1
  · rw [List.length_map, hcount]
  · rw [hread]
    split <;> omega

/-- For the lowest number, the character behind the sign is no digit. -/
theorem not_decFaithful_intMin : ¬DecFaithful intMin := by
  intro h
  obtain ⟨digits, htext, hdigits, -⟩ := h.digits
  have hmin : decChars intMin = '-'.toUInt8 :: '.'.toUInt8 :: minText.drop 2 := by decide
  rw [hmin, if_pos (by decide)] at htext
  have hdot : '.'.toUInt8 ∈ digits := by
    have hrest : '.'.toUInt8 :: minText.drop 2 = digits := (List.cons.inj htext).2
    exact hrest ▸ List.mem_cons_self
  exact absurd (hdigits _ hdot) (by decide)

end

/-- Only `%d` of the lowest number is not printed faithfully. -/
theorem numbers_faithful_iff (word : UInt32) :
    (DecFaithful (toInt32 word.toNat) ↔ toInt32 word.toNat ≠ intMin) ∧
      UdecFaithful word.toNat ∧ UhexFaithful word.toNat := by
  have hrange := toInt32_ge word
  refine ⟨⟨?_, fun hne => decFaithful ⟨by omega, hrange.2⟩⟩, udecFaithful word.toNat_lt,
    uhexFaithful word.toNat_lt⟩
  rintro h hmin
  rw [hmin] at h
  exact not_decFaithful_intMin h

theorem intMin_unreadable :
    ¬∀ word : UInt32, DecFaithful (toInt32 word.toNat) ∧ UdecFaithful word.toNat ∧
      UhexFaithful word.toNat :=
  fun hall => not_decFaithful_intMin (hall 0x80000000).1

end SpuriOS.Printf
