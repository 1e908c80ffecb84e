import SpuriOS.Lib.Memory
import SpuriOS.Lib.Numerals
import SpuriOS.Mm.Bitmap

/-! # Printing numbers (`kernel/lib.c`, `kernel/vga.c`)

`lib.c` prints a number into a buffer, and `vga.c` prints it onto the screen in the same way. The
printers have a parameter `put` for what is done with a character. -/

namespace SpuriOS.Printf

open Numeral

def asciiZero : Byte := 0x30
def asciiLowerA : Byte := 0x61

/-- The word of an `int`. -/
def ofInt32 (i : Int) : Nat := (i % 2 ^ 32).toNat

/-- `-i` of an `int`; of the lowest one it wraps around. -/
def neg32 (i : Int) : Int := toInt32 (ofInt32 (-i))

/-- The loop of `len` and `ulen`. As the base is 2 at least, a word takes 32 rounds at most. -/
def lenLoop (base : Nat) : (fuel div length : Nat) → Nat
  | 0, _, length => length
  | fuel + 1, div, length =>
    if div = 0 then length
    else
      let div := div / base
      if div = 0 then length else lenLoop base fuel div (length + 1)

def ulen (number base : Nat) : Nat := lenLoop base 32 number 1

def len (number : Int) (base : Nat) : Nat :=
  let div := ofInt32 (if number > 0 then number else neg32 number)
  lenLoop base 32 div 1

def powLoop (base : Nat) : (exponent res : Nat) → Nat
  | 0, res => res
  | exponent + 1, res => powLoop base exponent (Word32.mul res base)

def pow (base exponent : Nat) : Int := toInt32 (powLoop base exponent 1)

/-- `(char) digit + ASCII_0`. -/
def digitByte (digit : Nat) : Byte := digit.toUInt8 + asciiZero

def hexByte (digit : Nat) : Byte :=
  if digit < 10 then digitByte digit
  else if digit < 16 then (digit - 10).toUInt8 + asciiLowerA
  else '?'.toUInt8

section
variable {σ : Type} (put : σ → Byte → σ)

def emitDecLoop (number : Int) : (rounds : Nat) → (mult : Int) → σ → σ
  | 0, _, o => o
  | rounds + 1, mult, o =>
    let digit := ofInt32 ((number.tdiv mult).tmod 10)
    emitDecLoop number rounds (mult.tdiv 10) (put o (digitByte digit))

/-- `%d`: the number of characters, and what they have been put to. -/
def emitDec (number : Int) (o : σ) : Nat × σ :=
  let ln := len number 10
  let mult := pow 10 (Word32.sub ln 1)
  if number < 0 then (1 + ln, emitDecLoop put (neg32 number) ln mult (put o '-'.toUInt8))
  else (ln, emitDecLoop put number ln mult o)

def emitZeros : (rounds : Nat) → σ → σ
  | 0, o => o
  | rounds + 1, o => emitZeros rounds (put o '0'.toUInt8)

def emitUhexLoop (number : Nat) : (rounds mult : Nat) → σ → σ
  | 0, _, o => o
  | rounds + 1, mult, o =>
    let digit := number / mult % 16
    emitUhexLoop number rounds (mult / 16) (put o (hexByte digit))

/-- `%x` and `%p`. -/
def emitUhex (number : Nat) (o : σ) : Nat × σ :=
  let ln := ulen number 16
  let mult := ofInt32 (pow 16 (Word32.sub ln 1))
  let o := put (put o '0'.toUInt8) 'x'.toUInt8
  (ln + 2, emitUhexLoop put number ln mult (emitZeros put (Word32.sub 8 ln) o))

/-- `mult` is an `int` that the division takes as a word. -/
def emitUdecLoop (number : Nat) : (rounds : Nat) → (mult : Int) → σ → σ
  | 0, _, o => o
  | rounds + 1, mult, o =>
    let digit := number / ofInt32 mult % 10
    emitUdecLoop number rounds (mult.tdiv 10) (put o (digitByte digit))

/-- `%u`. -/
def emitUdec (number : Nat) (o : σ) : Nat × σ :=
  let ln := ulen number 10
  (ln, emitUdecLoop put number ln (pow 10 (Word32.sub ln 1)) o)

end

/-! ## What is printed -/

theorem ofInt32_natCast {n : Nat} (h : n < 2 ^ 32) : ofInt32 n = n := by
  rw [ofInt32]
  omega

theorem lenLoop_eq {base : Nat} (hb : 2 ≤ base) {fuel div length : Nat} (hdiv : div < 2 ^ fuel) :
    lenLoop base fuel div length + 1 = length + (numeral base div).length := by
  induction fuel generalizing div length with
  | zero =>
    obtain rfl : div = 0 := by omega
    rw [lenLoop, numeral_of_lt (by omega)]
    rfl
  | succ fuel ih =>
    have hhalf : div / base < 2 ^ fuel := by
      refine (Nat.div_le_div_left hb (by omega)).trans_lt ?_
      rw [Nat.pow_succ] at hdiv
      omega
    rw [lenLoop]
    dsimp only
    split
    next h0 =>
      rw [h0, numeral_of_lt (by omega)]
      rfl
    next h0 =>
      split
      next hlast =>
        rw [numeral_of_lt ((Nat.div_eq_zero_iff_lt (by omega)).1 hlast)]
        rfl
      next hmore =>
        have hle : base ≤ div := Nat.le_of_not_lt fun hlt => hmore (Nat.div_eq_of_lt hlt)
        rw [ih hhalf, numeral_of_le (by omega) hle, List.length_append, List.length_singleton]
        omega

theorem ulen_eq {base number : Nat} (hb : 2 ≤ base) (h : number < 2 ^ 32) :
    ulen number base = (numeral base number).length := by
  have := @lenLoop_eq base hb 32 number 1 h
  rw [ulen]
  omega

theorem len_eq {number : Int} (h : -2 ^ 31 ≤ number ∧ number < 2 ^ 31) :
    len number 10 = (numeral 10 number.natAbs).length := by
  have habs : ofInt32 (if number > 0 then number else neg32 number) = number.natAbs := by
    rw [neg32, ofInt32, ofInt32, toInt32]
    split
    · omega
    · split <;> omega
  have := @lenLoop_eq 10 (by decide) 32 number.natAbs 1 (by omega)
  rw [len, habs]
  omega

theorem powLoop_eq {base exponent res : Nat} (h0 : 0 < base) (h : res * base ^ exponent < 2 ^ 32) :
    powLoop base exponent res = res * base ^ exponent := by
  induction exponent generalizing res with
  | zero => rw [powLoop, Nat.pow_zero, Nat.mul_one]
  | succ exponent ih =>
    rw [Nat.pow_succ', ← Nat.mul_assoc] at h ⊢
    have hle := Nat.le_mul_of_pos_right (res * base) (Nat.pow_pos (n := exponent) h0)
    rw [powLoop, Word32.mul, Word32.wrap_of_lt (by omega), ih h]

theorem pow_eq {base exponent : Nat} (h0 : 0 < base) (h : base ^ exponent < 2 ^ 31) :
    pow base exponent = (base ^ exponent : Nat) := by
  rw [pow, powLoop_eq h0 (by omega), Nat.one_mul, toInt32_of_lt h]

/-! ## The texts of numbers -/

def decText (number : Int) : List Byte :=
  (if number < 0 then ['-'.toUInt8] else []) ++ (numeral 10 number.natAbs).map digitByte

def udecText (number : Nat) : List Byte := (numeral 10 number).map digitByte

def hexText (number : Nat) : List Byte :=
  ['0'.toUInt8, 'x'.toUInt8] ++ (places 16 number 8).map hexByte

/-- `INT_MIN`. -/
def intMin : Int := -2 ^ 31

/-- What `put_dec` prints for `INT_MIN`, which has no negative: the digits are negative too. -/
def minText : List Byte := "-./,),(-*,(".toList.map Char.toUInt8

/-- What `%d` prints. -/
def decOutput (number : Int) : List Byte := if number = intMin then minText else decText number

section
variable {σ : Type} {put : σ → Byte → σ} {o : σ} {rounds : Nat}

/-- A loop that prints the digit of `mult` and goes on with the next power of the base. -/
theorem put_places {b n rounds : Nat} (hb : 2 ≤ b) {loop : Nat → Nat → σ → σ}
    {f : Nat → Byte} (hzero : ∀ mult o, loop 0 mult o = o)
    (hsucc : ∀ rounds mult o, mult < 2 ^ 31 →
      loop (rounds + 1) mult o = loop rounds (mult / b) (put o (f (n / mult % b))))
    (hpow : b ^ rounds < 2 ^ 31) :
    loop (rounds + 1) (b ^ rounds) o = ((places b n (rounds + 1)).map f).foldl put o := by
  induction rounds generalizing o with
  | zero =>
    rw [hsucc _ _ _ hpow, hzero]
    rfl
  | succ rounds ih =>
    have hless : b ^ rounds < 2 ^ 31 := (Nat.pow_le_pow_right (by omega) (by omega)).trans_lt hpow
    have hnext : b ^ (rounds + 1) / b = b ^ rounds := by
      rw [Nat.pow_succ, Nat.mul_div_cancel _ (by omega)]
    rw [hsucc _ _ _ hpow, hnext, ih hless]
    rfl

theorem emitDecLoop_eq {number : Nat} (hpow : 10 ^ rounds < 2 ^ 31) :
    emitDecLoop put number (rounds + 1) (10 ^ rounds : Nat) o =
      ((places 10 number (rounds + 1)).map digitByte).foldl put o :=
  @put_places σ put o 10 number rounds (by decide)
    (fun rounds mult => emitDecLoop put number rounds mult) digitByte (fun _ _ => rfl)
    (fun rounds mult o hmult => by
      have hdigit : ofInt32 (((number : Int).tdiv mult).tmod 10) = number / mult % 10 := by
        rw [← Int.ofNat_tdiv, show (10 : Int) = (10 : Nat) from rfl, ← Int.ofNat_tmod]
        exact ofInt32_natCast (by omega)
      rw [emitDecLoop, hdigit]
      rfl) hpow

theorem emitUdecLoop_eq {number : Nat} (hpow : 10 ^ rounds < 2 ^ 31) :
    emitUdecLoop put number (rounds + 1) (10 ^ rounds : Nat) o =
      ((places 10 number (rounds + 1)).map digitByte).foldl put o :=
  @put_places σ put o 10 number rounds (by decide)
    (fun rounds mult => emitUdecLoop put number rounds mult) digitByte (fun _ _ => rfl)
    (fun rounds mult o hmult => by
      rw [emitUdecLoop, ofInt32_natCast (by omega)]
      rfl) hpow

theorem emitUhexLoop_eq {number : Nat} (hpow : 16 ^ rounds < 2 ^ 31) :
    emitUhexLoop put number (rounds + 1) (16 ^ rounds) o =
      ((places 16 number (rounds + 1)).map hexByte).foldl put o :=
  put_places (by decide) (fun _ _ => rfl) (fun _ _ _ _ => rfl) hpow

theorem emitZeros_eq :
    emitZeros put rounds o = (List.replicate rounds '0'.toUInt8).foldl put o := by
  induction rounds generalizing o with
  | zero => rfl
  | succ rounds ih => rw [emitZeros, ih, List.replicate_succ, List.foldl_cons]

/-- A word has ten digits at most. -/
theorem numeral_ten {number : Nat} (h : number < 2 ^ 32) :
    ∃ k ≤ 9, (numeral 10 number).length = k + 1 := by
  have hpos := @length_numeral_pos 10 number
  have hle := (@length_numeral_le_iff 10 number 10 (by decide) (by decide)).2 (by omega)
  exact ⟨(numeral 10 number).length - 1, by omega, by omega⟩

theorem numeral_eight {number : Nat} (h : number < 2 ^ 32) :
    ∃ k ≤ 7, (numeral 16 number).length = k + 1 := by
  have hpos := @length_numeral_pos 16 number
  have hle := (@length_numeral_le_iff 16 number 8 (by decide) (by decide)).2 (by omega)
  exact ⟨(numeral 16 number).length - 1, by omega, by omega⟩

theorem toInt32_ge (word : UInt32) :
    intMin ≤ toInt32 word.toNat ∧ toInt32 word.toNat < 2 ^ 31 := by
  have hlt := word.toNat_lt
  rw [toInt32, intMin]
  split <;> omega

theorem ten_pow_lt {k : Nat} (h : k ≤ 9) : 10 ^ k < 2 ^ 31 :=
  (Nat.pow_le_pow_right (by decide) h).trans_lt (by decide)

theorem emitUdec_eq {number : Nat} (h : number < 2 ^ 32) :
    emitUdec put number o = ((udecText number).length, (udecText number).foldl put o) := by
  obtain ⟨k, hk, hlen⟩ := numeral_ten h
  have hplaces := @places_numeral 10 number (by decide)
  rw [emitUdec, ulen_eq (by decide) h, udecText, List.length_map, hlen,
    Word32.sub_of_le (by omega) (by omega), Nat.add_sub_cancel, pow_eq (by decide) (ten_pow_lt hk),
    emitUdecLoop_eq (ten_pow_lt hk), ← hlen, hplaces]

theorem emitUhex_eq {number : Nat} (h : number < 2 ^ 32) :
    emitUhex put number o = ((numeral 16 number).length + 2, (hexText number).foldl put o) := by
  obtain ⟨k, hk, hlen⟩ := numeral_eight h
  have hpow : 16 ^ k < 2 ^ 31 := (Nat.pow_le_pow_right (by decide) hk).trans_lt (by decide)
  have hpad := @places_pad 16 number 8 (by decide) (by omega)
  have hplaces := @places_numeral 16 number (by decide)
  rw [emitUhex, ulen_eq (by decide) h, hlen, Word32.sub_of_le (by omega) (by omega),
    Word32.sub_of_le (by omega) (by omega), Nat.add_sub_cancel, pow_eq (by decide) hpow,
    ofInt32_natCast (by omega), emitZeros_eq, emitUhexLoop_eq hpow, ← hlen, hplaces, hexText, hpad,
    List.map_append, List.map_replicate, List.foldl_append, List.foldl_append]
  rfl

theorem emitDec_eq {number : Int} (h : intMin < number ∧ number < 2 ^ 31) :
    emitDec put number o = ((decText number).length, (decText number).foldl put o) := by
  rw [intMin] at h
  obtain ⟨k, hk, hlen⟩ := @numeral_ten number.natAbs (by omega)
  have hplaces := @places_numeral 10 number.natAbs (by decide)
  rw [emitDec, len_eq (by omega), decText, List.length_append, List.length_map, hlen,
    Word32.sub_of_le (by omega) (by omega), Nat.add_sub_cancel, pow_eq (by decide) (ten_pow_lt hk)]
  split
  next hneg =>
    have habs : neg32 number = number.natAbs := by
      rw [neg32, ofInt32, toInt32]
      split <;> omega
    rw [habs, emitDecLoop_eq (ten_pow_lt hk), ← hlen, hplaces]
    rfl
  next hnonneg =>
    have habs : number = number.natAbs := by omega
    rw [habs, emitDecLoop_eq (ten_pow_lt hk), ← habs, ← hlen, hplaces, List.nil_append,
      List.length_nil, Nat.zero_add]

theorem emitDec_output {number : Int} (h : intMin ≤ number ∧ number < 2 ^ 31) :
    emitDec put number o = ((decText number).length, (decOutput number).foldl put o) := by
  rw [decOutput]
  split
  next hmin =>
    rw [hmin]
    rfl
  next hmin => exact emitDec_eq ⟨by omega, h.2⟩

end

end SpuriOS.Printf
