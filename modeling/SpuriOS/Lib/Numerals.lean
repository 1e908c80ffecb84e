import Mathlib.Data.Nat.Digits.Lemmas

/-! # Numerals

The digits of a number, the highest first: `numeral` has as many as it takes, and one for 0,
`places` a given number of them. A loop that prints the places from the highest one down prints the
numeral if it starts at its length. -/

namespace Numeral
variable {b n k : Nat}

def numeral (b n : Nat) : List Nat := if n = 0 then [0] else (Nat.digits b n).reverse

/-- The digits at the places `k - 1` to 0. -/
def places (b n : Nat) : Nat → List Nat
  | 0 => []
  | k + 1 => n / b ^ k % b :: places b n k

theorem places_eq (b n k : Nat) :
    places b n k = ((List.range k).map fun i => n / b ^ i % b).reverse := by
  induction k with
  | zero => rfl
  | succ k ih =>
    rw [places, ih, List.range_succ, List.map_append, List.reverse_append]
    rfl

@[simp] theorem length_places : (places b n k).length = k := by
  rw [places_eq, List.length_reverse, List.length_map, List.length_range]

theorem lt_of_mem_places (hb : 0 < b) {d : Nat} (hd : d ∈ places b n k) : d < b := by
  rw [places_eq, List.mem_reverse, List.mem_map] at hd
  obtain ⟨i, -, rfl⟩ := hd
  exact Nat.mod_lt _ hb

theorem numeral_of_lt (h : n < b) : numeral b n = [n] := by
  rw [numeral]
  split
  next h0 => rw [h0]
  next h0 => rw [Nat.digits_of_lt b n h0 h, List.reverse_singleton]

/-- The lowest digit comes last. -/
theorem numeral_of_le (hb : 1 < b) (h : b ≤ n) :
    numeral b n = numeral b (n / b) ++ [n % b] := by
  have hdiv : n / b ≠ 0 := Nat.ne_of_gt (Nat.div_pos h (by omega))
  rw [numeral, numeral, if_neg (by omega), if_neg hdiv, Nat.digits_def' hb (by omega),
    List.reverse_cons]

theorem length_numeral_pos : 0 < (numeral b n).length := by
  rw [numeral]
  split
  · exact Nat.one_pos
  next h0 => rwa [List.length_reverse, List.length_pos_iff, Ne, Nat.digits_eq_nil_iff_eq_zero]

theorem length_numeral_le_iff (hb : 1 < b) (hk : 0 < k) :
    (numeral b n).length ≤ k ↔ n < b ^ k := by
  rw [numeral]
  split
  next h0 => exact iff_of_true hk (h0 ▸ Nat.pow_pos (by omega))
  next h0 => rw [List.length_reverse, Nat.digits_length_le_iff hb]

theorem length_numeral : (numeral b n).length = max 1 (Nat.digits b n).length := by
  rw [numeral]
  split
  next h0 =>
    rw [h0, Nat.digits_zero]
    rfl
  next h0 =>
    have hpos : 0 < (Nat.digits b n).length := by
      rwa [List.length_pos_iff, Ne, Nat.digits_eq_nil_iff_eq_zero]
    rw [List.length_reverse, Nat.max_eq_right hpos]

/-- The numeral is what is at its places. -/
theorem places_numeral (hb : 2 ≤ b) : places b n (numeral b n).length = numeral b n := by
  by_cases h0 : n = 0
  · rw [h0, numeral, if_pos rfl, List.length_singleton, places, places, Nat.zero_div, Nat.zero_mod]
  rw [places_eq, numeral, if_neg h0, List.length_reverse, List.reverse_inj]
  refine List.ext_getElem (by simp) fun i hi hi' => ?_
  rw [List.getElem_map, List.getElem_range, ← Nat.getD_digits n i hb, List.getD_eq_getElem?_getD,
    List.getElem?_eq_getElem hi', Option.getD_some]

/-- More places than digits are filled with zeros. -/
theorem places_pad (hb : 2 ≤ b) (h : (numeral b n).length ≤ k) :
    places b n k = List.replicate (k - (numeral b n).length) 0 ++ numeral b n := by
  induction k, h using Nat.le_induction with
  | base => rw [places_numeral hb, Nat.sub_self, List.replicate_zero, List.nil_append]
  | succ k hk ih =>
    have hn : n < b ^ k :=
      (length_numeral_le_iff (by omega) (length_numeral_pos.trans_le hk)).1 hk
    rw [places, ih, Nat.div_eq_of_lt hn, Nat.zero_mod, Nat.succ_sub hk, List.replicate_succ,
      List.cons_append]

/-- The value of the digits at the `k` lowest places, behind `a`. -/
theorem foldl_places (a : Nat) :
    (places b n k).foldl (fun v d => v * b + d) a = a * b ^ k + n % b ^ k := by
  induction k generalizing a with
  | zero => rw [places, List.foldl_nil, Nat.pow_zero, Nat.mod_one, Nat.mul_one, Nat.add_zero]
  | succ k ih =>
    rw [places, List.foldl_cons, ih, Nat.mod_pow_succ, Nat.add_mul, Nat.mul_assoc, ← Nat.pow_succ',
      Nat.add_assoc, Nat.add_comm (n % b ^ k), Nat.mul_comm (b ^ k)]

theorem foldl_numeral (hb : 2 ≤ b) : (numeral b n).foldl (fun v d => v * b + d) 0 = n := by
  have hlt : n < b ^ (numeral b n).length :=
    (length_numeral_le_iff (by omega) length_numeral_pos).1 (Nat.le_refl _)
  rw [← places_numeral hb, foldl_places, Nat.zero_mul, Nat.zero_add,
    Nat.mod_eq_of_lt hlt]

theorem lt_of_mem_numeral (hb : 2 ≤ b) {d : Nat} (hd : d ∈ numeral b n) : d < b := by
  rw [← places_numeral hb] at hd
  exact lt_of_mem_places (by omega) hd

/-- Dividing the power of the highest place by the base, it is 0 behind the last place. -/
theorem iterate_div (i : Nat) : (· / b)^[i] n = n / b ^ i := by
  induction i generalizing n with
  | zero => rw [Function.iterate_zero, id, Nat.pow_zero, Nat.div_one]
  | succ i ih => rw [Function.iterate_succ_apply, ih, Nat.div_div_eq_div_mul, ← Nat.pow_succ']

theorem iterate_div_pow_eq_zero_iff (hb : 2 ≤ b) {i : Nat} :
    (· / b)^[i] (b ^ k) = 0 ↔ k + 1 ≤ i := by
  rw [iterate_div, Nat.div_eq_zero_iff_lt (Nat.pow_pos (by omega)),
    Nat.pow_lt_pow_iff_right (by omega)]
  rfl

end Numeral
