import Mathlib.Data.List.Range
import Mathlib.Data.List.Perm.Subperm
import Mathlib.Logic.Function.Basic

/-! # How often a table refers to something -/

namespace Counting

section
variable {α : Type} [DecidableEq α] {f : Nat → Option α} {n i : Nat} {a : α} {v : Option α}

/-- The number of entries among the first `n` that are `a`. -/
def refs (f : Nat → Option α) (n : Nat) (a : α) : Nat :=
  (List.range n).countP fun i => f i = some a

theorem refs_succ : refs f (n + 1) a = refs f n a + if f n = some a then 1 else 0 := by
  rw [refs, List.range_succ, List.countP_append]
  simp [refs, List.countP_cons]

theorem refs_eq_zero : refs f n a = 0 ↔ ∀ i < n, f i ≠ some a := by
  simp [refs, List.countP_eq_zero]

theorem refs_pos (hi : i < n) (h : f i = some a) : 0 < refs f n a :=
  Nat.pos_of_ne_zero fun h0 => refs_eq_zero.1 h0 i hi h

theorem refs_update_of_le (h : n ≤ i) : refs (Function.update f i v) n a = refs f n a := by
  refine List.countP_congr fun j hj => ?_
  rw [Function.update_of_ne (by have := List.mem_range.1 hj; omega)]

/-- Overwriting an entry takes away a reference to the old value and adds one to the new one. -/
theorem refs_update (hi : i < n) :
    refs (Function.update f i v) n a + (if f i = some a then 1 else 0) =
      refs f n a + if v = some a then 1 else 0 := by
  induction n with
  | zero => omega
  | succ n ih =>
    rw [refs_succ, refs_succ]
    by_cases hin : i = n
    · subst hin
      rw [refs_update_of_le (Nat.le_refl i), Function.update_self]
      omega
    · rw [Function.update_of_ne (Ne.symm hin)]
      have := ih (by omega)
      omega

end

variable {α : Type}

/-- What falls under one of three heads is counted there. -/
theorem length_le_countP {P Q R : α → Bool} (h : ∀ a, P a = true ∨ Q a = true ∨ R a = true)
    (l : List α) : l.length ≤ l.countP P + l.countP Q + l.countP R := by
  induction l with
  | nil => exact Nat.zero_le _
  | cons a l ih =>
    rw [List.length_cons, List.countP_cons, List.countP_cons, List.countP_cons]
    obtain ha | ha | ha := h a
    · rw [if_pos ha]
      omega
    · rw [if_pos (c := Q a = true) ha]
      omega
    · rw [if_pos (c := R a = true) ha]
      omega

/-- Different things that each come from one of `m` are no more than these. -/
theorem countP_le_countP {β : Type} {l : List α} {m : List β} {P : α → Bool} {Q : β → Bool}
    (g : β → α) (hl : l.Nodup) (h : ∀ a ∈ l, P a = true → ∃ b ∈ m, Q b = true ∧ g b = a) :
    l.countP P ≤ m.countP Q := by
  have hsub : l.filter P ⊆ (m.filter Q).map g := by
    intro a ha
    obtain ⟨hmem, hP⟩ := List.mem_filter.1 ha
    obtain ⟨b, hb, hQ, rfl⟩ := h a hmem hP
    exact List.mem_map.2 ⟨b, List.mem_filter.2 ⟨hb, hQ⟩, rfl⟩
  have hle := (List.subperm_of_subset (hl.filter P) hsub).length_le
  rwa [List.length_map, ← List.countP_eq_length_filter, ← List.countP_eq_length_filter] at hle

/-- Marking one thing takes one from the count of those that are not marked. -/
theorem countP_le_update [DecidableEq α] {used : α → Bool} (a : α) {l : List α} (hl : l.Nodup) :
    l.countP (fun b => !used b) ≤ l.countP (fun b => !Function.update used a true b) + 1 := by
  induction l with
  | nil => exact Nat.zero_le _
  | cons b l ih =>
    obtain ⟨hb, hl⟩ := List.nodup_cons.1 hl
    rw [List.countP_cons, List.countP_cons]
    rcases eq_or_ne b a with rfl | hne
    · have hsame : l.countP (fun c => !Function.update used b true c) =
          l.countP fun c => !used c := by
        refine List.countP_congr fun c hc => ?_
        have hne : c ≠ b := by
          rintro rfl
          exact hb hc
        rw [Function.update_of_ne hne]
      rw [hsame]
      split <;> omega
    · have := ih hl
      rw [Function.update_of_ne hne]
      omega

/-- One more thing is counted. -/
theorem countP_insert {P Q : α → Bool} {a : α} {l : List α} (hl : l.Nodup) (ha : a ∈ l)
    (hP : P a = false) (hQ : Q a = true) (h : ∀ b ∈ l, b ≠ a → Q b = P b) :
    l.countP Q = l.countP P + 1 := by
  induction l with
  | nil => cases ha
  | cons b l ih =>
    obtain ⟨hb, hl⟩ := List.nodup_cons.1 hl
    rw [List.countP_cons, List.countP_cons]
    obtain rfl | ha := List.mem_cons.1 ha
    · have hsame : l.countP Q = l.countP P := by
        refine List.countP_congr fun c hc => ?_
        rw [h c (List.mem_cons_of_mem _ hc) fun he => hb (he ▸ hc)]
      rw [hsame, hP, hQ, if_pos rfl, if_neg Bool.false_ne_true]
    · have hne : b ≠ a := fun he => hb (he ▸ ha)
      rw [ih hl ha fun c hc => h c (List.mem_cons_of_mem _ hc), h b List.mem_cons_self hne]
      omega

end Counting
