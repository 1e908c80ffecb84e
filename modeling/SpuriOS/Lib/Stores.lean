import SpuriOS.Lib.Circular
import Mathlib.Data.List.GetD

/-! # Storing lists

`put m a l` is the memory after the values of `l` were stored from the address `a` on. What comes
out piece by piece, each one behind the one before, comes out as one list. -/

universe u

namespace Memory
variable {β : Type u} [Inhabited β] {m f : Nat → β} {a i n : Nat} {l l' : List β}

def put (m : Nat → β) (a : Nat) (l : List β) : Nat → β :=
  write m a l.length fun i => l.getD i default

@[simp] theorem put_nil : put m a [] = m := write_zero

theorem put_of_not (h : ¬(a ≤ i ∧ i < a + l.length)) : put m a l i = m i := write_of_not h

theorem put_add (h : i < l.length) : put m a l (a + i) = l.getD i default := write_add h

/-- A copy from somewhere else stores the list that is there. -/
theorem write_eq_put (hn : n = l.length) (h : ∀ i < l.length, f i = l.getD i default) :
    write m a n f = put m a l := by
  subst hn
  exact write_congr h

theorem put_append : put (put m a l) (a + l.length) l' = put m a (l ++ l') := by
  rw [put, put, put, List.length_append]
  refine write_append (fun i hi => ?_) fun i _ => ?_
  · rw [List.getD_append _ _ _ _ hi]
  · rw [List.getD_append_right _ _ _ _ (Nat.le_add_right ..), Nat.add_sub_cancel_left]

omit [Inhabited β] in
/-- A copy of one value. -/
theorem write_one (m : Nat → β) (a : Nat) (f : Nat → β) :
    write m a 1 f = Function.update m a (f 0) := by
  funext i
  rcases eq_or_ne i a with rfl | hne
  · rw [Function.update_self]
    exact write_add (i := 0) Nat.one_pos
  · rw [Function.update_of_ne hne]
    exact write_of_not fun h => hne (Nat.le_antisymm (Nat.le_of_lt_succ h.2) h.1)

theorem put_singleton (m : Nat → β) (a : Nat) (b : β) :
    put m a [b] = Function.update m a b := write_one ..

theorem slice_put : Circular.slice (put m a l) a l.length = l := by
  refine List.ext_getElem? fun i => ?_
  rw [Circular.slice, List.getElem?_map]
  by_cases hi : i < l.length
  · rw [List.getElem?_range hi, Option.map_some, put_add hi, List.getD_eq_getElem?_getD,
      List.getElem?_eq_getElem hi]
    rfl
  · rw [List.getElem?_eq_none (by simpa using hi), List.getElem?_eq_none (by simpa using hi)]
    rfl

end Memory
