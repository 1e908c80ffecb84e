import Mathlib.Data.List.Range
import Mathlib.Data.List.Perm.Basic

/-! # Taking turns

Something that happens at every time is a function of the time. When it happens in turns of `m`
each, what a span of times shows is one turn after the other; when it repeats, every span of a
period shows the same, in some order. -/

universe u

namespace Rotation

variable {α : Type u} {f : Nat → α} {N : Nat}

theorem map_range'_turn (m s : Nat) :
    (List.range' (s * m) m).map (fun i => f (i / m)) = List.replicate m (f s) := by
  refine List.eq_replicate_iff.2 ⟨by rw [List.length_map, List.length_range'], fun b hb => ?_⟩
  obtain ⟨i, hi, rfl⟩ := List.mem_map.1 hb
  rw [List.mem_range'_1] at hi
  rw [Nat.div_eq_of_lt_le hi.1 (by rw [Nat.succ_mul]; exact hi.2)]

/-- One turn after the other. -/
theorem map_range'_turns (m n s : Nat) :
    (List.range' (s * m) (m * n)).map (fun i => f (i / m)) =
      (List.range' s n).flatMap fun j => List.replicate m (f j) := by
  induction n generalizing s with
  | zero => rfl
  | succ n ih =>
    rw [Nat.mul_succ, Nat.add_comm, ← List.range'_append_1, List.map_append, map_range'_turn,
      ← Nat.succ_mul, ih, List.range'_succ, List.flatMap_cons]

/-- Every span of a period shows the same. -/
theorem map_range'_perm (hf : ∀ i, f (i + N) = f i) (s : Nat) :
    ((List.range' s N).map f).Perm ((List.range' 0 N).map f) := by
  induction s with
  | zero => exact .refl _
  | succ s ih =>
    refine .trans ?_ ih
    -- the span moves on by one: the time it loses is a period before the one it gains
    have hsplit : f s :: (List.range' (s + 1) N).map f = (List.range' s N).map f ++ [f s] := by
      rw [← List.map_cons, ← List.range'_succ, ← List.range'_append_1, List.map_append]
      exact congrArg (fun b => (List.range' s N).map f ++ [b]) (hf s)
    exact (List.perm_cons (f s)).1 (hsplit ▸ List.perm_append_singleton ..)

theorem count_turns [DecidableEq α] (m : Nat) (a : α) (l : List Nat) :
    (l.flatMap fun j => List.replicate m (f j)).count a = m * (l.map f).count a := by
  induction l with
  | nil => rfl
  | cons j l ih =>
    rw [List.flatMap_cons, List.count_append, ih, List.map_cons, List.count_cons,
      List.count_replicate, Nat.mul_add, Nat.add_comm]
    split_ifs
    · rw [Nat.mul_one]
    · rfl

end Rotation
