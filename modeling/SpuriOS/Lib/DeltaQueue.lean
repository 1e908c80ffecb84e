import Mathlib.Algebra.BigOperators.Group.List.Basic
import Mathlib.Algebra.Ring.Nat
import Mathlib.Data.List.Perm.Basic

/-! # Delta queues

A list of entries each with the time that passes between the deadline of the entry before it and
its own. `deadlines time n l` are the entries with their deadlines, when it is `n` now. -/

universe u

namespace DeltaQueue

variable {ν : Type u} {time time' : ν → Nat} {n d : Nat} {l a b : List ν} {x y : ν}

def deadlines (time : ν → Nat) : Nat → List ν → List (ν × Nat)
  | _, [] => []
  | n, x :: l => (x, n + time x) :: deadlines time (n + time x) l

@[simp] theorem deadlines_nil : deadlines time n [] = [] := rfl

@[simp] theorem deadlines_cons :
    deadlines time n (x :: l) = (x, n + time x) :: deadlines time (n + time x) l := rfl

theorem deadlines_congr (h : ∀ x ∈ l, time' x = time x) :
    deadlines time' n l = deadlines time n l := by
  induction l generalizing n with
  | nil => rfl
  | cons x l ih =>
    rw [deadlines_cons, deadlines_cons, h x List.mem_cons_self,
      ih fun y hy => h y (List.mem_cons_of_mem _ hy)]

theorem deadlines_append :
    deadlines time n (a ++ b) = deadlines time n a ++ deadlines time (n + (a.map time).sum) b := by
  induction a generalizing n with
  | nil => simp
  | cons x a ih => simp [ih, Nat.add_assoc]

@[simp] theorem map_fst_deadlines : (deadlines time n l).map Prod.fst = l := by
  induction l generalizing n with
  | nil => rfl
  | cons x l ih => rw [deadlines_cons, List.map_cons, ih]

/-- The deadline of an entry is the sum of the times up to it. -/
theorem mem_deadlines : (x, n + ((a ++ [x]).map time).sum) ∈ deadlines time n (a ++ x :: b) := by
  rw [deadlines_append, deadlines_cons, List.map_append, List.sum_append]
  refine List.mem_append_right _ ?_
  rw [← Nat.add_assoc]
  simp

/-- Once the first entry has time left, no deadline has come. -/
theorem lt_of_mem_deadlines (h : ∀ x, l.head? = some x → 0 < time x) {c : ν × Nat}
    (hc : c ∈ deadlines time n l) : n < c.2 := by
  have hle : ∀ {m : Nat} {l : List ν}, ∀ c ∈ deadlines time m l, m ≤ c.2 := by
    intro m l
    induction l generalizing m with
    | nil => exact fun c hc => nomatch hc
    | cons x l ih =>
      intro c hc
      rcases List.mem_cons.1 hc with rfl | hc
      · exact Nat.le_add_right ..
      · exact Nat.le_trans (Nat.le_add_right ..) (ih c hc)
  cases l with
  | nil => exact nomatch hc
  | cons x l =>
    have hx : n < n + time x := Nat.lt_add_of_pos_right (h x rfl)
    rcases List.mem_cons.1 hc with rfl | hc
    · exact hx
    · exact Nat.lt_of_lt_of_le hx (hle c hc)

/-- An entry `x` that has `d` left behind `a` is put there, and the next one loses that time. -/
theorem deadlines_insert (hx : time' x = d) (ha : ∀ y ∈ a, time' y = time y)
    (hfirst : ∀ y, b.head? = some y → time' y = time y - d)
    (hrest : ∀ y ∈ b, b.head? ≠ some y → time' y = time y)
    (hd : ∀ y, b.head? = some y → d ≤ time y) (hnd : b.Nodup) :
    (deadlines time' n (a ++ x :: b)).Perm
      ((x, n + ((a.map time).sum + d)) :: deadlines time n (a ++ b)) := by
  have hsum : (a.map time').sum = (a.map time).sum := congrArg List.sum (List.map_congr_left ha)
  rw [deadlines_append, deadlines_append, deadlines_congr ha, deadlines_cons, hsum, hx,
    ← Nat.add_assoc]
  refine List.perm_middle.trans (.cons _ (.of_eq (congrArg _ ?_)))
  cases b with
  | nil => rfl
  | cons y b =>
    have hyd := hd y rfl
    have hrest : ∀ z ∈ b, time' z = time z := fun z hz =>
      hrest z (List.mem_cons_of_mem _ hz) fun he => by
        obtain rfl : y = z := Option.some.inj he
        exact (List.nodup_cons.1 hnd).1 hz
    have hadd : ∀ m, m + d + (time y - d) = m + time y := fun m => by omega
    rw [deadlines_cons, deadlines_cons, hfirst y rfl, hadd, deadlines_congr hrest]

/-- Time passes, and the first entry has less of it left. -/
theorem deadlines_tick (hx : time' x = time x - 1) (hpos : 0 < time x)
    (hl : ∀ y ∈ l, time' y = time y) :
    deadlines time' (n + 1) (x :: l) = deadlines time n (x :: l) := by
  have hadd : n + 1 + (time x - 1) = n + time x := by omega
  rw [deadlines_cons, deadlines_cons, hx, hadd, deadlines_congr hl]

/-- The first entries have no time left. -/
theorem deadlines_due (ha : ∀ x ∈ a, time x = 0) :
    deadlines time n (a ++ b) = a.map (·, n) ++ deadlines time n b := by
  induction a with
  | nil => rfl
  | cons x a ih =>
    rw [List.cons_append, deadlines_cons, ha x List.mem_cons_self, Nat.add_zero,
      ih fun y hy => ha y (List.mem_cons_of_mem _ hy)]
    rfl

end DeltaQueue
