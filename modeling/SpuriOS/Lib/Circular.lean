import SpuriOS.Lib.Memory

/-! # Circular buffers

The content of a circular buffer of `size` cells is a window: `n` cells from `pos` on, modulo
`size`. Taking from the front splits the window, and putting a chunk in the free cells after it,
as long as the chunk does not pass the end of the buffer, appends to it. -/

universe u

namespace Circular
variable {β : Type u} {m m' : Nat → β} {size pos n k : Nat} {data : Nat → β}

/-- The `n` cells from `pos` on. -/
def window (m : Nat → β) (size pos n : Nat) : List β :=
  (List.range n).map fun i => m ((pos + i) % size)

/-- The first `n` values of a memory. -/
def slice (m : Nat → β) (a n : Nat) : List β := (List.range n).map fun i => m (a + i)

@[simp] theorem window_zero : window m size pos 0 = [] := rfl

@[simp] theorem length_window : (window m size pos n).length = n := by simp [window]

@[simp] theorem length_slice : (slice m pos n).length = n := by simp [slice]

theorem window_congr (h : ∀ i < n, m ((pos + i) % size) = m' ((pos + i) % size)) :
    window m size pos n = window m' size pos n :=
  List.map_congr_left fun i hi => h i (List.mem_range.1 hi)

theorem slice_congr {a b : Nat} (h : ∀ i < n, m (a + i) = m' (b + i)) :
    slice m a n = slice m' b n :=
  List.map_congr_left fun i hi => h i (List.mem_range.1 hi)

/-- The window splits where its front is taken off. -/
theorem window_add : window m size pos (k + n) =
    window m size pos k ++ window m size ((pos + k) % size) n := by
  simp only [window, List.range_add, List.map_append, List.map_map]
  congr 1
  refine List.map_congr_left fun i _ => ?_
  simp only [Function.comp_apply, Nat.mod_add_mod, Nat.add_assoc]

theorem slice_add {a : Nat} : slice m a (k + n) = slice m a k ++ slice m (a + k) n := by
  simp only [slice, List.range_add, List.map_append, List.map_map]
  congr 1
  exact List.map_congr_left fun i _ => by simp only [Function.comp_apply, Nat.add_assoc]

/-- A window that does not pass the end of the buffer is a slice of it. -/
theorem window_eq_slice (h : pos + n ≤ size) : window m size pos n = slice m pos n :=
  List.map_congr_left fun i hi => by
    rw [Nat.mod_eq_of_lt (by have := List.mem_range.1 hi; omega)]

/-- A chunk put in the free cells after the window, without passing the end, appends to it. -/
theorem window_write (hfree : n + k ≤ size) (hend : (pos + n) % size + k ≤ size) :
    window (Memory.write m ((pos + n) % size) k data) size pos (n + k) =
      window m size pos n ++ slice data 0 k := by
  rw [window_add, window_eq_slice hend]
  congr 1
  · refine window_congr fun i hi => Memory.write_of_not fun hin => ?_
    -- cell `pos + i` would be cell `pos + n + j` for some `j < k`, less than a lap later
    obtain ⟨j, hj⟩ : ∃ j, (pos + i) % size = (pos + n) % size + j :=
      ⟨(pos + i) % size - (pos + n) % size, by omega⟩
    have hjk : j < k := by omega
    have hmod : (pos + n + j) % size = (pos + i) % size := by
      rw [← Nat.mod_add_mod, ← hj, Nat.mod_mod]
    have hdvd : size ∣ pos + n + j - (pos + i) :=
      Nat.dvd_of_mod_eq_zero (Nat.sub_mod_eq_zero_of_mod_eq hmod)
    have := Nat.le_of_dvd (by omega) hdvd
    omega
  · exact slice_congr fun i hi => by rw [Memory.write_add hi, Nat.zero_add]

end Circular
