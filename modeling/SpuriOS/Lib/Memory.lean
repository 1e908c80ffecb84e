import Mathlib.Algebra.Group.Nat.Defs
import Mathlib.Tactic.Common

/-! # Flat memory and unsigned words

A memory is a function from addresses; `write` is the effect of a `memcpy`, and `le` reads a
little-endian number. The word operations are those of an unsigned integer of 32 bits, on
representatives below `2 ^ 32`. -/

universe u

namespace Memory
variable {β : Type u} {m : Nat → β} {a b i k n : Nat} {f g : Nat → β}

/-- `n` cells from `a` on take the values `src 0 .. src (n - 1)`. -/
def write (m : Nat → β) (a n : Nat) (src : Nat → β) : Nat → β :=
  fun i => if a ≤ i ∧ i < a + n then src (i - a) else m i

theorem write_apply (m : Nat → β) (a n : Nat) (src : Nat → β) (i : Nat) :
    write m a n src i = if a ≤ i ∧ i < a + n then src (i - a) else m i := rfl

@[simp] theorem write_add (h : i < n) : write m a n f (a + i) = f i := by
  simp [write, h]

theorem write_of_not (h : ¬(a ≤ i ∧ i < a + n)) : write m a n f i = m i := if_neg h

@[simp] theorem write_zero : write m a 0 f = m := by
  funext i
  exact write_of_not (by omega)

/-- Two copies in a row into adjacent ranges are one. -/
theorem write_append {h : Nat → β} (hf : ∀ i < k, f i = h i) (hg : ∀ i < n, g i = h (k + i)) :
    write (write m a k f) (a + k) n g = write m a (k + n) h := by
  funext i
  simp only [write_apply]
  by_cases h1 : a + k ≤ i ∧ i < a + k + n
  · rw [if_pos h1, if_pos (by omega), hg _ (by omega)]
    congr 1; omega
  · rw [if_neg h1]
    by_cases h2 : a ≤ i ∧ i < a + k
    · rw [if_pos h2, if_pos (by omega), hf _ (by omega)]
    · rw [if_neg h2, if_neg (by omega)]

theorem write_congr (h : ∀ i < n, f i = g i) : write m a n f = write m a n g := by
  funext i
  simp only [write_apply]
  split
  · exact h _ (by omega)
  · rfl

section
variable {m m' src : Nat → UInt8}

/-- The number whose `n` bytes, the lowest first, are at the address `a`. -/
def le (m : Nat → UInt8) : (a n : Nat) → Nat
  | _, 0 => 0
  | a, n + 1 => (m a).toNat + 256 * le m (a + 1) n

theorem le_lt : le m a n < 256 ^ n := by
  induction n generalizing a with
  | zero => exact Nat.one_pos
  | succ n ih =>
    have hlow := (m a).toNat_lt
    have hhigh := @ih (a + 1)
    rw [le, Nat.pow_succ]
    omega

theorem le_congr (h : ∀ i < n, m (a + i) = m' (b + i)) : le m a n = le m' b n := by
  induction n generalizing a b with
  | zero => rfl
  | succ n ih =>
    rw [le, le, show m a = m' b from h 0 (by omega), ih fun i hi => ?_]
    rw [Nat.add_right_comm, Nat.add_right_comm b]
    exact h (i + 1) (by omega)

/-- A number inside a range that was copied is the one in the source. -/
theorem le_write (h : i + n ≤ k) : le (write m a k src) (a + i) n = le src i n :=
  le_congr fun j hj => by rw [Nat.add_assoc, write_add (by omega)]

theorem le_write_of_not (h : b + n ≤ a ∨ a + k ≤ b) :
    le (write m a k src) b n = le m b n :=
  le_congr fun j hj => write_of_not (by omega)

end

end Memory

namespace Word32

def wrap (a : Nat) : Nat := a % 2 ^ 32

def add (a b : Nat) : Nat := wrap (a + b)

def mul (a b : Nat) : Nat := wrap (a * b)

/-- `a - b` modulo `2 ^ 32`, for `b` below `2 ^ 32`. -/
def sub (a b : Nat) : Nat := wrap (a + (2 ^ 32 - b))

theorem wrap_of_lt {a : Nat} (h : a < 2 ^ 32) : wrap a = a := Nat.mod_eq_of_lt h

theorem wrap_lt (a : Nat) : wrap a < 2 ^ 32 := Nat.mod_lt _ (by decide)

theorem add_of_lt {a b : Nat} (h : a + b < 2 ^ 32) : add a b = a + b := wrap_of_lt h

theorem sub_of_le {a b : Nat} (h : b ≤ a) (ha : a < 2 ^ 32) : sub a b = a - b := by
  simp only [sub, wrap]; omega

@[simp] theorem sub_self {a : Nat} (ha : a < 2 ^ 32) : sub a a = 0 := by
  rw [sub_of_le (Nat.le_refl a) ha, Nat.sub_self]

end Word32
