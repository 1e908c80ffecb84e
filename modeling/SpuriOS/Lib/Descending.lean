import Mathlib.Logic.Function.Basic
import Mathlib.Tactic.Common

/-! # Stacks that grow downwards

A memory holds a list of words from an address up, one every `k` addresses. What is pushed goes
below the address, so that it leaves what the memory holds from there up; `Above` is the frame
condition for code that writes below an address only. -/

universe u

namespace Descending

variable {β : Type u} {k a b : Nat} {mem mem' : Nat → β} {w : β} {ws vs : List β}

/-- The words from address `a` up are `ws`. -/
def Holds (k : Nat) (mem : Nat → β) : Nat → List β → Prop
  | _, [] => True
  | a, w :: ws => mem a = w ∧ Holds k mem (a + k) ws

instance decidableHolds [DecidableEq β] :
    (a : Nat) → (ws : List β) → Decidable (Holds k mem a ws)
  | _, [] => .isTrue trivial
  | a, w :: ws =>
    have : Decidable (Holds k mem (a + k) ws) := decidableHolds (a + k) ws
    inferInstanceAs (Decidable (mem a = w ∧ Holds k mem (a + k) ws))

/-- The memories agree from address `a` up. -/
def Above (a : Nat) (mem mem' : Nat → β) : Prop := ∀ b, a ≤ b → mem' b = mem b

@[simp] theorem holds_nil : Holds k mem a [] := trivial

@[simp] theorem holds_cons : Holds k mem a (w :: ws) ↔ mem a = w ∧ Holds k mem (a + k) ws := Iff.rfl

theorem holds_append : Holds k mem a (ws ++ vs) ↔
    Holds k mem a ws ∧ Holds k mem (a + k * ws.length) vs := by
  induction ws generalizing a with
  | nil => simp
  | cons w ws ih =>
    rw [List.cons_append, holds_cons, holds_cons, ih, and_assoc, List.length_cons,
      Nat.mul_succ, Nat.add_assoc, Nat.add_comm k]

theorem Above.refl : Above a mem mem := fun _ _ => rfl

theorem Above.trans {mem'' : Nat → β} (h : Above a mem mem') (h' : Above a mem' mem'') :
    Above a mem mem'' := fun b hb => (h' b hb).trans (h b hb)

/-- What agrees from an address up agrees from every higher one. -/
theorem Above.mono (h : Above a mem mem') (hab : a ≤ b) : Above b mem mem' :=
  fun c hc => h c (Nat.le_trans hab hc)

/-- A word written below an address. -/
theorem Above.update (h : b < a) : Above a mem (Function.update mem b w) :=
  fun c hc => Function.update_of_ne (by omega) ..

/-- Code that writes below the words leaves them. -/
theorem Holds.frame (h : Holds k mem a ws) (hm : Above b mem mem') (hb : b ≤ a) :
    Holds k mem' a ws := by
  induction ws generalizing a with
  | nil => trivial
  | cons w ws ih => exact ⟨(hm a hb).trans h.1, ih h.2 (Nat.le_add_right_of_le hb)⟩

/-- A word pushed on top of those that are there. -/
theorem Holds.push (h : Holds k mem (a + k) ws) (hk : 0 < k) :
    Holds k (Function.update mem a w) a (w :: ws) :=
  ⟨Function.update_self .., h.frame (Above.update (Nat.lt_add_of_pos_right hk)) (Nat.le_refl _)⟩

end Descending
