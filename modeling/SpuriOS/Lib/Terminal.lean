import Mathlib.Logic.Function.Basic
import Mathlib.Tactic.Common

/-! # Scrolling terminals

A terminal has `rows` rows of `cols` cells, of any type, and a cursor on one of them. What is typed
moves cells around and never looks into them, so that it commutes with every map of cells. -/

universe u v

@[ext]
structure Terminal (rows cols : Nat) (α : Type u) where
  cell : Fin rows → Fin cols → α
  row : Fin rows
  col : Fin cols

namespace Terminal

inductive Key (α : Type u) where
  /-- Store a cell and advance. -/
  | put (a : α)
  | newline
  /-- Advance without drawing. -/
  | tab (width : Nat)
  /-- Store a cell and step back. -/
  | erase (a : α)

variable {rows cols : Nat} {α : Type u} {β : Type v}

def store (a : α) (t : Terminal rows cols α) : Terminal rows cols α :=
  { t with cell := fun i j => if i = t.row ∧ j = t.col then a else t.cell i j }

/-- Column 0. -/
def start (t : Terminal rows cols α) : Fin cols := ⟨0, Nat.zero_lt_of_lt t.col.isLt⟩

/-- Column 0 of the next row. Below the last row, the top row is dropped, and a row of `blank` is
appended. -/
def lineFeed (blank : α) (t : Terminal rows cols α) : Terminal rows cols α :=
  if h : t.row + 1 < rows then { t with row := ⟨t.row + 1, h⟩, col := t.start }
  else
    { t with
      cell := fun i j => if h : i + 1 < rows then t.cell ⟨i + 1, h⟩ j else blank
      col := t.start }

/-- `n` columns forward; behind the last one a new row starts. -/
def advance (blank : α) (n : Nat) (t : Terminal rows cols α) : Terminal rows cols α :=
  if h : t.col + n < cols then { t with col := ⟨t.col + n, h⟩ } else t.lineFeed blank

/-- One cell back, across the start of a row, but not of the first one. -/
def back (t : Terminal rows cols α) : Terminal rows cols α :=
  if 0 < t.col.val then { t with col := ⟨t.col - 1, Nat.lt_of_le_of_lt (Nat.sub_le ..) t.col.isLt⟩ }
  else if 0 < t.row.val then
    { t with
      row := ⟨t.row - 1, Nat.lt_of_le_of_lt (Nat.sub_le ..) t.row.isLt⟩
      col := ⟨cols - 1, Nat.sub_one_lt (Nat.ne_zero_of_lt t.col.isLt)⟩ }
  else t

def press (blank : α) (t : Terminal rows cols α) : Key α → Terminal rows cols α
  | .put a => (t.store a).advance blank 1
  | .newline => t.lineFeed blank
  | .tab width => t.advance blank width
  | .erase a => (t.store a).back

/-- What is typed, key by key. -/
def type (blank : α) (keys : List (Key α)) (t : Terminal rows cols α) : Terminal rows cols α :=
  keys.foldl (press blank) t

/-! ## Maps of cells -/

def map (f : α → β) (t : Terminal rows cols α) : Terminal rows cols β :=
  { t with cell := fun i j => f (t.cell i j) }

def Key.map (f : α → β) : Key α → Key β
  | put a => put (f a)
  | newline => newline
  | tab width => tab width
  | erase a => erase (f a)

section
variable {t : Terminal rows cols α} {f : α → β} {blank : α}

theorem store_map {a : α} : (t.store a).map f = (t.map f).store (f a) := by
  ext i j
  · exact apply_ite f ..
  · rfl
  · rfl

theorem lineFeed_map : (t.lineFeed blank).map f = (t.map f).lineFeed (f blank) := by
  rw [lineFeed, lineFeed]
  split
  next h => rw [dif_pos (show (t.map f).row + 1 < rows from h)]; rfl
  next h =>
    rw [dif_neg (show ¬(t.map f).row + 1 < rows from h)]
    ext i j
    · exact apply_dite f ..
    · rfl
    · rfl

theorem advance_map {n : Nat} :
    (t.advance blank n).map f = (t.map f).advance (f blank) n := by
  rw [advance, advance]
  split
  next h => rw [dif_pos (show (t.map f).col + n < cols from h)]; rfl
  next h =>
    rw [dif_neg (show ¬(t.map f).col + n < cols from h)]
    exact lineFeed_map

theorem back_map : t.back.map f = (t.map f).back := by
  rw [back, back]
  split
  next h => rw [if_pos (show 0 < (t.map f).col.val from h)]; rfl
  next h =>
    rw [if_neg (show ¬0 < (t.map f).col.val from h)]
    split
    next h' => rw [if_pos (show 0 < (t.map f).row.val from h')]; rfl
    next h' => rw [if_neg (show ¬0 < (t.map f).row.val from h')]

theorem press_map (key : Key α) :
    (t.press blank key).map f = (t.map f).press (f blank) (key.map f) := by
  cases key with
  | put a => rw [press, advance_map, store_map]; rfl
  | newline => exact lineFeed_map
  | tab width => exact advance_map
  | erase a => rw [press, back_map, store_map]; rfl

/-- Typing commutes with a map of cells. -/
theorem type_map (keys : List (Key α)) :
    (t.type blank keys).map f = (t.map f).type (f blank) (keys.map (.map f)) := by
  induction keys generalizing t with
  | nil => rfl
  | cons key keys ih => exact ih.trans (by rw [press_map]; rfl)

end

/-- Two maps give the same terminal just when they agree on the cells of it. -/
theorem map_eq_map_iff {t : Terminal rows cols α} {f g : α → β} :
    t.map f = t.map g ↔ ∀ i j, f (t.cell i j) = g (t.cell i j) := by
  refine ⟨fun h i j => congrFun (congrFun (congrArg cell h) i) j, fun h => ?_⟩
  ext i j
  · exact h i j
  · rfl
  · rfl

/-! ## Properties of all cells -/

def All (P : α → Prop) (t : Terminal rows cols α) : Prop := ∀ i j, P (t.cell i j)

def Key.All (P : α → Prop) : Key α → Prop
  | put a | erase a => P a
  | newline | tab _ => True

section
variable {P : α → Prop} {t : Terminal rows cols α} {blank : α}

theorem All.store {a : α} (h : t.All P) (ha : P a) : (t.store a).All P := by
  intro i j
  rw [Terminal.store]
  dsimp only
  split
  · exact ha
  · exact h i j

theorem All.lineFeed (h : t.All P) (hblank : P blank) : (t.lineFeed blank).All P := by
  rw [Terminal.lineFeed]
  split
  · exact h
  intro i j
  dsimp only
  split
  · exact h _ j
  · exact hblank

theorem All.advance {n : Nat} (h : t.All P) (hblank : P blank) : (t.advance blank n).All P := by
  rw [Terminal.advance]
  split
  · exact h
  · exact h.lineFeed hblank

theorem All.back (h : t.All P) : t.back.All P := by
  rw [Terminal.back]
  split
  · exact h
  split
  · exact h
  · exact h

theorem All.press {key : Key α} (h : t.All P) (hblank : P blank) (hkey : key.All P) :
    (t.press blank key).All P := by
  cases key with
  | put a => exact (h.store hkey).advance hblank
  | newline => exact h.lineFeed hblank
  | tab width => exact h.advance hblank
  | erase a => exact (h.store hkey).back

/-- What holds of the cells that are there and of those that are stored stays true of all. -/
theorem All.type {keys : List (Key α)} (h : t.All P) (hblank : P blank)
    (hkeys : ∀ key ∈ keys, key.All P) : (t.type blank keys).All P := by
  induction keys generalizing t with
  | nil => exact h
  | cons key keys ih =>
    rw [List.forall_mem_cons] at hkeys
    exact ih (h.press hblank hkeys.1) hkeys.2

end

end Terminal
