import SpuriOS.Vga.Strokes

/-! # The end of the screen

A key leaves the cursor on the screen, wherever it was in its line; only a space that moves the
cursor, or the location that a printer is given, takes it behind the line. -/

namespace SpuriOS

open Traced (byte)

theorem vgaCols_pos : 0 < vgaCols := by decide

/-- A spot on the screen. -/
structure Spot where
  x : Nat
  y : Nat
  x_lt : x < vgaCols
  y_lt : y < vgaRows

namespace Spot

def nextLine (p : Spot) : Spot where
  x := 0
  y := min (p.y + 1) (vgaRows - 1)
  x_lt := by decide
  y_lt := (Nat.min_le_right ..).trans_lt (by decide)

/-- Column `x` of the line, or the next line if the line has no such column. -/
def column (p : Spot) (x : Nat) : Spot :=
  if h : x < vgaCols then { p with x, x_lt := h } else p.nextLine

/-- The end of the line before; the first line has none. -/
def back (p : Spot) : Spot :=
  if p.y = 0 then { p with x := 0, x_lt := by decide }
  else
    { x := vgaCols - 1, y := p.y - 1
      x_lt := by decide, y_lt := (Nat.sub_le ..).trans_lt p.y_lt }

/-- Where a key leaves the cursor that it finds in column `x`. -/
def key (p : Spot) (x : Nat) (c : Byte) (raw : Bool) : Spot :=
  if c = asciiLf ∧ ¬raw then p.nextLine
  else if c = asciiTab ∧ ¬raw then p.column (byte (x + tabWidth))
  else if c = asciiBs ∧ ¬raw then if 0 < x then p.column (x - 1) else p.back
  else p.column (byte (x + 1))

end Spot

/-- A cursor that has been moved by `moved` columns from its spot. -/
structure Pen where
  spot : Spot
  moved : Nat

namespace Pen

def x (q : Pen) : Nat := byte (q.spot.x + q.moved)

def location (q : Pen) : Nat := q.spot.y * vgaCols + q.x

/-- Wherever it has been moved to, it is in front of the end of the screen. -/
def Held (q : Pen) : Prop := q.moved = 0 ∨ q.location < vgaRows * vgaCols

def after (q : Pen) : Stroke → Pen
  | .key c raw => ⟨q.spot.key q.x c raw, 0⟩
  | .color _ => q
  | .skip => ⟨q.spot, q.moved + 1⟩

theorem x_of_moved {q : Pen} (h : q.moved = 0) : q.x = q.spot.x := by
  have hlt := q.spot.x_lt
  rw [vgaCols] at hlt
  rw [x, h, Nat.add_zero, Traced.byte_of_lt (by omega)]

theorem held_iff {q : Pen} : q.Held ↔ q.location < vgaRows * vgaCols := by
  refine or_iff_right_of_imp fun h => ?_
  have hx := q.spot.x_lt
  have hy := q.spot.y_lt
  rw [location, x_of_moved h]
  rw [vgaCols] at hx
  rw [vgaRows] at hy
  rw [vgaRows, vgaCols]
  omega

end Pen

/-- The keys that draw nothing at the cursor: a newline and a tab. -/
def Stroke.Moves : Stroke → Prop
  | .key c raw => raw = false ∧ (c = asciiLf ∨ c = asciiTab)
  | .color _ | .skip => True

/-- Wherever the strokes, or their end, draw something, the pen is in front of the end of the
screen. -/
def Contained : Pen → List Stroke → Prop
  | q, [] => q.Held
  | q, s :: strokes => (s.Moves ∨ q.Held) ∧ Contained (q.after s) strokes

/-- No cell behind the screen was written. -/
def Traced.Inside (t : Traced) : Prop := ∀ i ∈ t.written, i < vgaRows * vgaCols

/-- The cursor is where the pen is. -/
structure Traced.At (t : Traced) (q : Pen) : Prop where
  x : t.x = q.x
  y : t.y = q.spot.y

namespace Traced
variable {t : Traced} {q : Pen} {video raw : Bool} {c : Byte}

theorem At.location (h : t.At q) : t.toScreen.location = q.location := by
  rw [Screen.location, h.x, h.y]
  rfl

theorem inside_put {cell : Cell} :
    (t.put cell).Inside ↔ t.location < vgaRows * vgaCols ∧ t.Inside := List.forall_mem_cons

theorem inside_putbs : t.putbs.Inside ↔ t.location < vgaRows * vgaCols ∧ t.Inside := by
  have hput := @inside_put t ⟨0x20, t.attr⟩
  rw [putbs]
  split
  · exact hput
  · split <;> exact hput

theorem inside_scroll : t.scroll.Inside ↔ t.Inside := by
  rw [Inside, scroll, List.forall_mem_append]
  exact and_iff_right fun i hi => List.mem_range.1 hi

/-! ## A stroke -/

theorem putln_spec (h : t.y < vgaRows) : (t.putln video).x = 0 ∧
    (t.putln video).y = min (t.y + 1) (vgaRows - 1) ∧
      ((t.putln video).Inside ↔ t.Inside) := by
  have hend : ∀ u : Traced, u.x = 0 → u.y = min (t.y + 1) (vgaRows - 1) → (u.Inside ↔ t.Inside) →
      (if video then u.vgaUpdateCursor else u).x = 0 ∧
        (if video then u.vgaUpdateCursor else u).y = min (t.y + 1) (vgaRows - 1) ∧
          ((if video then u.vgaUpdateCursor else u).Inside ↔ t.Inside) := by
    intro u hx hy hinside
    cases video with
    | false => exact ⟨hx, hy, hinside⟩
    | true =>
      refine ⟨hx, hy, inside_put.trans ((and_iff_right ?_).trans hinside)⟩
      rw [Screen.location, hx, hy, vgaRows, vgaCols]
      omega
  have hy : byte (t.y + 1) = t.y + 1 := byte_of_lt (by rw [vgaRows] at h; omega)
  rw [putln, hy]
  dsimp only
  by_cases hlast : t.y + 1 = vgaRows
  · rw [if_pos hlast]
    exact hend _ rfl (by dsimp only; omega) inside_scroll
  · rw [if_neg hlast]
    exact hend _ rfl (by dsimp only; omega) Iff.rfl

theorem at_spot {p : Spot} (hx : t.x = p.x) (hy : t.y = p.y) : t.At ⟨p, 0⟩ :=
  ⟨hx.trans (@Pen.x_of_moved ⟨p, 0⟩ rfl).symm, hy⟩

/-- The end of `putchar`. -/
theorem wrap_spec {p : Spot} (hy : t.y = p.y) :
    (if vgaCols ≤ t.x then t.putln video else t).At ⟨p.column t.x, 0⟩ ∧
      ((if vgaCols ≤ t.x then t.putln video else t).Inside ↔ t.Inside) := by
  obtain ⟨hx', hy', hinside⟩ := @putln_spec t video (hy ▸ p.y_lt)
  rw [Spot.column]
  by_cases h : t.x < vgaCols
  · rw [if_neg (Nat.not_le.2 h), dif_pos h]
    exact ⟨at_spot rfl hy, Iff.rfl⟩
  · rw [if_pos (Nat.le_of_not_lt h), dif_neg h]
    exact ⟨at_spot hx' (hy' ▸ hy ▸ rfl), hinside⟩

theorem putbs_spec (h : t.At q) :
    (if vgaCols ≤ t.putbs.x then t.putbs.putln video else t.putbs).At
        ⟨if 0 < q.x then q.spot.column (q.x - 1) else q.spot.back, 0⟩ ∧
      ((if vgaCols ≤ t.putbs.x then t.putbs.putln video else t.putbs).Inside ↔
        t.Inside ∧ q.location < vgaRows * vgaCols) := by
  have hinside : t.putbs.Inside ↔ t.Inside ∧ q.location < vgaRows * vgaCols := by
    rw [inside_putbs, h.location, and_comm]
  by_cases hx : 0 < t.x
  · have hput : t.putbs.x = t.x - 1 ∧ t.putbs.y = q.spot.y := by
      rw [putbs, if_pos hx]
      exact ⟨rfl, h.y⟩
    obtain ⟨hat, hwrap⟩ := @wrap_spec t.putbs video q.spot hput.2
    rw [← h.x, if_pos hx, ← hput.1]
    exact ⟨hat, hwrap.trans hinside⟩
  · have hput : t.putbs.x = q.spot.back.x ∧ t.putbs.y = q.spot.back.y := by
      rw [putbs, if_neg hx, Spot.back]
      by_cases hy : 0 < t.y
      · rw [if_pos hy, if_neg (h.y ▸ Nat.ne_of_gt hy)]
        exact ⟨rfl, congrArg (· - 1) h.y⟩
      · rw [if_neg hy, if_pos (h.y ▸ Nat.eq_zero_of_not_pos hy)]
        exact ⟨Nat.eq_zero_of_not_pos hx, h.y⟩
    have hfits : ¬vgaCols ≤ t.putbs.x := Nat.not_le.2 (hput.1 ▸ q.spot.back.x_lt)
    rw [← h.x, if_neg hx, if_neg hfits]
    exact ⟨at_spot hput.1 hput.2, hinside⟩

theorem putchar_spec (h : t.At q) : (t.putchar video c raw).At ⟨q.spot.key q.x c raw, 0⟩ ∧
    ((t.putchar video c raw).Inside ↔
      t.Inside ∧ ((Stroke.key c raw).Moves ∨ q.location < vgaRows * vgaCols)) := by
  rw [putchar, putcharAt, Spot.key, Stroke.Moves]
  dsimp only
  by_cases hlf : c = asciiLf ∧ ¬raw
  · obtain ⟨hx, hy, hinside⟩ := @putln_spec t video (h.y ▸ q.spot.y_lt)
    rw [if_pos hlf, if_pos hlf, if_neg (by rw [hx]; decide)]
    refine ⟨at_spot hx (by rw [hy, h.y]; rfl), hinside.trans (and_iff_left (.inl ?_)).symm⟩
    exact ⟨Bool.eq_false_iff.2 hlf.2, .inl hlf.1⟩
  by_cases htab : c = asciiTab ∧ ¬raw
  · obtain ⟨hat, hinside⟩ :=
      @wrap_spec { t with x := byte (t.x + tabWidth) } video q.spot h.y
    rw [if_neg hlf, if_neg hlf, if_pos htab, if_pos htab, ← h.x]
    refine ⟨hat, hinside.trans (and_iff_left (.inl ?_)).symm⟩
    exact ⟨Bool.eq_false_iff.2 htab.2, .inr htab.1⟩
  have hdraws : (raw = false ∧ (c = asciiLf ∨ c = asciiTab)) ∨
      q.location < vgaRows * vgaCols ↔ q.location < vgaRows * vgaCols := by
    refine or_iff_right ?_
    rintro ⟨rfl, hc | hc⟩
    · exact hlf ⟨hc, Bool.false_ne_true⟩
    · exact htab ⟨hc, Bool.false_ne_true⟩
  rw [if_neg hlf, if_neg hlf, if_neg htab, if_neg htab, hdraws]
  by_cases hbs : c = asciiBs ∧ ¬raw
  · rw [if_pos hbs, if_pos hbs]
    exact putbs_spec h
  · obtain ⟨hat, hinside⟩ :=
      @wrap_spec { t.put (charCell c t.attr) with x := byte (t.x + 1) } video q.spot h.y
    rw [if_neg hbs, if_neg hbs, ← h.x]
    refine ⟨hat, hinside.trans ?_⟩
    rw [← h.location, and_comm]
    exact @inside_put t (charCell c t.attr)

/-- A stroke leaves the cursor at its pen, and draws behind the screen only if the pen is there. -/
theorem draw_spec (h : t.At q) (s : Stroke) : (s.draw video t).At (q.after s) ∧
    ((s.draw video t).Inside ↔ t.Inside ∧ (s.Moves ∨ q.Held)) := by
  cases s with
  | key c raw =>
    rw [Pen.held_iff]
    exact putchar_spec h
  | color attr => exact ⟨⟨h.x, h.y⟩, (and_iff_left (.inl trivial)).symm⟩
  | skip =>
    refine ⟨⟨?_, h.y⟩, (and_iff_left (.inl trivial)).symm⟩
    have hx := h.x
    rw [Pen.x, byte] at hx
    rw [Stroke.draw, Pen.after, Pen.x, byte, byte, hx]
    dsimp only
    omega

/-! ## Strokes and the end of a call -/

/-- The cells of a call that has drawn its strokes and the cursor. -/
theorem drawn_inside_iff (h : t.At q) (strokes : List Stroke) :
    (t.drawn true strokes).vgaUpdateCursor.Inside ↔ t.Inside ∧ Contained q strokes := by
  induction strokes generalizing t q with
  | nil =>
    refine inside_put.trans ?_
    rw [Contained, Pen.held_iff, ← h.location, and_comm]
    rfl
  | cons s strokes ih =>
    obtain ⟨hat, hinside⟩ := @draw_spec t q true h s
    rw [Contained, ← and_assoc, ← hinside]
    exact ih hat

theorem drawn_at (h : t.At q) (strokes : List Stroke) :
    (t.drawn video strokes).At (strokes.foldl Pen.after q) := by
  induction strokes generalizing t q with
  | nil => exact h
  | cons s strokes ih => exact ih (draw_spec h s).1

theorem drawn_inside (h : t.At q) {strokes : List Stroke} (hstrokes : Contained q strokes)
    (ht : t.Inside) : (t.drawn video strokes).Inside := by
  induction strokes generalizing t q with
  | nil => exact ht
  | cons s strokes ih =>
    obtain ⟨hat, hinside⟩ := @draw_spec t q video h s
    exact ih hat hstrokes.2 (hinside.2 ⟨ht, hstrokes.1⟩)

/-! ## Behind the last line -/

theorem inside_of_putln (h : (t.putln video).Inside) : t.Inside := by
  have hcells : ∀ u : Traced, (if video then u.vgaUpdateCursor else u).Inside → u.Inside := by
    intro u hu
    cases video with
    | false => exact hu
    | true => exact (inside_put.1 hu).2
  rw [putln] at h
  have hu := hcells _ h
  split at hu
  · exact inside_scroll.1 hu
  · exact hu

theorem putln_outside (h : t.y = vgaRows) : ¬(t.putln true).Inside := by
  have hy : byte (t.y + 1) = t.y + 1 := by rw [h]; rfl
  intro hinside
  rw [putln, hy, if_pos rfl] at hinside
  have hlt := (inside_put.1 hinside).1
  rw [if_neg (by dsimp only; omega), Screen.location, h] at hlt
  exact absurd hlt (show ¬(vgaRows + 1) * vgaCols + 0 < vgaRows * vgaCols by decide)

theorem putcharAt_below (h : t.y = vgaRows) (hinside : (t.putcharAt true c raw).Inside) :
    (t.putcharAt true c raw).y = vgaRows := by
  have hcell : ¬t.location < vgaRows * vgaCols := by
    rw [Screen.location, h, vgaRows, vgaCols]
    omega
  rw [putcharAt] at hinside ⊢
  split at hinside
  next => exact absurd hinside (putln_outside h)
  next hlf =>
  rw [if_neg hlf]
  split at hinside
  next htab =>
    rw [if_pos htab]
    exact h
  next htab =>
  split at hinside
  next => exact absurd (inside_putbs.1 hinside).1 hcell
  next => exact absurd ((@inside_put t (charCell c t.attr)).1 hinside).1 hcell

theorem draw_below (h : t.y = vgaRows) {s : Stroke} (hinside : (s.draw true t).Inside) :
    (s.draw true t).y = vgaRows := by
  cases s with
  | key c raw =>
    rw [Stroke.draw, putchar] at hinside ⊢
    split at hinside
    next hend =>
      exact absurd hinside (putln_outside (putcharAt_below h (inside_of_putln hinside)))
    next hend =>
      rw [if_neg hend]
      exact putcharAt_below h hinside
  | color attr => exact h
  | skip => exact h

theorem inside_of_putchar (h : (t.putchar video c raw).Inside) : t.Inside := by
  have hat : (t.putcharAt video c raw).Inside := by
    rw [putchar] at h
    split at h
    · exact inside_of_putln h
    · exact h
  rw [putcharAt] at hat
  split at hat
  · exact inside_of_putln hat
  split at hat
  · exact hat
  split at hat
  · exact (inside_putbs.1 hat).2
  · exact ((@inside_put t (charCell c t.attr)).1 hat).2

theorem inside_of_drawn {strokes : List Stroke} (h : (t.drawn video strokes).Inside) :
    t.Inside := by
  induction strokes generalizing t with
  | nil => exact h
  | cons s strokes ih =>
    have hdraw := ih h
    cases s with
    | key c raw => exact inside_of_putchar hdraw
    | color attr => exact hdraw
    | skip => exact hdraw

/-- What starts in the line behind the last one writes a cell there, at the latest the cursor. -/
theorem drawn_below (h : t.y = vgaRows) (strokes : List Stroke) :
    ¬(t.drawn true strokes).vgaUpdateCursor.Inside := by
  intro hinside
  induction strokes generalizing t with
  | nil =>
    have hlt := (inside_put.1 hinside).1
    rw [drawn, List.foldl_nil, Screen.location, h, vgaRows, vgaCols] at hlt
    omega
  | cons s strokes ih =>
    have hdraw := @inside_of_drawn _ true strokes (inside_put.1 hinside).2
    exact ih (draw_below h hdraw) hinside

end Traced

end SpuriOS
