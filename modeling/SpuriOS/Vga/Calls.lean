import SpuriOS.Vga.Bounds
import SpuriOS.Vga.Terminal

/-! # Printing from user tasks

`print` and `con_write` never leave the screen. A location may be behind it, as `>` lets the row and
the column of its size pass, and the spaces of `vga_alpha_printf_fixed_args` move the cursor behind
the line that they end. They do not where the output, typed on a terminal, has no space in the last
column. -/

namespace SpuriOS

open Traced (byte)

/-- No cell behind the screen was written, and the cursor is on the screen. -/
structure Traced.Kept (t : Traced) : Prop where
  inside : t.Inside
  onScreen : t.OnScreen

/-! ## Strokes without spaces -/

/-- The first key. -/
def firstKey : List Stroke → Option (Byte × Bool)
  | [] => none
  | .key c raw :: _ => some (c, raw)
  | .color _ :: strokes | .skip :: strokes => firstKey strokes

namespace Stroke
variable {string mem : Nat → Byte} {strokes : List Stroke}

theorem skip_ne_key {c : Byte} {raw : Bool} : skip ≠ key c raw := by
  intro h
  cases h

theorem skip_ne_color {attr : Byte} : skip ≠ color attr := by
  intro h
  cases h

theorem skip_notMem_ofBuf {size fuel sz : Nat} : skip ∉ ofBuf string size fuel sz := by
  induction fuel generalizing sz with
  | zero => exact List.not_mem_nil
  | succ fuel ih =>
    rw [ofBuf]
    split
    · split
      · exact List.not_mem_nil
      split
      · split
        · exact List.not_mem_cons_of_ne_of_not_mem skip_ne_color ih
        · exact List.not_mem_cons_of_ne_of_not_mem skip_ne_key ih
      · exact List.not_mem_cons_of_ne_of_not_mem skip_ne_key ih
    · exact List.not_mem_nil

theorem skip_notMem_ofStr {fuel str : Nat} (h : ofStr mem fuel str = some strokes) :
    skip ∉ strokes := by
  induction fuel generalizing str strokes with
  | zero => cases h
  | succ fuel ih =>
    rw [ofStr] at h
    split at h
    · cases h
      exact List.not_mem_nil
    · obtain ⟨rest, hrest, rfl⟩ := Option.map_eq_some_iff.1 h
      exact List.not_mem_cons_of_ne_of_not_mem skip_ne_key (ih hrest)

theorem skip_notMem_digits {text : List Byte} : skip ∉ digits text := by
  intro h
  obtain ⟨c, -, hc⟩ := List.mem_map.1 h
  cases hc

theorem skip_notMem_prepend {pre : List Stroke} {next : Option (List Stroke)}
    (h : next.map (pre ++ ·) = some strokes) (hpre : skip ∉ pre)
    (hnext : ∀ rest, next = some rest → skip ∉ rest) : skip ∉ strokes := by
  obtain ⟨rest, hrest, rfl⟩ := Option.map_eq_some_iff.1 h
  exact fun hmem => (List.mem_append.1 hmem).elim hpre (hnext rest hrest)

theorem skip_notMem_ofFormat {fuel ptr args : Nat}
    (h : ofFormat false mem fuel ptr args = some strokes) : skip ∉ strokes := by
  have hone : ∀ {s : Stroke}, skip ≠ s → skip ∉ [s] := fun hs hmem => hs (List.mem_singleton.1 hmem)
  induction fuel generalizing ptr args strokes with
  | zero => cases h
  | succ fuel ih =>
    rw [ofFormat] at h
    dsimp only at h
    split at h
    · cases h
      exact List.not_mem_nil
    split at h
    · split at h
      · exact skip_notMem_prepend h (hone skip_ne_key) fun _ => ih
      split at h
      · obtain ⟨text, htext, hnext⟩ := Option.bind_eq_some_iff.1 h
        exact skip_notMem_prepend hnext (skip_notMem_ofStr htext) fun _ => ih
      split at h
      · exact skip_notMem_prepend h skip_notMem_digits fun _ => ih
      split at h
      · exact skip_notMem_prepend h skip_notMem_digits fun _ => ih
      split at h
      · exact skip_notMem_prepend h skip_notMem_digits fun _ => ih
      split at h
      · exact skip_notMem_prepend h (hone skip_ne_key) fun _ => ih
      · exact ih h
    split at h
    · split at h
      · exact skip_notMem_prepend h (hone skip_ne_color) fun _ => ih
      · exact skip_notMem_prepend h (hone skip_ne_key) fun _ => ih
    split at h
    next hspace => exact absurd hspace.1 Bool.false_ne_true
    next => exact skip_notMem_prepend h (hone skip_ne_key) fun _ => ih

end Stroke

section
variable {q : Pen} {strokes : List Stroke}

theorem contained_of_place (hskip : .skip ∉ strokes) (hq : q.moved = 0) :
    Contained q strokes ∧ (strokes.foldl Pen.after q).moved = 0 := by
  induction strokes generalizing q with
  | nil => exact ⟨.inl hq, hq⟩
  | cons s strokes ih =>
    obtain ⟨hs, hrest⟩ := List.ne_and_not_mem_of_not_mem_cons hskip
    have hafter : (q.after s).moved = 0 := by
      cases s with
      | key c raw => rfl
      | color attr => exact hq
      | skip => exact absurd rfl hs
    exact ⟨⟨.inr (.inl hq), (ih hrest hafter).1⟩, (ih hrest hafter).2⟩

/-- Without spaces, all depends on the first key. -/
theorem contained_iff_firstKey (hskip : .skip ∉ strokes) :
    Contained q strokes ↔
      q.Held ∨ ∃ c, firstKey strokes = some (c, false) ∧ (c = asciiLf ∨ c = asciiTab) := by
  induction strokes with
  | nil =>
    refine (or_iff_left ?_).symm
    rintro ⟨c, hc, -⟩
    cases hc
  | cons s strokes ih =>
    obtain ⟨hs, hrest⟩ := List.ne_and_not_mem_of_not_mem_cons hskip
    rw [Contained]
    cases s with
    | key c raw =>
      rw [and_iff_left (contained_of_place hrest rfl).1, or_comm, firstKey, Stroke.Moves]
      refine or_congr_right ⟨?_, ?_⟩
      · rintro ⟨hraw, hc⟩
        exact ⟨c, by rw [hraw], hc⟩
      · rintro ⟨c', hc', hmoves⟩
        cases hc'
        exact ⟨rfl, hmoves⟩
    | color attr =>
      rw [and_iff_right (.inl trivial), firstKey]
      exact ih hrest
    | skip => exact absurd rfl hs

end

/-! ## Spaces on a terminal -/

/-- The keys of a terminal; a space is one like any character. -/
def Stroke.keys : Stroke → List (Terminal.Key Unit)
  | key c raw => [if raw then .put () else keyOf (fun _ => ()) () c]
  | color _ => []
  | skip => [.put ()]

/-- Some strokes typed on a terminal. -/
def laidOut (u : VgaTerminal Unit) (strokes : List Stroke) : VgaTerminal Unit :=
  u.type () (strokes.flatMap Stroke.keys)

/-- No space is typed in the last column. -/
def SpacesFit (u : VgaTerminal Unit) (strokes : List Stroke) : Prop :=
  ∀ pre post, strokes = pre ++ .skip :: post → (laidOut u pre).col + 1 < vgaCols

/-- The first space that is typed in the last column is in the last row, and what follows it is
drawn, at least the cursor. -/
def SpaceInCorner (u : VgaTerminal Unit) (strokes : List Stroke) : Prop :=
  ∃ pre post, strokes = pre ++ .skip :: post ∧ SpacesFit u pre ∧
    (laidOut u pre).row + 1 = vgaRows ∧ (laidOut u pre).col + 1 = vgaCols ∧
    ∀ s ∈ post.head?, ∃ c raw, s = .key c raw ∧ ¬s.Moves

/-- The pen is at the cursor of a terminal. -/
structure Pen.On (q : Pen) (u : VgaTerminal Unit) : Prop where
  y : q.spot.y = u.row
  x : q.spot.x + q.moved = u.col

section
variable {q : Pen} {u : VgaTerminal Unit} {strokes : List Stroke}

theorem Contained.of_append {pre : List Stroke} (h : Contained q (pre ++ strokes)) :
    Contained (pre.foldl Pen.after q) strokes := by
  induction pre generalizing q with
  | nil => exact h
  | cons s pre ih => exact ih h.2

theorem laidOut_cons (s : Stroke) : laidOut u (s :: strokes) = laidOut (laidOut u [s]) strokes := by
  rw [laidOut, List.flatMap_cons, Terminal.type, List.foldl_append, laidOut, laidOut,
    List.flatMap_singleton]
  rfl

theorem SpacesFit.nil : SpacesFit u [] := fun pre post h => by
  cases pre <;> cases h

theorem SpacesFit.cons {s : Stroke} (hs : s = .skip → u.col + 1 < vgaCols)
    (h : SpacesFit (laidOut u [s]) strokes) : SpacesFit u (s :: strokes) := by
  intro pre post hpre
  cases pre with
  | nil => exact hs (List.cons.inj hpre).1
  | cons s' pre =>
    obtain ⟨rfl, hrest⟩ := List.cons.inj hpre
    rw [laidOut_cons]
    exact h pre post hrest

theorem SpacesFit.tail {s : Stroke} (h : SpacesFit u (s :: strokes)) :
    SpacesFit (laidOut u [s]) strokes := fun pre post hpre => by
  rw [← laidOut_cons]
  exact h (s :: pre) post (congrArg (s :: ·) hpre)

namespace Pen.On

theorem x_eq (h : q.On u) : q.x = u.col := by
  have hlt := u.col.isLt
  have hx := h.x
  have hcols := vgaCols_eq
  rw [Pen.x, Traced.byte_of_lt (by omega), hx]

theorem held (h : q.On u) : q.Held := by
  have hx : q.x < 80 := h.x_eq ▸ u.col.isLt
  have hy : q.spot.y < 25 := q.spot.y_lt
  rw [Pen.held_iff, Pen.location, vgaRows_eq, vgaCols_eq]
  omega

theorem of_nextLine {p : Spot} (hy : p.y = u.row) : On ⟨p.nextLine, 0⟩ (u.lineFeed ()) := by
  have hlt := p.y_lt
  rw [Terminal.lineFeed]
  split
  next h => exact ⟨by dsimp only [Spot.nextLine]; omega, rfl⟩
  next h => exact ⟨by dsimp only [Spot.nextLine]; omega, rfl⟩

theorem of_column {p : Spot} (hy : p.y = u.row) (n : Nat) :
    On ⟨p.column (u.col + n), 0⟩ (u.advance () n) := by
  rw [Spot.column, Terminal.advance]
  split
  next => exact ⟨hy, rfl⟩
  next => exact of_nextLine hy

theorem key (h : q.On u) (c : Byte) (raw : Bool) :
    (q.after (.key c raw)).On (laidOut u [.key c raw]) := by
  have hlt := u.col.isLt
  have hcols := vgaCols_eq
  have hput : On ⟨q.spot.column (byte (u.col + 1)), 0⟩ ((u.store ()).advance () 1) := by
    rw [Traced.byte_of_lt (by omega)]
    exact @of_column (u.store ()) q.spot h.y 1
  rw [Pen.after, Spot.key, h.x_eq]
  cases raw with
  | true =>
    rw [if_neg fun hc => hc.2 rfl, if_neg fun hc => hc.2 rfl, if_neg fun hc => hc.2 rfl]
    exact hput
  | false =>
    have hkey : laidOut u [.key c false] = u.press () (keyOf (fun _ => ()) () c) := rfl
    simp only [Bool.false_eq_true, not_false_eq_true, and_true]
    rw [hkey, keyOf]
    by_cases hlf : c = asciiLf
    · rw [if_pos hlf, if_pos hlf]
      exact of_nextLine h.y
    rw [if_neg hlf, if_neg hlf]
    by_cases htab : c = asciiTab
    · rw [if_pos htab, if_pos htab, Traced.byte_of_lt (by rw [tabWidth]; omega)]
      exact of_column h.y tabWidth
    rw [if_neg htab, if_neg htab]
    by_cases hbs : c = asciiBs
    · rw [if_pos hbs, if_pos hbs, Terminal.press, Terminal.back]
      change On _ (if 0 < u.col.val then _ else if 0 < u.row.val then _ else _)
      split
      next hcol =>
        rw [Spot.column, dif_pos (by omega)]
        exact ⟨h.y, rfl⟩
      next hcol =>
      by_cases hrow : 0 < u.row.val
      · rw [if_pos hrow, Spot.back, if_neg (by rw [h.y]; omega)]
        exact ⟨congrArg (· - 1) h.y, rfl⟩
      · rw [if_neg hrow, Spot.back, if_pos (by rw [h.y]; omega)]
        exact ⟨h.y, by dsimp only; change 0 + 0 = u.col.val; omega⟩
    · rw [if_neg hbs, if_neg hbs]
      exact hput

theorem after (h : q.On u) {s : Stroke} (hs : s = .skip → u.col + 1 < vgaCols) :
    (q.after s).On (laidOut u [s]) := by
  cases s with
  | key c raw => exact h.key c raw
  | color attr => exact h
  | skip =>
    have hadvance : laidOut u [.skip] = u.advance () 1 := rfl
    rw [hadvance, Terminal.advance, dif_pos (hs rfl)]
    exact ⟨h.y, congrArg (· + 1) h.x⟩

theorem foldl (h : q.On u) (hfit : SpacesFit u strokes) :
    (strokes.foldl Pen.after q).On (laidOut u strokes) := by
  induction strokes generalizing q u with
  | nil => exact h
  | cons s strokes ih =>
    rw [laidOut_cons]
    exact ih (h.after fun hs => hfit [] strokes (hs ▸ rfl)) hfit.tail

/-- The pen stays on a terminal on which no space comes to the end of a line. -/
theorem contained (h : q.On u) (hfit : SpacesFit u strokes) : Contained q strokes := by
  induction strokes generalizing q u with
  | nil => exact h.held
  | cons s strokes ih =>
    exact ⟨.inr h.held, ih (h.after fun hs => hfit [] strokes (hs ▸ rfl)) hfit.tail⟩

theorem not_contained (h : q.On u) (hcorner : SpaceInCorner u strokes) :
    ¬Contained q strokes := by
  obtain ⟨pre, post, rfl, hfit, hrow, hcol, hpost⟩ := hcorner
  intro hcontained
  have hat := h.foldl hfit
  obtain ⟨-, hend⟩ := hcontained.of_append
  generalize pre.foldl Pen.after q = q' at hat hend
  have hbehind : ¬(q'.after .skip).Held := by
    have hx : q'.spot.x + q'.moved + 1 = 80 := by rw [hat.x]; exact hcol
    have hy : q'.spot.y + 1 = 25 := by rw [hat.y]; exact hrow
    rw [Pen.held_iff, Pen.location, Pen.x, Pen.after, Traced.byte_of_lt (by dsimp only; omega),
      vgaRows_eq, vgaCols_eq]
    dsimp only
    omega
  cases post with
  | nil => exact hbehind hend
  | cons s post =>
    obtain ⟨c, raw, rfl, hs⟩ := hpost s rfl
    exact hend.1.elim hs hbehind

end Pen.On

end

/-! ## Calls -/

/-- The row and the column of a location are rejected, or the row is one of the screen, and from the
column on no stroke is drawn behind it. -/
def LocKept (row col : Nat) (strokes : Option (List Stroke)) : Prop :=
  vgaRows < row ∨ vgaCols < col ∨
    ∃ h : row < vgaRows, ∀ l, strokes = some l → Contained ⟨⟨0, row, vgaCols_pos, h⟩, col⟩ l

/-- The row and the column are rejected, or the row is one of the screen, and so is the cell there,
unless the first key is a newline or a tab. -/
def LocFirst (row col : Nat) (strokes : Option (List Stroke)) : Prop :=
  vgaRows < row ∨ vgaCols < col ∨ row < vgaRows ∧
    (row * vgaCols + col < vgaRows * vgaCols ∨ ∀ l, strokes = some l →
      ∃ c, firstKey l = some (c, false) ∧ (c = asciiLf ∨ c = asciiTab))

/-- A terminal with the cursor at a location of the screen. -/
def terminalAt (row col : Nat) (hrow : row < vgaRows) (hcol : col < vgaCols) :
    VgaTerminal Unit := ⟨fun _ _ => (), ⟨row, hrow⟩, ⟨col, hcol⟩⟩

/-- The row and the column are rejected, or they are on the screen, and no space is typed in the
last column from there on. -/
def LocFits (row col : Nat) (strokes : Option (List Stroke)) : Prop :=
  vgaRows < row ∨ vgaCols < col ∨ ∃ (hrow : row < vgaRows) (hcol : col < vgaCols),
    ∀ l, strokes = some l → SpacesFit (terminalAt row col hrow hcol) l

/-- The row is the one behind the last, or the first space that is typed in the last column is in
the last row. -/
def LocOverruns (row col : Nat) (strokes : Option (List Stroke)) : Prop :=
  row = vgaRows ∧ col ≤ vgaCols ∨ ∃ (hrow : row < vgaRows) (hcol : col < vgaCols),
    ∃ l, strokes = some l ∧ SpaceInCorner (terminalAt row col hrow hcol) l

theorem locKept_of_fits {row col : Nat} {strokes : Option (List Stroke)}
    (h : LocFits row col strokes) : LocKept row col strokes := by
  refine h.imp_right (Or.imp_right ?_)
  rintro ⟨hrow, hcol, hfit⟩
  exact ⟨hrow, fun l hl => Pen.On.contained ⟨rfl, Nat.zero_add col⟩ (hfit l hl)⟩

theorem not_locKept_of_overruns {row col : Nat} {strokes : Option (List Stroke)}
    (h : LocOverruns row col strokes) : ¬LocKept row col strokes := by
  rintro (hrow | hcol | ⟨hrow, hcontained⟩)
  · obtain ⟨rfl, -⟩ | ⟨hrow', -⟩ := h
    · exact absurd hrow (Nat.lt_irrefl _)
    · exact absurd hrow (Nat.lt_asymm hrow')
  · obtain ⟨-, hcol'⟩ | ⟨-, hcol', -⟩ := h
    · exact absurd hcol (Nat.not_lt.2 hcol')
    · exact absurd hcol (Nat.lt_asymm hcol')
  · obtain ⟨rfl, -⟩ | ⟨_, hcol, l, hl, hcorner⟩ := h
    · exact absurd hrow (Nat.lt_irrefl _)
    · exact Pen.On.not_contained ⟨rfl, Nat.zero_add col⟩ hcorner (hcontained l hl)

/-- Behind the screen, only a first key that draws nothing there helps. -/
theorem locKept_iff_firstKey {row col : Nat} {strokes : Option (List Stroke)}
    (hskip : ∀ l, strokes = some l → .skip ∉ l) :
    LocKept row col strokes ↔ LocFirst row col strokes := by
  refine or_congr_right ?_
  by_cases hcol : vgaCols < col
  · exact iff_of_true (.inl hcol) (.inl hcol)
  rw [or_iff_right hcol, or_iff_right hcol, ← exists_prop]
  refine exists_congr fun hrow => ?_
  have hlocation : (⟨⟨0, row, by decide, hrow⟩, col⟩ : Pen).location = row * vgaCols + col := by
    rw [vgaCols] at hcol
    rw [Pen.location, Pen.x, Nat.zero_add, Traced.byte_of_lt (show col < 2 ^ 8 by omega)]
  rw [← hlocation, ← Pen.held_iff]
  by_cases hheld : (⟨⟨0, row, by decide, hrow⟩, col⟩ : Pen).Held
  · refine iff_of_true (fun l hl => ?_) (.inl hheld)
    exact (contained_iff_firstKey (hskip l hl)).2 (.inl hheld)
  · rw [or_iff_right hheld]
    refine forall₂_congr fun l hl => ?_
    rw [contained_iff_firstKey (hskip l hl), or_iff_right hheld]

namespace Traced
variable {s : Screen} {mem : Nat → Byte} {fuel : Nat} {r : Nat × Traced}

/-- The pen at the cursor. -/
def penAt (s : Screen) (h : s.OnScreen) : Pen := ⟨⟨s.x, s.y, h.x_lt, h.y_lt⟩, 0⟩

theorem at_penAt (h : s.OnScreen) : At ⟨s, []⟩ (penAt s h) :=
  at_spot (p := ⟨s.x, s.y, h.x_lt, h.y_lt⟩) rfl rfl

theorem onScreen_of_at {t : Traced} {q : Pen} (h : t.At q) (hq : q.moved = 0) : t.OnScreen := by
  obtain ⟨hx, hy⟩ := h
  rw [Pen.x_of_moved hq] at hx
  exact ⟨hx ▸ q.spot.x_lt, hy ▸ q.spot.y_lt⟩

theorem printf_kept (h : s.OnScreen) {format args : Nat}
    (hr : vgaPrintfFixedArgs mem fuel format args ⟨s, []⟩ = some r) : r.2.Kept := by
  obtain ⟨r', hloop, rfl⟩ := Option.map_eq_some_iff.1 hr
  obtain ⟨strokes, hstrokes, hdrawn⟩ := printfLoop_drawn hloop
  have hskip := Stroke.skip_notMem_ofFormat hstrokes
  obtain ⟨hcontained, hmoved⟩ := @contained_of_place (penAt s h) strokes hskip rfl
  have hinside := (drawn_inside_iff (at_penAt h) strokes).2 ⟨nofun, hcontained⟩
  have hon := onScreen_of_at (@drawn_at _ _ true (at_penAt h) strokes) hmoved
  rw [← hdrawn] at hinside hon
  exact ⟨hinside, ⟨hon.x_lt, hon.y_lt⟩⟩

theorem conWrite_kept (h : s.OnScreen) (current : Bool) (buf : Nat → Byte) (size : Nat) :
    (conWrite current buf size ⟨s, []⟩).2.Kept := by
  have hskip := @Stroke.skip_notMem_ofBuf buf size size 0
  obtain ⟨hcontained, hmoved⟩ := @contained_of_place (penAt s h) _ hskip rfl
  have hat := @drawn_at ⟨s, []⟩ (penAt s h) current (at_penAt h) (Stroke.ofBuf buf size size 0)
  have hinside := @drawn_inside _ _ current (at_penAt h) _ hcontained nofun
  have hon := onScreen_of_at hat hmoved
  rw [← writebufFrom_drawn] at hinside hon hat
  have hlocation : (writebufFrom current buf size size 0 ⟨s, []⟩).2.location <
      vgaRows * vgaCols := hat.location ▸ Pen.held_iff.1 (.inl hmoved)
  rw [conWrite]
  cases current with
  | false => exact ⟨hinside, ⟨hon.x_lt, hon.y_lt⟩⟩
  | true => exact ⟨inside_put.2 ⟨hlocation, hinside⟩, ⟨hon.x_lt, hon.y_lt⟩⟩

/-- A printer that is given a location stays on the screen if and only if its strokes do from
there. -/
theorem locPrintf_kept_iff (h : s.OnScreen) {alpha : Bool} {row col format args : Nat}
    (hr : locPrintfFixedArgs alpha mem fuel row col format args ⟨s, []⟩ = some r) :
    r.2.Kept ↔ LocKept row col (Stroke.ofFormat alpha mem fuel format args) := by
  rw [locPrintfFixedArgs] at hr
  split at hr
  next hrefused =>
    cases hr
    exact iff_of_true ⟨List.forall_mem_nil _, h⟩ (hrefused.imp_right .inl)
  next hpass =>
    obtain ⟨hrow, hcol⟩ := not_or.1 hpass
    rw [vgaRows] at hrow
    rw [vgaCols] at hcol
    have hbyte : byte row = row ∧ byte col = col :=
      ⟨byte_of_lt (by omega), byte_of_lt (by omega)⟩
    obtain ⟨r', hprintf, rfl⟩ := Option.map_eq_some_iff.1 hr
    obtain ⟨r'', hloop, rfl⟩ := Option.map_eq_some_iff.1 hprintf
    obtain ⟨strokes, hstrokes, hdrawn⟩ := printfLoop_drawn hloop
    have hend : Kept (vgaUpdateCursor { vgaUpdateCursor { r''.2 with attr := s.attr } with
        x := s.x, y := s.y }) ↔ r''.2.vgaUpdateCursor.Inside := by
      have hcursor : s.location < vgaRows * vgaCols :=
        (at_penAt h).location ▸ Pen.held_iff.1 (.inl rfl)
      refine ⟨fun hkept => (inside_put.1 hkept.inside).2, fun hinside => ?_⟩
      exact ⟨inside_put.2 ⟨hcursor, hinside⟩, ⟨h.x_lt, h.y_lt⟩⟩
    refine hend.trans ?_
    rw [hdrawn, LocKept, hstrokes, hbyte.1, hbyte.2]
    by_cases hlast : row < vgaRows
    · have hat : At { toScreen := { s with x := col, y := row }, written := [] }
          ⟨⟨0, row, by decide, hlast⟩, col⟩ :=
        ⟨by rw [Pen.x, Nat.zero_add, hbyte.2], rfl⟩
      rw [drawn_inside_iff hat strokes]
      refine ⟨fun hinside => .inr (.inr ⟨hlast, fun l hl => ?_⟩), ?_⟩
      · cases hl
        exact hinside.2
      · rintro (hrow' | hcol' | ⟨_, hcontained⟩)
        · exact absurd hrow' (by rw [vgaRows]; omega)
        · exact absurd hcol' (by rw [vgaCols]; omega)
        · exact ⟨List.forall_mem_nil _, hcontained strokes rfl⟩
    · have hrow' : row = vgaRows := by
        rw [vgaRows] at hlast ⊢
        omega
      refine iff_of_false (drawn_below hrow' strokes) ?_
      rintro (hrow'' | hcol' | ⟨hlt, -⟩)
      · exact absurd hrow'' (by rw [vgaRows]; omega)
      · exact absurd hcol' (by rw [vgaCols]; omega)
      · exact hlast hlt

end Traced

/-- The system calls `print` and `con_write` never leave the screen. `loc_print` does so just from
the places that its condition tells, and so does `loc_print_alpha` with a format without spaces. A
space keeps it on the screen where it is not typed in the last column, and not where it is in the
last cell and something is drawn after it. -/
theorem printing_kept_iff {s : Screen} (h : s.OnScreen) (mem : Nat → Byte) (fuel ebp : Nat) :
    (∀ r, Traced.print mem fuel ebp ⟨s, []⟩ = some r → r.2.Kept) ∧
    (∀ current buf size, (Traced.conWrite current buf size ⟨s, []⟩).2.Kept) ∧
    (∀ r, Traced.locPrint mem fuel ebp ⟨s, []⟩ = some r →
      (r.2.Kept ↔ LocFirst (locRow mem ebp) (locCol mem ebp)
        (Stroke.ofFormat false mem fuel (locFormat mem ebp) (ebp + 20)))) ∧
    ∀ r strokes, Traced.locPrintAlpha mem fuel ebp ⟨s, []⟩ = some r →
      Stroke.ofFormat true mem fuel (locFormat mem ebp) (ebp + 20) = strokes →
        (LocFits (locRow mem ebp) (locCol mem ebp) strokes → r.2.Kept) ∧
        (LocOverruns (locRow mem ebp) (locCol mem ebp) strokes → ¬r.2.Kept) ∧
        ((∀ l, strokes = some l → .skip ∉ l) →
          (r.2.Kept ↔ LocFirst (locRow mem ebp) (locCol mem ebp) strokes)) := by
  refine ⟨fun r => Traced.printf_kept h, Traced.conWrite_kept h, fun r hr => ?_,
    fun r strokes hr hstrokes => ?_⟩
  · rw [Traced.locPrintf_kept_iff h hr]
    exact locKept_iff_firstKey fun l => Stroke.skip_notMem_ofFormat
  · rw [Traced.locPrintf_kept_iff h hr, hstrokes]
    exact ⟨locKept_of_fits, not_locKept_of_overruns, locKept_iff_firstKey⟩

/-- The memory of a task that prints `text` at a location: `ebp` is 0, and the text is at 24. -/
def locCall (row col : Byte) (text : List Byte) (a : Nat) : Byte :=
  ([0, 0, 0, 0, 0, 0, 0, 0, row, 0, 0, 0, col, 0, 0, 0, 24, 0, 0, 0, 0, 0, 0, 0] ++ text).getD a 0

theorem blankScreen_onScreen : blankScreen.OnScreen := ⟨by decide, by decide⟩

/-- A letter in the last cell, and a space between two letters at the end of the last line. -/
theorem printing_kept_corner :
    (∃ r, Traced.locPrint (locCall 24 79 [0x41]) 2 0 ⟨blankScreen, []⟩ = some r ∧ r.2.Kept) ∧
      ∃ r, Traced.locPrintAlpha (locCall 24 77 [0x41, 0x20, 0x42]) 4 0 ⟨blankScreen, []⟩ = some r ∧
        r.2.Kept := by
  constructor
  · refine ⟨_, rfl, ?_⟩
    exact ((printing_kept_iff blankScreen_onScreen (locCall 24 79 [0x41]) 2 0).2.2.1 _ rfl).2
      (.inr (.inr ⟨by decide, .inl (by decide)⟩))
  · refine ⟨_, rfl, ?_⟩
    refine ((printing_kept_iff blankScreen_onScreen (locCall 24 77 [0x41, 0x20, 0x42]) 4
      0).2.2.2 _ _ rfl rfl).1 (.inr (.inr ⟨by decide, by decide, fun l hl => ?_⟩))
    cases hl
    exact .cons Stroke.skip_ne_key.symm.elim (.cons (fun _ => by decide)
      (.cons Stroke.skip_ne_key.symm.elim .nil))

/-- Row 25, to which the comets of the screen saver come, and two spaces at the end of the last
line. -/
theorem printed_behind_screen :
    (∃ r, Traced.locPrint (locCall 25 0 [0x20]) 2 0 ⟨blankScreen, []⟩ = some r ∧ ¬r.2.Inside) ∧
      ∃ r, Traced.locPrintAlpha (locCall 24 79 [0x20, 0x20]) 3 0 ⟨blankScreen, []⟩ = some r ∧
        ¬r.2.Inside := by
  constructor
  · refine ⟨_, rfl, fun hinside => ?_⟩
    exact absurd (hinside 2000 (by decide)) (by decide)
  · refine ⟨_, rfl, fun hinside => ?_⟩
    exact absurd (hinside 2001 (by decide)) (by decide)

end SpuriOS
