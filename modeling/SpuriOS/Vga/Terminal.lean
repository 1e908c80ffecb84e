import SpuriOS.Lib.Terminal
import SpuriOS.Vga.Traced

/-! # `vga_writebuf` as a terminal

The buffer of a console is the terminal whose keys are the bytes that are written to it, apart from
the attribute of the bytes from 0x80 on. -/

namespace SpuriOS

open Terminal (Key)

abbrev VgaTerminal (α : Type) : Type := Terminal vgaRows vgaCols α

/-- The key of a byte, where `char` is the cell that an ordinary one stores, and `space` the cell
that a backspace stores. -/
def keyOf {α : Type} (char : Byte → α) (space : α) (c : Byte) : Key α :=
  if c = asciiLf then .newline
  else if c = asciiTab then .tab tabWidth
  else if c = asciiBs then .erase space
  else .put (char c)

/-- The bytes of `string`, up to its size. -/
def textOf (string : Nat → Byte) (size : Nat) : List Byte := (List.range size).map string

/-- The reference terminal, with attribute `attr`. -/
def typed (attr : Byte) (text : List Byte) (u : VgaTerminal Cell) : VgaTerminal Cell :=
  u.type blankCell (text.map (keyOf (⟨·, attr⟩) ⟨0x20, attr⟩))

/-- The bytes of the text that are left on a screen, which had the cursor of `u`. -/
def leftOn (text : List Byte) (u : VgaTerminal Cell) : VgaTerminal (Option Byte) :=
  (u.map fun _ => none).type none (text.map (keyOf some none))

theorem location_eq_iff {i j y x : Nat} (hj : j < vgaCols) (hx : x < vgaCols) :
    i * vgaCols + j = y * vgaCols + x ↔ i = y ∧ j = x := by
  rw [vgaCols] at *
  omega

theorem scroll_above {cells : Nat → Cell} {i j : Nat} (hi : i + 1 < vgaRows) (hj : j < vgaCols) :
    scroll cells (i * vgaCols + j) = cells ((i + 1) * vgaCols + j) := by
  rw [vgaRows] at hi
  rw [scroll, vgaRows]
  rw [vgaCols] at *
  rw [if_pos (by omega)]
  exact congrArg cells (by omega)

theorem scroll_last {cells : Nat → Cell} {i j : Nat} (hi : i + 1 = vgaRows) (hj : j < vgaCols) :
    scroll cells (i * vgaCols + j) = blankCell := by
  rw [vgaRows] at hi
  rw [scroll, vgaRows]
  rw [vgaCols] at *
  rw [if_neg (by omega), if_pos (by omega)]

/-- The cells and the cursor of the screen are those of the terminal. -/
structure Screen.Shows (s : Screen) (u : VgaTerminal Cell) : Prop where
  cells : ∀ (i : Fin vgaRows) (j : Fin vgaCols), s.cells (i * vgaCols + j) = u.cell i j
  x : s.x = u.col
  y : s.y = u.row

/-- The terminal that a screen shows. -/
def Screen.terminal (s : Screen) (h : s.OnScreen) : VgaTerminal Cell where
  cell i j := s.cells (i * vgaCols + j)
  row := ⟨s.y, h.y_lt⟩
  col := ⟨s.x, h.x_lt⟩

namespace Screen.Shows
variable {s : Screen} {u : VgaTerminal Cell}

theorem unique {u' : VgaTerminal Cell} (h : s.Shows u) (h' : s.Shows u') : u = u' := by
  ext i j
  · rw [← h.cells, ← h'.cells]
  · rw [← h.y, ← h'.y]
  · rw [← h.x, ← h'.x]

theorem move {u' : VgaTerminal Cell} {x y : Nat} (h : s.Shows u) (hcell : u'.cell = u.cell)
    (hx : x = u'.col) (hy : y = u'.row) : Shows { s with x := x, y := y } u' :=
  ⟨fun i j => hcell ▸ h.cells i j, hx, hy⟩

theorem put (h : s.Shows u) (cell : Cell) : (s.put cell).Shows (u.store cell) := by
  refine ⟨fun i j => ?_, h.x, h.y⟩
  have hlocation : i * vgaCols + j = s.location ↔ i = u.row ∧ j = u.col := by
    rw [Screen.location, h.x, h.y, location_eq_iff j.isLt u.col.isLt, Fin.ext_iff, Fin.ext_iff]
  rw [Screen.put]
  dsimp only
  rw [Function.update_apply]
  exact if_congr hlocation rfl (h.cells i j)

theorem putln (h : s.Shows u) : (putln false s).Shows (u.lineFeed blankCell) := by
  rw [SpuriOS.putln, if_neg Bool.false_ne_true, newline, Terminal.lineFeed]
  have hrow := u.row.isLt
  by_cases hlast : s.y + 1 = vgaRows
  · rw [if_pos hlast, dif_neg (by rw [← h.y]; omega)]
    refine ⟨fun i j => ?_, rfl, h.y⟩
    dsimp only
    split
    next hi => exact (scroll_above hi j.isLt).trans (h.cells ⟨i + 1, hi⟩ j)
    next hi => exact scroll_last (Nat.le_antisymm i.isLt (Nat.le_of_not_lt hi)) j.isLt
  · rw [if_neg hlast, dif_pos (by rw [← h.y] at hrow ⊢; omega)]
    exact h.move rfl rfl (congrArg (· + 1) h.y)

/-- The end of `putchar`. -/
theorem advance (h : s.Shows u) (n : Nat) :
    (if vgaCols ≤ s.x + n then SpuriOS.putln false { s with x := s.x + n }
      else { s with x := s.x + n }).Shows (u.advance blankCell n) := by
  have hnewline : SpuriOS.putln false { s with x := s.x + n } = SpuriOS.putln false s := by
    rw [SpuriOS.putln, SpuriOS.putln, if_neg Bool.false_ne_true, if_neg Bool.false_ne_true]
    rfl
  rw [Terminal.advance, hnewline, h.x]
  split
  next hend =>
    rw [dif_neg (Nat.not_lt.2 hend)]
    exact h.putln
  next hend =>
    rw [dif_pos (Nat.lt_of_not_le hend)]
    exact ⟨h.cells, rfl, h.y⟩

theorem putbs {a : Byte} (h : s.Shows u) (ha : s.attr = a) :
    (SpuriOS.putbs s).Shows (u.store ⟨0x20, a⟩).back := by
  have hput := h.put ⟨0x20, a⟩
  rw [SpuriOS.putbs, Terminal.back, h.x, h.y, ha]
  change Shows (if 0 < u.col.val then _ else if 0 < u.row.val then _ else _)
    (if 0 < u.col.val then _ else if 0 < u.row.val then _ else _)
  split
  · exact ⟨hput.cells, rfl, hput.y⟩
  split
  · exact ⟨hput.cells, rfl, rfl⟩
  · exact hput

theorem putchar {a : Byte} (h : s.Shows u) (ha : s.attr = a) (c : Byte) :
    (SpuriOS.putchar false s c false).Shows
      (u.press blankCell (keyOf (charCell · a) ⟨0x20, a⟩ c)) := by
  -- only the cursor of a tab or of an ordinary byte can be behind the last column
  have onRow {s : Screen} {u : VgaTerminal Cell} (h : s.Shows u) :
      (if vgaCols ≤ s.x then SpuriOS.putln false s else s).Shows u := by
    rw [if_neg (by rw [h.x]; exact Nat.not_le.2 u.col.isLt)]
    exact h
  rw [SpuriOS.putchar, putcharAt, keyOf]
  simp only [Bool.false_eq_true, not_false_eq_true, and_true]
  by_cases hlf : c = asciiLf
  · rw [if_pos hlf, if_pos hlf]
    exact onRow h.putln
  rw [if_neg hlf, if_neg hlf]
  by_cases htab : c = asciiTab
  · rw [if_pos htab, if_pos htab]
    exact h.advance tabWidth
  rw [if_neg htab, if_neg htab]
  by_cases hbs : c = asciiBs
  · rw [if_pos hbs, if_pos hbs]
    exact onRow (h.putbs ha)
  rw [if_neg hbs, if_neg hbs, ha]
  exact (h.put (charCell c a)).advance 1

/-- `vga_writebuf` types, with the cells of `putchar` for the bytes. -/
theorem writebufFrom {a : Byte} {string : Nat → Byte} {size n sz : Nat} (h : s.Shows u)
    (ha : s.attr = a) (hsize : sz + n = size)
    (hplain : ∀ i < size, string i ≠ 0 ∧ string i ≠ asciiBackslash) :
    (SpuriOS.writebufFrom false string size n sz s).2.Shows
      (u.type blankCell
        (((List.range' sz n).map string).map (keyOf (charCell · a) ⟨0x20, a⟩))) := by
  induction n generalizing sz s u with
  | zero => exact h
  | succ n ih =>
    have hsz : sz < size := by omega
    obtain ⟨h0, hback⟩ := hplain sz hsz
    rw [SpuriOS.writebufFrom, if_pos hsz, if_neg h0, if_neg hback]
    exact ih (h.putchar ha (string sz)) (putchar_attr.trans ha) (by omega)

end Screen.Shows

/-! ## The attribute

The two runs are the images of one whose cells are the old ones and the bytes that are written. -/

theorem charCell_eq_iff {c a : Byte} : charCell c a = ⟨c, a⟩ ↔ a = 0xFF ∨ c < 0x80 := by
  rw [charCell, Cell.mk.injEq]
  split
  next hc => exact ⟨fun _ => .inr hc, fun _ => ⟨rfl, rfl⟩⟩
  next hc =>
    refine ⟨fun h => .inl h.2.symm, fun h => ⟨rfl, ?_⟩⟩
    exact (h.resolve_right hc).symm

theorem elim_eq_iff {a : Byte} {x : Cell ⊕ Byte} :
    x.elim id (charCell · a) = x.elim id (⟨·, a⟩) ↔
      a = 0xFF ∨ ∀ c ∈ x.elim (fun _ => none) some, c < 0x80 := by
  cases x with
  | inl old => exact ⟨fun _ => .inr nofun, fun _ => rfl⟩
  | inr byte =>
    refine charCell_eq_iff.trans (or_congr_right ⟨fun h c hc => ?_, fun h => h byte rfl⟩)
    cases Option.some.inj hc
    exact h

theorem keyOf_map {α β : Type} (f : α → β) (char : Byte → α) (space : α) (c : Byte) :
    (keyOf char space c).map f = keyOf (fun c => f (char c)) (f space) c := by
  rw [keyOf, keyOf]
  split
  · rfl
  split
  · rfl
  split
  · rfl
  · rfl

/-- The run with the old cells and the bytes. -/
def symbolic (a : Byte) (text : List Byte) (u : VgaTerminal Cell) : VgaTerminal (Cell ⊕ Byte) :=
  (u.map .inl).type (.inl blankCell) (text.map (keyOf .inr (.inl ⟨0x20, a⟩)))

theorem symbolic_map {β : Type} {a : Byte} {text : List Byte} {u : VgaTerminal Cell}
    (old : Cell → β) (char : Byte → β) :
    (symbolic a text u).map (Sum.elim old char) =
      (u.map old).type (old blankCell) (text.map (keyOf char (old ⟨0x20, a⟩))) := by
  rw [symbolic, Terminal.type_map, List.map_map]
  exact congrArg _ (List.map_congr_left fun c _ => keyOf_map ..)

/-- The screen is the one of the reference terminal just when the attribute has all bits, or no byte
from 0x80 on is left on it. -/
theorem vgaWritebuf_shows_iff (t : Traced) (h : t.OnScreen) (string : Nat → Byte) (size : Nat)
    (hplain : ∀ i < size, string i ≠ 0 ∧ string i ≠ asciiBackslash) :
    (t.vgaWritebuf false string size).2.Shows
        (typed t.attr (textOf string size) (t.terminal h)) ↔
      t.attr = 0xFF ∨
        ∀ i j, ∀ c ∈ (leftOn (textOf string size) (t.terminal h)).cell i j, c < 0x80 := by
  let sym := symbolic t.attr (textOf string size) (t.terminal h)
  have hshows : (t.vgaWritebuf false string size).2.Shows
      (sym.map (Sum.elim id (charCell · t.attr))) := by
    have hstart : t.Shows (t.terminal h) := ⟨fun _ _ => rfl, rfl, rfl⟩
    have hrun := hstart.writebufFrom rfl (Nat.zero_add size) hplain
    rw [(t.vgaWritebuf_toScreen string size h).2, symbolic_map, textOf, List.range_eq_range']
    exact ⟨hrun.cells, hrun.x, hrun.y⟩
  have htyped : sym.map (Sum.elim id (⟨·, t.attr⟩)) =
      typed t.attr (textOf string size) (t.terminal h) := symbolic_map id (⟨·, t.attr⟩)
  have hleft : sym.map (Sum.elim (fun _ => none) some) =
      leftOn (textOf string size) (t.terminal h) := symbolic_map (fun _ => none) some
  have hcells : sym.map (Sum.elim id (charCell · t.attr)) =
        sym.map (Sum.elim id (⟨·, t.attr⟩)) ↔
      t.attr = 0xFF ∨
        ∀ i j, ∀ c ∈ (leftOn (textOf string size) (t.terminal h)).cell i j, c < 0x80 := by
    simp only [Terminal.map_eq_map_iff, elim_eq_iff, forall_or_left, ← hleft]
    rfl
  rw [← hcells, ← htyped]
  constructor
  · intro htype
    exact hshows.unique htype
  · intro hsame
    exact hsame ▸ hshows

/-- A text below 0x80 leaves nothing else. -/
theorem leftOn_lt {text : List Byte} {u : VgaTerminal Cell} (h : ∀ c ∈ text, c < 0x80) :
    (leftOn text u).All (∀ c ∈ ·, c < 0x80) := by
  refine Terminal.All.type (fun _ _ => nofun) nofun fun key hkey => ?_
  obtain ⟨c, hc, rfl⟩ := List.mem_map.1 hkey
  rw [keyOf]
  split
  · trivial
  split
  · trivial
  split
  · exact nofun
  · intro c' hc'
    cases Option.some.inj hc'
    exact h c hc

theorem vgaWritebuf_shows_letters :
    (Traced.vgaWritebuf false ⟨blankScreen, []⟩ (fun _ => 0x61) 2).2.Shows
      (typed 0x07 [0x61, 0x61] (blankScreen.terminal ⟨by decide, by decide⟩)) := by
  refine (vgaWritebuf_shows_iff ⟨blankScreen, []⟩ ⟨by decide, by decide⟩ (fun _ => 0x61) 2
    fun i _ => by decide).2 (.inr (leftOn_lt ?_))
  exact List.forall_mem_map.2 fun _ _ => by decide

/-- The byte 0x80 gets the attribute 0xFF instead of 0x07. -/
theorem high_byte_recoloured :
    ¬∀ (t : Traced) (h : t.OnScreen) (string : Nat → Byte) (size : Nat),
      (∀ i < size, string i ≠ 0 ∧ string i ≠ asciiBackslash) →
        (t.vgaWritebuf false string size).2.Shows
          (typed t.attr (textOf string size) (t.terminal h)) := by
  intro hall
  have hshows := hall ⟨blankScreen, []⟩ ⟨by decide, by decide⟩ (fun _ => 0x80) 1
    fun i _ => by decide
  exact absurd (hshows.cells ⟨0, by decide⟩ ⟨0, by decide⟩) (by decide)

end SpuriOS
