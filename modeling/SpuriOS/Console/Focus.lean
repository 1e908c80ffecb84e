import SpuriOS.Console.Ring

/-! # What a console shows and the focus

A focused console is written to in video memory, where the cursor is drawn as a blank after every
line and every call, another one in its own page without a cursor. These blanks are all that the
focus changes: a cell is what it would be if the console had had the focus throughout, or what it
would be if it had never had it. -/

namespace SpuriOS

open Transition

/-- `t` is between the screen `r`, where the cursor was drawn throughout, and the screen `v`, where
it never was. -/
structure Screen.Matches (r v t : Screen) : Prop where
  x : t.x = r.x ∧ v.x = r.x
  y : t.y = r.y ∧ v.y = r.y
  attr : t.attr = r.attr ∧ v.attr = r.attr
  cells : ∀ i < vgaRows * vgaCols, t.cells i = r.cells i ∨ t.cells i = v.cells i
  /-- The two screens differ by blanks of the cursor only. -/
  blanks : ∀ i < vgaRows * vgaCols, r.cells i = v.cells i ∨ r.cells i = whiteSpace

namespace Screen.Matches
variable {r v t : Screen} {video raw : Bool} {c : Byte}

theorem refl (r : Screen) : r.Matches r r :=
  ⟨⟨rfl, rfl⟩, ⟨rfl, rfl⟩, ⟨rfl, rfl⟩, fun _ _ => .inl rfl, fun _ _ => .inl rfl⟩

theorem location (h : r.Matches v t) : t.location = r.location ∧ v.location = r.location := by
  rw [Screen.location, Screen.location, Screen.location, h.x.1, h.y.1, h.x.2, h.y.2]
  exact ⟨rfl, rfl⟩

/-- The same cell is written under all cursors. -/
theorem put (h : r.Matches v t) (cell : Cell) : (r.put cell).Matches (v.put cell) (t.put cell) where
  x := h.x
  y := h.y
  attr := h.attr
  cells i hi := by
    simp only [Screen.put, h.location]
    rcases eq_or_ne i r.location with rfl | hne
    · simp
    · simpa only [Function.update_of_ne hne] using h.cells i hi
  blanks i hi := by
    simp only [Screen.put, h.location]
    rcases eq_or_ne i r.location with rfl | hne
    · simp
    · simpa only [Function.update_of_ne hne] using h.blanks i hi

/-- The cursor is drawn in the first screen alone. -/
theorem blank (h : r.Matches v t) : (vgaUpdateCursor r).Matches v t where
  x := h.x
  y := h.y
  attr := h.attr
  cells i hi := by
    rcases eq_or_ne i r.location with rfl | hne
    · -- `t` has the blank already, or what the cell had without
      rw [vgaUpdateCursor_self]
      obtain ht | ht := h.cells _ hi
      · exact (h.blanks _ hi).symm.imp ht.trans ht.trans
      · exact .inr ht
    · simpa only [vgaUpdateCursor, Screen.put, Function.update_of_ne hne] using h.cells i hi
  blanks i hi := by
    rcases eq_or_ne i r.location with rfl | hne
    · exact .inr vgaUpdateCursor_self
    · simpa only [vgaUpdateCursor, Screen.put, Function.update_of_ne hne] using h.blanks i hi

/-- A blank where the first screen has one already. -/
theorem blank_again (h : r.Matches v t) (hr : r.cells r.location = whiteSpace) :
    r.Matches v (vgaUpdateCursor t) where
  x := h.x
  y := h.y
  attr := h.attr
  cells i hi := by
    rcases eq_or_ne i r.location with rfl | hne
    · rw [hr, ← h.location.1, vgaUpdateCursor_self]
      exact .inl rfl
    · simp only [vgaUpdateCursor, Screen.put, h.location.1, Function.update_of_ne hne]
      exact h.cells i hi
  blanks := h.blanks

theorem blank_both (h : r.Matches v t) : (vgaUpdateCursor r).Matches v (vgaUpdateCursor t) :=
  h.blank.blank_again vgaUpdateCursor_self

theorem newline (h : r.Matches v t) : (newline r).Matches (newline v) (newline t) := by
  unfold SpuriOS.newline
  rw [h.y.1, h.y.2]
  split
  · refine ⟨⟨rfl, rfl⟩, ⟨rfl, rfl⟩, h.attr, fun i hi => ?_, fun i hi => ?_⟩
    · simp only [scroll]
      split
      case isTrue hlt => exact h.cells _ (by rw [vgaRows_eq, vgaCols_eq] at *; omega)
      case isFalse => exact .inl rfl
    · simp only [scroll]
      split
      case isTrue hlt => exact h.blanks _ (by rw [vgaRows_eq, vgaCols_eq] at *; omega)
      case isFalse => exact .inl rfl
  · exact ⟨⟨rfl, rfl⟩, ⟨rfl, rfl⟩, h.attr, h.cells, h.blanks⟩

/-- The first screen is in video memory; `t` may be or not. -/
theorem putln (h : r.Matches v t) :
    (putln true r).Matches (putln false v) (putln video t) := by
  cases video with
  | true => exact h.newline.blank_both
  | false => exact h.newline.blank

/-- The cursor moves alike. -/
theorem move (h : r.Matches v t) (x y : Nat) :
    { r with x := x, y := y }.Matches { v with x := x, y := y } { t with x := x, y := y } :=
  ⟨⟨rfl, rfl⟩, ⟨rfl, rfl⟩, h.attr, h.cells, h.blanks⟩

theorem putbs (h : r.Matches v t) : (putbs r).Matches (putbs v) (putbs t) := by
  unfold SpuriOS.putbs
  simp only [h.x.1, h.x.2, h.y.1, h.y.2, h.attr.1, h.attr.2]
  have hput := h.put ⟨0x20, r.attr⟩
  split
  · have hmove := hput.move (r.x - 1) r.y
    exact ⟨⟨rfl, rfl⟩, hput.y, h.attr, hmove.cells, hmove.blanks⟩
  · split
    · exact hput.move (vgaCols - 1) (r.y - 1)
    · exact hput

theorem putcharAt (h : r.Matches v t) :
    (putcharAt true r c raw).Matches (putcharAt false v c raw) (putcharAt video t c raw) := by
  unfold SpuriOS.putcharAt
  split_ifs
  · exact h.putln
  · rw [h.x.1, h.x.2]
    exact ⟨⟨rfl, rfl⟩, h.y, h.attr, h.cells, h.blanks⟩
  · exact h.putbs
  · rw [h.attr.1, h.attr.2, h.x.1, h.x.2]
    have hput := h.put (charCell c r.attr)
    exact ⟨⟨rfl, rfl⟩, hput.y, h.attr, hput.cells, hput.blanks⟩

theorem putchar (h : r.Matches v t) :
    (putchar true r c raw).Matches (putchar false v c raw) (putchar video t c raw) := by
  have hat : (SpuriOS.putcharAt true r c raw).Matches (SpuriOS.putcharAt false v c raw)
      (SpuriOS.putcharAt video t c raw) := h.putcharAt
  unfold SpuriOS.putchar
  simp only [hat.x.1, hat.x.2]
  split
  · exact hat.putln
  · exact hat

theorem writebufFrom (h : r.Matches v t) {string : Nat → Byte} {size fuel sz : Nat} :
    (writebufFrom true string size fuel sz r).2.Matches
      (writebufFrom false string size fuel sz v).2
      (writebufFrom video string size fuel sz t).2 := by
  induction fuel generalizing sz r v t with
  | zero => exact h
  | succ fuel ih =>
    unfold SpuriOS.writebufFrom
    split_ifs
    · exact h
    · refine ih ?_
      exact ⟨h.x, h.y, ⟨rfl, rfl⟩, h.cells, h.blanks⟩
    · exact ih h.putchar
    · exact ih h.putchar
    · exact h

theorem vgaWritebuf (h : r.Matches v t) {string : Nat → Byte} {size : Nat} :
    (vgaWritebuf true r string size).2.Matches (vgaWritebuf false v string size).2
      (vgaWritebuf video t string size).2 :=
  have hloop : (SpuriOS.writebufFrom true string size size 0 r).2.Matches
      (SpuriOS.writebufFrom false string size size 0 v).2
      (SpuriOS.writebufFrom video string size size 0 t).2 := h.writebufFrom
  ⟨hloop.x, hloop.y, h.attr, hloop.cells, hloop.blanks⟩

end Screen.Matches

/-- A write or a change of focus. -/
def ConLabel.Quiet : ConLabel → Prop
  | .write .. | .prev | .next => True
  | _ => False

def ConLabel.writesTo (c : ConId) : ConLabel → Bool
  | .write d .. => d = c
  | _ => false

/-- What the writes to `c` make of its page `scr` when it never has the focus. -/
def unfocused (c : ConId) (scr : Screen) (ops : List ConLabel) : Screen :=
  ops.foldl (fun scr a =>
    match a with
    | .write d buf size => if d = c then (vgaWritebuf false scr buf size).2 else scr
    | _ => scr) scr

section
variable {s s' u : Con} {c d : ConId} {buf : Nat → Byte} {size : Nat} {ops : List ConLabel}

/-! ## The cursor -/

theorem switchPrev_eq_some (h : switchPrev s = some s') :
    s' = s ∨ ∃ p, s' = switchConsole p s := by
  unfold switchPrev at h
  split at h
  · obtain ⟨p, -, rfl⟩ := Option.map_eq_some_iff.mp h
    exact .inr ⟨p, rfl⟩
  · exact .inl (Option.some.inj h).symm

theorem switchNext_eq_some (h : switchNext s = some s') :
    s' = s ∨ ∃ n, s' = switchConsole n s := by
  unfold switchNext at h
  split at h
  · obtain ⟨n, -, rfl⟩ := Option.map_eq_some_iff.mp h
    exact .inr ⟨n, rfl⟩
  · exact .inl (Option.some.inj h).symm

/-- A quiet step writes to a console or gives one the focus. -/
theorem quiet_cases {a : ConLabel} (ha : a.Quiet) (h : conStep s a = some s') :
    (∃ d buf size, a = .write d buf size ∧ s' = (Con.conWrite d buf size s).2) ∨
      (∀ c, a.writesTo c = false) ∧ (s' = s ∨ ∃ p, s' = switchConsole p s) := by
  cases a with
  | «open» page => exact absurd ha id
  | flush c => exact absurd ha id
  | prev => exact .inr ⟨fun _ => rfl, switchPrev_eq_some h⟩
  | next => exact .inr ⟨fun _ => rfl, switchNext_eq_some h⟩
  | write d buf size => exact .inl ⟨d, buf, size, rfl, (Option.some.inj h).symm⟩

/-- A write to another console is not seen. -/
theorem conWrite_shown_of_ne (h : d ≠ c) : (Con.conWrite d buf size s).2.shown c = s.shown c := by
  unfold Con.conWrite Con.shown
  split
  case isTrue hd =>
    have hc : s.current ≠ some c := fun hc => h (Option.some.inj (hd.symm.trans hc))
    rw [if_neg hc, if_neg hc]
    rfl
  case isFalse => simp [Function.update_of_ne (Ne.symm h)]

/-- A console that gets the focus is drawn a cursor, and no other console changes. -/
theorem switchConsole_shown (p c : ConId) (s : Con) :
    (switchConsole p s).shown c = s.shown c ∨
      (switchConsole p s).shown c = vgaUpdateCursor (s.shown c) := by
  unfold switchConsole
  split
  case isTrue => exact .inl rfl
  case isFalse hp =>
    rcases eq_or_ne p c with rfl | hne
    · -- the screen of `p` was saved when it lost the focus
      right
      simp only [Con.shown, if_pos, if_neg hp]
      refine congrArg vgaUpdateCursor ?_
      cases hcur : s.current with
      | none => rfl
      | some cur =>
        dsimp only
        rw [Con.screen_setScreen, Function.update_of_ne fun he => hp (by rw [hcur, he])]
    · left
      have hpc : ¬(some p = some c) := fun he => hne (Option.some.inj he)
      simp only [Con.shown, if_neg hpc]
      cases hcur : s.current with
      | none => rfl
      | some cur =>
        rcases eq_or_ne cur c with rfl | hcc
        · simp [Con.screen, Con.setScreen]
        · have : ¬(some cur = some c) := fun he => hcc (Option.some.inj he)
          rw [if_neg this]
          simp [Con.screen, Con.setScreen, Function.update_of_ne (Ne.symm hcc)]

/-- A write without the focus, as in `unfocused`. -/
theorem conWrite_unfocused (h : s.current ≠ some c) :
    (Con.conWrite c buf size s).2.shown c = unfocused c (s.shown c) [.write c buf size] := by
  rw [Con.conWrite, if_neg h, Con.shown, Con.current_setScreen, if_neg h, Con.screen_setScreen,
    Function.update_self, Con.shown, if_neg h]
  exact (if_pos rfl).symm

/-- The reference run `u` has `c` in focus, `v` is the page of a run without, and `c` is between
them. -/
structure Follows (c : ConId) (u : Con) (v : Screen) (s : Con) : Prop where
  current : u.current = some c
  drawn : u.vga.cells u.vga.location = whiteSpace
  shown : u.vga.Matches v (s.shown c)

variable {v : Screen}

theorem Follows.write (h : Follows c u v s) :
    Follows c (Con.conWrite c buf size u).2 (unfocused c v [.write c buf size])
      (Con.conWrite c buf size s).2 := by
  have hu : (Con.conWrite c buf size u).2 =
      { u with vga := vgaUpdateCursor (vgaWritebuf true u.vga buf size).2 } := by
    rw [Con.conWrite, if_pos h.current]
  have hv : unfocused c v [.write c buf size] = (vgaWritebuf false v buf size).2 := if_pos rfl
  rw [hu, hv]
  refine ⟨h.current, vgaUpdateCursor_self, ?_⟩
  have hshown := h.shown
  by_cases hc : s.current = some c
  · rw [Con.shown, if_pos hc] at hshown
    rw [Con.conWrite, if_pos hc, Con.shown, if_pos hc]
    exact hshown.vgaWritebuf.blank_both
  · rw [conWrite_unfocused hc, unfocused]
    simp only [List.foldl_cons, if_pos, List.foldl_nil]
    exact hshown.vgaWritebuf.blank

theorem Follows.step (h : Follows c u v s) {a : ConLabel} (ha : a.Quiet)
    (hs : conStep s a = some s') :
    ∃ u', (if a.writesTo c then conStep u a = some u' else u' = u) ∧
      Follows c u' (unfocused c v [a]) s' := by
  rcases quiet_cases ha hs with ⟨d, buf, size, rfl, rfl⟩ | ⟨hw, hs'⟩
  · rcases eq_or_ne d c with rfl | hne
    · exact ⟨_, by simp [ConLabel.writesTo, conStep], h.write⟩
    · refine ⟨u, by simp [ConLabel.writesTo, hne], h.current, h.drawn, ?_⟩
      rw [conWrite_shown_of_ne hne, unfocused]
      simp only [List.foldl_cons, if_neg hne, List.foldl_nil]
      exact h.shown
  · have hv : unfocused c v [a] = v := by
      cases a with
      | write d buf size => exact if_neg (by simpa [ConLabel.writesTo] using hw c)
      | «open» | flush | prev | next => rfl
    refine ⟨u, by simp [hw c], h.current, h.drawn, ?_⟩
    rw [hv]
    rcases hs' with rfl | ⟨p, rfl⟩
    · exact h.shown
    · rcases switchConsole_shown p c s with he | he <;> rw [he]
      · exact h.shown
      · exact h.shown.blank_again h.drawn

theorem Follows.run (h : Follows c u v s) (hops : ∀ a ∈ ops, a.Quiet)
    (hrun : runList conStep s ops = some s') :
    ∃ u', runList conStep u (ops.filter (·.writesTo c)) = some u' ∧
      Follows c u' (unfocused c v ops) s' := by
  induction ops generalizing s u v with
  | nil =>
    cases hrun
    exact ⟨u, rfl, h⟩
  | cons a ops ih =>
    simp only [runList, Option.bind_eq_some_iff] at hrun
    obtain ⟨s₁, hs, hrun⟩ := hrun
    obtain ⟨u₁, hu, h₁⟩ := h.step (hops a List.mem_cons_self) hs
    obtain ⟨u', hu', h'⟩ := ih h₁ (fun b hb => hops b (List.mem_cons_of_mem a hb)) hrun
    refine ⟨u', ?_, h'⟩
    split at hu
    case isTrue hw => simp only [List.filter_cons_of_pos hw, runList, hu, Option.bind_some, hu']
    case isFalse hw =>
      subst hu
      rw [List.filter_cons_of_neg hw, hu']

end

def firstConsole : ConId := ⟨0, by decide⟩

end SpuriOS
