import SpuriOS.Console.Model
import SpuriOS.Lib.Linked

/-! # The consoles form a ring

The abstract state is the list of the open consoles in the order of `next`, from the one with the
focus on. `con_open` puts a console behind the first one and goes to it, `con_flush` takes one out,
and the two switches turn the list. -/

namespace SpuriOS

open Transition Linked

/-- The open consoles in the order of `next`, from `current` on. -/
structure Con.IsRing (s : Con) (l : List ConId) : Prop where
  ring : Ring s.next s.prev l
  isOpen : ∀ c, s.klass c = .console ↔ c ∈ l
  closed : ∀ c, c ∉ l → s.klass c = .none
  current : s.current = l.head?

/-- What an operation does to the ring. -/
inductive RingMove : ConLabel → List ConId → List ConId → Prop
  | openFirst {c} : RingMove (.open true) [] [c]
  /-- The new console comes right after the focused one and gets the focus. -/
  | opened {c cur l} : c ∉ cur :: l → RingMove (.open true) (cur :: l) (c :: (l ++ [cur]))
  | noPage {l} : RingMove (.open false) l l
  | full {page l} : (∀ c, c ∈ l) → RingMove (.open page) l l
  | closeLast {c} : RingMove (.flush c) [c] []
  /-- The predecessor of the focused console gets the focus. -/
  | closeFocused {c l p} : RingMove (.flush c) (c :: (l ++ [p])) (p :: l)
  | closeOther {c cur a b} : RingMove (.flush c) (cur :: (a ++ c :: b)) (cur :: (a ++ b))
  | prev {l p} : RingMove .prev (l ++ [p]) (p :: l)
  | prevNone : RingMove .prev [] []
  | next {c l} : RingMove .next (c :: l) (l ++ [c])
  | nextNone : RingMove .next [] []
  | write {c buf size l} : RingMove (.write c buf size) l l

section
variable {s s' : Con} {l a b : List ConId} {c cur p : ConId}

theorem Switched.isRing (h : Switched s c s') (hs : s.IsRing (a ++ c :: b)) :
    s'.IsRing (c :: b ++ a) where
  ring := by
    rw [h.next, h.prev]
    exact hs.ring.rotate
  isOpen d := by
    rw [h.klass, hs.isOpen, List.mem_append, List.mem_append, or_comm]
  closed d hd := by
    rw [h.klass]
    exact hs.closed d fun hm => hd (List.mem_append.mpr (List.mem_append.mp hm).symm)
  current := h.current

/-! ## The links -/

/-- The console behind the focused one; with one console, itself. -/
theorem Con.IsRing.next_current (h : s.IsRing (cur :: l)) :
    s.next cur = (l ++ [cur]).head? := by
  rw [h.ring.next.1, List.head?_append]
  rfl

theorem Con.IsRing.prev_current (h : s.IsRing (cur :: (l ++ [p]))) : s.prev cur = some p :=
  h.ring.prev_head

theorem addConsoleAfterCurrent_none (h : s.current = none) :
    ∃ s', addConsoleAfterCurrent c s = some s' ∧ Ring s'.next s'.prev [c] ∧
      s'.klass = s.klass ∧ s'.current = s.current := by
  refine ⟨_, by rw [addConsoleAfterCurrent, h], ?_, by simp, by simp⟩
  exact Ring.singleton (by simp) (by simp)

theorem addConsoleAfterCurrent_some (h : Ring s.next s.prev (cur :: l))
    (hcur : s.current = some cur) (hc : c ∉ cur :: l) :
    ∃ s', addConsoleAfterCurrent c s = some s' ∧ Ring s'.next s'.prev (c :: (l ++ [cur])) ∧
      s'.klass = s.klass ∧ s'.current = s.current := by
  obtain ⟨y, hy⟩ : ∃ y, (l ++ [cur]).head? = some y := by
    cases l with
    | nil => exact ⟨cur, rfl⟩
    | cons y l => exact ⟨y, rfl⟩
  have hnext : s.next cur = some y := by
    rw [← hy, h.next.1, List.head?_append]
    rfl
  have hcurc : cur ≠ c := fun he => hc (he ▸ List.mem_cons_self)
  have hmem : ∀ d ∈ l ++ [cur], d ≠ c := fun d hd he =>
    hc (he ▸ (List.perm_append_singleton cur l).mem_iff.mp hd)
  have hrot : Ring s.next s.prev (l ++ [cur]) := h.rotate (a := [cur])
  -- the links of the new console first, then those of its neighbours
  have hnew : Ring (Function.update s.next c (some y)) (Function.update s.prev c (some cur))
      (l ++ [cur]) :=
    hrot.congr (fun d hd => Function.update_of_ne (hmem d hd) ..)
      fun d hd => Function.update_of_ne (hmem d hd) ..
  have hpush := hnew.push (x := c) (y := y) (fun hd => hmem c hd rfl)
    (by rw [Function.update_self, hy]) (Function.update_self ..) hy
  refine ⟨(((s.setPrev c (some cur)).setNext c (some y)).setPrev y (some c)).setNext cur (some c),
    ?_, ?_, by simp, by simp⟩
  · simp [addConsoleAfterCurrent, hcur, hnext, Function.update_of_ne hcurc]
  · simpa using hpush.rotate (b := [c])

theorem removeConsole_single (h : Ring s.next s.prev [c]) : removeConsole c s = some s :=
  if_pos ⟨h.prev.1, h.next.1⟩

/-- A console leaves a ring of two or more, and keeps its own links. -/
theorem removeConsole_ring (h : Ring s.next s.prev (c :: l)) (hl : l ≠ []) :
    ∃ s', removeConsole c s = some s' ∧ Ring s'.next s'.prev l ∧ s'.next c = s.next c ∧
      s'.prev c = s.prev c ∧ s'.klass = s.klass ∧ s'.current = s.current := by
  obtain ⟨y, t, rfl⟩ := List.exists_cons_of_ne_nil hl
  obtain ⟨i, z, hz⟩ : ∃ i z, y :: t = i ++ [z] := by
    obtain ⟨i, z, hz⟩ := (List.eq_nil_or_concat (y :: t)).resolve_left hl
    exact ⟨i, z, by rw [hz, List.concat_eq_append]⟩
  have hnext : s.next c = some y := h.next_head
  have hprev : s.prev c = some z := by
    rw [hz] at h
    exact h.prev_head
  have hnot := (List.nodup_cons.mp h.nodup).1
  have hyc : c ≠ y := fun he => hnot (he ▸ List.mem_cons_self)
  have hzc : c ≠ z := fun he => hnot (by rw [hz, he]; simp)
  have hpop := h.pop (y := y) rfl (z := z) (by rw [hz]; simp)
  refine ⟨(s.setNext z (s.next c)).setPrev y (s.prev c), ?_, by simpa using hpop,
    by simp [Function.update_of_ne hzc], by simp [Function.update_of_ne hyc], by simp, by simp⟩
  have hself : ¬(s.prev c = some c ∧ s.next c = some c) := by
    rw [hnext]
    exact fun hs => hyc (Option.some.inj hs.2).symm
  rw [removeConsole, if_neg hself]
  simp [hprev, hnext, Function.update_of_ne hzc]

/-! ## The operations -/

theorem Con.Initial.isRing (h : s.Initial) : s.IsRing [] where
  ring := Ring.nil
  isOpen c := by simp [h.klass c]
  closed c _ := h.klass c
  current := h.current

namespace Con.IsRing

theorem freeConsole_eq_none (h : s.IsRing l) (hfree : s.freeConsole = none) (c : ConId) :
    c ∈ l := by
  by_contra hc
  have := List.find?_eq_none.mp hfree c (List.mem_finRange c)
  exact this (by simpa using h.closed c hc)

theorem freeConsole_eq_some (h : s.IsRing l) (hfree : s.freeConsole = some c) : c ∉ l := by
  intro hc
  have hnone : s.klass c = .none := by simpa using List.find?_some hfree
  rw [(h.isOpen c).mpr hc] at hnone
  cases hnone

theorem conOpen (h : s.IsRing l) (page : Bool) : ∃ o s' l', SpuriOS.conOpen page s = some (o, s') ∧
    s'.IsRing l' ∧ RingMove (.open page) l l' := by
  cases hfree : s.freeConsole with
  | none =>
    exact ⟨none, s, l, by rw [SpuriOS.conOpen, hfree], h, .full (h.freeConsole_eq_none hfree)⟩
  | some c =>
    have hc := h.freeConsole_eq_some hfree
    cases page with
    | false => exact ⟨none, s, l, by simp [SpuriOS.conOpen, hfree], h, .noPage⟩
    | true =>
      have hset : ∀ scr, ((s.setScreen c scr).setKlass c .console).klass =
          Function.update s.klass c .console := fun scr => by simp
      generalize hscr : (if s.current = none then s.vga else emptyScreen) = scr
      have hopen : ∀ s₁, addConsoleAfterCurrent c ((s.setScreen c scr).setKlass c .console) =
          some s₁ → SpuriOS.conOpen true s = some (some c, switchConsole c s₁) := by
        intro s₁ h₁
        simp [SpuriOS.conOpen, hfree, hscr, h₁]
      -- what a ring with the new console in front says about the classes
      have hring : ∀ {s₁ l₁}, Ring s₁.next s₁.prev (c :: l₁) → (∀ d, d ∈ l₁ ↔ d ∈ l) →
          s₁.klass = Function.update s.klass c .console →
          (switchConsole c s₁).IsRing (c :: l₁) := by
        intro s₁ l₁ hr hl hk
        have hsw := switchConsole_switched s₁ c
        refine ⟨by rw [hsw.next, hsw.prev]; exact hr, fun d => ?_, fun d hd => ?_, hsw.current⟩
        · rw [hsw.klass, hk, List.mem_cons, hl]
          rcases eq_or_ne d c with rfl | hne
          · simp
          · simp [hne, h.isOpen d]
        · rw [List.mem_cons, hl, not_or] at hd
          rw [hsw.klass, hk, Function.update_of_ne hd.1]
          exact h.closed d hd.2
      cases l with
      | nil =>
        obtain ⟨s₁, h₁, hr, hk, -⟩ := addConsoleAfterCurrent_none (c := c)
          (s := (s.setScreen c scr).setKlass c .console) (by simpa using h.current)
        exact ⟨_, _, _, hopen s₁ h₁, hring hr (fun _ => Iff.rfl) (hk.trans (hset scr)), .openFirst⟩
      | cons cur l =>
        obtain ⟨s₁, h₁, hr, hk, -⟩ := addConsoleAfterCurrent_some (c := c)
          (s := (s.setScreen c scr).setKlass c .console) (by simpa using h.ring)
          (by simpa using h.current) hc
        exact ⟨_, _, _, hopen s₁ h₁,
          hring hr (fun d => (List.perm_append_singleton cur l).mem_iff) (hk.trans (hset scr)),
          .opened hc⟩

/-- After `con_flush` has taken `c` out of the list and marked it as closed. -/
theorem setKlass (h : Ring s'.next s'.prev l) (hk : s'.klass = s.klass)
    (hs : s.IsRing (cur :: a)) (hl : ∀ d, d ∈ cur :: a ↔ d = c ∨ d ∈ l) (hc : c ∉ l)
    (hcur : s'.current = l.head?) : (s'.setKlass c .none).IsRing l where
  ring := by simpa using h
  isOpen d := by
    rw [klass_setKlass, hk]
    rcases eq_or_ne d c with rfl | hne
    · simp [hc]
    · rw [Function.update_of_ne hne, hs.isOpen, hl]
      simp [hne]
  closed d hd := by
    rw [klass_setKlass, hk]
    rcases eq_or_ne d c with rfl | hne
    · simp
    · rw [Function.update_of_ne hne]
      exact hs.closed d (by rw [hl]; simp [hne, hd])
  current := hcur

theorem conFlush_last (h : s.IsRing [c]) :
    ∃ s', SpuriOS.conFlush c s = some s' ∧ s'.IsRing [] := by
  have hself : s.prev c = some c ∧ s.next c = some c := ⟨h.ring.prev.1, h.ring.next.1⟩
  have hcur : s.current = some c := h.current
  refine ⟨(runScreenSaver { s with current := none }).setKlass c .none, ?_,
    setKlass (s := s) Ring.nil rfl h (by simp) (by simp) rfl⟩
  have hfocus : passFocus c s = some (runScreenSaver { s with current := none }) := by
    rw [passFocus, if_pos hcur]
    exact if_pos hself
  simp [SpuriOS.conFlush, removeConsole_single h.ring, hfocus]

theorem conFlush_focused (h : s.IsRing (c :: (l ++ [p]))) :
    ∃ s', SpuriOS.conFlush c s = some s' ∧ s'.IsRing (p :: l) := by
  obtain ⟨s₁, h₁, hr, hn, hp, hk, hcur⟩ := removeConsole_ring h.ring (by simp)
  have hcur₁ : s₁.current = some c := hcur.trans h.current
  have hprev : s₁.prev c = some p := hp.trans h.prev_current
  have hc : c ∉ l ++ [p] := (List.nodup_cons.mp h.ring.nodup).1
  have hpc : p ≠ c := fun he => hc (by simp [he])
  have hsw := switchConsole_switched { s₁ with current := none } p
  refine ⟨(switchConsole p { s₁ with current := none }).setKlass c .none, ?_,
    setKlass (s := s) ?_ (hsw.klass.trans hk) h (fun d => ?_) (fun hm => hc ?_) hsw.current⟩
  · have hself : ¬(s₁.prev c = some c ∧ s₁.next c = some c) := fun hs =>
      hpc (Option.some.inj (hprev.symm.trans hs.1))
    have hfocus : passFocus c s₁ = some (switchConsole p { s₁ with current := none }) := by
      rw [passFocus, if_pos hcur₁]
      exact (if_neg hself).trans (congrArg (Option.map _) hprev)
    simp [SpuriOS.conFlush, h₁, hfocus]
  · rw [hsw.next, hsw.prev]
    exact hr.rotate (b := [p])
  · rw [List.mem_cons, (List.perm_append_singleton p l).mem_iff]
  · exact (List.perm_append_singleton p l).mem_iff.mpr hm

theorem conFlush_other (h : s.IsRing (cur :: (a ++ c :: b))) :
    ∃ s', SpuriOS.conFlush c s = some s' ∧ s'.IsRing (cur :: (a ++ b)) := by
  have hrot : Ring s.next s.prev (c :: (b ++ cur :: a)) := h.ring.rotate (a := cur :: a)
  obtain ⟨s₁, h₁, hr, hn, hp, hk, hcur⟩ := removeConsole_ring hrot (by simp)
  have hc : c ∉ b ++ cur :: a := (List.nodup_cons.mp hrot.nodup).1
  have hne : cur ≠ c := fun he => hc (by simp [he])
  have hcur₁ : s₁.current = some cur := hcur.trans h.current
  refine ⟨s₁.setKlass c .none, ?_, setKlass (s := s) (hr.rotate (b := cur :: a)) hk h
    (fun d => by simp only [List.mem_cons, List.mem_append]; tauto) (fun hm => hc ?_) hcur₁⟩
  · have hnot : ¬s₁.current = some c := fun hs => hne (Option.some.inj (hcur₁.symm.trans hs))
    simp [SpuriOS.conFlush, h₁, passFocus, hnot]
  · simp only [List.mem_cons, List.mem_append] at hm ⊢
    tauto

theorem conFlush (h : s.IsRing l) (hc : s.klass c = .console) :
    ∃ s' l', SpuriOS.conFlush c s = some s' ∧ s'.IsRing l' ∧ RingMove (.flush c) l l' := by
  cases l with
  | nil => exact absurd ((h.isOpen c).mp hc) List.not_mem_nil
  | cons cur l =>
    rcases List.mem_cons.mp ((h.isOpen c).mp hc) with rfl | hmem
    · rcases List.eq_nil_or_concat l with rfl | ⟨l, p, rfl⟩
      · obtain ⟨s', h', hr⟩ := h.conFlush_last
        exact ⟨s', _, h', hr, .closeLast⟩
      · rw [List.concat_eq_append] at h ⊢
        obtain ⟨s', h', hr⟩ := h.conFlush_focused
        exact ⟨s', _, h', hr, .closeFocused⟩
    · obtain ⟨a, b, rfl⟩ := List.append_of_mem hmem
      obtain ⟨s', h', hr⟩ := h.conFlush_other
      exact ⟨s', _, h', hr, .closeOther⟩

theorem switchPrev (h : s.IsRing l) :
    ∃ s' l', SpuriOS.switchPrev s = some s' ∧ s'.IsRing l' ∧ RingMove .prev l l' := by
  rcases List.eq_nil_or_concat l with rfl | ⟨l, p, rfl⟩
  · exact ⟨s, [], by rw [SpuriOS.switchPrev, h.current]; rfl, h, .prevNone⟩
  · rw [List.concat_eq_append] at h ⊢
    have hprev : ∃ cur, s.current = some cur ∧ s.prev cur = some p := by
      cases l with
      | nil => exact ⟨p, h.current, h.ring.prev.1⟩
      | cons cur l => exact ⟨cur, h.current, h.prev_current⟩
    obtain ⟨cur, hcur, hp⟩ := hprev
    exact ⟨switchConsole p s, p :: l, by simp [SpuriOS.switchPrev, hcur, hp],
      (switchConsole_switched s p).isRing h, .prev⟩

theorem switchNext (h : s.IsRing l) :
    ∃ s' l', SpuriOS.switchNext s = some s' ∧ s'.IsRing l' ∧ RingMove .next l l' := by
  cases l with
  | nil => exact ⟨s, [], by rw [SpuriOS.switchNext, h.current]; rfl, h, .nextNone⟩
  | cons cur l =>
    have hnext := h.next_current
    cases l with
    | nil =>
      exact ⟨switchConsole cur s, [cur], by simp [SpuriOS.switchNext, h.current, hnext],
        (switchConsole_switched s cur).isRing (a := []) h, .next⟩
    | cons n l =>
      exact ⟨switchConsole n s, n :: l ++ [cur], by simp [SpuriOS.switchNext, h.current, hnext],
        (switchConsole_switched s n).isRing (a := [cur]) h, .next⟩

theorem conWrite (h : s.IsRing l) (buf : Nat → Byte) (size : Nat) :
    (Con.conWrite c buf size s).2.IsRing l := by
  unfold Con.conWrite
  split
  · exact ⟨h.ring, h.isOpen, h.closed, h.current⟩
  · exact ⟨by simpa using h.ring, by simpa using h.isOpen, by simpa using h.closed, h.current⟩

/-- Every operation has a result and moves the ring as it should. -/
theorem step (h : s.IsRing l) {op : ConLabel} (hop : op.Enabled s) :
    ∃ s' l', conStep s op = some s' ∧ s'.IsRing l' ∧ RingMove op l l' := by
  cases op with
  | «open» page =>
    obtain ⟨o, s', l', hs, hr, hm⟩ := h.conOpen page
    exact ⟨s', l', by rw [conStep, hs]; rfl, hr, hm⟩
  | flush c => exact h.conFlush hop
  | prev => exact h.switchPrev
  | next => exact h.switchNext
  | write c buf size => exact ⟨_, l, rfl, h.conWrite buf size, .write⟩

end Con.IsRing

theorem reach_isRing (h : Reach conSystem anyStep s) : ∃ l, s.IsRing l := by
  refine h.invariant (I := fun s => ∃ l, s.IsRing l) (fun hs => ⟨[], Con.Initial.isRing hs⟩) ?_
  rintro s op s' ⟨l, hs⟩ - ⟨hop, hstep⟩
  obtain ⟨s₁, l', h₁, hr, -⟩ := hs.step hop
  cases h₁.symm.trans hstep
  exact ⟨l', hr⟩

/-- In every state that is reached the open consoles are a ring, and every operation moves it. -/
theorem consoles_ring (h : Reach conSystem anyStep s) :
    ∃ l, s.IsRing l ∧ ∀ op, op.Enabled s →
      ∃ s' l', conStep s op = some s' ∧ s'.IsRing l' ∧ RingMove op l l' := by
  obtain ⟨l, hl⟩ := reach_isRing h
  exact ⟨l, hl, fun _ hop => hl.step hop⟩

end

/-- No console is open and the screen is blank. -/
def Con.boot : Con := ⟨fun _ => ⟨.none, blankScreen, none, none⟩, none, blankScreen⟩

theorem Con.boot_initial : Con.boot.Initial := ⟨fun _ => rfl, rfl, by decide, by decide⟩

/-- Two consoles are opened, and the second one has the focus. -/
def twoConsoles : Option Con := runList conStep .boot [.open true, .open true]

theorem conSystem_step {s s' : Con} {a : ConLabel} (h : Reach conSystem anyStep s)
    (ha : a.Enabled s) (hs : conStep s a = some s') : Reach conSystem anyStep s' :=
  .step h trivial ⟨ha, hs⟩

theorem twoConsoles_reach {s : Con} (h : twoConsoles = some s) : Reach conSystem anyStep s := by
  simp only [twoConsoles, runList, Option.bind_eq_some_iff, Option.some.injEq] at h
  obtain ⟨s₁, h₁, s₂, h₂, rfl⟩ := h
  have hfirst : Reach conSystem anyStep s₁ :=
    conSystem_step (a := .open true) (.init Con.boot_initial) trivial h₁
  exact conSystem_step (a := .open true) hfirst trivial h₂

theorem consoles_ring_two : ∃ s l, s.current.map Fin.val = some 1 ∧ s.IsRing l ∧
    ∀ op, op.Enabled s → ∃ s' l', conStep s op = some s' ∧ s'.IsRing l' ∧ RingMove op l l' := by
  have hcur : twoConsoles.map (·.current.map Fin.val) = some (some 1) := by decide
  obtain ⟨s, hs, hcur⟩ := Option.map_eq_some_iff.mp hcur
  obtain ⟨l, hl⟩ := consoles_ring (twoConsoles_reach hs)
  exact ⟨s, l, hcur, hl⟩

end SpuriOS
