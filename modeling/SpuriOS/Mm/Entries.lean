import SpuriOS.Mm.Spaces

/-! # What the calls do to the entries

The effect of the functions on page tables, told by the words of the pages. -/

namespace SpuriOS
namespace Mm

/-- The words after that of one page was overwritten. -/
def setWord (w : Pid → Nat → MmPage) (p : Pid) (page : Nat) (e : MmPage) : Pid → Nat → MmPage :=
  Function.update w p (Function.update (w p) page e)

/-- Which processes there are, and at which level, stays. -/
structure Alike (s u : Mm) : Prop where
  live : ∀ q, (u.procs q).live = (s.procs q).live
  level : ∀ q, (u.procs q).privilegeLevel = (s.procs q).privilegeLevel
  limit : u.limit = s.limit

/-- The bits of the user zone stay. -/
def KeepsUser (s u : Mm) : Prop := ∀ f, 0x400 ≤ f → u.used f = s.used f

/-- Frame `f` of the user zone was free and is taken, and no other one is. -/
structure Takes (f : Nat) (s u : Mm) : Prop where
  zone : 0x400 ≤ f
  lt : f < s.limit
  free : s.used f = false
  used : ∀ g, 0x400 ≤ g → (u.used g = true ↔ s.used g = true ∨ g = f)

/-- The entry of a page at which frame `f` was mapped with `mm_map_frame`. -/
def mappedEntry (f : Nat) (us : Bool) : MmPage := ⟨true, true, us, false, false, false, false, f⟩

section
variable {s u t : Mm} {p q : Pid} {page page' f g i : Nat} {e : MmPage} {pl : Privilege}
  {w : Pid → Nat → MmPage}

@[simp] theorem setWord_self : setWord w p page e p page = e := by simp [setWord]

@[simp] theorem setWord_setWord {e' : MmPage} :
    setWord (setWord w p page e) p page e' = setWord w p page e' := by simp [setWord]

theorem setWord_of_page (h : page' ≠ page) : setWord w p page e q page' = w q page' := by
  by_cases hq : q = p
  · subst hq
    simp [setWord, h]
  · simp [setWord, hq]

theorem setWord_of_proc (h : q ≠ p) : setWord w p page e q page' = w q page' := by
  simp [setWord, h]

theorem Alike.refl (s : Mm) : s.Alike s := ⟨fun _ => rfl, fun _ => rfl, rfl⟩

theorem Alike.trans (h : s.Alike u) (h' : u.Alike t) : s.Alike t :=
  ⟨fun q => (h'.live q).trans (h.live q), fun q => (h'.level q).trans (h.level q),
    h'.limit.trans h.limit⟩

/-! ### Frames -/

theorem memSeek_spec {lo hi : Nat} (h : s.memSeek lo hi = some (f, u)) :
    lo ≤ f ∧ f < hi ∧ s.used f = false ∧ u = { s with used := Function.update s.used f true } := by
  rw [memSeek, Option.map_eq_some_iff] at h
  obtain ⟨g, hg, h⟩ := h
  cases h
  have hmem := List.mem_range'_1.1 (List.mem_of_find?_eq_some hg)
  have hused := List.find?_some hg
  exact ⟨hmem.1, by omega, by simpa using hused, rfl⟩

theorem kalloc_spec (h : s.kalloc = some (f, u)) :
    0x100 ≤ f ∧ f < 0x400 ∧ s.used f = false ∧
      u = { s with used := Function.update s.used f true } := memSeek_spec h

theorem alloc_spec (h : s.alloc = some (f, u)) :
    0x400 ≤ f ∧ f < s.limit ∧ s.used f = false ∧
      u = { s with used := Function.update s.used f true } := memSeek_spec h

/-! ### Page tables -/

@[simp] theorem setPcb_self {x : MmPcb} : (s.setPcb p x).procs p = x := Function.update_self ..

theorem setPcb_of_ne {x : MmPcb} (h : q ≠ p) : (s.setPcb p x).procs q = s.procs q :=
  Function.update_of_ne h ..

theorem le_of_pdEntryFor (h : pdEntryFor page ≠ 0) : 0x400 ≤ page := by
  rw [pdEntryFor] at h
  omega

theorem word_of_pde (h : (s.procs p).dir.pde (pdEntryFor page) ≠ none) :
    s.word p page = (s.procs p).dir.pte page := by
  obtain ⟨t, ht⟩ := Option.ne_none_iff_exists'.1 h
  rw [word, entry, mmPtEntryFor, ht]
  rfl

theorem word_of_no_pde (h : (s.procs p).dir.pde (pdEntryFor page) = none) :
    s.word p page = .zero := by
  rw [word, entry, mmPtEntryFor, h]
  rfl

theorem entry_of_pde (h : (s.procs p).dir.pde (pdEntryFor page) ≠ none) :
    s.entry p page = some (s.word p page) := by
  obtain ⟨t, ht⟩ := Option.ne_none_iff_exists'.1 h
  rw [word, entry, mmPtEntryFor, ht]
  rfl

/-- A page whose word is not 0 has a page table. -/
theorem pde_of_word (h : s.word p page ≠ .zero) :
    (s.procs p).dir.pde (pdEntryFor page) ≠ none := fun hnone => h (word_of_no_pde hnone)

theorem pte_of_word (h : s.word p page ≠ .zero) :
    (s.procs p).dir.pte page = s.word p page := (word_of_pde (pde_of_word h)).symm

/-- The words of a process are those of its directory. -/
theorem word_congr (h : (u.procs q).dir = (s.procs q).dir) : u.word q = s.word q := by
  funext page
  rw [word, word, entry, entry, h]

theorem setPte_spec (h : (s.procs p).dir.pde (pdEntryFor page) ≠ none) :
    (s.setPte p page e).word = setWord s.word p page e ∧ s.Alike (s.setPte p page e) ∧
      (∀ q, ((s.setPte p page e).procs q).dir.pde = (s.procs q).dir.pde) ∧
      ∀ q, ((s.setPte p page e).procs q).cr3 = (s.procs q).cr3 := by
  have hpcb : ∀ q, q ≠ p → (s.setPte p page e).procs q = s.procs q := fun q hq => setPcb_of_ne hq
  have hself : (s.setPte p page e).procs p = { s.procs p with
      dir := { (s.procs p).dir with pte := Function.update (s.procs p).dir.pte page e } } :=
    setPcb_self
  have hall : ∀ {α : Type} (g : MmPcb → α), (∀ x d, g { x with dir := d } = g x) →
      ∀ q, g ((s.setPte p page e).procs q) = g (s.procs q) := by
    intro α g hg q
    by_cases hq : q = p
    · rw [hq, hself, hg]
    · rw [hpcb q hq]
  refine ⟨?_, ⟨hall _ fun _ _ => rfl, hall _ fun _ _ => rfl, rfl⟩, fun q => ?_,
    hall _ fun _ _ => rfl⟩
  · funext q page'
    by_cases hq : q = p
    · subst hq
      rw [word, entry, hself, mmPtEntryFor]
      dsimp only
      by_cases hpage : page' = page
      · subst hpage
        obtain ⟨t, ht⟩ := Option.ne_none_iff_exists'.1 h
        rw [ht, Function.update_self, setWord_self]
        rfl
      · rw [Function.update_of_ne hpage, setWord_of_page hpage]
        rfl
    · rw [setWord_of_proc hq]
      exact congrFun (word_congr (congrArg MmPcb.dir (hpcb q hq))) page'
  · by_cases hq : q = p
    · rw [hq, hself]
    · rw [hpcb q hq]

/-- A page table is found, or an empty one is added, which changes no word. -/
theorem needTable_spec (h : s.needTable p page = some u) :
    u.word = s.word ∧ s.Alike u ∧ s.KeepsUser u ∧ pdEntryFor page ≠ 0 ∧
      (u.procs p).dir.pde (pdEntryFor page) ≠ none ∧ u.byte = s.byte := by
  rw [needTable] at h
  split at h
  · cases h
  next hpage =>
    split at h
    next t ht =>
      cases h
      exact ⟨rfl, .refl s, fun _ _ => rfl, hpage, by rw [ht]; simp, rfl⟩
    next hnone =>
      obtain ⟨⟨t, s₁⟩, hk, rfl⟩ := Option.map_eq_some_iff.1 h
      obtain ⟨hlo, hhi, -, rfl⟩ := kalloc_spec hk
      dsimp only
      generalize hs₁ : ({ s with used := Function.update s.used t true } : Mm) = s₁
      have hprocs : s₁.procs = s.procs := by rw [← hs₁]
      have hpcb : ∀ q, q ≠ p → (s₁.addTable p (pdEntryFor page) t).procs q = s.procs q :=
        fun q hq => (setPcb_of_ne hq).trans (congrFun hprocs q)
      have hself : (s₁.addTable p (pdEntryFor page) t).procs p = { s.procs p with
          dir := {
            pde := Function.update (s.procs p).dir.pde (pdEntryFor page) (some t)
            pte := fun page' =>
              if pdEntryFor page' = pdEntryFor page then .zero
              else (s.procs p).dir.pte page' } } := by
        rw [← hprocs]
        exact setPcb_self
      have hall : ∀ {α : Type} (g : MmPcb → α), (∀ x d, g { x with dir := d } = g x) →
          ∀ q, g ((s₁.addTable p (pdEntryFor page) t).procs q) = g (s.procs q) := by
        intro α g hg q
        by_cases hq : q = p
        · rw [hq, hself, hg]
        · rw [hpcb q hq]
      refine ⟨?_, ⟨hall _ fun _ _ => rfl, hall _ fun _ _ => rfl, ?_⟩, ?_, hpage, ?_, ?_⟩
      · funext q page'
        by_cases hq : q = p
        · subst hq
          rw [word, entry, hself, mmPtEntryFor]
          dsimp only
          by_cases hi : pdEntryFor page' = pdEntryFor page
          · rw [hi, Function.update_self, if_pos rfl, word_of_no_pde (hi ▸ hnone)]
            rfl
          · rw [Function.update_of_ne hi, if_neg hi]
            rfl
        · exact congrFun (word_congr (congrArg MmPcb.dir (hpcb q hq))) page'
      · rw [← hs₁]
        rfl
      · intro f hf
        rw [← hs₁]
        exact Function.update_of_ne (by omega) ..
      · rw [hself]
        dsimp only
        rw [Function.update_self]
        simp
      · rw [← hs₁]
        rfl

/-- What `mm_map_frame` does. -/
theorem mmMapFrame_spec (h : s.mmMapFrame f page p pl = some u) :
    u.word = setWord s.word p page (mappedEntry f (pl = .user)) ∧ s.Alike u ∧ s.KeepsUser u ∧
      pdEntryFor page ≠ 0 ∧ (u.procs p).dir.pde (pdEntryFor page) ≠ none ∧ u.byte = s.byte := by
  obtain ⟨s₁, h₁, rfl⟩ := Option.map_eq_some_iff.1 h
  obtain ⟨hw, ha, hu, hpage, hpde, hb⟩ := needTable_spec h₁
  obtain ⟨hw', ha', hpde', -⟩ := setPte_spec (e := mappedEntry f (pl = .user)) hpde
  rw [hw] at hw'
  exact ⟨hw', ha.trans ha', hu, hpage, fun hnone => hpde ((congrFun (hpde' p) _).symm.trans hnone),
    hb⟩

theorem needTable_others (h : s.needTable p page = some u) (hq : q ≠ p) :
    u.procs q = s.procs q := by
  rw [needTable] at h
  split at h
  · cases h
  · split at h
    · cases h
      rfl
    · obtain ⟨⟨t, s₁⟩, hk, rfl⟩ := Option.map_eq_some_iff.1 h
      obtain ⟨-, -, -, rfl⟩ := kalloc_spec hk
      exact setPcb_of_ne hq

theorem mmMapFrame_others (h : s.mmMapFrame f page p pl = some u) (hq : q ≠ p) :
    u.procs q = s.procs q := by
  obtain ⟨s₁, h₁, rfl⟩ := Option.map_eq_some_iff.1 h
  exact (setPcb_of_ne hq).trans (needTable_others h₁ hq)

theorem mmSetPtEntry_spec (h : s.mmSetPtEntry page e p = some u) :
    e.p = false ∧ u.word = setWord s.word p page e ∧ s.Alike u ∧ s.KeepsUser u ∧
      pdEntryFor page ≠ 0 ∧ u.byte = s.byte := by
  rw [mmSetPtEntry] at h
  split at h
  · cases h
  next hp =>
    obtain ⟨s₁, h₁, rfl⟩ := Option.map_eq_some_iff.1 h
    obtain ⟨hw, ha, hu, hpage, hpde, hb⟩ := needTable_spec h₁
    obtain ⟨hw', ha', -⟩ := setPte_spec (e := e) hpde
    exact ⟨by simpa using hp, by rw [hw', hw], ha.trans ha', hu, hpage, hb⟩

theorem mmSetPtEntry_others (h : s.mmSetPtEntry page e p = some u) (hq : q ≠ p) :
    u.procs q = s.procs q := by
  rw [mmSetPtEntry] at h
  split at h
  · cases h
  · obtain ⟨s₁, h₁, rfl⟩ := Option.map_eq_some_iff.1 h
    exact (setPcb_of_ne hq).trans (needTable_others h₁ hq)

/-! ### Tests -/

theorem isRequested_iff : s.isRequested page p = true ↔
    (s.word p page).p = false ∧ (s.word p page).rw = true := by
  rw [isRequested, word]
  cases s.entry p page with
  | none => simp [MmPage.zero]
  | some e => simp

theorem isToBeCopiedOnWrite_iff : s.isToBeCopiedOnWrite page p = true ↔
    (s.word p page).rw = false ∧ ((s.word p page).p = true ∨ (s.word p page).cor = true) := by
  rw [isToBeCopiedOnWrite, word]
  cases s.entry p page with
  | none => simp [MmPage.zero]
  | some e => simp

theorem othersHave_iff {test : MmPage → Bool} (h : test .zero = false) :
    s.othersHave test page p = true ↔
      ∃ q < maxPid, (s.procs q).live = true ∧ q ≠ p ∧ test (s.word q page) = true := by
  simp only [othersHave, List.any_eq_true, List.mem_range, Bool.and_eq_true, decide_eq_true_eq]
  refine exists_congr fun q => and_congr_right fun _ => ?_
  rw [and_assoc, word]
  refine and_congr_right fun _ => and_congr_right fun _ => ?_
  cases s.entry q page with
  | none => exact iff_of_false Bool.false_ne_true fun ht => Bool.false_ne_true (h.symm.trans ht)
  | some e => exact Iff.rfl

/-! ### Page faults -/

theorem Takes.keep (h : Takes f s u) (h' : u.KeepsUser t) : Takes f s t :=
  ⟨h.zone, h.lt, h.free, fun g hg => by rw [h' g hg]; exact h.used g hg⟩

theorem KeepsUser.takes (h : s.KeepsUser u) (hl : u.limit = s.limit) (h' : Takes f u t) :
    Takes f s t :=
  ⟨h'.zone, hl ▸ h'.lt, (h f h'.zone).symm.trans h'.free,
    fun g hg => by rw [← h g hg]; exact h'.used g hg⟩

theorem alloc_takes (h : s.alloc = some (f, u)) :
    Takes f s u ∧ u.word = s.word ∧ s.Alike u ∧ u.byte = s.byte ∧ u.procs = s.procs := by
  obtain ⟨hlo, hhi, hfree, rfl⟩ := alloc_spec h
  refine ⟨⟨hlo, hhi, hfree, fun g _ => ?_⟩, rfl, ⟨fun _ => rfl, fun _ => rfl, rfl⟩, rfl, rfl⟩
  dsimp only
  by_cases hg : g = f
  · rw [hg, Function.update_self]
    simp
  · rw [Function.update_of_ne hg]
    simp [hg]

theorem mmUserAllocate_spec (h : s.mmUserAllocate page p = some u) :
    ∃ f, Takes f s u ∧ u.word = setWord s.word p page (mappedEntry f true) ∧ s.Alike u ∧
      u.byte = s.byte := by
  rw [mmUserAllocate, Option.bind_eq_bind, Option.bind_eq_some_iff] at h
  obtain ⟨⟨f, s₁⟩, h₁, h⟩ := h
  obtain ⟨htakes, hw, ha, hb, -⟩ := alloc_takes h₁
  obtain ⟨hw', ha', hu, -, -, hb'⟩ := mmMapFrame_spec h
  exact ⟨f, htakes.keep hu, by rw [hw', hw]; rfl, ha.trans ha', hb'.trans hb⟩

theorem modifyPte_spec {g : MmPage → MmPage} (h : s.word p page ≠ .zero) :
    (s.modifyPte p page g).word = setWord s.word p page (g (s.word p page)) ∧
      s.Alike (s.modifyPte p page g) := by
  rw [modifyPte, pte_of_word h]
  obtain ⟨hw, ha, -⟩ := setPte_spec (e := g (s.word p page)) (pde_of_word h)
  exact ⟨hw, ha⟩

/-- A page that is to be copied is taken as it is if no other process has it, and copied else. The
copy goes through `MM_TMP_PAGE`, which is no page of its own afterwards. -/
theorem mmCopyOnWrite_spec (h : s.mmCopyOnWrite page p = some u) (hword : s.word p page ≠ .zero) :
    (s.isToBeCopiedOnWriteByOtherProcesses page p = false ∧ u.used = s.used ∧ s.Alike u ∧
      u.byte = s.byte ∧
      u.word = setWord s.word p page { s.word p page with rw := true, cor := false }) ∨
    ∃ f g us, s.isToBeCopiedOnWriteByOtherProcesses page p = true ∧ Takes f s u ∧ s.Alike u ∧
      u.byte = Function.update s.byte f (s.byte g) ∧
      u.word = setWord (setWord s.word p mmTmpPage .zero) p page (mappedEntry f us) ∧
      (page ≠ mmTmpPage → g = (s.word p page).base ∧ us = (s.word p page).us) := by
  rw [mmCopyOnWrite] at h
  split at h
  next hno =>
    rw [Bool.not_eq_true] at hno
    cases h
    obtain ⟨hw, ha⟩ := modifyPte_spec
      (g := fun e => { e with rw := true, cor := false }) hword
    exact .inl ⟨hno, rfl, ha, rfl, hw⟩
  next hyes =>
    rw [Decidable.not_not] at hyes
    simp only [Option.bind_eq_bind, Option.bind_eq_some_iff] at h
    obtain ⟨⟨f, s₁⟩, h₁, s₂, h₂, h⟩ := h
    dsimp only at h₂ h
    obtain ⟨htakes, hw₁, ha₁, hb₁, -⟩ := alloc_takes h₁
    obtain ⟨hw₂, ha₂, hu₂, -, hpde₂, hb₂⟩ := mmMapFrame_spec h₂
    rw [hw₁] at hw₂
    have hpage₂ : page ≠ mmTmpPage → s₂.word p page = s.word p page := fun hne => by
      rw [hw₂, setWord_of_page hne]
    have hword₂ : s₂.word p page ≠ .zero := by
      by_cases hne : page = mmTmpPage
      · rw [hne, hw₂, setWord_self]
        intro h0
        cases h0
      · rw [hpage₂ hne]
        exact hword
    rw [pte_of_word hword₂, mmUnmapPage] at h
    generalize s₂.word p page = e at h hpage₂
    have hpde₃ : ((s₂.copyFrame e.base f).procs p).dir.pde (pdEntryFor mmTmpPage) ≠ none := hpde₂
    have hw₃ : (s₂.copyFrame e.base f).word = s₂.word := rfl
    have ha₃ : s₂.Alike (s₂.copyFrame e.base f) := ⟨fun _ => rfl, fun _ => rfl, rfl⟩
    have hb₃ : (s₂.copyFrame e.base f).byte =
      Function.update s₂.byte f (s₂.byte e.base) := rfl
    have hu₃ : (s₂.copyFrame e.base f).used = s₂.used := rfl
    generalize s₂.copyFrame e.base f = s₃ at h hpde₃ hw₃ ha₃ hb₃ hu₃
    obtain ⟨hw₄, ha₄, -⟩ := setPte_spec (e := .zero) hpde₃
    have hu₄ : (s₃.setPte p mmTmpPage .zero).used = s₃.used := rfl
    have hb₄ : (s₃.setPte p mmTmpPage .zero).byte = s₃.byte := rfl
    generalize s₃.setPte p mmTmpPage .zero = s₄ at h hw₄ ha₄ hu₄ hb₄
    obtain ⟨hw₅, ha₅, hu₅, -, -, hb₅⟩ := mmMapFrame_spec h
    refine .inr ⟨f, e.base, e.us, hyes, ?_, ?_, ?_, ?_, fun hne => ?_⟩
    · refine (htakes.keep hu₂).keep fun g hg => ?_
      rw [hu₅ g hg, hu₄, hu₃]
    · exact ha₁.trans (ha₂.trans (ha₃.trans (ha₄.trans ha₅)))
    · rw [hb₅, hb₄, hb₃, hb₂, hb₁]
    · rw [hw₅, hw₄, hw₃, hw₂, setWord_setWord]
      cases e.us <;> rfl
    · rw [← hpage₂ hne]
      exact ⟨rfl, rfl⟩

theorem palloc_spec (h : s.palloc p = some u) :
    (s.word p (s.procs p).nextEmptyPage).p = false ∧ UserPage (s.procs p).nextEmptyPage ∧
      s.Alike u ∧ s.KeepsUser u ∧ u.byte = s.byte ∧
      u.word = setWord s.word p (s.procs p).nextEmptyPage
        { s.word p (s.procs p).nextEmptyPage with rw := true } := by
  rw [palloc] at h
  generalize (s.procs p).nextEmptyPage = page at h ⊢
  generalize hs₁ : s.setPcb p { s.procs p with nextEmptyPage := page + 1 } = s₁ at h
  have hpcb : ∀ q, (s₁.procs q).live = (s.procs q).live ∧
      (s₁.procs q).privilegeLevel = (s.procs q).privilegeLevel ∧
      (s₁.procs q).dir = (s.procs q).dir := by
    intro q
    rw [← hs₁]
    by_cases hq : q = p
    · rw [hq, setPcb_self]
      exact ⟨rfl, rfl, rfl⟩
    · rw [setPcb_of_ne hq]
      exact ⟨rfl, rfl, rfl⟩
  have hw₁ : s₁.word = s.word := by
    funext q
    exact word_congr (hpcb q).2.2
  have ha₁ : s.Alike s₁ := ⟨fun q => (hpcb q).1, fun q => (hpcb q).2.1, by rw [← hs₁]; rfl⟩
  have hu₁ : s.KeepsUser s₁ := fun f _ => by rw [← hs₁]; rfl
  have hb₁ : s₁.byte = s.byte := by rw [← hs₁]; rfl
  have hset : s₁.mmSetPtEntry page { s.word p page with rw := true } p = some u := by
    rw [setAsRequested] at h
    rw [← hw₁, word]
    split at h
    next hnone =>
      rw [hnone]
      exact h
    next e he =>
      rw [he]
      exact h
  obtain ⟨hp, hw, ha, hu, hpage, hb⟩ := mmSetPtEntry_spec hset
  exact ⟨hp, ⟨le_of_pdEntryFor hpage, page.isLt⟩, ha₁.trans ha,
    fun f hf => (hu f hf).trans (hu₁ f hf), hb.trans hb₁, by rw [hw, hw₁]⟩

/-- A page that is present is marked, and one that was requested is allocated too. -/
theorem mmSharePage_spec {result : Int} (h : s.mmSharePage page p = some (result, u)) :
    (result = -1 ∧ u = s) ∨
    (result = 0 ∧ (s.word p page).p = true ∧ s.Alike u ∧ u.used = s.used ∧ u.byte = s.byte ∧
      u.word = setWord s.word p page { s.word p page with shared := true }) ∨
    ∃ f, result = 0 ∧ (s.word p page).p = false ∧ (s.word p page).rw = true ∧ Takes f s u ∧
      s.Alike u ∧ u.byte = s.byte ∧
      u.word = setWord s.word p page { mappedEntry f true with shared := true } := by
  rw [mmSharePage] at h
  split at h
  · cases h
    exact .inl ⟨rfl, rfl⟩
  next e he =>
    have hword : s.word p page = e := by rw [word, he]; rfl
    split at h
    next hp =>
      cases h
      have hne : s.word p page ≠ .zero := by
        intro h0
        rw [hword.symm.trans h0] at hp
        cases hp
      obtain ⟨hw, ha⟩ := modifyPte_spec (g := fun e => { e with shared := true }) hne
      exact .inr (.inl ⟨rfl, hword ▸ hp, ha, rfl, rfl, hw⟩)
    next hp =>
      rw [Bool.not_eq_true] at hp
      split at h
      next hrw =>
        obtain ⟨s₁, h₁, h⟩ := Option.bind_eq_some_iff.1 h
        cases h
        obtain ⟨f, htakes, hw₁, ha₁, hb₁⟩ := mmUserAllocate_spec h₁
        have hpage : s₁.word p page = mappedEntry f true := by rw [hw₁, setWord_self]
        have hne : s₁.word p page ≠ .zero := by
          rw [hpage]
          intro h0
          cases h0
        obtain ⟨hw, ha⟩ := modifyPte_spec (g := fun e => { e with shared := true }) hne
        refine .inr (.inr ⟨f, rfl, hword ▸ hp, hword ▸ hrw, htakes.keep fun _ _ => rfl,
          ha₁.trans ha, hb₁, ?_⟩)
        rw [hw, hpage, hw₁, setWord_setWord]
      next =>
        cases h
        exact .inl ⟨rfl, rfl⟩

/-! ### Stores -/

/-- A store is seen where its frame is mapped and nowhere else. -/
theorem read_store {offset offset' : Nat} {b : Byte} :
    (s.store p page offset b).read q page' offset' =
      if (s.word q page').base = (s.word p page).base ∧ offset' = offset then b
      else s.read q page' offset' := by
  have hword : (s.store p page offset b).word = s.word := rfl
  rw [read, hword, store, fill]
  dsimp only
  split
  next h => rw [h.1, h.2, Function.update_self, Function.update_self]
  next h =>
    by_cases hbase : (s.word q page').base = (s.word p page).base
    · rw [hbase, Function.update_self, Function.update_of_ne fun ho => h ⟨hbase, ho⟩, read, hbase]
    · rw [Function.update_of_ne hbase, read]

/-! ### Exit -/

/-- `mm_dir_free` frees the frame that process `p` has at the page. -/
def FreesPage (s : Mm) (p : Pid) (page g : Nat) : Prop :=
  ((s.procs p).dir.pte page).p = true ∧ ((s.procs p).dir.pte page).base = g ∧
    s.isToBeCopiedOnWriteByOtherProcesses page p = false ∧
    s.sharedWithOtherProcesses page p = false

/-- The bits that `mm_mem_free` finds. -/
def InBitmap (g : Nat) : Prop := 0x100 ≤ g ∧ g < 0x80100

/-- What `mm_dir_free` frees for an entry of the page directory. -/
def FreesTable (s : Mm) (p : Pid) (i g : Nat) : Prop :=
  ∃ t, (s.procs p).dir.pde i = some t ∧
    (g = t ∨ ∃ k < 1024, s.FreesPage p (i * 1024 + k) g)

/-- The frames that go with the address space of process `p`. -/
def Freed (s : Mm) (p : Pid) (g : Nat) : Prop :=
  InBitmap g ∧ (g = (s.procs p).cr3 ∨ ∃ i, 1 ≤ i ∧ i < 1024 ∧ s.FreesTable p i g)

/-- While the pages of process `p` are freed, nothing changes but flags of its own entries. -/
structure Sweeps (p : Pid) (s u : Mm) : Prop where
  others : ∀ q ≠ p, u.procs q = s.procs q
  live : (u.procs p).live = (s.procs p).live
  cr3 : (u.procs p).cr3 = (s.procs p).cr3
  pde : (u.procs p).dir.pde = (s.procs p).dir.pde
  pte : ∀ page, ((u.procs p).dir.pte page).p = ((s.procs p).dir.pte page).p ∧
    ((u.procs p).dir.pte page).base = ((s.procs p).dir.pte page).base
  byte : u.byte = s.byte
  limit : u.limit = s.limit

theorem Sweeps.refl (p : Pid) (s : Mm) : Sweeps p s s :=
  ⟨fun _ _ => rfl, rfl, rfl, rfl, fun _ => ⟨rfl, rfl⟩, rfl, rfl⟩

theorem Sweeps.trans (h : Sweeps p s u) (h' : Sweeps p u t) : Sweeps p s t where
  others q hq := (h'.others q hq).trans (h.others q hq)
  live := h'.live.trans h.live
  cr3 := h'.cr3.trans h.cr3
  pde := h'.pde.trans h.pde
  pte page := ⟨(h'.pte page).1.trans (h.pte page).1, (h'.pte page).2.trans (h.pte page).2⟩
  byte := h'.byte.trans h.byte
  limit := h'.limit.trans h.limit

theorem othersHave_congr {test : MmPage → Bool}
    (h : ∀ q ≠ p, u.procs q = s.procs q) :
    u.othersHave test page p = s.othersHave test page p := by
  rw [othersHave, othersHave]
  congr 1
  funext q
  by_cases hq : q = p
  · simp [hq]
  · rw [entry, entry, h q hq]

theorem Sweeps.freesPage (h : Sweeps p s u) : u.FreesPage p page g ↔ s.FreesPage p page g := by
  rw [FreesPage, FreesPage, (h.pte page).1, (h.pte page).2,
    isToBeCopiedOnWriteByOtherProcesses, sharedWithOtherProcesses, othersHave_congr h.others,
    othersHave_congr h.others]

theorem Sweeps.freesTable (h : Sweeps p s u) : u.FreesTable p i g ↔ s.FreesTable p i g := by
  rw [FreesTable, FreesTable, h.pde]
  simp only [h.freesPage]

theorem free_sweeps (f : Nat) : Sweeps p s (s.free f) := by
  rw [free]
  split <;> exact ⟨fun _ _ => rfl, rfl, rfl, rfl, fun _ => ⟨rfl, rfl⟩, rfl, rfl⟩

theorem free_used (f : Nat) :
    (s.free f).used g = true ↔ s.used g = true ∧ ¬(InBitmap g ∧ g = f) := by
  rw [free]
  split
  next hf =>
    dsimp only
    by_cases hg : g = f
    · subst hg
      rw [Function.update_self]
      simp [InBitmap, hf]
    · rw [Function.update_of_ne hg]
      simp [hg]
  next hf =>
    refine ⟨fun h => ⟨h, ?_⟩, And.left⟩
    rintro ⟨hb, rfl⟩
    exact hf hb

theorem freePage_spec : Sweeps p s (s.freePage p page) ∧ ∀ g,
    (s.freePage p page).used g = true ↔
      s.used g = true ∧ ¬(InBitmap g ∧ s.FreesPage p page g) := by
  rw [freePage]
  split
  next hp =>
    split
    next hcow =>
      have hpcb : (s.modifyPte p page fun e => { e with cor := false, rw := true }).procs p = _ :=
        setPcb_self
      refine ⟨⟨fun q hq => setPcb_of_ne hq, ?_, ?_, ?_, fun page' => ?_, rfl, rfl⟩,
        fun g => ⟨fun h => ⟨h, fun hf => ?_⟩, And.left⟩⟩
      · rw [hpcb]
      · rw [hpcb]
      · rw [hpcb]
      · rw [hpcb]
        dsimp only
        by_cases hpage : page' = page
        · rw [hpage, Function.update_self]
          exact ⟨rfl, rfl⟩
        · rw [Function.update_of_ne hpage]
          exact ⟨rfl, rfl⟩
      · rw [hf.2.2.2.1] at hcow
        cases hcow
    next hcow =>
      rw [Bool.not_eq_true] at hcow
      split
      next hshared =>
        refine ⟨.refl p s, fun g => ⟨fun h => ⟨h, fun hf => ?_⟩, And.left⟩⟩
        rw [hf.2.2.2.2] at hshared
        cases hshared
      next hshared =>
        rw [Bool.not_eq_true] at hshared
        refine ⟨free_sweeps _, fun g => ?_⟩
        rw [free_used]
        refine and_congr_right fun _ => not_congr (and_congr_right fun _ => ?_)
        exact ⟨fun hg => ⟨hp, hg.symm, hcow, hshared⟩, fun h => h.2.1.symm⟩
  next hp => exact ⟨.refl p s, fun g => ⟨fun h => ⟨h, fun hf => hp hf.2.1⟩, And.left⟩⟩

/-- The rounds of a loop over `l`, each of which frees what `F` says. -/
theorem sweep_spec {α : Type} {round : Mm → α → Mm} {F : Mm → α → Nat → Prop}
    (hround : ∀ s x, Sweeps p s (round s x) ∧ ∀ g, (round s x).used g = true ↔
      s.used g = true ∧ ¬(InBitmap g ∧ F s x g))
    (hF : ∀ s u x g, Sweeps p s u → (F u x g ↔ F s x g)) (l : List α) :
    Sweeps p s (l.foldl round s) ∧ ∀ g, (l.foldl round s).used g = true ↔
      s.used g = true ∧ ¬(InBitmap g ∧ ∃ x ∈ l, F s x g) := by
  induction l generalizing s with
  | nil => exact ⟨.refl p s, fun g => by simp⟩
  | cons x l ih =>
    obtain ⟨hs, hu⟩ := hround s x
    obtain ⟨hs', hu'⟩ := ih (s := round s x)
    refine ⟨hs.trans hs', fun g => ?_⟩
    rw [List.foldl_cons, hu', hu]
    simp only [hF _ _ _ g hs, List.mem_cons, exists_eq_or_imp, and_assoc]
    refine and_congr_right fun _ => ?_
    rw [← not_or, ← and_or_left]

theorem freeTable_spec (s : Mm) (i : Nat) : Sweeps p s (s.freeTable p i) ∧ ∀ g,
    (s.freeTable p i).used g = true ↔
      s.used g = true ∧ ¬(InBitmap g ∧ s.FreesTable p i g) := by
  rw [freeTable]
  split
  next hnone =>
    refine ⟨.refl p s, fun g => ⟨fun h => ⟨h, fun hf => ?_⟩, And.left⟩⟩
    obtain ⟨-, t, ht, -⟩ := hf
    rw [hnone] at ht
    cases ht
  next t ht =>
    have hround : ∀ (s : Mm) (k : Nat), Sweeps p s (s.freePage p (i * 1024 + k)) ∧
        ∀ g, (s.freePage p (i * 1024 + k)).used g = true ↔
          s.used g = true ∧ ¬(InBitmap g ∧ s.FreesPage p (i * 1024 + k) g) :=
      fun _ _ => freePage_spec
    obtain ⟨hs, hu⟩ := sweep_spec (s := s) hround (fun _ _ _ _ h => h.freesPage) (List.range 1024)
    refine ⟨hs.trans (free_sweeps t), fun g => ?_⟩
    rw [free_used, hu, and_assoc, ← not_or, ← and_or_left]
    refine and_congr_right fun _ => not_congr (and_congr_right fun _ => ?_)
    simp only [FreesTable, ht, Option.some.injEq, exists_eq_left', List.mem_range]
    exact or_comm

theorem mmDirFree_spec (s : Mm) (p : Pid) : Sweeps p s (s.mmDirFree p) ∧ ∀ g,
    (s.mmDirFree p).used g = true ↔ s.used g = true ∧ ¬s.Freed p g := by
  obtain ⟨hs, hu⟩ := sweep_spec (s := s) (freeTable_spec (p := p))
    (fun _ _ _ _ h => h.freesTable) (List.range' 1 1023)
  refine ⟨hs.trans (free_sweeps _), fun g => ?_⟩
  rw [mmDirFree, free_used, hu, and_assoc, ← not_or, ← and_or_left]
  refine and_congr_right fun _ => not_congr (and_congr_right fun _ => ?_)
  rw [or_comm]
  refine or_congr_right (exists_congr fun i => ?_)
  rw [List.mem_range'_1, and_assoc]

theorem loaderExit_spec (s : Mm) (p : Pid) :
    (∀ q ≠ p, (s.loaderExit p).procs q = s.procs q) ∧
      ((s.loaderExit p).procs p).live = false ∧
      (∀ g, (s.loaderExit p).used g = true ↔ s.used g = true ∧ ¬s.Freed p g) ∧
      (s.loaderExit p).byte = s.byte ∧ (s.loaderExit p).limit = s.limit := by
  obtain ⟨hs, hu⟩ := mmDirFree_spec s p
  have hself : (s.loaderExit p).procs p = { (s.mmDirFree p).procs p with live := false } :=
    setPcb_self
  refine ⟨fun q hq => ?_, by rw [hself], hu, hs.byte, hs.limit⟩
  exact (setPcb_of_ne hq).trans (hs.others q hq)

end

end Mm
end SpuriOS
