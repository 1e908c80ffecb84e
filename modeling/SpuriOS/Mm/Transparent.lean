import SpuriOS.Mm.Images
import SpuriOS.Mm.Shared

/-! # What a process does not notice

The kernel changes the entries of a process behind its back: `loader_load` maps frames at
`USER_MEMORY_START` of its caller, and `mm_copy_on_write` exchanges the frame of a page. -/

namespace SpuriOS
open Transition

namespace Mm

/-- The page of process `p`, to which it may write now, is its own, and nothing else changed for
anybody. -/
structure Transparent (s u : Mm) (p : Pid) (page : Nat) : Prop where
  bytes : ∀ k, u.read p page k = s.read p page k
  entry : (u.word p page).p = true ∧ (u.word p page).rw = true ∧ (u.word p page).cor = false ∧
    (u.word p page).us = (s.word p page).us
  alone : ∀ q page', u.Maps q page' (u.word p page).base → q = p ∧ page' = page
  others : ∀ q ≠ p, u.word q = s.word q
  othersRead : ∀ q ≠ p, ∀ page' k, (s.procs q).live = true → (s.word q page').p = true →
    u.read q page' k = s.read q page' k
  pages : ∀ page' k, page' ≠ page → (s.word p page').p = true →
    u.word p page' = s.word p page' ∧ u.read p page' k = s.read p page' k
  tmp : (u.word p mmTmpPage).p = false

section
variable {s u : Mm} {p cur pid : Pid} {page : Nat} {f : Image} {pl : Privilege}

theorem entry_eq_iff (htable : ∀ i, u.HasTable p i ↔ s.HasTable p i) :
    u.entry p page = s.entry p page ↔ u.word p page = s.word p page := by
  constructor
  · intro h
    rw [word, word, h]
  · intro h
    by_cases ht : s.HasTable p (pdEntryFor page)
    · rw [entry_of_pde ht, entry_of_pde ((htable _).2 ht), h]
    · have ht' : ¬u.HasTable p (pdEntryFor page) := fun hc => ht ((htable _).1 hc)
      have hnone : ∀ {t : Mm}, ¬t.HasTable p (pdEntryFor page) → t.entry p page = none := by
        intro t ht
        rw [entry, mmPtEntryFor, Decidable.not_not.1 ht]
        rfl
      rw [hnone ht, hnone ht']

/-- A process of user level that loads another one: its page at `USER_MEMORY_START` comes back with
its frame, and with the attributes of a page that is neither shared nor to be copied, and that was
not accessed yet. -/
theorem loaderLoad_restores_iff (hlive : (s.procs cur).live = true) (hidle : cur ≠ idlePid)
    (hlevel : (s.procs cur).privilegeLevel = .user) (hp : (s.word cur userMemoryStart).p = true)
    (h : s.loaderLoad cur f pl = some (pid, u)) :
    (∀ page, u.entry cur page = s.entry cur page) ↔
      (s.word cur userMemoryStart).rw = true ∧ (s.word cur userMemoryStart).us = true ∧
      (s.word cur userMemoryStart).accessed = false ∧ (s.word cur userMemoryStart).dirty = false ∧
      (s.word cur userMemoryStart).shared = false ∧ (s.word cur userMemoryStart).cor = false := by
  obtain ⟨-, -, hne, hload, htemp⟩ := loaderLoad_spec hlive h
  have htable : ∀ i, u.HasTable cur i ↔ s.HasTable cur i := by
    intro i
    rw [loaderLoad_caller hlive h]
    refine ⟨fun hc => hc.elim id ?_, .inl⟩
    rintro rfl
    exact pde_of_word fun h0 => Bool.false_ne_true (by rw [h0] at hp; exact hp)
  have hsame : (∀ page, u.entry cur page = s.entry cur page) ↔
      u.word cur userMemoryStart = s.word cur userMemoryStart := by
    refine ⟨fun hc => (entry_eq_iff htable).1 (hc _), fun hc page => (entry_eq_iff htable).2 ?_⟩
    by_cases hpage : page = userMemoryStart
    · rw [hpage, hc]
    · exact hload.others cur page hne.symm fun _ => hpage
  rw [hsame, htemp, if_neg hidle, hlevel]
  generalize s.word cur userMemoryStart = e at hp
  obtain ⟨p, rw, us, accessed, dirty, shared, cor, base⟩ := e
  simp only [mappedEntry, MmPage.mk.injEq, decide_true, and_true]
  constructor
  · rintro ⟨-, rfl, rfl, rfl, rfl, rfl, rfl⟩
    exact ⟨rfl, rfl, rfl, rfl, rfl, rfl⟩
  · rintro ⟨rfl, rfl, rfl, rfl, rfl, rfl⟩
    exact ⟨hp.symm, rfl, rfl, rfl, rfl, rfl, rfl⟩

/-- A task without children loads another one. -/
theorem loaderLoad_restores_task : ∃ (s u : Mm) (pid : Pid),
    s.loaderLoad 1 (smallImage 0x400000) .user = some (pid, u) ∧
    ∀ page, u.entry 1 page = s.entry 1 page := by
  obtain ⟨s, -, -, -, hlive, hlevel, hword, -, -, hsupply, hfree, -⟩ := task_loaded
  have htable : s.HasTable 1 (pdEntryFor userMemoryStart) :=
    pde_of_word (by rw [hword]; nofun)
  obtain ⟨pid, u, h, -⟩ := loaderLoad_total (k := 0) (n := 0) (f := smallImage 0x400000) .user
    (.inr htable) ⟨2, by decide, hfree⟩ rfl (by decide) (hsupply.mono (by decide) (by decide))
  refine ⟨s, u, pid, h, (loaderLoad_restores_iff hlive (by decide) hlevel ?_ h).2 ?_⟩
  · rw [hword]
    rfl
  · rw [hword]
    exact ⟨rfl, rfl, rfl, rfl, rfl, rfl⟩

/-- A task that has forked loads another one, and may write again to the page that its child has as
well. -/
theorem forked_page_writable : ∃ (s u : Mm) (pid : Pid),
    Reach (mmSystem fun _ => false) anyStep s ∧ (s.procs 1).live = true ∧
    (s.procs 1).privilegeLevel = .user ∧ (s.word 1 userMemoryStart).p = true ∧
    s.loaderLoad 1 (smallImage 0x400000) .user = some (pid, u) ∧
    u.entry 1 userMemoryStart ≠ s.entry 1 userMemoryStart := by
  obtain ⟨s₀, child, s, hload, hlive, hlevel, hword, hfork, hsupply, -, hfree, hfree'⟩ :=
    task_loaded
  obtain ⟨g, hf⟩ := fork_spec hlive hfork
  have hfather : s.word 1 userMemoryStart =
      { mappedEntry 0x402 true with cor := true, rw := false } := by
    rw [hf.ofFather, hword]
    rfl
  have hreach : Reach (mmSystem fun _ => false) anyStep s :=
    .step (.step (.init boot_initial) trivial hload) trivial (.fork hlive (by decide) hfork)
  have hlive' : (s.procs 1).live = true := (hf.live 1).2 (.inl hlive)
  have hlevel' : (s.procs 1).privilegeLevel = .user := (hf.level 1 hf.ne.symm).trans hlevel
  have hdead : ∀ p, (s₀.procs p).live = false → p ≠ child → (s.procs p).live = false := by
    intro p hp hpc
    rw [← Bool.not_eq_true, hf.live, hp]
    exact fun hc => hc.elim Bool.false_ne_true hpc
  have hslot : ∃ p < maxPid, (s.procs p).live = false := by
    rcases eq_or_ne 2 child with rfl | hne
    · exact ⟨3, by decide, hdead 3 hfree' (by decide)⟩
    · exact ⟨2, by decide, hdead 2 hfree hne⟩
  have htable : s.HasTable 1 (pdEntryFor userMemoryStart) :=
    pde_of_word (by rw [hfather]; nofun)
  obtain ⟨pid, u, h, -⟩ := loaderLoad_total (k := 0) (n := 0) (f := smallImage 0x400000) .user
    (.inr htable) hslot rfl (by decide) (hsupply.mono (by decide) (by decide))
  obtain ⟨-, -, -, -, htemp⟩ := loaderLoad_spec hlive' h
  refine ⟨s, u, pid, hreach, hlive', hlevel', by rw [hfather]; rfl, h, fun hsame => ?_⟩
  have hsame' : u.word 1 userMemoryStart = s.word 1 userMemoryStart := by rw [word, hsame, word]
  rw [htemp, if_neg (by decide), hfather] at hsame'
  cases congrArg MmPage.rw hsame'

/-- A page that is to be copied on write and the first store to it, in a process without a page of
its own at `MM_TMP_PAGE`, with the frames that are needed. -/
theorem copy_on_write_transparent (hb : s.Backed) (hlive : (s.procs p).live = true)
    (huser : UserPage page) (hp : (s.word p page).p = true)
    (hcow : (s.word p page).rw = false ∧ (s.word p page).cor = true)
    (htmp : (s.word p mmTmpPage).p = false)
    (hframes : s.isToBeCopiedOnWriteByOtherProcesses page p = true → s.Affords p mmTmpPage 0 1) :
    ∃ u, s.mmCopyOnWrite page p = some u ∧ Transparent s u p page := by
  have hword : s.word p page ≠ .zero := by
    intro h0
    rw [h0] at hp
    cases hp
  have hne : page ≠ mmTmpPage := by
    rintro rfl
    exact Bool.false_ne_true (htmp.symm.trans hp)
  have hpage : pdEntryFor page ≠ 0 := by
    have hlo := huser.1
    rw [pdEntryFor]
    omega
  obtain ⟨u, hu⟩ := mmCopyOnWrite_total hpage hframes hword
  refine ⟨u, hu, ?_⟩
  obtain ⟨hno, -, halike, hbyte, hw⟩ | ⟨g, g', us, hyes, htakes, halike, hbyte, hw, hsame⟩ :=
    mmCopyOnWrite_spec hu hword
  · -- nobody else has something at the page, so nobody has the frame
    have hself : u.word p page = { s.word p page with rw := true, cor := false } := by
      rw [hw, setWord_self]
    have hread : ∀ q page' k, (u.word q page').base = (s.word q page').base →
        u.read q page' k = s.read q page' k := by
      intro q page' k hbase
      rw [read, read, hbyte, hbase]
    constructor
    case bytes =>
      intro k
      exact hread p page k (by rw [hself])
    case entry =>
      rw [hself]
      exact ⟨hp, rfl, rfl, rfl⟩
    case alone =>
      rintro q page' ⟨hq, hqp, hbase⟩
      rw [halike.live] at hq
      rw [hself] at hbase
      rcases eq_or_ne q p with rfl | hqne
      · refine ⟨rfl, ?_⟩
        by_contra hpage'
        rw [hw, setWord_of_page hpage'] at hqp hbase
        exact hpage' (hb.same q q page' page _ ⟨hq, hqp, hbase⟩ ⟨hlive, hp, rfl⟩)
      · rw [hw, setWord_of_proc hqne] at hqp hbase
        obtain rfl := hb.same q p page' page _ ⟨hq, hqp, hbase⟩ ⟨hlive, hp, rfl⟩
        refine absurd ?_ (Bool.eq_false_iff.1 hno)
        exact (othersHave_iff rfl).2 ⟨q, hb.lt q hq, hq, hqne, by rw [hqp]; rfl⟩
    case others =>
      intro q hq
      funext page'
      rw [hw, setWord_of_proc hq]
    case othersRead =>
      intro q hq page' k _ _
      exact hread q page' k (by rw [hw, setWord_of_proc hq])
    case pages =>
      intro page' k hpage' _
      have hpage : u.word p page' = s.word p page' := by rw [hw, setWord_of_page hpage']
      exact ⟨hpage, hread p page' k (by rw [hpage])⟩
    case tmp => rw [hw, setWord_of_page hne.symm, htmp]
  · obtain ⟨rfl, rfl⟩ := hsame hne
    have hself : u.word p page = mappedEntry g (s.word p page).us := by rw [hw, setWord_self]
    -- the frame of the copy was nobody's
    have hfresh : ∀ q page', (s.procs q).live = true → (s.word q page').p = true →
        (s.word q page').base ≠ g := by
      rintro q page' hq hqp rfl
      exact hb.not_maps htakes.free ⟨hq, hqp, rfl⟩
    have hread : ∀ q page' k, (s.procs q).live = true → (s.word q page').p = true →
        u.word q page' = s.word q page' → u.read q page' k = s.read q page' k := by
      intro q page' k hq hqp hsame
      rw [read, read, hbyte, hsame, Function.update_of_ne (hfresh q page' hq hqp)]
    constructor
    case bytes =>
      intro k
      rw [read, read, hself, hbyte]
      exact congrFun (Function.update_self ..) k
    case entry =>
      rw [hself]
      exact ⟨rfl, rfl, rfl, rfl⟩
    case alone =>
      rintro q page' ⟨hq, hqp, hbase⟩
      rw [halike.live] at hq
      rw [hself] at hbase
      have hbase : (u.word q page').base = g := hbase
      rcases eq_or_ne q p with rfl | hqne
      · refine ⟨rfl, ?_⟩
        by_contra hpage'
        rw [hw, setWord_of_page hpage'] at hqp hbase
        by_cases hpageTmp : page' = mmTmpPage
        · rw [hpageTmp, setWord_self] at hqp
          cases hqp
        · rw [setWord_of_page hpageTmp] at hqp hbase
          exact hfresh q page' hq hqp hbase
      · rw [hw, setWord_of_proc hqne, setWord_of_proc hqne] at hqp hbase
        exact absurd hbase (hfresh q page' hq hqp)
    case others =>
      intro q hq
      funext page'
      rw [hw, setWord_of_proc hq, setWord_of_proc hq]
    case othersRead =>
      intro q hq page' k hlive' hqp
      exact hread q page' k hlive' hqp (by rw [hw, setWord_of_proc hq, setWord_of_proc hq])
    case pages =>
      intro page' k hpage' hp'
      have hpageTmp : page' ≠ mmTmpPage := by
        rintro rfl
        exact Bool.false_ne_true (htmp.symm.trans hp')
      have hpage : u.word p page' = s.word p page' := by
        rw [hw, setWord_of_page hpage', setWord_of_page hpageTmp]
      exact ⟨hpage, hread p page' k hlive hp' hpage⟩
    case tmp =>
      rw [hw, setWord_of_page hne.symm, setWord_self]
      rfl

end

/-- A task that has forked stores to its page. -/
theorem copy_on_write_transparent_task : ∃ s u : Mm, (s.word 1 userMemoryStart).cor = true ∧
    s.mmCopyOnWrite userMemoryStart 1 = some u ∧ Transparent s u 1 userMemoryStart := by
  obtain ⟨s₀, child, s, hload, hlive, -, hword, hfork, hsupply, -⟩ := task_loaded
  obtain ⟨g, hf⟩ := fork_spec hlive hfork
  have hfather : s.word 1 userMemoryStart =
      { mappedEntry 0x402 true with cor := true, rw := false } := by
    rw [hf.ofFather, hword]
    rfl
  have hidle : boot.LoadsOverPage (.load idlePid (smallImage 0x400000) .user) := .inl rfl
  have hreach : Reach (mmSystem fun _ => false) LoadsOverPage s :=
    .step (.step (.init boot_initial) hidle hload) (show s₀.LoadsOverPage (.fork 1) from trivial)
      (.fork hlive (by decide) hfork)
  have hpage : UserPage userMemoryStart := by decide
  obtain ⟨u, hu, htransparent⟩ := copy_on_write_transparent (owned hreach).2
    ((hf.live 1).2 (.inl hlive)) hpage (by rw [hfather]; rfl) (by rw [hfather]; exact ⟨rfl, rfl⟩)
    (by rw [hf.ofFather, if_pos rfl]; rfl)
    fun _ => .inr (hsupply.mono (by decide) (by decide))
  exact ⟨s, u, by rw [hfather], hu, htransparent⟩

/-- The child of a task with a page at `MM_TMP_PAGE` loses that page with the first store to
another one. -/
theorem tmp_page_lost : ∃ (s u : Mm) (child : Pid) (page : Nat),
    Reach (mmSystem fun _ => false) LoadsOverPage s ∧ (s.procs child).live = true ∧
    UserPage page ∧ (s.word child page).p = true ∧ (s.word child page).rw = false ∧
    (s.word child page).cor = true ∧ s.Supply 1 1 ∧ s.mmCopyOnWrite page child = some u ∧
    ¬Transparent s u child page := by
  let img : Image := ⟨0xff800000, 0xff802000, 0xff802000, fun _ => 0x90⟩
  have hrun : ((boot.loaderLoad idlePid img .user).map fun r =>
      (((r.2.procs 1).live, (r.2.procs 1).privilegeLevel, (r.2.procs 2).live),
        (r.2.freeFrames 0x100 0x400, r.2.freeFrames 0x400 r.2.limit, r.2.tableCount 1 1),
        r.2.word 1 mmTmpPage, r.2.word 1 (mmTmpPage + 1))) =
      some ((true, .user, false), (762, 12, 2), mappedEntry 0x402 true,
        mappedEntry 0x403 true) := by
    decide +kernel
  obtain ⟨⟨pid, s₀⟩, hload, h⟩ := Option.map_eq_some_iff.1 hrun
  simp only [Prod.mk.injEq] at h
  obtain ⟨⟨hlive, hlevel, hfree⟩, ⟨hkernel, huser, hcount⟩, htmp, hnext⟩ := h
  obtain ⟨child, s, hfork, hsupply⟩ := fork_total (k := 1) (n := 1) hlive hlevel
    ⟨2, by decide, hfree⟩ ⟨by rw [hkernel, hcount]; decide, by rw [huser]; decide⟩
  obtain ⟨g, hf⟩ := fork_spec hlive hfork
  have hidle : boot.LoadsOverPage (.load idlePid img .user) := .inl rfl
  have hreach : Reach (mmSystem fun _ => false) LoadsOverPage s :=
    .step (.step (.init boot_initial) hidle (.load rfl hload))
      (show s₀.LoadsOverPage (.fork 1) from trivial) (.fork hlive (by decide) hfork)
  have hpage : s.word child (mmTmpPage + 1) =
      { mappedEntry 0x403 true with cor := true, rw := false } := by
    rw [hf.ofChild, hnext]
    rfl
  have htmp' : (s.word child mmTmpPage).p = true := by
    rw [hf.ofChild, htmp]
    rfl
  -- the father has the page as well, so it is copied
  have hcopy : s.isToBeCopiedOnWriteByOtherProcesses (mmTmpPage + 1) child = true := by
    refine (othersHave_iff rfl).2 ⟨1, by decide, (hf.live 1).2 (.inl hlive), hf.ne.symm, ?_⟩
    rw [hf.ofFather, hnext]
    rfl
  have hword : s.word child (mmTmpPage + 1) ≠ .zero := by
    rw [hpage]
    nofun
  obtain ⟨u, hu⟩ := mmCopyOnWrite_total (by decide) (fun _ => .inr hsupply) hword
  refine ⟨s, u, child, mmTmpPage + 1, hreach, (hf.live child).2 (.inr rfl), by decide,
    by rw [hpage]; rfl, by rw [hpage], by rw [hpage], hsupply, hu, fun ht => ?_⟩
  obtain ⟨hno, -⟩ | ⟨f, g', us, -, -, -, -, hw, -⟩ := mmCopyOnWrite_spec hu hword
  · exact Bool.false_ne_true (hno.symm.trans hcopy)
  · have hlost := (ht.pages mmTmpPage 0 (by decide) htmp').1
    rw [hw, setWord_of_page (by decide), setWord_self] at hlost
    rw [← hlost] at htmp'
    cases htmp'

end Mm
end SpuriOS
