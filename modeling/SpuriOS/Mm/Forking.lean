import SpuriOS.Mm.Supply

/-! # What `fork` duplicates

The pages of the father and the point where the child goes on. -/

namespace SpuriOS
open Transition

namespace Mm

/-- The pages from 4 MB on are those of process `father` in state `s`, but for the kernel stack and,
in the father, for `MM_TMP_PAGE`. -/
structure Duplicated (s u : Mm) (father child : Pid) : Prop where
  /-- A page that is present and not shared is to be copied on write. -/
  copied : ∀ page, UserPage page → page ≠ taskKStack → (s.word father page).p = true →
    (s.word father page).shared = false →
    u.word child page = { mappedEntry (s.word father page).base (s.word father page).us with
      cor := true, rw := false } ∧
    (page ≠ mmTmpPage → u.word father page = { s.word father page with cor := true, rw := false })
  /-- A page that is shared stays so. -/
  shared : ∀ page, UserPage page → page ≠ taskKStack → (s.word father page).p = true →
    (s.word father page).shared = true →
    u.word child page = { mappedEntry (s.word father page).base (s.word father page).us with
      shared := true } ∧
    (page ≠ mmTmpPage → u.word father page = s.word father page)
  /-- The entry of a page that is not present is the same. -/
  absent : ∀ page, UserPage page → page ≠ taskKStack → (s.word father page).p = false →
    s.HasTable father (pdEntryFor page) →
    u.HasTable child (pdEntryFor page) ∧ u.word child page = s.word father page
  /-- Without a page table of the father the child has only that of its kernel stack. -/
  noTable : ∀ page, UserPage page → page ≠ taskKStack → ¬s.HasTable father (pdEntryFor page) →
    u.word child page = .zero ∧
      (pdEntryFor page ≠ pdEntryFor taskKStack → ¬u.HasTable child (pdEntryFor page))
  kernelTable : (u.procs child).kernelTable = s.kernelPagetable

section
variable {s u : Mm} {father child : Pid} {page g i : Nat}

/-- The directory of the child, and the rest of its slot. -/
theorem fork_dirs (hlive : (s.procs father).live = true) (h : s.fork father = some (child, u)) :
    (∀ i, u.HasTable child i ↔
      (1 ≤ i ∧ i < 1024 ∧ s.HasTable father i) ∨ i = pdEntryFor taskKStack) ∧
    (u.procs child).kernelTable = s.kernelPagetable ∧ (u.procs child).esp = uInSwitchEsp ∧
    u.taskInit = s.taskInit := by
  rw [fork] at h
  split at h
  · cases h
  simp only [Option.bind_eq_bind, Option.bind_eq_some_iff] at h
  obtain ⟨⟨child', s₁⟩, h₁, s₂, h₂, s₃, h₃, h⟩ := h
  cases h
  dsimp only at h₂ h₃
  have hpcb := newPcb_spec h₁
  have hne : child' ≠ father := by
    rintro rfl
    exact Bool.false_ne_true (hpcb.free.symm.trans hlive)
  simp only [createChildKernelStack, Option.bind_eq_bind, Option.bind_eq_some_iff] at h₃
  obtain ⟨⟨g, s₄⟩, h₄, s₅, h₅, s₆, h₆, h₃⟩ := h₃
  cases h₃
  dsimp only at h₅ h₆
  obtain ⟨hdirs₂, htable₂⟩ := copyNonkernelPages_dirs hne h₂
  obtain ⟨hdirs₄, hprocs₄⟩ := memSeek_onlyDirs h₄
  obtain ⟨hdirs₅, htable₅⟩ := mmMapFrame_dirs h₅
  obtain ⟨hdirs₆, htable₆⟩ := mmMapFrame_dirs h₆
  have hfill : OnlyDirs s₆ (s₆.fill g (pageOf (s₅.childStack father))) :=
    ⟨fun _ => rfl, rfl, rfl, rfl⟩
  have hunmap : OnlyDirs (s₆.fill g (pageOf (s₅.childStack father)))
      ((s₆.fill g (pageOf (s₅.childStack father))).setPte father mmTmpPage .zero) :=
    setPte_onlyDirs
  have hdirs := hdirs₂.trans (hdirs₄.trans (hdirs₅.trans (hdirs₆.trans (hfill.trans hunmap))))
  refine ⟨fun i => ?_, ?_, ?_, hdirs.taskInit.trans hpcb.taskInit⟩
  · have hempty : ¬s₁.HasTable child' i := by
      rw [HasTable, hpcb.dir]
      exact fun hno => hno rfl
    have hfather : s₁.HasTable father i ↔ s.HasTable father i :=
      hasTable_congr (hpcb.others father hne.symm)
    have hfill' : (s₆.fill g (pageOf (s₅.childStack father))).HasTable child' i ↔
      s₆.HasTable child' i := .rfl
    have halloc : s₄.HasTable child' i ↔ s₂.HasTable child' i :=
      hasTable_congr (congrFun hprocs₄ child')
    rw [mmUnmapPage, setPte_hasTable, hfill', htable₆, htable₅, halloc, htable₂, hfather]
    simp [hempty, hne]
  · rw [mmUnmapPage, hdirs.pcb child']
    exact hpcb.kernelTable
  · rw [mmUnmapPage, hdirs.pcb child']
    exact hpcb.esp

theorem Forked.duplicated (hf : Forked s u father child g)
    (htable : ∀ i, u.HasTable child i ↔
      (1 ≤ i ∧ i < 1024 ∧ s.HasTable father i) ∨ i = pdEntryFor taskKStack)
    (hkernel : (u.procs child).kernelTable = s.kernelPagetable) : Duplicated s u father child := by
  have hchild : ∀ page, UserPage page → page ≠ taskKStack →
      u.word child page = childWord page (s.word father page) := by
    intro page huser hstack
    rw [hf.ofChild, if_neg hstack, if_pos huser]
  have hfather : ∀ page, UserPage page → page ≠ mmTmpPage →
      u.word father page = fatherWord page (s.word father page) := by
    intro page huser htmp
    rw [hf.ofFather, if_neg htmp, if_pos huser]
  have hentry : ∀ page, UserPage page → 1 ≤ pdEntryFor page ∧ pdEntryFor page < 1024 := by
    rintro page ⟨hlo, hhi⟩
    have hcount : pageCount = 0x100000 := rfl
    rw [pdEntryFor]
    omega
  constructor
  case copied =>
    intro page huser hstack hp hshared
    have hshared' : ¬(s.word father page).shared = true := by rw [hshared]; exact Bool.false_ne_true
    refine ⟨?_, fun htmp => ?_⟩
    · rw [hchild page huser hstack, childWord, if_pos hp, if_neg hstack, if_neg hshared']
    · rw [hfather page huser htmp, fatherWord, if_pos ⟨hp, hstack, hshared'⟩]
  case shared =>
    intro page huser hstack hp hshared
    refine ⟨?_, fun htmp => ?_⟩
    · rw [hchild page huser hstack, childWord, if_pos hp, if_neg hstack, if_pos hshared]
    · rw [hfather page huser htmp, fatherWord, if_neg fun hc => hc.2.2 hshared]
  case absent =>
    intro page huser hstack hp hfatherTable
    have hp' : ¬(s.word father page).p = true := by rw [hp]; exact Bool.false_ne_true
    refine ⟨(htable _).2 (.inl ⟨(hentry page huser).1, (hentry page huser).2, hfatherTable⟩), ?_⟩
    rw [hchild page huser hstack, childWord, if_neg hp']
  case noTable =>
    intro page huser hstack hno
    have hzero : s.word father page = .zero := word_of_no_pde (Decidable.not_not.1 hno)
    refine ⟨by rw [hchild page huser hstack, hzero, childWord_zero], fun hother hchildTable => ?_⟩
    exact ((htable _).1 hchildTable).elim (fun hc => hno hc.2.2) hother
  case kernelTable => exact hkernel

/-- The child goes on where its father called, with 0. -/
theorem Forked.taskSwitch (hf : Forked s u father child g)
    (hesp : (u.procs child).esp = uInSwitchEsp) (htask : u.taskInit = s.taskInit) :
    ∃ c, u.taskSwitch child = some c ∧ c.eax = 0 ∧
      c.eip = s.kernelStack father (stackTop - 4) ∧
      c.eflags = s.kernelStack father (stackTop - 2) ∧
      c.esp = s.kernelStack father (stackTop - 1) ∧
      c.cs = ssUCode ||| plUser ∧ c.ss = ssUData ||| plUser := by
  have hbase : (u.word child taskKStack).base = g := by
    rw [hf.ofChild, if_pos rfl]
    rfl
  have hpage : u.byte g = pageOf (s.childStack father) := by rw [hf.byte, Function.update_self]
  have hword : ∀ i, u.kernelStack child i = s.childStack father i := by
    intro i
    rw [kernelStack, hbase, hpage]
    refine wordAt_pageOf ?_
    have hlt : ∀ j, s.kernelStack father j < 2 ^ 32 := wordAt_lt _
    have htask := s.taskInit.toNat_lt
    simp only [childStack, createUserStack, Function.update_apply]
    split_ifs <;> first | exact hlt _ | exact htask | decide
  have hresume : u.taskSwitch child =
      resume s.taskInit.toNat (s.childStack father) uInSwitchEsp := by
    rw [Mm.taskSwitch, hesp, htask, funext hword]
  exact ⟨_, hresume.trans resume_createUserStack, rfl, rfl, rfl, rfl, rfl, rfl⟩

/-- `fork` in a process of user level, with a free slot and enough frames: the child has the pages
of its father, and goes on where the call returns. It gets 0 there, and the father its number. -/
theorem fork_duplicates (hlive : (s.procs father).live = true)
    (hlevel : (s.procs father).privilegeLevel = .user)
    (hslot : ∃ p < maxPid, (s.procs p).live = false)
    (hsupply : s.Supply (s.tableCount father 1 + 3) 1) :
    ∃ child c u, s.sysFork father = some (c, u) ∧ c.eax = child ∧
      (s.procs child).live = false ∧ (u.procs child).live = true ∧ Duplicated s u father child ∧
      ∃ c', u.taskSwitch child = some c' ∧ c'.eax = 0 ∧
        c'.eip = s.kernelStack father (stackTop - 4) ∧
        c'.eflags = s.kernelStack father (stackTop - 2) ∧
        c'.esp = s.kernelStack father (stackTop - 1) := by
  obtain ⟨child, u, h, -⟩ := fork_total (k := 0) (n := 0) hlive hlevel hslot
    (hsupply.mono (by omega) (Nat.le_refl 1))
  obtain ⟨g, hf⟩ := fork_spec hlive h
  obtain ⟨htable, hkernel, hesp, htask⟩ := fork_dirs hlive h
  obtain ⟨c', hc', heax, heip, heflags, hespUser, -⟩ := hf.taskSwitch hesp htask
  exact ⟨child, _, u, by rw [sysFork, h]; rfl, rfl, hf.free, (hf.live child).2 (.inr rfl),
    hf.duplicated htable hkernel, c', hc', heax, heip, heflags, hespUser⟩

end

theorem fork_duplicates_task : ∃ (s u : Mm) (child : Pid) (c : Context),
    (s.word 1 userMemoryStart).p = true ∧ s.sysFork 1 = some (c, u) ∧ c.eax = child ∧
    Duplicated s u 1 child := by
  have hrun : ((boot.loaderLoad idlePid (smallImage 0x400000) .user).map fun r =>
      (((r.2.procs 1).live, (r.2.procs 1).privilegeLevel, (r.2.procs 2).live),
        (r.2.freeFrames 0x100 0x400, r.2.freeFrames 0x400 r.2.limit, r.2.tableCount 1 1),
        (r.2.word 1 userMemoryStart).p)) =
      some ((true, .user, false), (762, 13, 2), true) := by
    decide +kernel
  obtain ⟨⟨pid, s⟩, -, h⟩ := Option.map_eq_some_iff.1 hrun
  simp only [Prod.mk.injEq] at h
  obtain ⟨⟨hlive, hlevel, hfree⟩, ⟨hkernel, huser, hcount⟩, hp⟩ := h
  obtain ⟨child, c, u, hfork, heax, -, -, hdup, -⟩ := fork_duplicates hlive hlevel
    ⟨2, by decide, hfree⟩ ⟨by rw [hkernel, hcount]; decide, by rw [huser]; decide⟩
  exact ⟨s, u, child, c, hp, hfork, heax, hdup⟩

/-- A task linked at `MM_TMP_PAGE` forks, and loses its page. -/
theorem tmp_page_unmapped : ∃ (s u : Mm) (child : Pid),
    Reach (mmSystem fun _ => false) anyStep s ∧ s.fork 1 = some (child, u) ∧
    UserPage mmTmpPage ∧ mmTmpPage ≠ taskKStack ∧
    (s.word 1 mmTmpPage).p = true ∧ (s.word 1 mmTmpPage).shared = false ∧
    (u.word 1 mmTmpPage).p = false := by
  have hrun : ((boot.loaderLoad idlePid (smallImage 0xff800000) .user).map fun r =>
      (((r.2.procs 1).live, (r.2.procs 1).privilegeLevel, (r.2.procs 2).live),
        (r.2.freeFrames 0x100 0x400, r.2.freeFrames 0x400 r.2.limit, r.2.tableCount 1 1),
        (r.2.word 1 mmTmpPage).p, (r.2.word 1 mmTmpPage).shared)) =
      some ((true, .user, false), (762, 13, 2), true, false) := by
    decide +kernel
  obtain ⟨⟨pid, s⟩, hload, h⟩ := Option.map_eq_some_iff.1 hrun
  simp only [Prod.mk.injEq] at h
  obtain ⟨⟨hlive, hlevel, hfree⟩, ⟨hkernel, huser, hcount⟩, hp, hshared⟩ := h
  obtain ⟨child, u, hfork, -⟩ := fork_total (k := 0) (n := 0) hlive hlevel ⟨2, by decide, hfree⟩
    ⟨by rw [hkernel, hcount]; decide, by rw [huser]; decide⟩
  obtain ⟨g, hf⟩ := fork_spec hlive hfork
  refine ⟨s, u, child, .step (.init boot_initial) trivial (.load rfl hload), hfork,
    ⟨by decide, by decide⟩, by decide, hp, hshared, ?_⟩
  rw [hf.ofFather, if_pos rfl]
  rfl

end Mm
end SpuriOS
