import SpuriOS.Lib.Loop
import SpuriOS.Mm.Entries

/-! # What the calls do to the page directories

Which page tables there are after a call, and that it touches nothing else of a process. -/

namespace SpuriOS
namespace Mm

/-- Entry `i` of the page directory of a process is present. -/
def HasTable (s : Mm) (p : Pid) (i : Nat) : Prop := (s.procs p).dir.pde i ≠ none

/-- Of the processes nothing but their directories and tables may differ. -/
structure OnlyDirs (s u : Mm) : Prop where
  pcb : ∀ q, u.procs q = { s.procs q with dir := (u.procs q).dir }
  limit : u.limit = s.limit
  kernelPagetable : u.kernelPagetable = s.kernelPagetable
  taskInit : u.taskInit = s.taskInit

section
variable {s u t : Mm} {p q father child : Pid} {page f i j n : Nat} {e : MmPage} {pl : Privilege}

theorem OnlyDirs.refl (s : Mm) : OnlyDirs s s := ⟨fun _ => rfl, rfl, rfl, rfl⟩

theorem OnlyDirs.trans (h : OnlyDirs s u) (h' : OnlyDirs u t) : OnlyDirs s t where
  pcb q := by rw [h'.pcb q, h.pcb q]
  limit := h'.limit.trans h.limit
  kernelPagetable := h'.kernelPagetable.trans h.kernelPagetable
  taskInit := h'.taskInit.trans h.taskInit

theorem setPcb_onlyDirs {d : PageDir} : OnlyDirs s (s.setPcb p { s.procs p with dir := d }) where
  pcb q := by
    rcases eq_or_ne q p with rfl | hq
    · rw [setPcb_self]
    · rw [setPcb_of_ne hq]
  limit := rfl
  kernelPagetable := rfl
  taskInit := rfl

theorem setPte_onlyDirs : OnlyDirs s (s.setPte p page e) := setPcb_onlyDirs

@[simp] theorem setPte_hasTable : (s.setPte p page e).HasTable q i ↔ s.HasTable q i := by
  rw [HasTable, HasTable, setPte]
  rcases eq_or_ne q p with rfl | hq
  · rw [setPcb_self]
  · rw [setPcb_of_ne hq]

theorem memSeek_onlyDirs {lo hi : Nat} (h : s.memSeek lo hi = some (f, u)) :
    OnlyDirs s u ∧ u.procs = s.procs := by
  obtain ⟨-, -, -, rfl⟩ := memSeek_spec h
  exact ⟨⟨fun _ => rfl, rfl, rfl, rfl⟩, rfl⟩

theorem hasTable_congr (h : u.procs q = s.procs q) : u.HasTable q i ↔ s.HasTable q i := by
  rw [HasTable, HasTable, h]

/-- A table is added if it is missing. -/
theorem needTable_dirs (h : s.needTable p page = some u) :
    OnlyDirs s u ∧ ∀ q i, u.HasTable q i ↔ s.HasTable q i ∨ (q = p ∧ i = pdEntryFor page) := by
  rw [needTable] at h
  split at h
  · cases h
  · split at h
    next t ht =>
      cases h
      refine ⟨.refl s, fun q i => ⟨.inl, ?_⟩⟩
      rintro (h | ⟨rfl, rfl⟩)
      · exact h
      · rw [HasTable, ht]
        exact Option.some_ne_none t
    next hnone =>
      obtain ⟨⟨t, s₁⟩, hk, rfl⟩ := Option.map_eq_some_iff.1 h
      obtain ⟨hdirs, hprocs⟩ := memSeek_onlyDirs hk
      refine ⟨hdirs.trans setPcb_onlyDirs, fun q i => ?_⟩
      rw [HasTable, HasTable, addTable, ← hprocs]
      rcases eq_or_ne q p with rfl | hq
      · rw [setPcb_self]
        dsimp only
        rcases eq_or_ne i (pdEntryFor page) with rfl | hi
        · rw [Function.update_self]
          simp
        · rw [Function.update_of_ne hi]
          simp [hi]
      · rw [setPcb_of_ne hq]
        simp [hq]

theorem mmMapFrame_dirs (h : s.mmMapFrame f page p pl = some u) :
    OnlyDirs s u ∧ ∀ q i, u.HasTable q i ↔ s.HasTable q i ∨ (q = p ∧ i = pdEntryFor page) := by
  obtain ⟨s₁, h₁, rfl⟩ := Option.map_eq_some_iff.1 h
  obtain ⟨hdirs, htable⟩ := needTable_dirs h₁
  exact ⟨hdirs.trans setPte_onlyDirs, fun q i => setPte_hasTable.trans (htable q i)⟩

theorem mmSetPtEntry_dirs (h : s.mmSetPtEntry page e p = some u) :
    OnlyDirs s u ∧ ∀ q i, u.HasTable q i ↔ s.HasTable q i ∨ (q = p ∧ i = pdEntryFor page) := by
  rw [mmSetPtEntry] at h
  split at h
  · cases h
  · obtain ⟨s₁, h₁, rfl⟩ := Option.map_eq_some_iff.1 h
    obtain ⟨hdirs, htable⟩ := needTable_dirs h₁
    exact ⟨hdirs.trans setPte_onlyDirs, fun q i => setPte_hasTable.trans (htable q i)⟩

/-! ## Forking -/

/-- A round of `copy_nonkernel_pages` gives the child a table, but for the kernel stack. -/
theorem copyPage_dirs (h : s.copyPage father child n = some u) :
    OnlyDirs s u ∧ (∀ q i, s.HasTable q i → u.HasTable q i) ∧
      (∀ q i, u.HasTable q i → s.HasTable q i ∨ (q = child ∧ i = pdEntryFor n)) ∧
      (n ≠ taskKStack → u.HasTable child (pdEntryFor n)) := by
  have hmapped : ∀ {t u}, OnlyDirs s t ∧ (∀ q i, t.HasTable q i ↔ s.HasTable q i ∨
      (q = child ∧ i = pdEntryFor n)) → OnlyDirs t u → (∀ q i, u.HasTable q i ↔ t.HasTable q i) →
      OnlyDirs s u ∧ (∀ q i, s.HasTable q i → u.HasTable q i) ∧
      (∀ q i, u.HasTable q i → s.HasTable q i ∨ (q = child ∧ i = pdEntryFor n)) ∧
      (n ≠ taskKStack → u.HasTable child (pdEntryFor n)) := by
    rintro t u ⟨hdirs, htable⟩ hdirs' htable'
    refine ⟨hdirs.trans hdirs', fun q i hi => ?_, fun q i hi => ?_, fun _ => ?_⟩
    · exact (htable' q i).2 ((htable q i).2 (.inl hi))
    · exact (htable q i).1 ((htable' q i).1 hi)
    · exact (htable' _ _).2 ((htable _ _).2 (.inr ⟨rfl, rfl⟩))
  rw [copyPage] at h
  split at h
  · split at h
    next hstack =>
      cases h
      exact ⟨.refl s, fun _ _ => id, fun _ _ => .inl, fun hne => absurd hstack hne⟩
    next =>
      obtain ⟨t, h₁, rfl⟩ := Option.map_eq_some_iff.1 h
      split
      · exact hmapped (mmMapFrame_dirs h₁) setPte_onlyDirs fun _ _ => setPte_hasTable
      · exact hmapped (mmMapFrame_dirs h₁) (setPte_onlyDirs.trans setPte_onlyDirs) fun _ _ =>
          setPte_hasTable.trans setPte_hasTable
  · exact hmapped (mmSetPtEntry_dirs h) (.refl u) fun _ _ => .rfl

theorem copyTable_dirs (h : s.copyTable father child i = some u) :
    OnlyDirs s u ∧ ∀ q j, u.HasTable q j ↔
      s.HasTable q j ∨ (q = child ∧ j = i ∧ s.HasTable father i) := by
  rw [copyTable] at h
  split at h
  next hnone =>
    cases h
    exact ⟨.refl s, fun q j => ⟨.inl, fun hj => hj.elim id fun hc => absurd hnone hc.2.2⟩⟩
  next t ht =>
    have hentry : ∀ k < 1024, pdEntryFor (i * 1024 + k) = i := by
      intro k hk
      rw [pdEntryFor]
      omega
    have hloop := Loop.foldlM_range (P := fun k t => OnlyDirs s t ∧
      (∀ q j, s.HasTable q j → t.HasTable q j) ∧
      (∀ q j, t.HasTable q j → s.HasTable q j ∨ (q = child ∧ j = i)) ∧
      (0 < k → t.HasTable child i)) h ?_ ⟨.refl s, fun _ _ => id, fun _ _ => .inl, fun h0 =>
        absurd h0 (Nat.lt_irrefl 0)⟩
    · obtain ⟨hdirs, hkeep, hold, hnew⟩ := hloop
      refine ⟨hdirs, fun q j => ⟨fun hj => (hold q j hj).imp_right ?_, ?_⟩⟩
      · rintro ⟨rfl, rfl⟩
        exact ⟨rfl, rfl, by rw [HasTable, ht]; exact Option.some_ne_none t⟩
      · rintro (hj | ⟨rfl, rfl, -⟩)
        · exact hkeep q j hj
        · exact hnew (by decide)
    · rintro k t t' hk ⟨hdirs, hkeep, hold, hnew⟩ ht'
      obtain ⟨hdirs', hkeep', hold', hnew'⟩ := copyPage_dirs ht'
      rw [hentry k hk] at hold' hnew'
      refine ⟨hdirs.trans hdirs', fun q j hj => hkeep' q j (hkeep q j hj), fun q j hj => ?_,
        fun _ => ?_⟩
      · exact (hold' q j hj).elim (hold q j) .inr
      · rcases eq_or_ne (i * 1024 + k) taskKStack with hstack | hstack
        · -- the kernel stack is not the first page of its table
          refine hkeep' child i (hnew ?_)
          have hnum : taskKStack = 0xff7ff := rfl
          omega
        · exact hnew' hstack

theorem copyNonkernelPages_dirs (hne : child ≠ father)
    (h : s.copyNonkernelPages father child = some u) :
    OnlyDirs s u ∧ ∀ q j, u.HasTable q j ↔
      s.HasTable q j ∨ (q = child ∧ 1 ≤ j ∧ j < 1024 ∧ s.HasTable father j) := by
  refine Loop.foldlM_range' (P := fun i t => OnlyDirs s t ∧
    ∀ q j, t.HasTable q j ↔ s.HasTable q j ∨ (q = child ∧ 1 ≤ j ∧ j < i ∧ s.HasTable father j)) h
    ?_ ⟨.refl s, fun q j => ⟨.inl, fun hj => hj.elim id fun hc => ?_⟩⟩
  · rintro i t t' hi - ⟨hdirs, htable⟩ ht'
    obtain ⟨hdirs', htable'⟩ := copyTable_dirs ht'
    refine ⟨hdirs.trans hdirs', fun q j => ?_⟩
    have hfather : t.HasTable father i ↔ s.HasTable father i := by
      rw [htable]
      exact ⟨fun hc => hc.resolve_right fun hc => hne hc.1.symm, .inl⟩
    rw [htable', htable, hfather, or_assoc]
    refine or_congr_right ⟨?_, ?_⟩
    · rintro (⟨rfl, hlo, hhi, hj⟩ | ⟨rfl, rfl, hj⟩)
      · exact ⟨rfl, hlo, by omega, hj⟩
      · exact ⟨rfl, hi, by omega, hj⟩
    · rintro ⟨rfl, hlo, hhi, hj⟩
      obtain hlt | rfl := Nat.lt_succ_iff_lt_or_eq.1 hhi
      · exact .inl ⟨rfl, hlo, hlt, hj⟩
      · exact .inr ⟨rfl, rfl, hj⟩
  · exact absurd hc.2.1 (by omega)

end

end Mm
end SpuriOS
