import SpuriOS.Lib.Counting
import SpuriOS.Mm.Spawn

/-! # Enough frames

The calls that take frames come to their end when so many are free. -/

namespace SpuriOS
namespace Mm

/-- The free frames from `lo` up to `hi`. -/
def freeFrames (s : Mm) (lo hi : Nat) : Nat :=
  (List.range' lo (hi - lo)).countP fun f => !s.used f

/-- So many frames are free for the kernel and for users. -/
structure Supply (k n : Nat) (s : Mm) : Prop where
  kernel : k ≤ s.freeFrames 0x100 0x400
  user : n ≤ s.freeFrames 0x400 s.limit

/-- With a table for the page, `k` frames are left of those that are free. -/
def Affords (s : Mm) (p : Pid) (page k n : Nat) : Prop :=
  (s.HasTable p (pdEntryFor page) ∧ s.Supply k n) ∨ s.Supply (k + 1) n

/-- The page tables of a process from entry `i` of its directory on. -/
def tableCount (s : Mm) (p : Pid) (i : Nat) : Nat :=
  (List.range' i (1024 - i)).countP fun j => ((s.procs p).dir.pde j).isSome

section
variable {s u : Mm} {p father child : Pid} {page f i k n lo hi : Nat} {e : MmPage} {pl : Privilege}

theorem Supply.mono {k' n' : Nat} (h : s.Supply k n) (hk : k' ≤ k) (hn : n' ≤ n) :
    s.Supply k' n' := ⟨hk.trans h.kernel, hn.trans h.user⟩

theorem Supply.of_used (h : s.Supply k n) (hused : u.used = s.used) (hlimit : u.limit = s.limit) :
    u.Supply k n := by
  refine ⟨?_, ?_⟩
  · rw [freeFrames, hused]
    exact h.kernel
  · rw [freeFrames, hused, hlimit]
    exact h.user

theorem setPte_supply (h : s.Supply k n) : (s.setPte p page e).Supply k n := h.of_used rfl rfl

/-! ### Frames -/

theorem memSeek_total (h : 0 < s.freeFrames lo hi) : ∃ f u, s.memSeek lo hi = some (f, u) := by
  obtain ⟨f, hf, hfree⟩ := List.countP_pos_iff.1 h
  have hfind := List.find?_isSome (p := fun f => !s.used f).2 ⟨f, hf, hfree⟩
  obtain ⟨g, hg⟩ := Option.isSome_iff_exists.1 hfind
  exact ⟨g, _, by rw [memSeek, hg]; rfl⟩

/-- A frame is taken from one zone. -/
theorem freeFrames_take (s : Mm) (f lo hi : Nat) : s.freeFrames lo hi ≤
    ({ s with used := Function.update s.used f true } : Mm).freeFrames lo hi + 1 :=
  Counting.countP_le_update f List.nodup_range'

theorem freeFrames_take_of_not (h : f < lo ∨ hi ≤ f) :
    ({ s with used := Function.update s.used f true } : Mm).freeFrames lo hi =
      s.freeFrames lo hi := by
  refine List.countP_congr fun g hg => ?_
  obtain ⟨hlo, hhi⟩ := List.mem_range'_1.1 hg
  dsimp only
  rw [Function.update_of_ne (by omega)]

theorem kalloc_total (h : s.Supply (k + 1) n) :
    ∃ f u, s.kalloc = some (f, u) ∧ u.Supply k n := by
  obtain ⟨f, u, hu⟩ := memSeek_total (Nat.lt_of_lt_of_le (Nat.succ_pos k) h.kernel)
  obtain ⟨hlo, hhi, -, rfl⟩ := kalloc_spec hu
  have hkernel := h.kernel
  have htake := s.freeFrames_take f 0x100 0x400
  refine ⟨f, _, hu, ⟨by omega, ?_⟩⟩
  exact h.user.trans_eq (freeFrames_take_of_not (.inl hhi)).symm

theorem alloc_total (h : s.Supply k (n + 1)) :
    ∃ f u, s.alloc = some (f, u) ∧ u.Supply k n := by
  obtain ⟨f, u, hu⟩ := memSeek_total (Nat.lt_of_lt_of_le (Nat.succ_pos n) h.user)
  obtain ⟨hlo, hhi, -, rfl⟩ := alloc_spec hu
  have huser := h.user
  have htake := s.freeFrames_take f 0x400 s.limit
  refine ⟨f, _, hu, ⟨?_, Nat.le_of_succ_le_succ (huser.trans htake)⟩⟩
  exact h.kernel.trans_eq (freeFrames_take_of_not (.inr hlo)).symm

/-! ### Page tables -/

theorem Supply.affords (h : s.Supply (k + 1) n) (p : Pid) (page : Nat) : s.Affords p page k n :=
  .inr h

theorem HasTable.affords (htable : s.HasTable p (pdEntryFor page)) (h : s.Supply k n) :
    s.Affords p page k n :=
  .inl ⟨htable, h⟩

theorem Affords.supply (h : s.Affords p page k n) : s.Supply k n :=
  h.elim And.right fun h => h.mono (Nat.le_succ k) (Nat.le_refl n)

/-- A frame of the user zone costs no table. -/
theorem Affords.alloc (h : s.Affords p page k (n + 1)) :
    ∃ f u, s.alloc = some (f, u) ∧ u.Affords p page k n := by
  obtain ⟨htable, h⟩ | h := h
  · obtain ⟨f, u, hu, hsupply⟩ := alloc_total h
    exact ⟨f, u, hu, .inl ⟨(hasTable_congr (congrFun (memSeek_onlyDirs hu).2 p)).2 htable, hsupply⟩⟩
  · obtain ⟨f, u, hu, hsupply⟩ := alloc_total h
    exact ⟨f, u, hu, .inr hsupply⟩

theorem needTable_total (hpage : pdEntryFor page ≠ 0) (h : s.Affords p page k n) :
    ∃ u, s.needTable p page = some u ∧ u.Supply k n := by
  rw [needTable, if_neg hpage]
  cases hpde : (s.procs p).dir.pde (pdEntryFor page) with
  | some t => exact ⟨s, rfl, h.supply⟩
  | none =>
    obtain ⟨t, u, hu, hsupply⟩ := kalloc_total (h.resolve_left fun hc => hc.1 hpde)
    exact ⟨_, Option.map_eq_some_iff.2 ⟨_, hu, rfl⟩, hsupply.of_used rfl rfl⟩

theorem mmMapFrame_total (f : Nat) (pl : Privilege) (hpage : pdEntryFor page ≠ 0)
    (h : s.Affords p page k n) : ∃ u, s.mmMapFrame f page p pl = some u ∧ u.Supply k n := by
  obtain ⟨u, hu, hsupply⟩ := needTable_total hpage h
  exact ⟨_, Option.map_eq_some_iff.2 ⟨u, hu, rfl⟩, setPte_supply hsupply⟩

theorem mmSetPtEntry_total (hpage : pdEntryFor page ≠ 0) (he : e.p = false)
    (h : s.Affords p page k n) : ∃ u, s.mmSetPtEntry page e p = some u ∧ u.Supply k n := by
  obtain ⟨u, hu, hsupply⟩ := needTable_total hpage h
  refine ⟨u.setPte p page e, ?_, setPte_supply hsupply⟩
  rw [mmSetPtEntry, he, if_neg Bool.false_ne_true, hu]
  rfl

theorem newPcb_total (pl : Privilege) (next : Fin pageCount)
    (hslot : ∃ p < maxPid, (s.procs p).live = false) (h : s.Supply (k + 1) n) :
    ∃ p u, s.newPcb pl next = some (p, u) ∧ u.Supply k n := by
  obtain ⟨q, hq, hfree⟩ := hslot
  have hfind := List.find?_isSome (p := fun p => !(s.procs p).live).2
    ⟨q, List.mem_range.2 hq, by rw [hfree]; rfl⟩
  obtain ⟨p, hp⟩ := Option.isSome_iff_exists.1 hfind
  obtain ⟨cr3, u, hu, hsupply⟩ := kalloc_total h
  have hpcb : s.newPcb pl next = some (p, u.setPcb p
      ⟨true, pl, cr3, u.kernelPagetable, emptyDir, inSwitchEsp pl, next⟩) := by
    rw [newPcb, getNewPid, hp, Option.bind_eq_bind, Option.bind_some, hu]
    rfl
  exact ⟨p, _, hpcb, hsupply.of_used rfl rfl⟩

/-- A frame for the copy, and one for the table of `MM_TMP_PAGE` if that is missing. -/
theorem mmCopyOnWrite_total (hpage : pdEntryFor page ≠ 0)
    (h : s.isToBeCopiedOnWriteByOtherProcesses page p = true → s.Affords p mmTmpPage 0 1)
    (hword : s.word p page ≠ .zero) : ∃ u, s.mmCopyOnWrite page p = some u := by
  rw [mmCopyOnWrite]
  split
  · exact ⟨_, rfl⟩
  next hothers =>
    obtain ⟨f, s₁, h₁, hafford⟩ := (h (Decidable.not_not.1 hothers)).alloc
    obtain ⟨-, hprocs⟩ := memSeek_onlyDirs h₁
    obtain ⟨s₂, h₂, hsupply₂⟩ := mmMapFrame_total f .kernel (by decide) hafford
    -- a page that is to be copied has a page table
    have htable : s₂.HasTable p (pdEntryFor page) :=
      ((mmMapFrame_dirs h₂).2 _ _).2 (.inl ((hasTable_congr (congrFun hprocs p)).2
        (pde_of_word hword)))
    let e := (s₂.procs p).dir.pte page
    let s₃ := (s₂.copyFrame e.base f).mmUnmapPage mmTmpPage p
    have hsupply₃ : s₃.Supply 0 0 := hsupply₂.of_used rfl rfl
    obtain ⟨u, hu, -⟩ := mmMapFrame_total f (if e.us then .user else .kernel) hpage
      (HasTable.affords (s := s₃) (setPte_hasTable.2 htable) hsupply₃)
    refine ⟨u, ?_⟩
    simp only [h₁, h₂, Option.bind_eq_bind, Option.bind_some]
    exact hu

/-! ### Forking -/

theorem copyPage_total (father : Pid) (hn : pdEntryFor page ≠ 0) (h : s.Affords child page k n) :
    ∃ u, s.copyPage father child page = some u ∧ u.Supply k n := by
  rw [copyPage]
  split
  next =>
    split
    next => exact ⟨s, rfl, h.supply⟩
    next =>
      obtain ⟨u, hu, hsupply⟩ := mmMapFrame_total ((s.procs father).dir.pte page).base
        (if ((s.procs father).dir.pte page).us then .user else .kernel) hn h
      refine ⟨_, Option.map_eq_some_iff.2 ⟨u, hu, rfl⟩, ?_⟩
      split
      · exact setPte_supply hsupply
      · exact setPte_supply (setPte_supply hsupply)
  next hp => exact mmSetPtEntry_total hn (by simpa using hp) h

/-- A table of the father costs one of the child. -/
theorem copyTable_total (hi : 1 ≤ i) (h : s.Supply (k + 1) n) :
    ∃ u, s.copyTable father child i = some u ∧ u.Supply k n := by
  rw [copyTable]
  split
  · exact ⟨s, rfl, h.mono (Nat.le_succ k) (Nat.le_refl n)⟩
  · have hentry : ∀ j < 1024, pdEntryFor (i * 1024 + j) = i := by
      intro j hj
      rw [pdEntryFor]
      omega
    -- once the child has the table, its pages cost nothing
    have hround : ∀ (j : Nat) (t : Mm), j < 1024 →
        (j = 0 ∧ t.Supply (k + 1) n) ∨ (t.HasTable child i ∧ t.Supply k n) →
        ∃ u, t.copyPage father child (i * 1024 + j) = some u ∧
          ((j + 1 = 0 ∧ u.Supply (k + 1) n) ∨ (u.HasTable child i ∧ u.Supply k n)) := by
      intro j t hj hP
      have hpage := hentry j hj
      have hafford : t.Affords child (i * 1024 + j) k n := by
        rw [Affords, hpage]
        exact hP.symm.imp_right And.right
      obtain ⟨u, hu, hsupply⟩ := copyPage_total father (by omega) hafford
      obtain ⟨-, hkeep, -, hnew⟩ := copyPage_dirs hu
      refine ⟨u, hu, .inr ⟨?_, hsupply⟩⟩
      obtain ⟨rfl, -⟩ | ⟨htable, -⟩ := hP
      · -- the kernel stack is not the first page of its table
        rw [hpage] at hnew
        refine hnew fun hstack => ?_
        have hnum : taskKStack = 0xff7ff := rfl
        omega
      · exact hkeep _ _ htable
    obtain ⟨u, hu, hP⟩ := Loop.foldlM_range_total hround (.inl ⟨rfl, h⟩)
    exact ⟨u, hu, (hP.resolve_left fun hc => absurd hc.1 (by decide)).2⟩

theorem tableCount_eq (hi : i < 1024) : s.tableCount p i =
    (if ((s.procs p).dir.pde i).isSome then 1 else 0) + s.tableCount p (i + 1) := by
  obtain ⟨m, hm⟩ : ∃ m, 1024 - i = m + 1 := ⟨1024 - i - 1, by omega⟩
  have hm' : 1024 - (i + 1) = m := by omega
  rw [tableCount, tableCount, hm, hm', List.range'_succ, List.countP_cons, Nat.add_comm]

theorem copyNonkernelPages_total (hne : child ≠ father)
    (h : s.Supply (k + s.tableCount father 1) n) :
    ∃ u, s.copyNonkernelPages father child = some u ∧ u.Supply k n := by
  have hround : ∀ (i : Nat) (t : Mm), 1 ≤ i → i < 1 + 1023 →
      t.Supply (k + s.tableCount father i) n ∧
      (∀ j, t.HasTable father j ↔ s.HasTable father j) →
      ∃ u, t.copyTable father child i = some u ∧ u.Supply (k + s.tableCount father (i + 1)) n ∧
        ∀ j, u.HasTable father j ↔ s.HasTable father j := by
    rintro i t hlo hhi ⟨hsupply, hfather⟩
    have hcopy : ∃ u, t.copyTable father child i = some u ∧
        u.Supply (k + s.tableCount father (i + 1)) n := by
      rw [tableCount_eq (by omega)] at hsupply
      split at hsupply
      next => exact copyTable_total hlo (hsupply.mono (by omega) (Nat.le_refl n))
      next hno =>
        have hpde : (t.procs father).dir.pde i = none := by
          by_contra hpde
          exact hno (Option.isSome_iff_ne_none.2 ((hfather i).1 hpde))
        exact ⟨t, by rw [copyTable, hpde], hsupply.mono (by omega) (Nat.le_refl n)⟩
    obtain ⟨u, hu, hsupply'⟩ := hcopy
    refine ⟨u, hu, hsupply', fun j => ?_⟩
    rw [(copyTable_dirs hu).2, ← hfather]
    exact ⟨fun hc => hc.resolve_right fun hc => hne hc.1.symm, .inl⟩
  obtain ⟨u, hu, hsupply, -⟩ := Loop.foldlM_range'_total hround ⟨h, fun _ => .rfl⟩
  exact ⟨u, hu, hsupply.mono (Nat.le_add_right ..) (Nat.le_refl n)⟩

/-- A process can be forked with a frame for the kernel stack of the child, frames for its directory
and its tables, and one for the table of `MM_TMP_PAGE`. -/
theorem fork_total (hlive : (s.procs father).live = true)
    (hlevel : (s.procs father).privilegeLevel = .user)
    (hslot : ∃ p < maxPid, (s.procs p).live = false)
    (h : s.Supply (k + s.tableCount father 1 + 3) (n + 1)) :
    ∃ child u, s.fork father = some (child, u) ∧ u.Supply k n := by
  have h' : s.Supply (k + 2 + s.tableCount father 1 + 1) (n + 1) :=
    h.mono (by omega) (Nat.le_refl _)
  obtain ⟨child, s₁, h₁, hsupply₁⟩ :=
    newPcb_total .user (s.procs father).nextEmptyPage hslot h'
  have hpcb := newPcb_spec h₁
  have hne : child ≠ father := by
    rintro rfl
    exact Bool.false_ne_true (hpcb.free.symm.trans hlive)
  have hcount : s₁.tableCount father 1 = s.tableCount father 1 := by
    rw [tableCount, tableCount, hpcb.others father hne.symm]
  obtain ⟨s₂, h₂, hsupply₂⟩ := copyNonkernelPages_total hne (hcount ▸ hsupply₁)
  obtain ⟨g, s₃, h₃, hsupply₃⟩ := alloc_total hsupply₂
  obtain ⟨s₄, h₄, hsupply₄⟩ := mmMapFrame_total g .kernel (by decide)
    (hsupply₃.affords child taskKStack)
  obtain ⟨s₅, h₅, hsupply₅⟩ := mmMapFrame_total g .kernel (by decide)
    (hsupply₄.affords father mmTmpPage)
  refine ⟨child, (s₅.fill g (pageOf (s₄.childStack father))).mmUnmapPage mmTmpPage father, ?_,
    hsupply₅.of_used rfl rfl⟩
  simp only [fork, hlevel, ne_eq, not_true_eq_false, if_false, h₁, h₂, createChildKernelStack, h₃,
    h₄, h₅, Option.bind_eq_bind, Option.bind_some]

end

end Mm
end SpuriOS
