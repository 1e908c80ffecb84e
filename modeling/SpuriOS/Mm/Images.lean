import SpuriOS.Mm.Supply

/-! # The image that `loader_load` builds -/

namespace SpuriOS

namespace Image
variable {f : Image} {pl : Privilege} {n i : Nat}

/-- The rounds of `copy_data_from`, from `i` on, that may need a page table. -/
def tableRounds (f : Image) (i n : Nat) : Nat :=
  (List.range' i (n - i)).countP fun j => j = 0 ∨ f.page j % 1024 = 0

theorem tableRounds_eq (h : i < n) : f.tableRounds i n =
    (if i = 0 ∨ f.page i % 1024 = 0 then 1 else 0) + f.tableRounds (i + 1) n := by
  obtain ⟨m, hm⟩ : ∃ m, n - i = m + 1 := ⟨n - i - 1, by omega⟩
  have hm' : n - (i + 1) = m := by omega
  rw [tableRounds, tableRounds, hm, hm', List.range'_succ, List.countP_cons, Nat.add_comm]
  simp only [decide_eq_true_eq]

/-- Within a page table the pages of the image follow each other. -/
theorem pdEntryFor_page (hf : f.memStart % pageSize = 0) (hi : f.page (i + 1) % 1024 ≠ 0) :
    pdEntryFor (f.page (i + 1)) = pdEntryFor (f.page i) := by
  rw [page, Word32.add, Word32.wrap, pageSize_eq] at hi
  rw [pageSize_eq] at hf
  rw [pdEntryFor, pdEntryFor, page, page, Word32.add, Word32.add, Word32.wrap, Word32.wrap,
    pageSize_eq]
  omega

/-- The page of a round is the last one to be mapped there. -/
theorem layout_page (pl : Privilege) (hf : f.memStart % pageSize = 0) (hn : n ≤ pageCount)
    (hi : i < n) :
    f.layout pl n (f.page i) = some ⟨pl = .user, some (f.content i)⟩ := by
  induction n with
  | zero => omega
  | succ n ih =>
    rw [layout]
    rcases eq_or_ne i n with rfl | hne
    · exact Function.update_self ..
    · rw [Function.update_of_ne fun h => hne (page_inj hf (by omega) (by omega) h)]
      exact ih (by omega) (by omega)

theorem layout_ne_none {v : Nat} (h : f.layout pl n v ≠ none) :
    stackPages pl v ≠ none ∨ ∃ i < n, f.page i = v := by
  by_contra hno
  refine h (layout_eq_none.2 ⟨?_, fun i hi heq => hno (.inr ⟨i, hi, heq⟩)⟩)
  by_contra hstack
  exact hno (.inl hstack)

end Image

namespace Mm

/-- Process `cur` has the file that it loads at page `start`, from the first entry of its page
directory on that was free, and not at the page that `loader_load` uses. -/
structure Staged (s : Mm) (cur : Pid) (start : Nat) : Prop where
  aligned : start % 1024 = 0
  pos : 0 < start
  ne : start ≠ userMemoryStart
  tables : ∀ i, 1 ≤ i → i ≤ pdEntryFor start → s.HasTable cur i

/-- What process `pid` reads at an address. -/
def readAt (u : Mm) (pid : Pid) (addr : Nat) : Byte :=
  u.read pid (addr / pageSize) (addr % pageSize)

/-- Process `pid` is the image of the file, with its stacks. -/
structure Built (s u : Mm) (pid : Pid) (pl : Privilege) (f : Image) : Prop where
  data : ∀ addr, f.memStart ≤ addr → addr < f.memEndDisk →
    u.readAt pid addr = f.data (addr - f.memStart)
  zero : ∀ addr, f.memEndDisk ≤ addr → addr < f.memStart + dataPagesNeededFor f * pageSize →
    u.readAt pid addr = 0
  count : dataPagesNeededFor f = (f.memEnd - f.memStart + pageSize - 1) / pageSize
  pages : ∀ i < dataPagesNeededFor f, ∃ g, 0x400 ≤ g ∧ s.used g = false ∧ u.used g = true ∧
    u.word pid (userMemoryStart + i) = mappedEntry g (pl = .user)
  own : ∀ page page', (u.word pid page).p = true → (u.word pid page').p = true →
    (u.word pid page).base = (u.word pid page').base → page = page'
  next : (u.procs pid).nextEmptyPage.val = userMemoryStart + dataPagesNeededFor f
  only : ∀ page, u.word pid page ≠ .zero → stackPages pl page ≠ none ∨
    ∃ i < dataPagesNeededFor f, page = userMemoryStart + i
  tables : ∀ i, u.HasTable pid i → ∃ page, i = pdEntryFor page ∧ u.word pid page ≠ .zero
  kernelTable : (u.procs pid).kernelTable = s.kernelPagetable

section
variable {s u t : Mm} {p q cur pid : Pid} {i k n frame start : Nat} {pl : Privilege}
  {f : Image} {next : Fin pageCount}

theorem Staged.hasTable (h : s.Staged cur start) : s.HasTable cur (pdEntryFor userMemoryStart) := by
  refine h.tables _ (by decide) ?_
  have haligned := h.aligned
  have hpos := h.pos
  rw [pdEntryFor, pdEntryFor, userMemoryStart]
  omega

/-! ## The directories -/

theorem createStacksFor_dirs (h : s.createStacksFor cur pid pl = some u) :
    OnlyDirs s u ∧ ∀ q i, u.HasTable q i ↔ s.HasTable q i ∨
      (q = pid ∧ i = pdEntryFor taskKStack) ∨ (q = cur ∧ i = pdEntryFor userMemoryStart) := by
  simp only [createStacksFor, Option.bind_eq_bind, Option.bind_eq_some_iff] at h
  obtain ⟨⟨g, s₁⟩, h₁, s₂, h₂, s₃, h₃, h⟩ := h
  obtain ⟨hdirs₁, hprocs₁⟩ := memSeek_onlyDirs h₁
  obtain ⟨hdirs₂, htable₂⟩ := mmMapFrame_dirs h₂
  obtain ⟨hdirs₃, htable₃⟩ := mmMapFrame_dirs h₃
  have hdirs := hdirs₁.trans (hdirs₂.trans hdirs₃)
  have htable : ∀ q i, s₃.HasTable q i ↔ s.HasTable q i ∨
      (q = pid ∧ i = pdEntryFor taskKStack) ∨ (q = cur ∧ i = pdEntryFor userMemoryStart) := by
    intro q i
    rw [htable₃, htable₂, hasTable_congr (congrFun hprocs₁ q), or_assoc]
  cases pl with
  | kernel =>
    cases h
    exact ⟨hdirs, htable⟩
  | user =>
    simp only [Option.bind_eq_some_iff] at h
    obtain ⟨⟨g', s₄⟩, h₄, h₅⟩ := h
    obtain ⟨hdirs₄, hprocs₄⟩ := memSeek_onlyDirs h₄
    obtain ⟨hdirs₅, htable₅⟩ := mmMapFrame_dirs h₅
    refine ⟨hdirs.trans (hdirs₄.trans hdirs₅), fun q i => ?_⟩
    -- the stacks share a page table
    have hsame : pdEntryFor taskUStack = pdEntryFor taskKStack := rfl
    rw [htable₅, hasTable_congr (congrFun hprocs₄ q), htable, hsame]
    exact ⟨fun hc => hc.elim id fun hc => .inr (.inl hc), .inl⟩

theorem copyData_dirs (h : s.copyData f cur pid pl n = some u) :
    OnlyDirs s u ∧ ∀ q i, u.HasTable q i ↔ s.HasTable q i ∨
      (q = pid ∧ i = pdEntryFor (f.page n)) ∨ (q = cur ∧ i = pdEntryFor userMemoryStart) := by
  simp only [copyData, Option.bind_eq_bind, Option.bind_eq_some_iff] at h
  obtain ⟨⟨g, s₁⟩, h₁, s₂, h₂, s₃, h₃, h⟩ := h
  cases h
  obtain ⟨hdirs₁, hprocs₁⟩ := memSeek_onlyDirs h₁
  obtain ⟨hdirs₂, htable₂⟩ := mmMapFrame_dirs h₂
  obtain ⟨hdirs₃, htable₃⟩ := mmMapFrame_dirs h₃
  refine ⟨hdirs₁.trans (hdirs₂.trans (hdirs₃.trans ⟨fun _ => rfl, rfl, rfl, rfl⟩)), fun q i => ?_⟩
  have hfill : (s₃.fill g (f.content n)).HasTable q i ↔ s₃.HasTable q i := .rfl
  rw [hfill, htable₃, htable₂, hasTable_congr (congrFun hprocs₁ q), or_assoc]
  rfl

theorem copyDataFrom_dirs (h : s.copyDataFrom f cur pid pl = some u)
    (hcur : s.HasTable cur (pdEntryFor userMemoryStart)) :
    OnlyDirs s u ∧ ∀ q i, u.HasTable q i ↔ s.HasTable q i ∨
      (q = pid ∧ ∃ j < dataPagesNeededFor f, i = pdEntryFor (f.page j)) := by
  rw [copyDataFrom] at h
  split at h
  · cases h
  · refine Loop.foldlM_range (P := fun n t => OnlyDirs s t ∧ ∀ q i, t.HasTable q i ↔
      s.HasTable q i ∨ (q = pid ∧ ∃ j < n, i = pdEntryFor (f.page j))) h ?_
      ⟨.refl s, fun q i => ⟨.inl, fun hi => hi.elim id ?_⟩⟩
    · rintro n t t' - ⟨hdirs, htable⟩ ht'
      obtain ⟨hdirs', htable'⟩ := copyData_dirs ht'
      refine ⟨hdirs.trans hdirs', fun q i => ?_⟩
      rw [htable', htable]
      constructor
      · rintro ((hi | ⟨rfl, j, hj, rfl⟩) | ⟨rfl, rfl⟩ | ⟨rfl, rfl⟩)
        · exact .inl hi
        · exact .inr ⟨rfl, j, by omega, rfl⟩
        · exact .inr ⟨rfl, n, by omega, rfl⟩
        · exact .inl hcur
      · rintro (hi | ⟨rfl, j, hj, rfl⟩)
        · exact .inl (.inl hi)
        · obtain hlt | rfl := Nat.lt_succ_iff_lt_or_eq.1 hj
          · exact .inl (.inr ⟨rfl, j, hlt, rfl⟩)
          · exact .inr (.inl ⟨rfl, rfl⟩)
    · rintro ⟨-, j, hj, -⟩
      omega

theorem undoTempMappingOn_dirs (h : s.undoTempMappingOn cur frame = some u)
    (hcur : s.HasTable cur (pdEntryFor userMemoryStart)) :
    OnlyDirs s u ∧ ∀ q i, u.HasTable q i ↔ s.HasTable q i := by
  rw [undoTempMappingOn] at h
  split at h
  · cases h
    exact ⟨setPte_onlyDirs, fun _ _ => setPte_hasTable⟩
  · obtain ⟨hdirs, htable⟩ := mmMapFrame_dirs h
    refine ⟨setPte_onlyDirs.trans hdirs, fun q i => ?_⟩
    rw [htable, mmUnmapPage, setPte_hasTable]
    refine ⟨fun hc => hc.elim id ?_, .inl⟩
    rintro ⟨rfl, rfl⟩
    exact hcur

/-- The directory of the new process, and the rest of its slot. -/
theorem loaderLoad_dirs (hlive : (s.procs cur).live = true)
    (h : s.loaderLoad cur f pl = some (pid, u)) :
    (∀ i, u.HasTable pid i ↔ i = pdEntryFor taskKStack ∨
      ∃ j < dataPagesNeededFor f, i = pdEntryFor (f.page j)) ∧
    (u.procs pid).kernelTable = s.kernelPagetable ∧
    (u.procs pid).nextEmptyPage =
      Fin.ofNat pageCount (userMemoryStart + dataPagesNeededFor f) := by
  simp only [loaderLoad, Option.bind_eq_bind, Option.bind_eq_some_iff] at h
  obtain ⟨frame, -, ⟨pid', s₁⟩, h₁, s₂, h₂, s₃, h₃, s₄, h₄, h⟩ := h
  cases h
  dsimp only at h₂ h₃ h₄
  have hpcb := newPcb_spec h₁
  have hne : pid' ≠ cur := by
    rintro rfl
    exact Bool.false_ne_true (hpcb.free.symm.trans hlive)
  obtain ⟨hdirs₂, htable₂⟩ := createStacksFor_dirs h₂
  have hcur₂ : s₂.HasTable cur (pdEntryFor userMemoryStart) :=
    (htable₂ _ _).2 (.inr (.inr ⟨rfl, rfl⟩))
  obtain ⟨hdirs₃, htable₃⟩ := copyDataFrom_dirs h₃ hcur₂
  obtain ⟨hdirs₄, htable₄⟩ := undoTempMappingOn_dirs h₄ ((htable₃ _ _).2 (.inl hcur₂))
  have hdirs := hdirs₂.trans (hdirs₃.trans hdirs₄)
  refine ⟨fun i => ?_, ?_, ?_⟩
  · have hempty : ¬s₁.HasTable pid' i := by
      rw [HasTable, hpcb.dir]
      exact fun hno => hno rfl
    rw [htable₄, htable₃, htable₂]
    simp [hempty, hne]
  · rw [hdirs.pcb pid']
    exact hpcb.kernelTable
  · rw [hdirs.pcb pid']
    exact newPcb_next h₁

/-- The page tables of the process that loads: the first load may need one more. -/
theorem loaderLoad_caller (hlive : (s.procs cur).live = true)
    (h : s.loaderLoad cur f pl = some (pid, u)) :
    ∀ i, u.HasTable cur i ↔ s.HasTable cur i ∨ i = pdEntryFor userMemoryStart := by
  simp only [loaderLoad, Option.bind_eq_bind, Option.bind_eq_some_iff] at h
  obtain ⟨frame, -, ⟨pid', s₁⟩, h₁, s₂, h₂, s₃, h₃, s₄, h₄, h⟩ := h
  cases h
  dsimp only at h₂ h₃ h₄
  have hpcb := newPcb_spec h₁
  have hne : cur ≠ pid' := by
    rintro rfl
    exact Bool.false_ne_true (hpcb.free.symm.trans hlive)
  obtain ⟨-, htable₂⟩ := createStacksFor_dirs h₂
  have hcur₂ : s₂.HasTable cur (pdEntryFor userMemoryStart) :=
    (htable₂ _ _).2 (.inr (.inr ⟨rfl, rfl⟩))
  obtain ⟨-, htable₃⟩ := copyDataFrom_dirs h₃ hcur₂
  obtain ⟨-, htable₄⟩ := undoTempMappingOn_dirs h₄ ((htable₃ _ _).2 (.inl hcur₂))
  intro i
  rw [htable₄, htable₃, htable₂, hasTable_congr (hpcb.others cur hne)]
  simp [hne]

/-! ## Enough frames -/

theorem createStacksFor_total (cur pid : Pid) (pl : Privilege) (h : s.Supply (k + 2) (n + 2)) :
    ∃ u, s.createStacksFor cur pid pl = some u ∧ u.Supply k n := by
  obtain ⟨g, s₁, h₁, hsupply₁⟩ := alloc_total (n := n + 1) h
  obtain ⟨s₂, h₂, hsupply₂⟩ := mmMapFrame_total g .kernel (by decide)
    (hsupply₁.affords pid taskKStack)
  obtain ⟨s₃, h₃, hsupply₃⟩ := mmMapFrame_total g .kernel (by decide)
    (hsupply₂.affords cur userMemoryStart)
  cases pl with
  | kernel =>
    refine ⟨s₃, ?_, hsupply₃.mono (Nat.le_refl k) (Nat.le_succ n)⟩
    simp only [createStacksFor, h₁, h₂, h₃, Option.bind_eq_bind, Option.bind_some]
  | user =>
    obtain ⟨g', s₄, h₄, hsupply₄⟩ := alloc_total hsupply₃
    have htable : s₄.HasTable pid (pdEntryFor taskUStack) := by
      rw [hasTable_congr (congrFun (memSeek_onlyDirs h₄).2 pid), (mmMapFrame_dirs h₃).2,
        (mmMapFrame_dirs h₂).2]
      exact .inl (.inr ⟨rfl, rfl⟩)
    obtain ⟨s₅, h₅, hsupply₅⟩ := mmMapFrame_total g' .user (by decide)
      (htable.affords hsupply₄)
    refine ⟨s₅, ?_, hsupply₅⟩
    simp only [createStacksFor, h₁, h₂, h₃, h₄, h₅, Option.bind_eq_bind, Option.bind_some]

theorem copyData_total (pl : Privilege) (hpage : pdEntryFor (f.page i) ≠ 0)
    (hcur : s.HasTable cur (pdEntryFor userMemoryStart))
    (h : s.Affords pid (f.page i) k (n + 1)) :
    ∃ u, s.copyData f cur pid pl i = some u ∧ u.Supply k n := by
  obtain ⟨g, s₁, h₁, hafford⟩ := h.alloc
  obtain ⟨s₂, h₂, hsupply₂⟩ := mmMapFrame_total g pl hpage hafford
  have htable : s₂.HasTable cur (pdEntryFor userMemoryStart) := by
    rw [(mmMapFrame_dirs h₂).2, hasTable_congr (congrFun (memSeek_onlyDirs h₁).2 cur)]
    exact .inl hcur
  obtain ⟨s₃, h₃, hsupply₃⟩ := mmMapFrame_total g .kernel (by decide)
    (htable.affords hsupply₂)
  refine ⟨s₃.fill g (f.content i), ?_, hsupply₃.of_used rfl rfl⟩
  rw [Image.page] at h₂
  simp only [copyData, h₁, h₂, h₃, Option.bind_eq_bind, Option.bind_some]

theorem copyDataFrom_total (pid : Pid) (pl : Privilege) (hf : f.memStart % pageSize = 0)
    (hpages : ∀ i < dataPagesNeededFor f, pdEntryFor (f.page i) ≠ 0)
    (hcur : s.HasTable cur (pdEntryFor userMemoryStart))
    (h : s.Supply (k + f.tableRounds 0 (dataPagesNeededFor f)) (n + dataPagesNeededFor f)) :
    ∃ u, s.copyDataFrom f cur pid pl = some u ∧ u.Supply k n := by
  have hround : ∀ (i : Nat) (t : Mm), i < dataPagesNeededFor f →
      t.HasTable cur (pdEntryFor userMemoryStart) ∧
      (i ≠ 0 → t.HasTable pid (pdEntryFor (f.page (i - 1)))) ∧
      t.Supply (k + f.tableRounds i (dataPagesNeededFor f)) (n + (dataPagesNeededFor f - i)) →
      ∃ u, t.copyData f cur pid pl i = some u ∧
        u.HasTable cur (pdEntryFor userMemoryStart) ∧
        (i + 1 ≠ 0 → u.HasTable pid (pdEntryFor (f.page (i + 1 - 1)))) ∧
        u.Supply (k + f.tableRounds (i + 1) (dataPagesNeededFor f))
          (n + (dataPagesNeededFor f - (i + 1))) := by
    rintro i t hi ⟨hcur, hlast, hsupply⟩
    obtain ⟨m, hm⟩ : ∃ m, dataPagesNeededFor f - i = m + 1 :=
      ⟨dataPagesNeededFor f - i - 1, by omega⟩
    have hm' : dataPagesNeededFor f - (i + 1) = m := by omega
    rw [Image.tableRounds_eq hi, hm] at hsupply
    rw [hm']
    have hafford : t.Affords pid (f.page i) (k + f.tableRounds (i + 1) (dataPagesNeededFor f))
        (n + m + 1) := by
      split at hsupply
      next => exact .inr (hsupply.mono (by omega) (by omega))
      next hno =>
        -- the page before is in the same table
        obtain ⟨j, rfl⟩ := Nat.exists_eq_succ_of_ne_zero fun h0 => hno (.inl h0)
        refine .inl ⟨?_, hsupply.mono (by omega) (by omega)⟩
        rw [Image.pdEntryFor_page hf fun h0 => hno (.inr h0)]
        exact hlast (Nat.succ_ne_zero j)
    obtain ⟨u, hu, hsupply'⟩ := copyData_total pl (hpages i hi) hcur hafford
    obtain ⟨-, htable⟩ := copyData_dirs hu
    refine ⟨u, hu, (htable _ _).2 (.inl hcur), fun _ => ?_, hsupply'⟩
    exact (htable _ _).2 (.inr (.inl ⟨rfl, rfl⟩))
  obtain ⟨u, hu, -, -, hsupply⟩ :=
    Loop.foldlM_range_total hround ⟨hcur, fun h0 => absurd rfl h0, h⟩
  refine ⟨u, ?_, hsupply.mono (Nat.le_add_right ..) (Nat.le_add_right ..)⟩
  rw [copyDataFrom, if_neg fun hc => hc.2 hf]
  exact hu

/-- A process can be loaded with frames for its pages and stacks, its directory and its tables, and
one for a table of the process that loads. -/
theorem loaderLoad_total (pl : Privilege)
    (hat : cur = idlePid ∨ s.HasTable cur (pdEntryFor userMemoryStart))
    (hslot : ∃ p < maxPid, (s.procs p).live = false) (hf : f.memStart % pageSize = 0)
    (hpages : ∀ i < dataPagesNeededFor f, pdEntryFor (f.page i) ≠ 0)
    (h : s.Supply (k + f.tableRounds 0 (dataPagesNeededFor f) + 3)
      (n + dataPagesNeededFor f + 2)) :
    ∃ pid u, s.loaderLoad cur f pl = some (pid, u) ∧ u.Supply k n := by
  have hold : ∃ frame, s.oldFrame cur = some frame := by
    rw [oldFrame]
    split
    next => exact ⟨0, rfl⟩
    next hidle =>
      rw [entry_of_pde (hat.resolve_left hidle)]
      exact ⟨_, rfl⟩
  obtain ⟨frame, hframe⟩ := hold
  obtain ⟨pid, s₁, h₁, hsupply₁⟩ := newPcb_total pl
    (Fin.ofNat pageCount (userMemoryStart + dataPagesNeededFor f)) hslot h
  obtain ⟨s₂, h₂, hsupply₂⟩ := createStacksFor_total cur pid pl hsupply₁
  have hcur₂ : s₂.HasTable cur (pdEntryFor userMemoryStart) :=
    ((createStacksFor_dirs h₂).2 _ _).2 (.inr (.inr ⟨rfl, rfl⟩))
  obtain ⟨s₃, h₃, hsupply₃⟩ := copyDataFrom_total pid pl hf hpages hcur₂ hsupply₂
  have hcur₃ := ((copyDataFrom_dirs h₃ hcur₂).2 _ _).2 (.inl hcur₂)
  have hundo : ∃ u, s₃.undoTempMappingOn cur frame = some u ∧ u.Supply k n := by
    rw [undoTempMappingOn]
    split
    next => exact ⟨_, rfl, setPte_supply hsupply₃⟩
    next =>
      exact mmMapFrame_total _ _ (by decide)
        (HasTable.affords (setPte_hasTable.2 hcur₃) (setPte_supply hsupply₃))
  obtain ⟨u, hu, hsupply⟩ := hundo
  refine ⟨pid, u, ?_, hsupply⟩
  simp only [loaderLoad, hframe, h₁, h₂, h₃, hu, Option.bind_eq_bind, Option.bind_some]

/-! ## The image -/

/-- A file linked at `USER_MEMORY_START` that ends below the stacks. -/
structure Fits (f : Image) : Prop where
  start : f.memStart = 0x400000
  disk : f.memStart ≤ f.memEndDisk
  mem : f.memEndDisk ≤ f.memEnd
  top : f.memEnd < taskUStackAddress

theorem Fits.count (h : Fits f) :
    dataPagesNeededFor f = (f.memEnd - f.memStart + pageSize - 1) / pageSize := by
  have htop : f.memEnd < 0xff7fe000 := h.top
  have hsub : Word32.sub f.memEnd f.memStart = f.memEnd - f.memStart :=
    Word32.sub_of_le (h.disk.trans h.mem) (by omega)
  rw [dataPagesNeededFor, hsub, pageSize_eq]
  split <;> omega

theorem Fits.lt (h : Fits f) : userMemoryStart + dataPagesNeededFor f ≤ taskUStack := by
  have htop : f.memEnd < 0xff7fe000 := h.top
  have hstart := h.start
  rw [h.count, pageSize_eq, userMemoryStart, taskUStack]
  omega

theorem Fits.add (h : Fits f) (hi : i ≤ dataPagesNeededFor f) :
    Word32.add f.memStart (i * pageSize) = (userMemoryStart + i) * pageSize := by
  have hlt := h.lt
  have hstart := h.start
  rw [userMemoryStart, taskUStack] at hlt
  rw [Word32.add, Word32.wrap, pageSize_eq, userMemoryStart]
  omega

theorem Fits.page (h : Fits f) (hi : i < dataPagesNeededFor f) :
    f.page i = userMemoryStart + i := by
  rw [Image.page, h.add (Nat.le_of_lt hi), pageSize_eq]
  omega

/-- A page table is needed for every 4 MB. -/
theorem Fits.tableRounds_le (h : Fits f) :
    f.tableRounds 0 (dataPagesNeededFor f) ≤ dataPagesNeededFor f / 1024 + 1 := by
  suffices hcount : ∀ m ≤ dataPagesNeededFor f, (List.range' 0 m).countP
      (fun j => j = 0 ∨ f.page j % 1024 = 0) ≤ (m + 1023) / 1024 by
    have := hcount _ (Nat.le_refl _)
    rw [Image.tableRounds, Nat.sub_zero]
    omega
  intro m hm
  induction m with
  | zero => exact Nat.zero_le _
  | succ m ih =>
    have hpage := h.page hm
    have hle := ih (by omega)
    rw [List.range'_concat, List.countP_append, List.countP_singleton, Nat.zero_add, Nat.one_mul]
    rw [userMemoryStart] at hpage
    split
    next hround =>
      have : m % 1024 = 0 := by
        rw [decide_eq_true_eq, hpage] at hround
        omega
      omega
    next => omega

/-- The bytes of a page of the image, seen from the start of the file. -/
theorem Fits.content (h : Fits f) (hi : i ≤ dataPagesNeededFor f) (k : Nat) :
    f.content i k = if (userMemoryStart + i) * pageSize + k < f.memEndDisk
      then f.data (i * pageSize + k) else 0 := by
  rw [Image.content, h.add hi]
  split
  next hbss => rw [if_neg (by omega)]
  next hdata => exact if_congr (by omega) rfl rfl

/-- What is read in the pages of the image. -/
theorem Loading.readAt {D : Prop} (h : Fits f)
    (hload : Loading s u cur pid pl D (f.layout pl (dataPagesNeededFor f))) {addr : Nat}
    (hlo : f.memStart ≤ addr) (hhi : addr < f.memStart + dataPagesNeededFor f * pageSize) :
    u.readAt pid addr = if addr < f.memEndDisk then f.data (addr - f.memStart) else 0 := by
  have hstart : f.memStart = userMemoryStart * pageSize := h.start
  have haligned : f.memStart % pageSize = 0 := by rw [hstart, Nat.mul_mod_left]
  obtain ⟨i, hi⟩ : ∃ i, addr / pageSize = userMemoryStart + i :=
    ⟨addr / pageSize - userMemoryStart, by rw [hstart, pageSize_eq] at hlo; rw [pageSize_eq]; omega⟩
  have hlt : i < dataPagesNeededFor f := by
    rw [hstart, pageSize_eq] at hhi
    rw [pageSize_eq] at hi
    omega
  have haddr : (userMemoryStart + i) * pageSize + addr % pageSize = addr := by
    rw [← hi]
    exact Nat.div_add_mod' addr pageSize
  have hlayout := Image.layout_page pl haligned f.dataPagesNeededFor_le hlt
  obtain ⟨g, hw, -, -, -, hb⟩ := hload.present _ _ hlayout
  rw [h.page hlt] at hw
  have hoffset : i * pageSize + addr % pageSize = addr - f.memStart := by
    rw [Nat.add_mul] at haddr
    omega
  rw [Mm.readAt, read, hi, hw]
  change u.byte g (addr % pageSize) = _
  rw [hb]
  change f.content i (addr % pageSize) = _
  rw [h.content (Nat.le_of_lt hlt), haddr, hoffset]

/-- `loader_load` of a file linked at `USER_MEMORY_START`, with a free slot and enough frames. -/
theorem loaderLoad_builds (hlive : (s.procs cur).live = true)
    (hat : cur = idlePid ∨ ∃ start, s.Staged cur start)
    (hslot : ∃ p < maxPid, (s.procs p).live = false) (hf : Fits f)
    (hsupply : s.Supply (dataPagesNeededFor f / 1024 + 4) (dataPagesNeededFor f + 2)) :
    ∃ pid u, s.loaderLoad cur f pl = some (pid, u) ∧ (s.procs pid).live = false ∧
      (u.procs pid).live = true ∧ Built s u pid pl f := by
  have hstart : f.memStart = userMemoryStart * pageSize := hf.start
  have haligned : f.memStart % pageSize = 0 := by rw [hstart, Nat.mul_mod_left]
  have hpages : ∀ i < dataPagesNeededFor f, pdEntryFor (f.page i) ≠ 0 := by
    intro i hi
    rw [hf.page hi, pdEntryFor, userMemoryStart]
    omega
  have hrounds := hf.tableRounds_le
  have htemp : cur = idlePid ∨ s.HasTable cur (pdEntryFor userMemoryStart) := by
    refine hat.imp_right ?_
    rintro ⟨start, hs⟩
    exact hs.hasTable
  obtain ⟨pid, u, h, -⟩ := loaderLoad_total (k := 0) (n := 0) pl htemp hslot haligned hpages
    (hsupply.mono (by omega) (by omega))
  obtain ⟨hfree, -, -, hload, -⟩ := loaderLoad_spec hlive h
  obtain ⟨htable, hkernel, hnext⟩ := loaderLoad_dirs hlive h
  have hpresent : ∀ {page}, (u.word pid page).p = true → u.word pid page ≠ .zero := by
    intro page hp h0
    rw [h0] at hp
    cases hp
  have hlayout : ∀ {page}, u.word pid page ≠ .zero →
      f.layout pl (dataPagesNeededFor f) page ≠ none := fun hne hnone =>
    hne (hload.absent _ hnone)
  have hmapped : ∀ {page}, f.layout pl (dataPagesNeededFor f) page ≠ none →
      u.word pid page ≠ .zero := by
    intro page hpage
    obtain ⟨x, hx⟩ := Option.ne_none_iff_exists'.1 hpage
    obtain ⟨g, hw, -⟩ := hload.present page x hx
    rw [hw]
    exact fun h0 => Bool.false_ne_true (congrArg MmPage.p h0).symm
  refine ⟨pid, u, h, hfree, (hload.live pid).2 (.inr rfl), ?_⟩
  constructor
  case data =>
    intro addr hlo hhi
    have hcount := hf.count
    have hmem := hf.mem
    rw [hload.readAt hf hlo (by rw [hcount, pageSize_eq]; omega), if_pos hhi]
  case zero =>
    intro addr hlo hhi
    rw [hload.readAt hf (hf.disk.trans hlo) hhi, if_neg (by omega)]
  case count => exact hf.count
  case pages =>
    intro i hi
    have hpage := Image.layout_page pl haligned f.dataPagesNeededFor_le hi
    obtain ⟨g, hw, hzone, hfree, hused, -⟩ := hload.present _ _ hpage
    rw [hf.page hi] at hw
    exact ⟨g, hzone, hfree, hused, hw⟩
  case own =>
    intro page page' hp hp' hbase
    exact hload.inj page page' (hlayout (hpresent hp)) (hlayout (hpresent hp')) hbase
  case next =>
    have hlt : userMemoryStart + dataPagesNeededFor f < pageCount :=
      Nat.lt_of_le_of_lt hf.lt (by decide)
    rw [hnext]
    exact Nat.mod_eq_of_lt hlt
  case only =>
    intro page hne
    refine (Image.layout_ne_none (hlayout hne)).imp_right ?_
    rintro ⟨i, hi, rfl⟩
    exact ⟨i, hi, hf.page hi⟩
  case tables =>
    intro i hi
    obtain rfl | ⟨j, hj, rfl⟩ := (htable i).1 hi
    · refine ⟨taskKStack, rfl, hmapped fun hnone => ?_⟩
      have hstack := (Image.layout_eq_none.1 hnone).1
      cases pl <;> cases hstack
    · refine ⟨f.page j, rfl, hmapped fun hnone => ?_⟩
      exact (Image.layout_eq_none.1 hnone).2 j hj rfl
  case kernelTable => exact hkernel

theorem loaderLoad_builds_task : ∃ (pid : Pid) (u : Mm),
    boot.loaderLoad idlePid (smallImage 0x400000) .user = some (pid, u) ∧
    Built boot u pid .user (smallImage 0x400000) := by
  have hidle : (boot.procs idlePid).live = true := rfl
  have hfits : Fits (smallImage 0x400000) := ⟨rfl, by decide, by decide, by decide⟩
  obtain ⟨pid, u, h, -, -, hbuilt⟩ := loaderLoad_builds hidle (.inl rfl) ⟨1, by decide, rfl⟩ hfits
    ⟨by decide +kernel, by decide +kernel⟩
  exact ⟨pid, u, h, hbuilt⟩

end

end Mm
end SpuriOS
