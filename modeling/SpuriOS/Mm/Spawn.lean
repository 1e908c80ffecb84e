import SpuriOS.Mm.Directories

/-! # What a new process is made of

The words of the process that `loader_load` or `fork` makes, and what stays of the others. -/

namespace SpuriOS

/-- A page of a new process: whether it is the user's, and what was written to its frame. -/
structure NewPage where
  us : Bool
  content : Option (Nat → Byte)

/-- The pages that `create_stacks_for` maps. -/
def stackPages (pl : Privilege) : Nat → Option NewPage :=
  let kernelStack : Nat → Option NewPage :=
    Function.update (fun _ => none) taskKStack (some ⟨false, none⟩)
  match pl with
  | .kernel => kernelStack
  | .user => Function.update kernelStack taskUStack (some ⟨true, none⟩)

namespace Image

/-- The page of round `i` of `copy_data_from`. -/
def page (f : Image) (i : Nat) : Nat := Word32.add f.memStart (i * pageSize) / pageSize

/-- The pages after `n` rounds of `copy_data_from`. -/
def layout (f : Image) (pl : Privilege) : Nat → Nat → Option NewPage
  | 0 => stackPages pl
  | n + 1 => Function.update (f.layout pl n) (f.page n) (some ⟨pl = .user, some (f.content n)⟩)

/-- The image does not reach the stacks. -/
def ClearOfStacks (f : Image) (pl : Privilege) : Prop :=
  ∀ i < dataPagesNeededFor f, stackPages pl (f.page i) = none

theorem dataPagesNeededFor_le (f : Image) : dataPagesNeededFor f ≤ pageCount := by
  rw [dataPagesNeededFor, pageSize_eq]
  have hlt : Word32.sub f.memEnd f.memStart < 2 ^ 32 := Nat.mod_lt _ (by decide)
  have hcount : pageCount = 2 ^ 20 := rfl
  split <;> omega

theorem page_inj {f : Image} {i j : Nat} (hf : f.memStart % pageSize = 0) (hi : i < pageCount)
    (hj : j < pageCount) (h : f.page i = f.page j) : i = j := by
  have hcount : pageCount = 2 ^ 20 := rfl
  rw [page, page, Word32.add, Word32.add, Word32.wrap, Word32.wrap] at h
  rw [pageSize_eq] at h hf
  omega

theorem page_lt (f : Image) (i : Nat) : f.page i < pageCount := by
  have hcount : pageCount = 2 ^ 20 := rfl
  rw [page, Word32.add, Word32.wrap, pageSize_eq]
  omega

theorem layout_eq_none {f : Image} {pl : Privilege} {n page : Nat} :
    f.layout pl n page = none ↔ stackPages pl page = none ∧ ∀ i < n, f.page i ≠ page := by
  induction n with
  | zero => simp [layout]
  | succ n ih =>
    rw [layout]
    by_cases hpage : page = f.page n
    · subst hpage
      rw [Function.update_self]
      refine iff_of_false (by simp) fun h => h.2 n (Nat.lt_succ_self n) rfl
    · rw [Function.update_of_ne hpage, ih]
      refine and_congr_right fun _ => ⟨fun h i hi => ?_, fun h i hi => h i (by omega)⟩
      obtain hlt | rfl := Nat.lt_succ_iff_lt_or_eq.1 hi
      · exact h i hlt
      · exact Ne.symm hpage

end Image

namespace Mm

/-! ## A new slot -/

/-- Slot `pid` was free and is taken by a process with an empty directory. -/
structure NewPcb (s u : Mm) (pid : Pid) (pl : Privilege) : Prop where
  lt : pid < maxPid
  free : (s.procs pid).live = false
  others : ∀ q ≠ pid, u.procs q = s.procs q
  live : (u.procs pid).live = true
  level : (u.procs pid).privilegeLevel = pl
  kernelTable : (u.procs pid).kernelTable = s.kernelPagetable
  dir : (u.procs pid).dir = emptyDir
  esp : (u.procs pid).esp = inSwitchEsp pl
  user : s.KeepsUser u
  byte : u.byte = s.byte
  limit : u.limit = s.limit
  taskInit : u.taskInit = s.taskInit

section
variable {s u t s₀ : Mm} {p q cur pid father child : Pid} {page page' g n : Nat}
  {next : Fin pageCount} {pl : Privilege} {f : Image} {us : Bool} {D : Prop}
  {what : Nat → Option NewPage}

theorem newPcb_spec (h : s.newPcb pl next = some (pid, u)) : s.NewPcb u pid pl := by
  simp only [newPcb, Option.bind_eq_bind, Option.bind_eq_some_iff] at h
  obtain ⟨p, hp, ⟨cr3, s₁⟩, hk, h⟩ := h
  obtain ⟨-, hhi, -, rfl⟩ := kalloc_spec hk
  cases h
  have hlt := List.mem_of_find?_eq_some hp
  have hfree := List.find?_some hp
  exact {
    lt := List.mem_range.1 hlt
    free := by simpa using hfree
    others := fun q hq => setPcb_of_ne hq
    live := by rw [setPcb_self]
    level := by rw [setPcb_self]
    kernelTable := by rw [setPcb_self]
    dir := by rw [setPcb_self]
    esp := by rw [setPcb_self]
    user := fun f hf => Function.update_of_ne (by omega) ..
    byte := rfl
    limit := rfl
    taskInit := rfl }

theorem newPcb_next (h : s.newPcb pl next = some (pid, u)) :
    (u.procs pid).nextEmptyPage = next := by
  simp only [newPcb, Option.bind_eq_bind, Option.bind_eq_some_iff] at h
  obtain ⟨p, -, ⟨cr3, s₁⟩, -, h⟩ := h
  cases h
  rw [setPcb_self]

theorem NewPcb.word (h : s.NewPcb u pid pl) : u.word pid page = .zero := by
  rw [Mm.word, entry, h.dir]
  rfl

theorem NewPcb.word_of_ne (h : s.NewPcb u pid pl) (hq : q ≠ pid) : u.word q = s.word q :=
  word_congr (by rw [h.others q hq])

/-! ## Loading -/

/-- While process `cur` makes process `pid` from state `s`, with the pages that `what` says. If
`D` holds, none of these was mapped over another one. -/
structure Loading (s u : Mm) (cur pid : Pid) (pl : Privilege) (D : Prop)
    (what : Nat → Option NewPage) : Prop where
  live : ∀ q, (u.procs q).live = true ↔ (s.procs q).live = true ∨ q = pid
  level : ∀ q ≠ pid, (u.procs q).privilegeLevel = (s.procs q).privilegeLevel
  levelNew : (u.procs pid).privilegeLevel = pl
  limit : u.limit = s.limit
  others : ∀ q page, q ≠ pid → (q = cur → page ≠ userMemoryStart) → u.word q page = s.word q page
  keeps : ∀ g, 0x400 ≤ g → s.used g = true → u.used g = true
  byte : ∀ g, (0x400 ≤ g → s.used g = true ∨ u.used g = false) → u.byte g = s.byte g
  zone : ∀ page, what page ≠ none → UserPage page
  absent : ∀ page, what page = none → u.word pid page = .zero
  present : ∀ page x, what page = some x → ∃ g, u.word pid page = mappedEntry g x.us ∧ 0x400 ≤ g ∧
    s.used g = false ∧ u.used g = true ∧ u.byte g = x.content.getD (s.byte g)
  inj : ∀ page page', what page ≠ none → what page' ≠ none →
    (u.word pid page).base = (u.word pid page').base → page = page'
  covered : D → ∀ g, 0x400 ≤ g → u.used g = true →
    s.used g = true ∨ ∃ page, what page ≠ none ∧ (u.word pid page).base = g

theorem NewPcb.loading (h : s.NewPcb u pid pl) : Loading s u cur pid pl D fun _ => none where
  live q := by
    by_cases hq : q = pid
    · subst hq
      simp [h.live]
    · rw [h.others q hq]
      simp [hq]
  level q hq := by rw [h.others q hq]
  levelNew := h.level
  limit := h.limit
  others q page hq _ := congrFun (h.word_of_ne hq) page
  keeps g hg hused := (h.user g hg).trans hused
  byte g _ := congrFun h.byte g
  zone _ hx := absurd rfl hx
  absent _ _ := h.word
  present _ _ hx := by cases hx
  inj _ _ hpage := absurd rfl hpage
  covered _ g hg hused := .inl ((h.user g hg).symm.trans hused)

/-- A fresh frame is mapped at a page of the new process. -/
theorem Loading.round {x : NewPage} (h : Loading s u cur pid pl D what) (htakes : Takes g u t)
    (hzone : UserPage page) (halike : u.Alike t)
    (hothers : ∀ q page, q ≠ pid → (q = cur → page ≠ userMemoryStart) →
      t.word q page = u.word q page)
    (hpage : t.word pid page = mappedEntry g x.us)
    (hpages : ∀ page', page' ≠ page → t.word pid page' = u.word pid page')
    (hbyte : t.byte = Function.update u.byte g (x.content.getD (u.byte g)))
    (hD : D → what page = none) :
    Loading s t cur pid pl D (Function.update what page (some x)) := by
  have hne : ∀ page' y, what page' = some y → (u.word pid page').base ≠ g := by
    intro page' y hy hbase
    obtain ⟨g', hw, -, -, hused, -⟩ := h.present page' y hy
    rw [hw] at hbase
    have hg : g' = g := hbase
    rw [hg, htakes.free] at hused
    cases hused
  have hgfree : s.used g = false := by
    by_contra hused
    rw [Bool.not_eq_false] at hused
    have hu := h.keeps g htakes.zone hused
    rw [htakes.free] at hu
    cases hu
  exact {
    live := fun q => by rw [halike.live q]; exact h.live q
    level := fun q hq => (halike.level q).trans (h.level q hq)
    levelNew := (halike.level pid).trans h.levelNew
    limit := halike.limit.trans h.limit
    others := fun q page hq hcur => (hothers q page hq hcur).trans (h.others q page hq hcur)
    keeps := fun g' hg' hused => (htakes.used g' hg').2 (.inl (h.keeps g' hg' hused))
    byte := fun g' hg' => by
      have hg : g' ≠ g := by
        rintro rfl
        obtain hs | ht := hg' htakes.zone
        · rw [hgfree] at hs
          cases hs
        · rw [(htakes.used g' htakes.zone).2 (.inr rfl)] at ht
          cases ht
      rw [hbyte, Function.update_of_ne hg]
      refine h.byte g' fun hzone => (hg' hzone).imp_right fun ht => ?_
      rw [← Bool.not_eq_true] at ht ⊢
      exact fun hu => ht ((htakes.used g' hzone).2 (.inl hu))
    zone := fun page' hpage' => by
      by_cases hp : page' = page
      · exact hp ▸ hzone
      · rw [Function.update_of_ne hp] at hpage'
        exact h.zone page' hpage'
    absent := fun page' hpage' => by
      by_cases hp : page' = page
      · rw [hp, Function.update_self] at hpage'
        cases hpage'
      · rw [Function.update_of_ne hp] at hpage'
        exact (hpages page' hp).trans (h.absent page' hpage')
    present := fun page' y hy => by
      by_cases hp : page' = page
      · subst hp
        rw [Function.update_self] at hy
        cases hy
        refine ⟨g, hpage, htakes.zone, hgfree, (htakes.used g htakes.zone).2 (.inr rfl), ?_⟩
        rw [hbyte, Function.update_self, h.byte g fun _ => .inr htakes.free]
      · rw [Function.update_of_ne hp] at hy
        obtain ⟨g', hw, hg', hfree, hused, hb⟩ := h.present page' y hy
        have hg : g' ≠ g := by
          have := hne page' y hy
          rwa [hw] at this
        refine ⟨g', (hpages page' hp).trans hw, hg', hfree, (htakes.used g' hg').2 (.inl hused), ?_⟩
        rw [hbyte, Function.update_of_ne hg, hb]
    inj := fun page₁ page₂ h₁ h₂ heq => by
      by_cases hp₁ : page₁ = page
      · by_cases hp₂ : page₂ = page
        · rw [hp₁, hp₂]
        · rw [Function.update_of_ne hp₂] at h₂
          obtain ⟨y, hy⟩ := Option.ne_none_iff_exists'.1 h₂
          rw [hp₁, hpage, hpages page₂ hp₂] at heq
          exact absurd heq.symm (hne page₂ y hy)
      · rw [Function.update_of_ne hp₁] at h₁
        by_cases hp₂ : page₂ = page
        · obtain ⟨y, hy⟩ := Option.ne_none_iff_exists'.1 h₁
          rw [hp₂, hpage, hpages page₁ hp₁] at heq
          exact absurd heq (hne page₁ y hy)
        · rw [Function.update_of_ne hp₂] at h₂
          rw [hpages page₁ hp₁, hpages page₂ hp₂] at heq
          exact h.inj page₁ page₂ h₁ h₂ heq
    covered := fun hd g' hg' hused => by
      obtain hu | rfl := (htakes.used g' hg').1 hused
      · refine (h.covered hd g' hg' hu).imp_right fun ⟨page', hpage', hbase⟩ => ?_
        have hp : page' ≠ page := fun hp => hpage' (hp ▸ hD hd)
        exact ⟨page', by rwa [Function.update_of_ne hp], by rw [hpages page' hp, hbase]⟩
      · exact .inr ⟨page, by simp, by rw [hpage]; rfl⟩ }

/-- Outside the pages of the new process and the page that the frames are filled through, nothing
changes. -/
theorem Loading.undo (h : Loading s u cur pid pl D what) (hne : pid ≠ cur) (halike : u.Alike t)
    (hw : ∀ q page, (q = cur → page ≠ userMemoryStart) → t.word q page = u.word q page)
    (hu : u.KeepsUser t) (hb : t.byte = u.byte) : Loading s t cur pid pl D what := by
  have hpid : ∀ page, t.word pid page = u.word pid page := fun page =>
    hw pid page fun hcur => absurd hcur hne
  exact {
    live := fun q => by rw [halike.live q]; exact h.live q
    level := fun q hq => (halike.level q).trans (h.level q hq)
    levelNew := (halike.level pid).trans h.levelNew
    limit := halike.limit.trans h.limit
    others := fun q page hq hcur => (hw q page hcur).trans (h.others q page hq hcur)
    keeps := fun g hg hused => (hu g hg).trans (h.keeps g hg hused)
    byte := fun g hg => by
      rw [hb]
      exact h.byte g fun hzone => by rw [← hu g hzone]; exact hg hzone
    zone := h.zone
    absent := fun page hpage => (hpid page).trans (h.absent page hpage)
    present := fun page x hx => by
      obtain ⟨g, hg, hzone, hfree, hused, hbyte⟩ := h.present page x hx
      exact ⟨g, (hpid page).trans hg, hzone, hfree, (hu g hzone).trans hused, by rw [hb, hbyte]⟩
    inj := fun page page' hpage hpage' heq => by
      rw [hpid, hpid] at heq
      exact h.inj page page' hpage hpage' heq
    covered := fun hd g hg hused => by
      refine (h.covered hd g hg ((hu g hg).symm.trans hused)).imp_right ?_
      rintro ⟨page, hpage, hbase⟩
      exact ⟨page, hpage, by rw [hpid, hbase]⟩ }

/-- A fresh frame is mapped at a page of the new process, and at the page that it is filled
through. -/
theorem map_both {u₁ u₂ : Mm} {pl' : Privilege} (hne : pid ≠ cur) (h₁ : u.alloc = some (g, u₁))
    (h₂ : u₁.mmMapFrame g page pid pl' = some u₂)
    (h₃ : u₂.mmMapFrame g userMemoryStart cur .kernel = some t) :
    Takes g u t ∧ 0x400 ≤ page ∧ u.Alike t ∧ t.byte = u.byte ∧
      (∀ q page, q ≠ pid → (q = cur → page ≠ userMemoryStart) → t.word q page = u.word q page) ∧
      t.word pid page = mappedEntry g (pl' = .user) ∧
      (∀ page', page' ≠ page → t.word pid page' = u.word pid page') ∧
      t.word cur userMemoryStart ≠ .zero := by
  obtain ⟨htakes, hw₁, ha₁, hb₁, -⟩ := alloc_takes h₁
  obtain ⟨hw₂, ha₂, hu₂, hpage, -, hb₂⟩ := mmMapFrame_spec h₂
  obtain ⟨hw₃, ha₃, hu₃, -, -, hb₃⟩ := mmMapFrame_spec h₃
  rw [hw₂, hw₁] at hw₃
  refine ⟨(htakes.keep hu₂).keep hu₃, le_of_pdEntryFor hpage, ha₁.trans (ha₂.trans ha₃),
    by rw [hb₃, hb₂, hb₁], ?_, ?_, ?_, ?_⟩
  · intro q page' hq hcur
    rw [hw₃]
    by_cases hqc : q = cur
    · rw [setWord_of_page (hcur hqc), setWord_of_proc hq]
    · rw [setWord_of_proc hqc, setWord_of_proc hq]
  · rw [hw₃, setWord_of_proc hne, setWord_self]
  · intro page' hpage'
    rw [hw₃, setWord_of_proc hne, setWord_of_page hpage']
  · rw [hw₃, setWord_self]
    intro h0
    cases h0

theorem createStacksFor_spec (hne : pid ≠ cur) (h₀ : Loading s u cur pid pl D fun _ => none)
    (h : u.createStacksFor cur pid pl = some t) :
    Loading s t cur pid pl D (stackPages pl) ∧ t.word cur userMemoryStart ≠ .zero := by
  simp only [createStacksFor, Option.bind_eq_bind, Option.bind_eq_some_iff] at h
  obtain ⟨⟨g, u₁⟩, h₁, u₂, h₂, u₃, h₃, h⟩ := h
  obtain ⟨htakes, hlo, ha, hb, hothers, hpage, hpages, htemp⟩ := map_both hne h₁ h₂ h₃
  have hstack := h₀.round (x := ⟨false, none⟩) htakes ⟨hlo, by decide⟩ ha hothers hpage hpages
    (by rw [hb]; exact (Function.update_eq_self ..).symm) fun _ => rfl
  cases pl with
  | kernel =>
    cases h
    exact ⟨hstack, htemp⟩
  | user =>
    simp only [Option.bind_eq_some_iff] at h
    obtain ⟨⟨g', u₄⟩, h₄, h₅⟩ := h
    obtain ⟨htakes', hw₄, ha₄, hb₄, -⟩ := alloc_takes h₄
    obtain ⟨hw₅, ha₅, hu₅, -, -, hb₅⟩ := mmMapFrame_spec h₅
    rw [hw₄] at hw₅
    refine ⟨hstack.round (x := ⟨true, none⟩) (htakes'.keep hu₅) ⟨by decide, by decide⟩
      (ha₄.trans ha₅) ?_ ?_ ?_ ?_ ?_, ?_⟩
    · intro q page hq _
      rw [hw₅, setWord_of_proc hq]
    · rw [hw₅, setWord_self]
      rfl
    · intro page' hpage'
      rw [hw₅, setWord_of_page hpage']
    · rw [hb₅, hb₄]
      exact (Function.update_eq_self ..).symm
    · exact fun _ => Function.update_of_ne (by decide) ..
    · rw [hw₅, setWord_of_proc hne.symm]
      exact htemp

/-- A round of `copy_data_from`. -/
theorem copyData_spec (hne : pid ≠ cur) (h₀ : Loading s u cur pid pl D (f.layout pl n))
    (hD : D → f.layout pl n (f.page n) = none) (h : u.copyData f cur pid pl n = some t) :
    Loading s t cur pid pl D (f.layout pl (n + 1)) ∧ t.word cur userMemoryStart ≠ .zero := by
  simp only [copyData, Option.bind_eq_bind, Option.bind_eq_some_iff] at h
  obtain ⟨⟨g, u₁⟩, h₁, u₂, h₂, u₃, h₃, h⟩ := h
  cases h
  obtain ⟨htakes, hlo, ha, hb, hothers, hpage, hpages, htemp⟩ := map_both hne h₁ h₂ h₃
  have htakes' : Takes g u (u₃.fill g (f.content n)) :=
    ⟨htakes.zone, htakes.lt, htakes.free, htakes.used⟩
  have ha' : u.Alike (u₃.fill g (f.content n)) := ⟨ha.live, ha.level, ha.limit⟩
  have hb' : (u₃.fill g (f.content n)).byte = Function.update u.byte g (f.content n) :=
    congrArg (fun byte : Nat → Nat → Byte => Function.update byte g (f.content n)) hb
  exact ⟨h₀.round (x := ⟨pl = .user, some (f.content n)⟩) htakes' ⟨hlo, f.page_lt n⟩ ha' hothers
    hpage hpages hb' hD, htemp⟩

theorem copyDataFrom_spec (hne : pid ≠ cur) (h₀ : Loading s u cur pid pl (f.ClearOfStacks pl)
    (stackPages pl)) (htemp : u.word cur userMemoryStart ≠ .zero)
    (h : u.copyDataFrom f cur pid pl = some t) :
    Loading s t cur pid pl (f.ClearOfStacks pl) (f.layout pl (dataPagesNeededFor f)) ∧
      t.word cur userMemoryStart ≠ .zero := by
  rw [copyDataFrom] at h
  split at h
  · cases h
  next hf =>
    have hclear : ∀ n, n < dataPagesNeededFor f → f.ClearOfStacks pl →
        f.layout pl n (f.page n) = none := by
      intro n hn hclear
      have hcount := f.dataPagesNeededFor_le
      have hf : f.memStart % pageSize = 0 := by
        by_contra hne
        exact hf ⟨by omega, hne⟩
      refine Image.layout_eq_none.2 ⟨hclear n hn, fun i hi heq => ?_⟩
      have := Image.page_inj hf (by omega) (by omega) heq
      omega
    refine Loop.foldlM_range (P := fun n t =>
      Loading s t cur pid pl (f.ClearOfStacks pl) (f.layout pl n) ∧
        t.word cur userMemoryStart ≠ .zero) h ?_ ⟨h₀, htemp⟩
    intro n u' t' hn hu' ht'
    exact copyData_spec hne hu'.1 (hclear n hn) ht'

/-- What `loader_load` does: the page of `USER_MEMORY_START` of the process that loads is mapped
anew, and cleared in the idle process. -/
theorem loaderLoad_spec (hcur : (s.procs cur).live = true)
    (h : s.loaderLoad cur f pl = some (pid, u)) :
    (s.procs pid).live = false ∧ pid < maxPid ∧ pid ≠ cur ∧
      Loading s u cur pid pl (f.ClearOfStacks pl) (f.layout pl (dataPagesNeededFor f)) ∧
      u.word cur userMemoryStart = if cur = idlePid then .zero else
        mappedEntry (s.word cur userMemoryStart).base ((s.procs cur).privilegeLevel = .user) := by
  simp only [loaderLoad, Option.bind_eq_bind, Option.bind_eq_some_iff] at h
  obtain ⟨oldFrame, hold, ⟨pid', s₁⟩, h₁, s₂, h₂, s₃, h₃, s₄, h₄, h⟩ := h
  cases h
  dsimp only at h₂ h₃ h₄
  have hpcb := newPcb_spec h₁
  have hne : pid' ≠ cur := by
    rintro rfl
    have := hpcb.free
    rw [hcur] at this
    cases this
  obtain ⟨hstacks, htemp⟩ := createStacksFor_spec (D := f.ClearOfStacks pl) hne hpcb.loading h₂
  obtain ⟨hload, htemp⟩ := copyDataFrom_spec hne hstacks htemp h₃
  refine ⟨hpcb.free, hpcb.lt, hne, ?_⟩
  rw [undoTempMappingOn, mmUnmapPage] at h₄
  obtain ⟨hw, ha, hpde, -⟩ := setPte_spec (e := .zero) (pde_of_word htemp)
  have hu : (s₃.setPte cur userMemoryStart .zero).used = s₃.used := rfl
  have hb : (s₃.setPte cur userMemoryStart .zero).byte = s₃.byte := rfl
  generalize s₃.setPte cur userMemoryStart .zero = s' at h₄ hw ha hpde hu hb
  split at h₄
  next hidle =>
    cases h₄
    rw [if_pos hidle]
    refine ⟨hload.undo hne ha ?_ (fun f _ => congrFun hu f) hb, by rw [hw, setWord_self]⟩
    intro q page hq
    rw [hw]
    by_cases hqc : q = cur
    · rw [setWord_of_page (hq hqc)]
    · rw [setWord_of_proc hqc]
  next hidle =>
    obtain ⟨hw', ha', hu', -, -, hb'⟩ := mmMapFrame_spec h₄
    rw [hw, setWord_setWord] at hw'
    rw [if_neg hidle]
    have hframe : oldFrame = (s.word cur userMemoryStart).base := by
      rw [Mm.oldFrame, if_neg hidle, Option.map_eq_some_iff] at hold
      obtain ⟨e, he, rfl⟩ := hold
      rw [word, he]
      rfl
    have hlevel : (s'.procs cur).privilegeLevel = (s.procs cur).privilegeLevel :=
      (ha.level cur).trans (hload.level cur hne.symm)
    refine ⟨hload.undo hne (ha.trans ha') ?_ (fun f hf => (hu' f hf).trans (congrFun hu f))
      (hb'.trans hb), ?_⟩
    · intro q page hq
      rw [hw']
      by_cases hqc : q = cur
      · rw [setWord_of_page (hq hqc)]
      · rw [setWord_of_proc hqc]
    · rw [hw', setWord_self, hframe, hlevel]

/-! ## Forking -/

/-- The entry that the child gets for a page of its father. -/
def childWord (page : Nat) (e : MmPage) : MmPage :=
  if e.p then
    if page = taskKStack then .zero
    else if e.shared then { mappedEntry e.base e.us with shared := true }
    else { mappedEntry e.base e.us with cor := true, rw := false }
  else e

/-- The entry that the father keeps. -/
def fatherWord (page : Nat) (e : MmPage) : MmPage :=
  if e.p ∧ page ≠ taskKStack ∧ ¬e.shared then { e with cor := true, rw := false } else e

/-- The pages before page `n` have been copied, from a state `s` in which the child had none. -/
structure Copying (s u : Mm) (father child : Pid) (n : Nat) : Prop where
  alike : s.Alike u
  user : s.KeepsUser u
  byte : u.byte = s.byte
  others : ∀ q, q ≠ father → q ≠ child → u.word q = s.word q
  ofFather : ∀ page, u.word father page =
    if 0x400 ≤ page ∧ page < n then fatherWord page (s.word father page) else s.word father page
  ofChild : ∀ page, u.word child page =
    if 0x400 ≤ page ∧ page < n then childWord page (s.word father page) else .zero

/-- The next page is copied. -/
theorem Copying.copied (h : Copying s u father child n) (hn : 0x400 ≤ n) (halike : u.Alike t)
    (hu : u.KeepsUser t) (hb : t.byte = u.byte)
    (hothers : ∀ q, q ≠ father → q ≠ child → t.word q = u.word q)
    (hfather : ∀ page, t.word father page =
      if page = n then fatherWord n (s.word father n) else u.word father page)
    (hchild : ∀ page, t.word child page =
      if page = n then childWord n (s.word father n) else u.word child page) :
    Copying s t father child (n + 1) where
  alike := h.alike.trans halike
  user g hg := (hu g hg).trans (h.user g hg)
  byte := hb.trans h.byte
  others q hf hc := (hothers q hf hc).trans (h.others q hf hc)
  ofFather page := by
    rw [hfather]
    by_cases hp : page = n
    · subst hp
      rw [if_pos rfl, if_pos ⟨hn, Nat.lt_succ_self _⟩]
    · rw [if_neg hp, h.ofFather]
      exact if_congr (and_congr_right fun _ => by omega) rfl rfl
  ofChild page := by
    rw [hchild]
    by_cases hp : page = n
    · subst hp
      rw [if_pos rfl, if_pos ⟨hn, Nat.lt_succ_self _⟩]
    · rw [if_neg hp, h.ofChild]
      exact if_congr (and_congr_right fun _ => by omega) rfl rfl

@[simp] theorem childWord_zero : childWord page .zero = .zero := rfl

@[simp] theorem fatherWord_zero : fatherWord page .zero = .zero := rfl

@[simp] theorem fatherWord_p {e : MmPage} : (fatherWord page e).p = e.p := by
  rw [fatherWord]
  split <;> rfl

@[simp] theorem fatherWord_base {e : MmPage} : (fatherWord page e).base = e.base := by
  rw [fatherWord]
  split <;> rfl

/-- What is present is so for the child, in the same frame, but for the kernel stack. -/
theorem childWord_p {e : MmPage} :
    (childWord page e).p = true ↔ e.p = true ∧ page ≠ taskKStack := by
  rw [childWord]
  split
  next hp =>
    split
    next hstack => simp [hp, hstack, MmPage.zero]
    next hstack => split <;> simp [hp, hstack, mappedEntry]
  next hp => simp [hp]

theorem childWord_base {e : MmPage} (h : (childWord page e).p = true) :
    (childWord page e).base = e.base := by
  obtain ⟨hp, hstack⟩ := childWord_p.1 h
  rw [childWord, if_pos hp, if_neg hstack]
  split <;> rfl

/-- A round of `copy_nonkernel_pages`, in a page table of the father. -/
theorem copyPage_spec (hne : child ≠ father) (h₀ : Copying s u father child n) (hn : 0x400 ≤ n)
    (htable : (u.procs father).dir.pde (pdEntryFor n) ≠ none)
    (h : u.copyPage father child n = some t) :
    Copying s t father child (n + 1) ∧ (t.procs father).dir.pde = (u.procs father).dir.pde := by
  have hword : u.word father n = s.word father n := by
    rw [h₀.ofFather, if_neg (by omega)]
  rw [copyPage, ← word_of_pde htable, hword] at h
  generalize he : s.word father n = e at h hword
  split at h
  next hp =>
    have hzero : e ≠ .zero := by
      rintro rfl
      cases hp
    split at h
    next hstack =>
      cases h
      refine ⟨h₀.copied hn (.refl u) (fun _ _ => rfl) rfl (fun _ _ _ => rfl) (fun page => ?_)
        fun page => ?_, rfl⟩
      · have hkeep : fatherWord n e = e := if_neg fun hc => hc.2.1 hstack
        rw [he, hkeep]
        split
        next hpage => rw [hpage, hword]
        · rfl
      · rw [he, childWord, if_pos hp, if_pos hstack]
        split
        next hpage => rw [hpage, h₀.ofChild, if_neg (by omega)]
        · rfl
    next hstack =>
      obtain ⟨u₁, h₁, rfl⟩ := Option.map_eq_some_iff.1 h
      obtain ⟨hw₁, ha₁, hu₁, -, -, hb₁⟩ := mmMapFrame_spec h₁
      have hpcb := mmMapFrame_others h₁ hne.symm
      have hlevel : decide ((if e.us = true then Privilege.user else .kernel) = .user) = e.us := by
        cases e.us <;> rfl
      rw [hlevel] at hw₁
      have hchild₁ : u₁.word child n = mappedEntry e.base e.us := by rw [hw₁, setWord_self]
      have hmapped : u₁.word child n ≠ .zero := by
        rw [hchild₁]
        intro h0
        cases h0
      split
      next hshared =>
        obtain ⟨hw, ha⟩ := modifyPte_spec (g := fun e => { e with shared := true }) hmapped
        rw [hchild₁, hw₁, setWord_setWord] at hw
        refine ⟨h₀.copied hn (ha₁.trans ha) hu₁ hb₁ (fun q hf hc => ?_) (fun page => ?_)
          fun page => ?_, ?_⟩
        · funext page
          rw [hw, setWord_of_proc hc]
        · have hkeep : fatherWord n e = e := if_neg fun hc => hc.2.2 hshared
          rw [hw, setWord_of_proc hne.symm, he, hkeep]
          split
          next hpage => rw [hpage, hword]
          · rfl
        · rw [hw, he, childWord, if_pos hp, if_neg hstack, if_pos hshared]
          split
          next hpage => rw [hpage, setWord_self]
          next hpage => rw [setWord_of_page hpage]
        · exact congrArg (fun x => x.dir.pde) ((setPcb_of_ne hne.symm).trans hpcb)
      next hshared =>
        obtain ⟨hw₂, ha₂⟩ := modifyPte_spec
          (g := fun e => { e with cor := true, rw := false }) hmapped
        rw [hchild₁, hw₁, setWord_setWord] at hw₂
        have hpcb₂ : (u₁.modifyPte child n fun e => { e with cor := true, rw := false }).procs
            father = u.procs father := (setPcb_of_ne hne.symm).trans hpcb
        have hu₂ : u.KeepsUser
          (u₁.modifyPte child n fun e => { e with cor := true, rw := false }) := hu₁
        have hb₂ : (u₁.modifyPte child n fun e => { e with cor := true, rw := false }).byte =
          u.byte := hb₁
        generalize u₁.modifyPte child n (fun e => { e with cor := true, rw := false }) = u₂
          at hw₂ ha₂ hpcb₂ hu₂ hb₂ ⊢
        have hfather₂ : u₂.word father n = e := by
          rw [hw₂, setWord_of_proc hne.symm, hword]
        obtain ⟨hw, ha⟩ := modifyPte_spec (g := fun e => { e with cor := true, rw := false })
          (hfather₂.trans_ne hzero)
        rw [hfather₂, hw₂] at hw
        refine ⟨h₀.copied hn (ha₁.trans (ha₂.trans ha)) hu₂ hb₂ (fun q hf hc => ?_) (fun page => ?_)
          fun page => ?_, ?_⟩
        · funext page
          rw [hw, setWord_of_proc hf, setWord_of_proc hc]
        · have hmark : fatherWord n e = { e with cor := true, rw := false } :=
            if_pos ⟨hp, hstack, hshared⟩
          rw [hw, he, hmark]
          split
          next hpage => rw [hpage, setWord_self]
          next hpage => rw [setWord_of_page hpage, setWord_of_proc hne.symm]
        · rw [hw, setWord_of_proc hne, he, childWord, if_pos hp, if_neg hstack, if_neg hshared]
          split
          next hpage => rw [hpage, setWord_self]
          next hpage => rw [setWord_of_page hpage]
        · rw [modifyPte, (setPte_spec (pde_of_word (hfather₂.trans_ne hzero))).2.2.1, hpcb₂]
  next hp =>
    obtain ⟨-, hw, ha, hu, -, hb⟩ := mmSetPtEntry_spec h
    refine ⟨h₀.copied hn ha hu hb (fun q hf hc => ?_) (fun page => ?_) fun page => ?_, ?_⟩
    · funext page
      rw [hw, setWord_of_proc hc]
    · have hkeep : fatherWord n e = e := if_neg fun hc => hp hc.1
      rw [hw, setWord_of_proc hne.symm, he, hkeep]
      split
      next hpage => rw [hpage, hword]
      · rfl
    · rw [hw, he, childWord, if_neg hp]
      split
      next hpage => rw [hpage, setWord_self]
      next hpage => rw [setWord_of_page hpage]
    · rw [mmSetPtEntry_others h hne.symm]

theorem copyTable_spec {i : Nat} (hne : child ≠ father) (h₀ : Copying s u father child (i * 1024))
    (hi : 1 ≤ i) (h : u.copyTable father child i = some t) :
    Copying s t father child ((i + 1) * 1024) := by
  have hentry : ∀ page, i * 1024 ≤ page → page < (i + 1) * 1024 → pdEntryFor page = i := by
    intro page hlo hhi
    rw [pdEntryFor]
    omega
  rw [copyTable] at h
  split at h
  next hnone =>
    cases h
    -- without a page table the father has nothing there
    have hzero : ∀ page, i * 1024 ≤ page → page < (i + 1) * 1024 → s.word father page = .zero := by
      intro page hlo hhi
      have hu : u.word father page = .zero := word_of_no_pde (by rw [hentry page hlo hhi, hnone])
      rwa [h₀.ofFather, if_neg (by omega)] at hu
    refine ⟨h₀.alike, h₀.user, h₀.byte, h₀.others, fun page => ?_, fun page => ?_⟩
    · rw [h₀.ofFather]
      by_cases hpage : i * 1024 ≤ page ∧ page < (i + 1) * 1024
      · rw [hzero page hpage.1 hpage.2, fatherWord_zero, ite_self, ite_self]
      · exact if_congr (and_congr_right fun _ => by omega) rfl rfl
    · rw [h₀.ofChild]
      by_cases hpage : i * 1024 ≤ page ∧ page < (i + 1) * 1024
      · rw [hzero page hpage.1 hpage.2, childWord_zero, ite_self, ite_self]
      · exact if_congr (and_congr_right fun _ => by omega) rfl rfl
  next f hf =>
    suffices hloop : Copying s t father child (i * 1024 + 1024) ∧
        (t.procs father).dir.pde = (u.procs father).dir.pde by
      rw [Nat.add_mul, Nat.one_mul]
      exact hloop.1
    rw [← Nat.add_zero (i * 1024)] at h₀
    refine Loop.foldlM_range (P := fun k t => Copying s t father child (i * 1024 + k) ∧
      (t.procs father).dir.pde = (u.procs father).dir.pde) h ?_ ⟨h₀, rfl⟩
    intro k u' t' hk hu' ht'
    have htable : (u'.procs father).dir.pde (pdEntryFor (i * 1024 + k)) ≠ none := by
      rw [hu'.2, hentry _ (by omega) (by omega), hf]
      simp
    obtain ⟨hcopy, hpde⟩ := copyPage_spec hne hu'.1 (by omega) htable ht'
    rw [Nat.add_assoc] at hcopy
    exact ⟨hcopy, hpde.trans hu'.2⟩

theorem copyNonkernelPages_spec (hne : child ≠ father) (hchild : ∀ page, s.word child page = .zero)
    (h : s.copyNonkernelPages father child = some t) : Copying s t father child pageCount := by
  have h₀ : Copying s s father child (1 * 1024) := by
    refine ⟨.refl s, fun _ _ => rfl, rfl, fun _ _ _ => rfl, fun page => ?_, fun page => ?_⟩
    · rw [if_neg (by omega)]
    · rw [if_neg (by omega), hchild]
  exact Loop.foldlM_range' (P := fun i t => Copying s t father child (i * 1024)) h
    (fun i u' t' hi _ hu' ht' => copyTable_spec hne hu' hi ht') h₀

/-- Process `child` is made from process `father`, with frame `g` for its kernel stack. -/
structure Forked (s u : Mm) (father child : Pid) (g : Nat) : Prop where
  free : (s.procs child).live = false
  lt : child < maxPid
  ne : child ≠ father
  live : ∀ q, (u.procs q).live = true ↔ (s.procs q).live = true ∨ q = child
  level : ∀ q ≠ child, (u.procs q).privilegeLevel = (s.procs q).privilegeLevel
  levelNew : (u.procs child).privilegeLevel = .user
  takes : Takes g s u
  byte : u.byte = Function.update s.byte g (pageOf (s.childStack father))
  others : ∀ q, q ≠ father → q ≠ child → u.word q = s.word q
  ofFather : ∀ page, u.word father page =
    if page = mmTmpPage then .zero
    else if UserPage page then fatherWord page (s.word father page)
    else s.word father page
  ofChild : ∀ page, u.word child page =
    if page = taskKStack then mappedEntry g false
    else if UserPage page then childWord page (s.word father page)
    else .zero

theorem fork_spec (hfather : (s.procs father).live = true) (h : s.fork father = some (child, u)) :
    ∃ g, Forked s u father child g := by
  rw [fork] at h
  split at h
  · cases h
  simp only [Option.bind_eq_bind, Option.bind_eq_some_iff] at h
  obtain ⟨⟨child', s₁⟩, h₁, s₂, h₂, s₃, h₃, h⟩ := h
  cases h
  dsimp only at h₂ h₃
  have hpcb := newPcb_spec h₁
  have hne : child' ≠ father := by
    rintro rfl
    have := hpcb.free
    rw [hfather] at this
    cases this
  have hcopy := copyNonkernelPages_spec hne (fun page => hpcb.word) h₂
  simp only [createChildKernelStack, Option.bind_eq_bind, Option.bind_eq_some_iff] at h₃
  obtain ⟨⟨g, s₄⟩, h₄, s₅, h₅, s₆, h₆, h₃⟩ := h₃
  cases h₃
  dsimp only at h₅ h₆
  obtain ⟨htakes, hw₄, ha₄, hb₄, -⟩ := alloc_takes h₄
  obtain ⟨hw₅, ha₅, hu₅, -, -, hb₅⟩ := mmMapFrame_spec h₅
  obtain ⟨hw₆, ha₆, hu₆, -, hpde₆, hb₆⟩ := mmMapFrame_spec h₆
  have hbyte : s₅.byte = s.byte := hb₅.trans (hb₄.trans (hcopy.byte.trans hpcb.byte))
  -- the father has its kernel stack throughout
  have hstack : s₅.childStack father = s.childStack father := by
    have hword : s₅.word father taskKStack = s.word father taskKStack := by
      have hkeep : ∀ e, fatherWord taskKStack e = e := fun e => if_neg fun hc => hc.2.1 rfl
      rw [hw₅, setWord_of_proc hne.symm, hw₄, hcopy.ofFather, hkeep, ite_self,
        hpcb.word_of_ne hne.symm]
    have htask : s₅.taskInit = s.taskInit := by
      rw [(mmMapFrame_dirs h₅).1.taskInit, (memSeek_onlyDirs h₄).1.taskInit,
        (copyNonkernelPages_dirs hne h₂).1.taskInit, hpcb.taskInit]
    rw [childStack, childStack, kernelStack, kernelStack, hword, hbyte, htask]
  have ha' : s₆.Alike (s₆.fill g (pageOf (s₅.childStack father))) :=
    ⟨fun _ => rfl, fun _ => rfl, rfl⟩
  have hfill : (s₆.fill g (pageOf (s₅.childStack father))).byte =
      Function.update s.byte g (pageOf (s.childStack father)) := by
    rw [fill, hstack, hb₆, hbyte]
  have hpde : ((s₆.fill g (pageOf (s₅.childStack father))).procs father).dir.pde
      (pdEntryFor mmTmpPage) ≠ none := hpde₆
  have hw₇ : (s₆.fill g (pageOf (s₅.childStack father))).word = s₆.word := rfl
  have hu₇ : s₆.KeepsUser (s₆.fill g (pageOf (s₅.childStack father))) := fun _ _ => rfl
  generalize s₆.fill g (pageOf (s₅.childStack father)) = s₇ at ha' hfill hpde hw₇ hu₇ ⊢
  obtain ⟨hw, ha, -⟩ := setPte_spec (e := .zero) hpde
  rw [hw₇, hw₆, setWord_setWord, hw₅, hw₄] at hw
  have hall := hcopy.alike.trans (ha₄.trans (ha₅.trans (ha₆.trans (ha'.trans ha))))
  refine ⟨g, {
    free := hpcb.free
    lt := hpcb.lt
    ne := hne
    live := fun q => ?_
    level := fun q hq => ?_
    levelNew := (hall.level child').trans hpcb.level
    takes := ?_
    byte := ?_
    others := fun q hf hc => ?_
    ofFather := fun page => ?_
    ofChild := fun page => ?_ }⟩
  · rw [mmUnmapPage, hall.live q]
    by_cases hq : q = child'
    · subst hq
      simp [hpcb.live]
    · rw [hpcb.others q hq]
      simp [hq]
  · rw [mmUnmapPage, hall.level q, hpcb.others q hq]
  · refine hpcb.user.takes hpcb.limit (hcopy.user.takes hcopy.alike.limit ?_)
    exact (((htakes.keep hu₅).keep hu₆).keep hu₇).keep fun _ _ => rfl
  · exact hfill
  · funext page
    rw [mmUnmapPage, hw, setWord_of_proc hf, setWord_of_proc hc, hcopy.others q hf hc,
      hpcb.word_of_ne hc]
  · rw [mmUnmapPage, hw]
    split
    next hpage => rw [hpage, setWord_self]
    next hpage =>
      rw [setWord_of_page hpage, setWord_of_proc hne.symm, hcopy.ofFather, hpcb.word_of_ne hne.symm]
      rfl
  · rw [mmUnmapPage, hw, setWord_of_proc hne]
    split
    next hpage => rw [hpage, setWord_self]; rfl
    next hpage =>
      rw [setWord_of_page hpage, hcopy.ofChild, hpcb.word_of_ne hne.symm]
      rfl

end

end Mm
end SpuriOS
