import SpuriOS.Mm.Images
import SpuriOS.Mm.Owned

/-! # What is left in free frames

Two runs of the same calls from states that differ in what is in the free frames. A process reads
the same in both where it has its image or has written before. The frames of the user stack and of
the pages from `palloc` are handed out as they are. -/

namespace SpuriOS
open Transition

namespace Mm

def withBytes (b : Nat → Nat → Byte) (s : Mm) : Mm := { s with byte := b }

/-- The states differ in nothing but the contents of frames. -/
def Twin (s s' : Mm) : Prop := ∃ b, s' = s.withBytes b

/-- Loads, `palloc`, accesses that allocate a page or mark it, and stores. -/
def Allocates (s : Mm) : MmLabel → Prop
  | .load p _ _ => p = idlePid ∨ (s.word p userMemoryStart).p = true
  | .palloc _ | .store .. | .touch .. => True
  | .fault p page => s.isRequested page p = true
  | _ => False

/-- The cells of a process whose contents are its own: those of its image, and those that it has
written. -/
def ownCells (K : Pid → Nat → Nat → Prop) (l : MmLabel) (s u : Mm) (p : Pid) (page k : Nat) :
    Prop :=
  K p page k ∨ match l with
    | .load _ f _ => (s.procs p).live = false ∧ (u.procs p).live = true ∧
      ∃ i < dataPagesNeededFor f, page = f.page i
    | .store q page' offset _ _ => p = q ∧ page = page' ∧ k = offset
    | _ => False

/-- Two runs of the same calls, from states that differ in the free frames of the first one. -/
inductive TwoRuns (reserved : Nat → Bool) : Mm → Mm → (Pid → Nat → Nat → Prop) → Prop
  | start {s s'} : Reach (mmSystem reserved) LoadsOverPage s → s.Twin s' →
    (∀ f, s.used f = true → s'.byte f = s.byte f) → TwoRuns reserved s s' fun _ _ _ => False
  | step {s s' u u' l K} : TwoRuns reserved s s' K → s.Allocates l → MmStep s l u →
    MmStep s' l u' → TwoRuns reserved u u' (ownCells K l s u)

section
variable {reserved : Nat → Bool} {s s' u u' t : Mm} {l : MmLabel} {p q cur pid : Pid}
  {page f i lo hi : Nat} {e : MmPage} {pl : Privilege} {b : Nat → Nat → Byte} {img : Image}
  {next : Fin pageCount} {K : Pid → Nat → Nat → Prop}

/-! ## Both states take the same way -/

theorem Twin.withBytes : s.Twin (s.withBytes b) := ⟨b, rfl⟩

theorem memSeek_withBytes : (s.withBytes b).memSeek lo hi =
    (s.memSeek lo hi).map fun r => (r.1, r.2.withBytes b) := by
  rw [memSeek, memSeek, Option.map_map]
  rfl

theorem needTable_withBytes :
    (s.withBytes b).needTable p page = (s.needTable p page).map (·.withBytes b) := by
  have hprocs : (s.withBytes b).procs = s.procs := rfl
  rw [needTable, needTable, hprocs]
  split
  · rfl
  · cases (s.procs p).dir.pde (pdEntryFor page) with
    | some t => rfl
    | none =>
      rw [kalloc, memSeek_withBytes, kalloc, Option.map_map, Option.map_map]
      rfl

theorem mmMapFrame_withBytes : (s.withBytes b).mmMapFrame f page p pl =
    (s.mmMapFrame f page p pl).map (·.withBytes b) := by
  rw [mmMapFrame, mmMapFrame, needTable_withBytes, Option.map_map, Option.map_map]
  rfl

theorem mmSetPtEntry_withBytes : (s.withBytes b).mmSetPtEntry page e p =
    (s.mmSetPtEntry page e p).map (·.withBytes b) := by
  rw [mmSetPtEntry, mmSetPtEntry]
  split
  · rfl
  · rw [needTable_withBytes, Option.map_map, Option.map_map]
    rfl

theorem alloc_twin (h : s.Twin s') (ha : s.alloc = some (f, u)) :
    ∃ u', s'.alloc = some (f, u') ∧ u.Twin u' := by
  obtain ⟨b, rfl⟩ := h
  refine ⟨u.withBytes b, ?_, .withBytes⟩
  rw [alloc] at ha
  rw [alloc, memSeek_withBytes]
  exact Option.map_eq_some_iff.2 ⟨_, ha, rfl⟩

theorem mmMapFrame_twin (h : s.Twin s') (hm : s.mmMapFrame f page p pl = some u) :
    ∃ u', s'.mmMapFrame f page p pl = some u' ∧ u.Twin u' := by
  obtain ⟨b, rfl⟩ := h
  exact ⟨u.withBytes b, by rw [mmMapFrame_withBytes, hm]; rfl, .withBytes⟩

theorem newPcb_twin (h : s.Twin s') (hn : s.newPcb pl next = some (pid, u)) :
    ∃ u', s'.newPcb pl next = some (pid, u') ∧ u.Twin u' := by
  obtain ⟨b, rfl⟩ := h
  simp only [newPcb, Option.bind_eq_bind, Option.bind_eq_some_iff] at hn
  obtain ⟨p, hp, ⟨cr3, s₁⟩, hk, hn⟩ := hn
  cases hn
  have hp' : (s.withBytes b).getNewPid = some pid := hp
  have hk' : (s.withBytes b).kalloc = some (cr3, s₁.withBytes b) := by
    rw [kalloc] at hk
    rw [kalloc, memSeek_withBytes, hk]
    rfl
  refine ⟨(s₁.setPcb pid ⟨true, pl, cr3, s₁.kernelPagetable, emptyDir, inSwitchEsp pl,
    next⟩).withBytes b, ?_, .withBytes⟩
  simp only [newPcb, hp', hk', Option.bind_eq_bind, Option.bind_some]
  rfl

theorem createStacksFor_twin (h : s.Twin s') (hc : s.createStacksFor cur pid pl = some u) :
    ∃ u', s'.createStacksFor cur pid pl = some u' ∧ u.Twin u' := by
  simp only [createStacksFor, Option.bind_eq_bind, Option.bind_eq_some_iff] at hc
  obtain ⟨⟨g, s₁⟩, h₁, s₂, h₂, s₃, h₃, hc⟩ := hc
  obtain ⟨t₁, k₁, ht₁⟩ := alloc_twin h h₁
  obtain ⟨t₂, k₂, ht₂⟩ := mmMapFrame_twin ht₁ h₂
  obtain ⟨t₃, k₃, ht₃⟩ := mmMapFrame_twin ht₂ h₃
  cases pl with
  | kernel =>
    cases hc
    exact ⟨t₃, by simp only [createStacksFor, k₁, k₂, k₃, Option.bind_eq_bind, Option.bind_some],
      ht₃⟩
  | user =>
    simp only [Option.bind_eq_some_iff] at hc
    obtain ⟨⟨g', s₄⟩, h₄, h₅⟩ := hc
    obtain ⟨t₄, k₄, ht₄⟩ := alloc_twin ht₃ h₄
    obtain ⟨t₅, k₅, ht₅⟩ := mmMapFrame_twin ht₄ h₅
    refine ⟨t₅, ?_, ht₅⟩
    simp only [createStacksFor, k₁, k₂, k₃, k₄, k₅, Option.bind_eq_bind, Option.bind_some]

theorem copyData_twin (h : s.Twin s') (hc : s.copyData img cur pid pl i = some u) :
    ∃ u', s'.copyData img cur pid pl i = some u' ∧ u.Twin u' := by
  simp only [copyData, Option.bind_eq_bind, Option.bind_eq_some_iff] at hc
  obtain ⟨⟨g, s₁⟩, h₁, s₂, h₂, s₃, h₃, hc⟩ := hc
  cases hc
  obtain ⟨t₁, k₁, ht₁⟩ := alloc_twin h h₁
  obtain ⟨t₂, k₂, ht₂⟩ := mmMapFrame_twin ht₁ h₂
  obtain ⟨t₃, k₃, b₃, rfl⟩ := mmMapFrame_twin ht₂ h₃
  refine ⟨(s₃.withBytes b₃).fill g (img.content i), ?_, Function.update b₃ g (img.content i), rfl⟩
  simp only [copyData, k₁, k₂, k₃, Option.bind_eq_bind, Option.bind_some]

theorem loaderLoad_twin (h : s.Twin s') (hl : s.loaderLoad cur img pl = some (pid, u)) :
    ∃ u', s'.loaderLoad cur img pl = some (pid, u') ∧ u.Twin u' := by
  simp only [loaderLoad, Option.bind_eq_bind, Option.bind_eq_some_iff] at hl
  obtain ⟨frame, hold, ⟨pid', s₁⟩, h₁, s₂, h₂, s₃, h₃, s₄, h₄, hl⟩ := hl
  cases hl
  dsimp only at h₂ h₃ h₄
  have hold' : s'.oldFrame cur = some frame := by
    obtain ⟨b, rfl⟩ := h
    exact hold
  obtain ⟨t₁, k₁, ht₁⟩ := newPcb_twin h h₁
  obtain ⟨t₂, k₂, ht₂⟩ := createStacksFor_twin ht₁ h₂
  have hdata : ∃ t₃, t₂.copyDataFrom img cur pid' pl = some t₃ ∧ s₃.Twin t₃ := by
    rw [copyDataFrom] at h₃ ⊢
    split at h₃
    · cases h₃
    · rw [if_neg (by assumption)]
      exact Loop.foldlM_related (R := Twin) (fun _ _ _ _ ht hs => copyData_twin ht hs) ht₂ h₃
  obtain ⟨t₃, k₃, ht₃⟩ := hdata
  have hundo : ∃ t₄, t₃.undoTempMappingOn cur frame = some t₄ ∧ u.Twin t₄ := by
    obtain ⟨b, rfl⟩ := ht₃
    rw [undoTempMappingOn] at h₄ ⊢
    split at h₄
    next hidle =>
      cases h₄
      exact ⟨_, if_pos hidle, b, rfl⟩
    next hidle =>
      rw [if_neg hidle]
      exact mmMapFrame_twin (s := s₃.mmUnmapPage userMemoryStart cur) ⟨b, rfl⟩ h₄
  obtain ⟨t₄, k₄, ht₄⟩ := hundo
  refine ⟨t₄, ?_, ht₄⟩
  simp only [loaderLoad, hold', k₁, k₂, k₃, k₄, Option.bind_eq_bind, Option.bind_some]

theorem palloc_twin (h : s.Twin s') (hp : s.palloc p = some u) :
    ∃ u', s'.palloc p = some u' ∧ u.Twin u' := by
  obtain ⟨b, rfl⟩ := h
  refine ⟨u.withBytes b, ?_, .withBytes⟩
  have hset : ∀ (s : Mm) page, (s.withBytes b).setAsRequested page p =
      (s.setAsRequested page p).map (·.withBytes b) := by
    intro s page
    have hentry : (s.withBytes b).entry p page = s.entry p page := rfl
    rw [setAsRequested, setAsRequested, hentry]
    cases s.entry p page with
    | none => exact mmSetPtEntry_withBytes
    | some e => exact mmSetPtEntry_withBytes
  rw [palloc] at hp
  exact (hset _ _).trans (Option.map_eq_some_iff.2 ⟨u, hp, rfl⟩)

theorem demand_twin (h : s.Twin s') (hreq : s.isRequested page p = true)
    (hf : s.pageFault page p = some u) : ∃ u', s'.pageFault page p = some u' ∧ u.Twin u' := by
  have hreq' : s'.isRequested page p = true := by
    obtain ⟨b, rfl⟩ := h
    exact hreq
  rw [pageFault, if_pos hreq, mmUserAllocate, Option.bind_eq_bind, Option.bind_eq_some_iff] at hf
  obtain ⟨⟨g, s₁⟩, h₁, h₂⟩ := hf
  obtain ⟨t₁, k₁, ht₁⟩ := alloc_twin h h₁
  obtain ⟨t₂, k₂, ht₂⟩ := mmMapFrame_twin ht₁ h₂
  refine ⟨t₂, ?_, ht₂⟩
  rw [pageFault, if_pos hreq', mmUserAllocate, Option.bind_eq_bind, k₁, Option.bind_some]
  exact k₂

theorem Twin.word (h : s.Twin s') : s'.word = s.word := by
  obtain ⟨b, rfl⟩ := h
  rfl

theorem Twin.procs (h : s.Twin s') : s'.procs = s.procs := by
  obtain ⟨b, rfl⟩ := h
  rfl

/-- What one state can do, so can the other. -/
theorem step_twin (h : s.Twin s') (hk : s.Allocates l) (hs : MmStep s l u) :
    ∃ u', MmStep s' l u' ∧ u.Twin u' := by
  have hprocs := h.procs
  have hword := h.word
  cases hs with
  | load hp hl =>
    obtain ⟨u', hl', ht⟩ := loaderLoad_twin h hl
    exact ⟨u', .load (by rw [hprocs]; exact hp) hl', ht⟩
  | fork => exact hk.elim
  | palloc hp hidle hpalloc =>
    obtain ⟨u', hp', ht⟩ := palloc_twin h hpalloc
    exact ⟨u', .palloc (by rw [hprocs]; exact hp) hidle hp', ht⟩
  | sharePage => exact hk.elim
  | fault hp hidle huser hlevel hno hf =>
    obtain ⟨u', hf', ht⟩ := demand_twin h hk hf
    exact ⟨u', .fault (by rw [hprocs]; exact hp) hidle huser (by rw [hprocs]; exact hlevel)
      (by rw [hword]; exact hno) hf', ht⟩
  | exit => exact hk.elim
  | store hp hidle huser hpresent hus hrw hoff =>
    refine ⟨_, .store (by rw [hprocs]; exact hp) hidle huser (by rw [hword]; exact hpresent)
      (by rw [hword]; exact hus) (by rw [hword]; exact hrw) hoff, ?_⟩
    obtain ⟨b, rfl⟩ := h
    exact ⟨_, rfl⟩
  | touch hp hidle huser hpresent =>
    refine ⟨_, .touch (by rw [hprocs]; exact hp) hidle huser (by rw [hword]; exact hpresent), ?_⟩
    obtain ⟨b, rfl⟩ := h
    exact ⟨b, rfl⟩

/-- A call does one thing in a state. -/
theorem step_det (h : MmStep s l u) (h' : MmStep s l u') : u = u' := by
  cases h with
  | load _ hl =>
    cases h' with
    | load _ hl' =>
      cases hl.symm.trans hl'
      rfl
  | fork _ _ hf =>
    cases h' with
    | fork _ _ hf' =>
      cases hf.symm.trans hf'
      rfl
  | palloc _ _ hp =>
    cases h' with
    | palloc _ _ hp' => exact Option.some.inj (hp.symm.trans hp')
  | sharePage _ _ _ hm =>
    cases h' with
    | sharePage _ _ _ hm' =>
      cases hm.symm.trans hm'
      rfl
  | fault _ _ _ _ _ hf =>
    cases h' with
    | fault _ _ _ _ _ hf' => exact Option.some.inj (hf.symm.trans hf')
  | exit =>
    cases h' with
    | exit => rfl
  | store =>
    cases h' with
    | store => rfl
  | touch =>
    cases h' with
    | touch => rfl

/-! ## The cells that a process owns -/

theorem idle_live {ok : Mm → MmLabel → Prop} (h : Reach (mmSystem reserved) ok s) :
    (s.procs idlePid).live = true := by
  refine h.invariant (I := fun s => (s.procs idlePid).live = true)
    (fun h => (h.live idlePid).2 rfl) fun hidle _ hs => ?_
  cases effect_of_step hs with
  | load _ _ _ _ hload => exact (hload.live idlePid).2 (.inl hidle)
  | fork _ _ hf => exact (hf.live idlePid).2 (.inl hidle)
  | request _ _ hr | share _ _ hr | shareNew _ _ hr | demand _ _ _ hr | sole _ _ _ _ hr
  | touch _ _ hr => exact (hr.alike.live idlePid).trans hidle
  | shareNothing => exact hidle
  | copy _ _ _ hc => exact (hc.alike.live idlePid).trans hidle
  | killed _ _ he | exit he => exact (he.live_of_ne he.notIdle.symm).trans hidle
  | store => exact hidle

/-- The cells of `K` are in pages of live processes, with the same contents in both states. -/
structure Known (s s' : Mm) (K : Pid → Nat → Nat → Prop) : Prop where
  twin : s.Twin s'
  live : ∀ p page k, K p page k → (s.procs p).live = true
  notIdle : ∀ p page k, K p page k → p ≠ idlePid
  present : ∀ p page k, K p page k → (s.word p page).p = true
  same : ∀ p page k, K p page k → s'.read p page k = s.read p page k

/-- A cell stays known if its process keeps its frame, and neither run writes there. -/
theorem Known.keep (h : Known s s' K) {k : Nat} (hK : K p page k)
    (ht : u.Twin u') (hlive : (s.procs p).live = true → (u.procs p).live = true)
    (hp : (u.word p page).p = (s.word p page).p)
    (hbase : (u.word p page).base = (s.word p page).base)
    (hbyte : u.byte (s.word p page).base = s.byte (s.word p page).base)
    (hbyte' : u'.byte (s.word p page).base = s'.byte (s.word p page).base) :
    (u.procs p).live = true ∧ p ≠ idlePid ∧ (u.word p page).p = true ∧
      u'.read p page k = u.read p page k := by
  refine ⟨hlive (h.live p page k hK), h.notIdle p page k hK, hp.trans (h.present p page k hK), ?_⟩
  have hsame := h.same p page k hK
  rw [read, read, h.twin.word] at hsame
  rw [read, read, ht.word, hbase, hbyte, hbyte', hsame]

theorem Known.of_forall (ht : u.Twin u') (h : ∀ p page k, K p page k →
    (u.procs p).live = true ∧ p ≠ idlePid ∧ (u.word p page).p = true ∧
      u'.read p page k = u.read p page k) : Known u u' K where
  twin := ht
  live p page k hK := (h p page k hK).1
  notIdle p page k hK := (h p page k hK).2.1
  present p page k hK := (h p page k hK).2.2.1
  same p page k hK := (h p page k hK).2.2.2

/-- An entry is overwritten, and no byte. What was present stays so, in its frame. -/
theorem Known.rewrites (h : Known s s' K) (ht : u.Twin u')
    (he : (s.word p page).p = true → e.p = true ∧ e.base = (s.word p page).base)
    (halike : s.Alike u) (hw : u.word = setWord s.word p page e) (hbyte : u.byte = s.byte)
    (hbyte' : u'.byte = s'.byte) : Known u u' K := by
  refine .of_forall ht fun q page' k hK => ?_
  have hword : (u.word q page').p = (s.word q page').p ∧
      (u.word q page').base = (s.word q page').base := by
    rw [hw]
    rcases eq_or_ne q p with rfl | hq
    · rcases eq_or_ne page' page with rfl | hpage
      · have hp := h.present q page' k hK
        rw [setWord_self]
        exact ⟨(he hp).1.trans hp.symm, (he hp).2⟩
      · rw [setWord_of_page hpage]
        exact ⟨rfl, rfl⟩
    · rw [setWord_of_proc hq]
      exact ⟨rfl, rfl⟩
  exact h.keep hK ht (halike.live q).trans hword.1 hword.2 (by rw [hbyte]) (by rw [hbyte'])

theorem loaderLoad_aligned (h : s.loaderLoad cur img pl = some (pid, u))
    (hi : i < dataPagesNeededFor img) : img.memStart % pageSize = 0 := by
  simp only [loaderLoad, Option.bind_eq_bind, Option.bind_eq_some_iff] at h
  obtain ⟨_, -, _, -, _, -, _, h, -⟩ := h
  rw [copyDataFrom] at h
  split at h
  next => cases h
  next haligned =>
    by_contra hne
    exact haligned ⟨by omega, hne⟩

theorem Known.load (h : Known s s' K) (hb : s.Backed) (hidle : (s.procs idlePid).live = true)
    (hcur : (s.procs cur).live = true) (ht : u.Twin u')
    (hl : s.loaderLoad cur img pl = some (pid, u))
    (hl' : s'.loaderLoad cur img pl = some (pid, u')) :
    Known u u' (ownCells K (.load cur img pl) s u) := by
  have hcur' : (s'.procs cur).live = true := by rw [h.twin.procs]; exact hcur
  obtain ⟨hfree, -, hne, hload, htemp⟩ := loaderLoad_spec hcur hl
  obtain ⟨-, -, -, hload', -⟩ := loaderLoad_spec hcur' hl'
  have hused : s'.used = s.used := by
    obtain ⟨b, rfl⟩ := h.twin
    rfl
  refine .of_forall ht fun p page k hK => ?_
  obtain hK | ⟨hnew, hlive, i, hi, rfl⟩ := hK
  · have hlive := h.live p page k hK
    have hmaps : s.Maps p page (s.word p page).base := ⟨hlive, h.present p page k hK, rfl⟩
    have hmarked := (hb.zone p page _ hmaps).2
    have hpid : p ≠ pid := by
      rintro rfl
      exact Bool.false_ne_true (hfree.symm.trans hlive)
    have hword : (u.word p page).p = (s.word p page).p ∧
        (u.word p page).base = (s.word p page).base := by
      by_cases htmp : p = cur ∧ page = userMemoryStart
      · obtain ⟨rfl, rfl⟩ := htmp
        rw [htemp, if_neg (h.notIdle _ _ k hK)]
        exact ⟨(h.present _ _ k hK).symm, rfl⟩
      · rw [hload.others p page hpid fun hc hpage => htmp ⟨hc, hpage⟩]
        exact ⟨rfl, rfl⟩
    refine h.keep hK ht (fun hl => (hload.live p).2 (.inl hl)) hword.1 hword.2 ?_ ?_
    · exact hload.byte _ fun _ => .inl hmarked
    · exact hload'.byte _ fun _ => .inl (by rw [hused]; exact hmarked)
  · obtain rfl := ((hload.live p).1 hlive).resolve_left fun hl =>
      Bool.false_ne_true (hnew.symm.trans hl)
    have hpage := Image.layout_page pl (loaderLoad_aligned hl hi)
      img.dataPagesNeededFor_le hi
    obtain ⟨g, hw, -, -, -, hbyte⟩ := hload.present _ _ hpage
    obtain ⟨g', hw', -, -, -, hbyte'⟩ := hload'.present _ _ hpage
    refine ⟨hlive, ?_, by rw [hw]; rfl, ?_⟩
    · rintro rfl
      exact Bool.false_ne_true (hnew.symm.trans hidle)
    · rw [read, read, hw, hw']
      change u'.byte g' k = u.byte g k
      rw [hbyte, hbyte']
      rfl

theorem Known.store {offset : Nat} {x : Byte} {kernel : Bool} (h : Known s s' K)
    (hlive : (s.procs p).live = true) (hidle : p ≠ idlePid) (hp : (s.word p page).p = true) :
    Known (s.store p page offset x) (s'.store p page offset x)
      (ownCells K (.store p page offset x kernel) s (s.store p page offset x)) := by
  have ht : (s.store p page offset x).Twin (s'.store p page offset x) := by
    obtain ⟨b, rfl⟩ := h.twin
    exact ⟨_, rfl⟩
  refine .of_forall ht fun q page' k hK => ?_
  rw [read_store, read_store, h.twin.word]
  obtain hK | ⟨rfl, rfl, rfl⟩ := hK
  · refine ⟨h.live q page' k hK, h.notIdle q page' k hK, h.present q page' k hK, ?_⟩
    rw [h.same q page' k hK]
  · exact ⟨hlive, hidle, hp, by rw [if_pos ⟨rfl, rfl⟩, if_pos ⟨rfl, rfl⟩]⟩

/-- What holds in one run of two: it could be run by itself, and its own cells are known. -/
theorem twoRuns_known (h : TwoRuns reserved s s' K) :
    Reach (mmSystem reserved) LoadsOverPage s ∧ Known s s' K := by
  induction h with
  | start hreach ht _ =>
    exact ⟨hreach, ht, fun _ _ _ h => h.elim, fun _ _ _ h => h.elim, fun _ _ _ h => h.elim,
      fun _ _ _ h => h.elim⟩
  | @step s s' u u' l K _ hk hs hs' ih =>
    obtain ⟨hreach, hknown⟩ := ih
    have hloads : s.LoadsOverPage l := by
      cases l with
      | load => exact hk
      | _ => trivial
    refine ⟨hreach.step hloads hs, ?_⟩
    obtain ⟨-, hb⟩ := owned hreach
    obtain ⟨u'', hs'', ht⟩ := step_twin hknown.twin hk hs
    obtain rfl := step_det hs'' hs'
    have hsame : ∀ {K'}, Known u u'' K → (∀ p page k, K' p page k → K p page k) →
        Known u u'' K' := fun h hK =>
      .of_forall h.twin fun p page k hk => by
        have hk := hK p page k hk
        exact ⟨h.live p page k hk, h.notIdle p page k hk, h.present p page k hk, h.same p page k hk⟩
    cases hs with
    | @load p img pl pid _ hp hl =>
      cases hs' with
      | @load _ _ _ pid' _ hp' hl' =>
        obtain ⟨t, hl'', -⟩ := loaderLoad_twin hknown.twin hl
        obtain rfl : pid = pid' := by
          cases hl''.symm.trans hl'
          rfl
        exact hknown.load hb (idle_live hreach) hp ht hl hl'
    | fork => exact hk.elim
    | palloc hp hidle hpalloc =>
      refine hsame ?_ fun p page k hK => hK.resolve_right id
      cases hs' with
      | palloc _ _ hpalloc' =>
        obtain ⟨hfree, -, halike, -, hbyte, hword⟩ := palloc_spec hpalloc
        obtain ⟨-, -, -, -, hbyte', -⟩ := palloc_spec hpalloc'
        exact hknown.rewrites ht (fun hp => absurd (hfree.symm.trans hp) Bool.false_ne_true) halike
          hword hbyte hbyte'
    | sharePage => exact hk.elim
    | fault hp hidle huser hlevel hno hf =>
      refine hsame ?_ fun p page k hK => hK.resolve_right id
      cases hs' with
      | fault _ _ _ _ _ hf' =>
        have hk : s.isRequested _ _ = true := hk
        have hreq := isRequested_iff.1 hk
        have hk' : s'.isRequested _ _ = true := isRequested_iff.2 (by
          rw [hknown.twin.word]
          exact hreq)
        rw [pageFault, if_pos hk] at hf
        rw [pageFault, if_pos hk'] at hf'
        obtain ⟨f, -, hword, halike, hbyte⟩ := mmUserAllocate_spec hf
        obtain ⟨f', -, -, -, hbyte'⟩ := mmUserAllocate_spec hf'
        exact hknown.rewrites ht (fun hp => absurd (hreq.1.symm.trans hp) Bool.false_ne_true) halike
          hword hbyte hbyte'
    | exit => exact hk.elim
    | store hp hidle _ hpresent _ _ _ =>
      cases hs' with
      | store => exact hknown.store hp hidle hpresent
    | touch hp hidle huser hpresent =>
      refine hsame ?_ fun p page k hK => hK.resolve_right id
      cases hs' with
      | touch =>
        cases effect_of_step (.touch hp hidle huser hpresent) with
        | touch _ _ hr =>
          refine hknown.rewrites ht ?_ hr.alike hr.word rfl rfl
          exact fun hp => ⟨hp, rfl⟩

/-- Whatever is in the free frames, a process can do the same with them, and reads the same in its
image and where it has written. -/
theorem own_cells_same (h : TwoRuns reserved s s' K) :
    (∀ l u, s.Allocates l → MmStep s l u → ∃ u', MmStep s' l u') ∧
    ∀ p page k, K p page k → s'.read p page k = s.read p page k := by
  obtain ⟨-, hknown⟩ := twoRuns_known h
  refine ⟨fun l u hk hs => ?_, hknown.same⟩
  obtain ⟨u', hs', -⟩ := step_twin hknown.twin hk hs
  exact ⟨u', hs'⟩

end

/-- The machine with something in the frames that are free. -/
def usedBoot : Mm := boot.withBytes fun f _ => if boot.used f then 0 else 0xaa

theorem usedBoot_start : TwoRuns (fun _ => false) boot usedBoot fun _ _ _ => False := by
  refine .start (.init boot_initial) .withBytes fun f hf => ?_
  funext k
  rw [usedBoot, withBytes]
  dsimp only
  rw [if_pos hf]
  rfl

/-- A task of one page is loaded from both. -/
theorem task_twoRuns : ∃ u u', boot.loaderLoad idlePid (smallImage 0x400000) .user = some (1, u) ∧
    usedBoot.loaderLoad idlePid (smallImage 0x400000) .user = some (1, u') ∧
    TwoRuns (fun _ => false) u u' (ownCells (fun _ _ _ => False)
      (.load idlePid (smallImage 0x400000) .user) boot u) := by
  have hrun : (boot.loaderLoad idlePid (smallImage 0x400000) .user).map (·.1) = some 1 := by
    decide +kernel
  obtain ⟨⟨pid, u⟩, hl, rfl⟩ := Option.map_eq_some_iff.1 hrun
  have htwin : boot.Twin usedBoot := .withBytes
  obtain ⟨u', hl', -⟩ := loaderLoad_twin htwin hl
  have hguard : boot.Allocates (.load idlePid (smallImage 0x400000) .user) := .inl rfl
  exact ⟨u, u', hl, hl', .step usedBoot_start hguard (.load rfl hl) (.load rfl hl')⟩

theorem own_cells_same_task : ∃ u u', boot.loaderLoad idlePid (smallImage 0x400000) .user =
    some (1, u) ∧ usedBoot.loaderLoad idlePid (smallImage 0x400000) .user = some (1, u') ∧
    u'.read 1 userMemoryStart 0 = u.read 1 userMemoryStart 0 := by
  obtain ⟨u, u', hl, hl', hruns⟩ := task_twoRuns
  obtain ⟨-, -, -, hload, -⟩ := loaderLoad_spec rfl hl
  refine ⟨u, u', hl, hl', (own_cells_same hruns).2 1 userMemoryStart 0 (.inr ⟨rfl, ?_, 0, ?_, ?_⟩)⟩
  · exact (hload.live 1).2 (.inr rfl)
  · decide
  · decide

/-- A task that is loaded, asks for a page and touches it: what it finds on its stack and there. -/
theorem task_touches {b : Mm} {x y : Byte}
    (h : ((b.loaderLoad idlePid (smallImage 0x400000) .user).bind fun r =>
      (r.2.palloc 1).bind fun s => (s.pageFault (userMemoryStart + 1) 1).map fun t =>
        ((r.1, (r.2.procs 1).live, r.2.read 1 taskUStack 0),
          ((s.procs 1).live, (s.procs 1).privilegeLevel),
          (s.isRequested (userMemoryStart + 1) 1, (s.word 1 (userMemoryStart + 1)).p),
          t.read 1 (userMemoryStart + 1) 0)) =
      some ((1, true, x), (true, .user), (true, false), y)) :
    ∃ u s t, b.loaderLoad idlePid (smallImage 0x400000) .user = some (1, u) ∧
      MmStep u (.palloc 1) s ∧ s.isRequested (userMemoryStart + 1) 1 = true ∧
      MmStep s (.fault 1 (userMemoryStart + 1)) t ∧ u.read 1 taskUStack 0 = x ∧
      t.read 1 (userMemoryStart + 1) 0 = y := by
  obtain ⟨⟨pid, u⟩, hl, h⟩ := Option.bind_eq_some_iff.1 h
  obtain ⟨s, hp, h⟩ := Option.bind_eq_some_iff.1 h
  obtain ⟨t, hf, h⟩ := Option.map_eq_some_iff.1 h
  simp only [Prod.mk.injEq] at h
  obtain ⟨⟨rfl, hlive, hx⟩, ⟨hlive', hlevel⟩, ⟨hreq, hno⟩, hy⟩ := h
  exact ⟨u, s, t, hl, .palloc hlive (by decide) hp, hreq,
    .fault hlive' (by decide) (by decide) hlevel (fun h => absurd h.1 (by simp [hno])) hf, hx, hy⟩

/-- A task reads on its stack, and in a page from `palloc`, what was in the frames before. -/
theorem fresh_memory_leaks : ∃ u u' t t' K K',
    TwoRuns (fun _ => false) u u' K ∧ u.read 1 taskUStack 0 ≠ u'.read 1 taskUStack 0 ∧
    TwoRuns (fun _ => false) t t' K' ∧
    t.read 1 (userMemoryStart + 1) 0 ≠ t'.read 1 (userMemoryStart + 1) 0 := by
  obtain ⟨u, s, t, hl, hp, hreq, hf, hx, hy⟩ := task_touches (b := boot) (x := 0) (y := 0)
    (by decide +kernel)
  obtain ⟨u', s', t', hl', hp', -, hf', hx', hy'⟩ := task_touches (b := usedBoot) (x := 0xaa)
    (y := 0xaa) (by decide +kernel)
  have hload := TwoRuns.step usedBoot_start (l := .load idlePid (smallImage 0x400000) .user)
    (.inl rfl) (.load rfl hl) (.load rfl hl')
  have hasked : u.Allocates (.palloc 1) := trivial
  have htouched : s.Allocates (.fault 1 (userMemoryStart + 1)) := hreq
  have hdemand := (hload.step hasked hp hp').step htouched hf hf'
  refine ⟨u, u', t, t', _, _, hload, ?_, hdemand, ?_⟩
  · rw [hx, hx']
    decide
  · rw [hy, hy']
    decide

end Mm
end SpuriOS
