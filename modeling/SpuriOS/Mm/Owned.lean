import SpuriOS.Mm.Effects
import SpuriOS.Mm.Supply

/-! # Frames in use are marked

The bitmap against the page directories. Nothing counts how often a frame is mapped: `mm_dir_free`
goes by what the other processes have at the same page, which is enough as long as a frame is
mapped at one page only. -/

namespace SpuriOS
open Transition

namespace Mm

/-- The bit of frame `f` is set. The bitmap begins at 1 MB. -/
def Marked (s : Mm) (f : Nat) : Prop := 0x100 ≤ f ∧ s.used f = true

/-- A process that loads has something at `USER_MEMORY_START`, which `loader_load` maps over. -/
def LoadsOverPage (s : Mm) : MmLabel → Prop
  | .load p _ _ => p = idlePid ∨ (s.word p userMemoryStart).p = true
  | _ => True

/-- The frame of the page directory of a process, or of one of its page tables. -/
def kernelFrame (s : Mm) (p : Pid) : Option Nat → Option Nat
  | none => some (s.procs p).cr3
  | some i => (s.procs p).dir.pde i

/-- The directories and tables of the processes are different frames of the kernel zone. -/
structure Tables (s : Mm) : Prop where
  zone : ∀ p k f, (s.procs p).live = true → s.kernelFrame p k = some f →
    0x100 ≤ f ∧ f < 0x400 ∧ s.used f = true
  inj : ∀ p q k k' f, (s.procs p).live = true → (s.procs q).live = true →
    s.kernelFrame p k = some f → s.kernelFrame q k' = some f → p = q ∧ k = k'

/-- The pages of the processes are in frames of the user zone, each at one page only. -/
structure Backed (s : Mm) : Prop where
  lt : ∀ p, (s.procs p).live = true → p < maxPid
  zone : ∀ p page f, s.Maps p page f → 0x400 ≤ f ∧ s.used f = true
  same : ∀ p q page page' f, s.Maps p page f → s.Maps q page' f → page = page'

section
variable {s u t : Mm} {l : MmLabel} {p q : Pid} {page f g i : Nat} {e : MmPage} {pl : Privilege}

/-! ## Tables -/

/-- Where the directories stay and no bit of the kernel zone is cleared. -/
theorem Tables.of_same (h : s.Tables) (hlive : ∀ q, (u.procs q).live = (s.procs q).live)
    (hframe : ∀ q k, u.kernelFrame q k = s.kernelFrame q k)
    (hused : ∀ f, f < 0x400 → s.used f = true → u.used f = true) : u.Tables where
  zone p k f hp hf := by
    obtain ⟨hlo, hhi, hu⟩ := h.zone p k f (by rw [← hlive]; exact hp) (by rw [← hframe]; exact hf)
    exact ⟨hlo, hhi, hused f hhi hu⟩
  inj p q k k' f hp hq hf hf' := by
    rw [hlive] at hp hq
    rw [hframe] at hf hf'
    exact h.inj p q k k' f hp hq hf hf'

/-- A frame that was free becomes the directory or a table of process `p`. -/
theorem Tables.add {k : Option Nat} (h : s.Tables) (hlo : 0x100 ≤ f) (hhi : f < 0x400)
    (hfree : s.used f = false)
    (hold : ∀ q k', (q, k') ≠ (p, k) → (u.procs q).live = true →
      ∀ g, u.kernelFrame q k' = some g → (s.procs q).live = true ∧ s.kernelFrame q k' = some g)
    (hnew : u.kernelFrame p k = some f)
    (hused : ∀ g, u.used g = true ↔ s.used g = true ∨ g = f) : u.Tables := by
  have hne : ∀ q k' g, (q, k') ≠ (p, k) → (u.procs q).live = true →
      u.kernelFrame q k' = some g → g ≠ f := by
    rintro q k' g hqk hq hg rfl
    obtain ⟨hlive, hframe⟩ := hold q k' hqk hq g hg
    have := (h.zone q k' g hlive hframe).2.2
    rw [hfree] at this
    cases this
  constructor
  case zone =>
    intro q k' g hq hg
    by_cases hqk : (q, k') = (p, k)
    · cases hqk
      cases hnew.symm.trans hg
      exact ⟨hlo, hhi, (hused f).2 (.inr rfl)⟩
    · obtain ⟨hlive, hframe⟩ := hold q k' hqk hq g hg
      obtain ⟨hlo', hhi', hu⟩ := h.zone q k' g hlive hframe
      exact ⟨hlo', hhi', (hused g).2 (.inl hu)⟩
  case inj =>
    intro q q' k₁ k₂ g hq hq' hg hg'
    by_cases h₁ : (q, k₁) = (p, k)
    · cases h₁
      cases hnew.symm.trans hg
      by_cases h₂ : (q', k₂) = (p, k)
      · cases h₂
        exact ⟨rfl, rfl⟩
      · exact absurd rfl (hne q' k₂ f h₂ hq' hg')
    · by_cases h₂ : (q', k₂) = (p, k)
      · cases h₂
        cases hnew.symm.trans hg'
        exact absurd rfl (hne q k₁ f h₁ hq hg)
      · obtain ⟨hl₁, hf₁⟩ := hold q k₁ h₁ hq g hg
        obtain ⟨hl₂, hf₂⟩ := hold q' k₂ h₂ hq' g hg'
        exact h.inj q q' k₁ k₂ g hl₁ hl₂ hf₁ hf₂

theorem kernelFrame_congr (h : u.procs q = s.procs q) (k : Option Nat) :
    u.kernelFrame q k = s.kernelFrame q k := by
  cases k with
  | none => exact congrArg (fun x => some x.cr3) h
  | some i => exact congrArg (fun x => x.dir.pde i) h

/-- Only entries change. -/
theorem setPte_tables (h : s.Tables) : (s.setPte p page e).Tables := by
  have hpcb : ∀ q, ((s.setPte p page e).procs q).live = (s.procs q).live ∧
      ((s.setPte p page e).procs q).cr3 = (s.procs q).cr3 ∧
      ((s.setPte p page e).procs q).dir.pde = (s.procs q).dir.pde := by
    intro q
    by_cases hq : q = p
    · rw [hq, setPte, setPcb_self]
      exact ⟨rfl, rfl, rfl⟩
    · rw [setPte, setPcb_of_ne hq]
      exact ⟨rfl, rfl, rfl⟩
  refine h.of_same (fun q => (hpcb q).1) (fun q k => ?_) fun _ _ hu => hu
  cases k with
  | none => exact congrArg some (hpcb q).2.1
  | some i => exact congrFun (hpcb q).2.2 i

theorem needTable_tables (h : s.Tables) (hn : s.needTable p page = some u) : u.Tables := by
  rw [needTable] at hn
  split at hn
  · cases hn
  · split at hn
    · cases hn
      exact h
    next hnone =>
      obtain ⟨⟨t, s₁⟩, hk, rfl⟩ := Option.map_eq_some_iff.1 hn
      obtain ⟨hlo, hhi, hfree, rfl⟩ := kalloc_spec hk
      dsimp only
      refine h.add (p := p) (k := some (pdEntryFor page)) hlo hhi hfree ?_ ?_ fun g => ?_
      · intro q k' hqk hq g hg
        by_cases hqp : q = p
        · subst hqp
          rw [addTable, setPcb_self] at hq
          refine ⟨hq, ?_⟩
          cases k' with
          | none =>
            rw [kernelFrame, addTable, setPcb_self] at hg
            exact hg
          | some i =>
            have hi : i ≠ pdEntryFor page := by
              rintro rfl
              exact hqk rfl
            rw [kernelFrame, addTable, setPcb_self] at hg
            exact (Function.update_of_ne hi ..).symm.trans hg
        · rw [addTable, setPcb_of_ne hqp] at hq
          exact ⟨hq, (kernelFrame_congr (setPcb_of_ne hqp) k').symm.trans hg⟩
      · rw [kernelFrame, addTable, setPcb_self]
        exact Function.update_self ..
      · by_cases hg : g = t
        · subst hg
          refine iff_of_true (Function.update_self ..) (.inr rfl)
        · refine (iff_of_eq (congrArg (· = true) (Function.update_of_ne hg ..))).trans ?_
          simp [hg]

theorem mmMapFrame_tables (h : s.Tables) (hm : s.mmMapFrame f page p pl = some u) : u.Tables := by
  obtain ⟨s₁, h₁, rfl⟩ := Option.map_eq_some_iff.1 hm
  exact setPte_tables (needTable_tables h h₁)

theorem mmSetPtEntry_tables (h : s.Tables) (hm : s.mmSetPtEntry page e p = some u) : u.Tables := by
  rw [mmSetPtEntry] at hm
  split at hm
  · cases hm
  · obtain ⟨s₁, h₁, rfl⟩ := Option.map_eq_some_iff.1 hm
    exact setPte_tables (needTable_tables h h₁)

theorem alloc_tables (h : s.Tables) (ha : s.alloc = some (f, u)) : u.Tables := by
  obtain ⟨hlo, -, -, rfl⟩ := alloc_spec ha
  refine h.of_same (fun _ => rfl) (fun q k => by cases k <;> rfl) fun g hg hu => ?_
  exact (Function.update_of_ne (by omega) ..).trans hu

theorem fill_tables {content : Nat → Byte} (h : s.Tables) : (s.fill f content).Tables :=
  h.of_same (fun _ => rfl) (fun q k => by cases k <;> rfl) fun _ _ hu => hu

theorem newPcb_tables {next : Fin pageCount} (h : s.Tables) (hn : s.newPcb pl next = some (p, u)) :
    u.Tables := by
  simp only [newPcb, Option.bind_eq_bind, Option.bind_eq_some_iff] at hn
  obtain ⟨p', hp, ⟨cr3, s₁⟩, hk, hn⟩ := hn
  obtain ⟨hlo, hhi, hfree, rfl⟩ := kalloc_spec hk
  cases hn
  refine h.add (p := p) (k := none) hlo hhi hfree ?_ ?_ fun g => ?_
  · intro q k' hqk hq g hg
    by_cases hqp : q = p
    · subst hqp
      cases k' with
      | none => exact absurd rfl hqk
      | some i =>
        rw [kernelFrame, setPcb_self] at hg
        cases hg
    · rw [setPcb_of_ne hqp] at hq
      exact ⟨hq, (kernelFrame_congr (setPcb_of_ne hqp) k').symm.trans hg⟩
  · rw [kernelFrame, setPcb_self]
  · by_cases hg : g = cr3
    · subst hg
      exact iff_of_true (Function.update_self ..) (.inr rfl)
    · refine (iff_of_eq (congrArg (· = true) (Function.update_of_ne hg ..))).trans ?_
      simp [hg]

theorem copyPage_tables (h : s.Tables) (hc : s.copyPage p q page = some u) : u.Tables := by
  rw [copyPage] at hc
  split at hc
  · split at hc
    · cases hc
      exact h
    · obtain ⟨s₁, h₁, rfl⟩ := Option.map_eq_some_iff.1 hc
      have h' := mmMapFrame_tables h h₁
      split
      · exact setPte_tables h'
      · exact setPte_tables (setPte_tables h')
  · exact mmSetPtEntry_tables h hc

theorem copyNonkernelPages_tables (h : s.Tables) (hc : s.copyNonkernelPages p q = some u) :
    u.Tables := by
  refine Loop.foldlM_range' (P := fun _ t => t.Tables) hc (fun i s t _ _ hs ht => ?_) h
  rw [copyTable] at ht
  split at ht
  · cases ht
    exact hs
  · exact Loop.foldlM_range (P := fun _ t => t.Tables) ht
      (fun _ _ _ _ hs ht => copyPage_tables hs ht) hs

theorem fork_tables {child : Pid} (h : s.Tables) (hf : s.fork p = some (child, u)) :
    u.Tables := by
  rw [fork] at hf
  split at hf
  · cases hf
  simp only [createChildKernelStack, Option.bind_eq_bind, Option.bind_eq_some_iff] at hf
  obtain ⟨⟨_, s₁⟩, h₁, s₂, h₂, s₃, ⟨⟨_, s₄⟩, h₄, s₅, h₅, s₆, h₆, h₇⟩, hf⟩ := hf
  cases h₇
  cases hf
  have hnew := copyNonkernelPages_tables (newPcb_tables h h₁) h₂
  have h₇ := mmMapFrame_tables (mmMapFrame_tables (alloc_tables hnew h₄) h₅) h₆
  exact setPte_tables (fill_tables h₇)

theorem loaderLoad_tables {f : Image} (h : s.Tables) (hl : s.loaderLoad p f pl = some (q, u)) :
    u.Tables := by
  simp only [loaderLoad, Option.bind_eq_bind, Option.bind_eq_some_iff] at hl
  obtain ⟨_, -, ⟨_, s₁⟩, h₁, s₂, h₂, s₃, h₃, s₄, h₄, hl⟩ := hl
  cases hl
  have hstacks : s₂.Tables := by
    simp only [createStacksFor, Option.bind_eq_bind, Option.bind_eq_some_iff] at h₂
    obtain ⟨⟨_, t₁⟩, k₁, t₂, k₂, t₃, k₃, h₂⟩ := h₂
    have ht₃ := mmMapFrame_tables (mmMapFrame_tables (alloc_tables (newPcb_tables h h₁) k₁) k₂) k₃
    split at h₂
    · cases h₂
      exact ht₃
    · simp only [Option.bind_eq_some_iff] at h₂
      obtain ⟨⟨_, t₄⟩, k₄, h₂⟩ := h₂
      exact mmMapFrame_tables (alloc_tables ht₃ k₄) h₂
  have hdata : s₃.Tables := by
    rw [copyDataFrom] at h₃
    split at h₃
    · cases h₃
    · refine Loop.foldlM_range (P := fun _ t => t.Tables) h₃ (fun i s t _ hs ht => ?_) hstacks
      simp only [copyData, Option.bind_eq_bind, Option.bind_eq_some_iff] at ht
      obtain ⟨⟨_, t₁⟩, k₁, t₂, k₂, t₃, k₃, ht⟩ := ht
      cases ht
      exact fill_tables (mmMapFrame_tables (mmMapFrame_tables (alloc_tables hs k₁) k₂) k₃)
  rw [undoTempMappingOn] at h₄
  split at h₄
  · cases h₄
    exact setPte_tables hdata
  · exact mmMapFrame_tables (setPte_tables hdata) h₄

theorem palloc_tables (h : s.Tables) (hp : s.palloc p = some u) : u.Tables := by
  rw [palloc] at hp
  dsimp only at hp
  have h' : (s.setPcb p { s.procs p with
      nextEmptyPage := (s.procs p).nextEmptyPage + 1 }).Tables := by
    have hpcb : ∀ q, ((s.setPcb p { s.procs p with
        nextEmptyPage := (s.procs p).nextEmptyPage + 1 }).procs q).live = (s.procs q).live ∧
        ∀ k, (s.setPcb p { s.procs p with
          nextEmptyPage := (s.procs p).nextEmptyPage + 1 }).kernelFrame q k =
            s.kernelFrame q k := by
      intro q
      by_cases hq : q = p
      · subst hq
        rw [setPcb_self]
        refine ⟨rfl, fun k => ?_⟩
        cases k <;> rw [kernelFrame, setPcb_self] <;> rfl
      · exact ⟨by rw [setPcb_of_ne hq], kernelFrame_congr (setPcb_of_ne hq)⟩
    exact h.of_same (fun q => (hpcb q).1) (fun q => (hpcb q).2) fun _ _ hu => hu
  rw [setAsRequested] at hp
  split at hp
  · exact mmSetPtEntry_tables h' hp
  · exact mmSetPtEntry_tables h' hp

theorem mmUserAllocate_tables (h : s.Tables) (hm : s.mmUserAllocate page p = some u) :
    u.Tables := by
  rw [mmUserAllocate, Option.bind_eq_bind, Option.bind_eq_some_iff] at hm
  obtain ⟨⟨_, s₁⟩, h₁, hm⟩ := hm
  exact mmMapFrame_tables (alloc_tables h h₁) hm

theorem mmSharePage_tables {result : Int} (h : s.Tables)
    (hm : s.mmSharePage page p = some (result, u)) : u.Tables := by
  rw [mmSharePage] at hm
  split at hm
  · cases hm
    exact h
  · split at hm
    · cases hm
      exact setPte_tables h
    · split at hm
      · obtain ⟨s₁, h₁, hm⟩ := Option.bind_eq_some_iff.1 hm
        cases hm
        exact setPte_tables (mmUserAllocate_tables h h₁)
      · cases hm
        exact h

theorem mmCopyOnWrite_tables (h : s.Tables) (hm : s.mmCopyOnWrite page p = some u) : u.Tables := by
  rw [mmCopyOnWrite] at hm
  split at hm
  · cases hm
    exact setPte_tables h
  · simp only [Option.bind_eq_bind, Option.bind_eq_some_iff] at hm
    obtain ⟨⟨f, s₁⟩, h₁, s₂, h₂, hm⟩ := hm
    have h₂' := mmMapFrame_tables (alloc_tables h h₁) h₂
    have h₃ : (s₂.copyFrame ((s₂.procs p).dir.pte page).base f).Tables :=
      h₂'.of_same (fun _ => rfl) (fun q k => by cases k <;> rfl) fun _ _ hu => hu
    exact mmMapFrame_tables (setPte_tables h₃) hm

/-! ## Pages -/

/-- What is mapped afterwards was mapped by some process at that page, or is a frame that was
free. -/
theorem Backed.of_maps (h : s.Backed) (hlt : ∀ q, (u.procs q).live = true → q < maxPid)
    (hkeeps : ∀ f, 0x400 ≤ f → s.used f = true → u.used f = true)
    (hmaps : ∀ q page f, u.Maps q page f → (∃ q', s.Maps q' page f) ∨
      (0x400 ≤ f ∧ s.used f = false ∧ u.used f = true))
    (hnew : ∀ q q' page page' f, s.used f = false → u.Maps q page f → u.Maps q' page' f →
      page = page') : u.Backed where
  lt := hlt
  zone q page f hm := by
    obtain ⟨q', hm'⟩ | ⟨hlo, -, hu⟩ := hmaps q page f hm
    · obtain ⟨hlo, hs⟩ := h.zone q' page f hm'
      exact ⟨hlo, hkeeps f hlo hs⟩
    · exact ⟨hlo, hu⟩
  same q q' page page' f hm hm' := by
    cases hs : s.used f with
    | false => exact hnew q q' page page' f hs hm hm'
    | true =>
      obtain ⟨q₁, h₁⟩ | ⟨-, hfree, -⟩ := hmaps q page f hm
      · obtain ⟨q₂, h₂⟩ | ⟨-, hfree, -⟩ := hmaps q' page' f hm'
        · exact h.same q₁ q₂ page page' f h₁ h₂
        · rw [hs] at hfree
          cases hfree
      · rw [hs] at hfree
        cases hfree

/-- A frame that is free is mapped nowhere. -/
theorem Backed.not_maps (h : s.Backed) (hf : s.used f = false) : ¬s.Maps p page f := by
  intro hm
  have := (h.zone p page f hm).2
  rw [hf] at this
  cases this

/-- The frame of an entry stays or is a fresh one. -/
theorem Backed.rewrites (h : s.Backed) (hr : Rewrites p page e s u)
    (hkeeps : ∀ f, 0x400 ≤ f → s.used f = true → u.used f = true)
    (he : e.p = true → ((s.word p page).p = true ∧ e.base = (s.word p page).base) ∨
      (0x400 ≤ e.base ∧ s.used e.base = false ∧ u.used e.base = true)) : u.Backed := by
  refine h.of_maps (fun q hq => h.lt q ((hr.alike.live q).symm.trans hq)) hkeeps ?_ ?_
  · intro q page' f hm
    obtain ⟨rfl, rfl, hp, rfl⟩ | ⟨hm, -⟩ := hr.maps hm
    · exact (he hp).imp_left fun hold => ⟨q, hr.live, hold.1, hold.2.symm⟩
    · exact .inl ⟨q, hm⟩
  · intro q q' page₁ page₂ f hf h₁ h₂
    obtain ⟨-, rfl, -⟩ | ⟨h₁, -⟩ := hr.maps h₁
    · obtain ⟨-, rfl, -⟩ | ⟨h₂, -⟩ := hr.maps h₂
      · rfl
      · exact absurd h₂ (h.not_maps hf)
    · exact absurd h₁ (h.not_maps hf)

theorem Backed.copies (h : s.Backed) (hc : Copies p page f s u) : u.Backed := by
  have htakes := hc.takes
  refine h.of_maps (fun q hq => h.lt q ((hc.alike.live q).symm.trans hq))
    (fun f' hf' hu => (htakes.used f' hf').2 (.inl hu)) ?_ ?_
  · intro q page' f' hm
    obtain ⟨-, rfl, rfl, -⟩ | ⟨hm, -⟩ := hc.maps hm
    · exact .inr ⟨htakes.zone, htakes.free, (htakes.used _ htakes.zone).2 (.inr rfl)⟩
    · exact .inl ⟨q, hm⟩
  · intro q q' page₁ page₂ f' hf' h₁ h₂
    obtain ⟨-, rfl, -⟩ | ⟨h₁, -⟩ := hc.maps h₁
    · obtain ⟨-, rfl, -⟩ | ⟨h₂, -⟩ := hc.maps h₂
      · rfl
      · exact absurd h₂ (h.not_maps hf')
    · exact absurd h₁ (h.not_maps hf')

/-- The page that the frames are filled through gets its frame back. -/
theorem Backed.loads {D : Prop} {what : Nat → Option NewPage} (h : s.Backed)
    (hq : (s.procs q).live = false) (hlt : q < maxPid) (hload : Loading s u p q pl D what)
    (htemp : (u.word p userMemoryStart).p = true →
      s.Maps p userMemoryStart (u.word p userMemoryStart).base) : u.Backed := by
  have hmaps : ∀ q' page f, u.Maps q' page f →
      (q' = q ∧ what page ≠ none ∧ 0x400 ≤ f ∧ s.used f = false ∧ u.used f = true) ∨
      s.Maps q' page f := by
    intro q' page f hm
    obtain ⟨rfl, x, hx, -, hf⟩ | ⟨-, rfl, rfl⟩ | ⟨hm', -⟩ := hload.maps hm
    · exact .inl ⟨rfl, by rw [hx]; exact Option.some_ne_none x, hf⟩
    · have hold := htemp hm.2.1
      rw [hm.2.2] at hold
      exact .inr hold
    · exact .inr hm'
  refine h.of_maps (fun q' hq' => ?_) hload.keeps ?_ ?_
  · obtain hs | rfl := (hload.live q').1 hq'
    · exact h.lt q' hs
    · exact hlt
  · intro q' page f hm
    obtain ⟨-, -, hf⟩ | hs := hmaps q' page f hm
    · exact .inr hf
    · exact .inl ⟨q', hs⟩
  · intro q₁ q₂ page₁ page₂ f hf h₁ h₂
    obtain ⟨rfl, hp₁, -⟩ | hs := hmaps q₁ page₁ f h₁
    · obtain ⟨rfl, hp₂, -⟩ | hs := hmaps q₂ page₂ f h₂
      · exact hload.inj page₁ page₂ hp₁ hp₂ (h₁.2.2.trans h₂.2.2.symm)
      · exact absurd hs (h.not_maps hf)
    · exact absurd hs (h.not_maps hf)

theorem Backed.forks (h : s.Backed) (hp : (s.procs p).live = true) (hf : Forked s u p q g) :
    u.Backed := by
  have hmaps : ∀ q' page f, u.Maps q' page f →
      (page = taskKStack ∧ f = g) ∨ ∃ q'', s.Maps q'' page f := by
    intro q' page f hm
    rcases eq_or_ne q' q with rfl | hq
    · exact (hf.maps_child hp hm).imp_right fun hc => ⟨p, hc.2.2.1⟩
    · exact .inr ⟨q', (hf.maps_old hq hm).1⟩
  have htakes := hf.takes
  refine h.of_maps (fun q' hq' => ?_) (fun f hf' hu => (htakes.used f hf').2 (.inl hu)) ?_ ?_
  · obtain hs | rfl := (hf.live q').1 hq'
    · exact h.lt q' hs
    · exact hf.lt
  · intro q' page f hm
    obtain ⟨rfl, rfl⟩ | hs := hmaps q' page f hm
    · exact .inr ⟨htakes.zone, htakes.free, (htakes.used _ htakes.zone).2 (.inr rfl)⟩
    · exact .inl hs
  · intro q₁ q₂ page₁ page₂ f hf' h₁ h₂
    obtain ⟨rfl, -⟩ | ⟨q', hs⟩ := hmaps q₁ page₁ f h₁
    · obtain ⟨rfl, -⟩ | ⟨q', hs⟩ := hmaps q₂ page₂ f h₂
      · rfl
      · exact absurd hs (h.not_maps hf')
    · exact absurd hs (h.not_maps hf')

/-! ## Exit -/

theorem FreesPage.maps {k : Nat} (h : s.FreesPage p (i * 1024 + k) f)
    (hp : (s.procs p).live = true) (hk : k < 1024) (hpde : (s.procs p).dir.pde i ≠ none) :
    s.Maps p (i * 1024 + k) f := by
  have hentry : pdEntryFor (i * 1024 + k) = i := by
    rw [pdEntryFor]
    omega
  rw [Maps, word_of_pde (by rw [hentry]; exact hpde)]
  exact ⟨hp, h.1, h.2.1⟩

/-- A page is kept if another process has something at the same page, where `mm_dir_free` looks. -/
theorem page_not_freed {r : Pid} (ht : s.Tables) (hb : s.Backed) (hp : (s.procs p).live = true)
    (hm : s.Maps r page f) (hq : q ≠ p) (hlive : (s.procs q).live = true)
    (hpresent : (s.word q page).p = true) : ¬s.Freed p f := by
  have hzone := (hb.zone r page f hm).1
  rintro ⟨-, rfl | ⟨i, -, -, t, ht', rfl | ⟨j, hj, hf⟩⟩⟩
  · have hkernel := (ht.zone p none _ hp rfl).2.1
    omega
  · have hkernel := (ht.zone p (some i) f hp ht').2.1
    omega
  · have hsame := hb.same r p page _ f hm (hf.maps hp hj (by rw [ht']; simp))
    have hcow := hf.2.2.1
    rw [← hsame, ← Bool.not_eq_true, isToBeCopiedOnWriteByOtherProcesses,
      othersHave_iff rfl] at hcow
    exact hcow ⟨q, hb.lt q hlive, hlive, hq, by rw [hpresent]; rfl⟩

/-- The directory and the tables of another process are kept. -/
theorem kernelFrame_not_freed {k : Option Nat} (ht : s.Tables) (hb : s.Backed)
    (hp : (s.procs p).live = true) (hq : q ≠ p) (hlive : (s.procs q).live = true)
    (hframe : s.kernelFrame q k = some f) : ¬s.Freed p f := by
  rintro ⟨-, rfl | ⟨i, -, -, t, ht', rfl | ⟨j, hj, hf⟩⟩⟩
  · exact hq (ht.inj q p k none _ hlive hp hframe rfl).1
  · exact hq (ht.inj q p k (some i) f hlive hp hframe ht').1
  · -- a page is in the user zone
    have hzone := (hb.zone p _ f (hf.maps hp hj (by rw [ht']; simp))).1
    have hkernel := (ht.zone q k f hlive hframe).2.1
    omega

theorem exits_owned (ht : s.Tables) (hb : s.Backed) (he : Exits p s u) : u.Tables ∧ u.Backed := by
  have hne : ∀ q, (u.procs q).live = true → q ≠ p := by
    rintro q hq rfl
    rw [he.dead] at hq
    cases hq
  refine ⟨⟨fun q k f hq hf => ?_, fun q q' k k' f hq hq' hf hf' => ?_⟩,
    ⟨fun q hq => ?_, fun q page f hm => ?_, fun q q' page page' f hm hm' => ?_⟩⟩
  · have hqp := hne q hq
    rw [he.others q hqp] at hq
    rw [kernelFrame_congr (he.others q hqp)] at hf
    obtain ⟨hlo, hhi, hu⟩ := ht.zone q k f hq hf
    exact ⟨hlo, hhi, (he.used f).2 ⟨hu, kernelFrame_not_freed ht hb he.live hqp hq hf⟩⟩
  · have hqp := hne q hq
    have hqp' := hne q' hq'
    rw [he.others q hqp] at hq
    rw [he.others q' hqp'] at hq'
    rw [kernelFrame_congr (he.others q hqp)] at hf
    rw [kernelFrame_congr (he.others q' hqp')] at hf'
    exact ht.inj q q' k k' f hq hq' hf hf'
  · exact hb.lt q ((he.live_of_ne (hne q hq)).symm.trans hq)
  · have hqp := hne q hm.1
    obtain ⟨hm, -⟩ := he.maps hm
    obtain ⟨hlo, hu⟩ := hb.zone q page f hm
    exact ⟨hlo, (he.used f).2 ⟨hu, page_not_freed ht hb he.live hm hqp hm.1 hm.2.1⟩⟩
  · exact hb.same q q' page page' f (he.maps hm).1 (he.maps hm').1

/-! ## Runs -/

theorem initial_owned {reserved : Nat → Bool} (h : Mm.Initial reserved s) :
    s.Tables ∧ s.Backed := by
  have hdir : ∀ p, (s.procs p).live = true → p = idlePid ∧ (s.procs p).dir = emptyDir := by
    intro p hp
    obtain rfl := (h.live p).1 hp
    exact ⟨rfl, h.dir⟩
  have hframe : ∀ p k f, (s.procs p).live = true → s.kernelFrame p k = some f →
      p = idlePid ∧ k = none ∧ f = (s.procs idlePid).cr3 := by
    intro p k f hp hf
    obtain ⟨rfl, hd⟩ := hdir p hp
    cases k with
    | none =>
      cases hf
      exact ⟨rfl, rfl, rfl⟩
    | some i =>
      rw [kernelFrame, hd] at hf
      cases hf
  have hmaps : ∀ p page f, ¬s.Maps p page f := by
    intro p page f hm
    obtain ⟨-, hd⟩ := hdir p hm.1
    have := hm.2.1
    rw [word, entry, hd] at this
    cases this
  refine ⟨⟨fun p k f hp hf => ?_, fun p q k k' f hp hq hf hf' => ?_⟩,
    ⟨fun p hp => ?_, fun p page f hm => absurd hm (hmaps p page f),
      fun p q page page' f hm _ => absurd hm (hmaps p page f)⟩⟩
  · obtain ⟨-, -, rfl⟩ := hframe p k f hp hf
    exact ⟨h.cr3.1, h.cr3.2.1, h.cr3.2.2⟩
  · obtain ⟨rfl, rfl, -⟩ := hframe p k f hp hf
    obtain ⟨rfl, rfl, -⟩ := hframe q k' f hq hf'
    exact ⟨rfl, rfl⟩
  · obtain ⟨rfl, -⟩ := hdir p hp
    decide

theorem Tables.step (h : s.Tables) (hs : MmStep s l u) (hexit : ∀ p, Exits p s u → u.Tables) :
    u.Tables := by
  cases hs with
  | load _ hl => exact loaderLoad_tables h hl
  | fork _ _ hf => exact fork_tables h hf
  | palloc _ _ hp => exact palloc_tables h hp
  | sharePage _ _ _ hm => exact mmSharePage_tables h hm
  | fault hlive hidle _ _ _ hf =>
    rw [pageFault] at hf
    split at hf
    · exact mmUserAllocate_tables h hf
    · split at hf
      · exact mmCopyOnWrite_tables h hf
      · cases hf
        exact hexit _ (loaderExit_exits hlive hidle)
  | exit hlive hidle => exact hexit _ (loaderExit_exits hlive hidle)
  | store => exact h.of_same (fun _ => rfl) (fun q k => by cases k <;> rfl) fun _ _ hu => hu
  | touch => exact setPte_tables h

theorem Backed.step (ht : s.Tables) (h : s.Backed) (hk : s.LoadsOverPage l) (hs : MmStep s l u) :
    u.Backed := by
  have hfresh : ∀ {f}, Takes f s u → 0x400 ≤ f ∧ s.used f = false ∧ u.used f = true := fun htakes =>
    ⟨htakes.zone, htakes.free, (htakes.used _ htakes.zone).2 (.inr rfl)⟩
  cases effect_of_step hs with
  | load hp hfree hlt hne hload htemp =>
    refine h.loads hfree hlt hload fun hpresent => ?_
    split at htemp
    · rw [htemp] at hpresent
      cases hpresent
    next hidle =>
      rw [htemp]
      exact ⟨hp, hk.resolve_left hidle, rfl⟩
  | fork hp _ hf => exact h.forks hp hf
  | request hp hu hr =>
    refine h.rewrites hr (fun f hf hused => (hu f hf).trans hused) fun hp' => ?_
    exact absurd (hp.symm.trans hp') Bool.false_ne_true
  | share _ hu hr =>
    exact h.rewrites hr (fun f hf hused => (hu f hf).trans hused) fun hp => .inl ⟨hp, rfl⟩
  | shareNew _ htakes hr =>
    exact h.rewrites hr (fun f hf hused => (htakes.used f hf).2 (.inl hused))
      fun _ => .inr (hfresh htakes)
  | shareNothing => exact h
  | demand _ _ htakes hr =>
    exact h.rewrites hr (fun f hf hused => (htakes.used f hf).2 (.inl hused))
      fun _ => .inr (hfresh htakes)
  | sole _ _ _ hu hr =>
    exact h.rewrites hr (fun f hf hused => (hu f hf).trans hused) fun hp => .inl ⟨hp, rfl⟩
  | copy _ _ _ hc => exact h.copies hc
  | killed _ _ he => exact (exits_owned ht h he).2
  | exit he => exact (exits_owned ht h he).2
  | store => exact ⟨h.lt, h.zone, h.same⟩
  | touch _ hu hr =>
    exact h.rewrites hr (fun f hf hused => (hu f hf).trans hused) fun hp => .inl ⟨hp, rfl⟩

theorem owned {reserved : Nat → Bool} (h : Reach (mmSystem reserved) LoadsOverPage s) :
    s.Tables ∧ s.Backed := by
  refine h.invariant (I := fun s => s.Tables ∧ s.Backed) initial_owned fun hI hk hs => ?_
  exact ⟨hI.1.step hs fun p he => (exits_owned hI.1 hI.2 he).1, hI.2.step hI.1 hk hs⟩

/-- The frames of the directories, page tables and pages of live processes are marked, and the end
of a process does not free one that another process has. -/
theorem mapped_frames_marked {reserved : Nat → Bool}
    (h : Reach (mmSystem reserved) LoadsOverPage s) :
    (∀ p, (s.procs p).live = true → s.Marked (s.procs p).cr3 ∧
      (∀ i t, (s.procs p).dir.pde i = some t → s.Marked t) ∧
      ∀ page, (s.word p page).p = true → s.Marked (s.word p page).base) ∧
    ∀ p, (s.procs p).live = true → p ≠ idlePid → ∀ q page f, q ≠ p → s.Maps q page f →
      (s.loaderExit p).used f = true := by
  obtain ⟨ht, hb⟩ := owned h
  refine ⟨fun p hp => ⟨?_, fun i t hi => ?_, fun page hpage => ?_⟩, ?_⟩
  · obtain ⟨hlo, -, hu⟩ := ht.zone p none _ hp rfl
    exact ⟨hlo, hu⟩
  · obtain ⟨hlo, -, hu⟩ := ht.zone p (some i) t hp hi
    exact ⟨hlo, hu⟩
  · obtain ⟨hlo, hu⟩ := hb.zone p page _ ⟨hp, hpage, rfl⟩
    exact ⟨by omega, hu⟩
  · intro p hp hidle q page f hq hm
    refine ((loaderExit_exits hp hidle).used f).2 ⟨(hb.zone q page f hm).2, ?_⟩
    exact page_not_freed ht hb hp hm hq hm.1 hm.2.1

end

/-- A task of one page is loaded. -/
theorem task_loaded : ∃ s child u,
    MmStep boot (.load idlePid (smallImage 0x400000) .user) s ∧
    (s.procs 1).live = true ∧ (s.procs 1).privilegeLevel = .user ∧
    s.word 1 userMemoryStart = mappedEntry 0x402 true ∧
    s.fork 1 = some (child, u) ∧ u.Supply 8 8 ∧
    s.Supply 8 8 ∧ (s.procs 2).live = false ∧ (s.procs 3).live = false := by
  have hrun : ((boot.loaderLoad idlePid (smallImage 0x400000) .user).map fun r =>
      (((r.2.procs 1).live, (r.2.procs 1).privilegeLevel, (r.2.procs 2).live, (r.2.procs 3).live),
        (r.2.freeFrames 0x100 0x400, r.2.freeFrames 0x400 r.2.limit, r.2.tableCount 1 1),
        r.2.word 1 userMemoryStart)) =
      some ((true, .user, false, false), (762, 13, 2), mappedEntry 0x402 true) := by
    decide +kernel
  obtain ⟨⟨pid, s⟩, hload, h⟩ := Option.map_eq_some_iff.1 hrun
  simp only [Prod.mk.injEq] at h
  obtain ⟨⟨hlive, hlevel, hfree, hfree'⟩, ⟨hkernel, huser, hcount⟩, hword⟩ := h
  obtain ⟨child, u, hfork, hsupply⟩ := fork_total (k := 8) (n := 8) hlive hlevel
    ⟨2, by decide, hfree⟩ ⟨by rw [hkernel, hcount]; decide, by rw [huser]; decide⟩
  exact ⟨s, child, u, .load rfl hload, hlive, hlevel, hword, hfork, hsupply,
    ⟨by rw [hkernel]; decide, by rw [huser]; decide⟩, hfree, hfree'⟩

/-- A task forks and exits, and the child still has its frames. -/
theorem mapped_frames_marked_task : ∃ s child u, MmStep s (.fork 1) u ∧ child ≠ 1 ∧
    MmStep u (.exit 1) (u.loaderExit 1) ∧ ((u.loaderExit 1).procs child).live = true ∧
    ((u.loaderExit 1).word child userMemoryStart).p = true ∧
    (u.loaderExit 1).Marked ((u.loaderExit 1).word child userMemoryStart).base := by
  obtain ⟨s, child, u, hload, hlive, -, hword, hfork, -⟩ := task_loaded
  obtain ⟨g, hf⟩ := fork_spec hlive hfork
  have hlive' : (u.procs 1).live = true := (hf.live 1).2 (.inl hlive)
  have hfork' : MmStep s (.fork 1) u := .fork hlive (by decide) hfork
  have hexit : MmStep u (.exit 1) (u.loaderExit 1) := .exit hlive' (by decide)
  have hexits := loaderExit_exits hlive' (show (1 : Pid) ≠ idlePid by decide)
  have hchild : ((u.loaderExit 1).procs child).live = true :=
    (hexits.live_of_ne hf.ne).trans ((hf.live child).2 (.inr rfl))
  have hpage : ((u.loaderExit 1).word child userMemoryStart).p = true := by
    rw [hexits.word_of_ne hf.ne, hf.ofChild, hword]
    rfl
  have hguard : boot.LoadsOverPage (.load idlePid (smallImage 0x400000) .user) := .inl rfl
  have hreach : Reach (mmSystem fun _ => false) LoadsOverPage (u.loaderExit 1) :=
    .step (.step (.step (.init boot_initial) hguard hload)
      (show s.LoadsOverPage (.fork 1) from trivial) hfork')
      (show u.LoadsOverPage (.exit 1) from trivial) hexit
  exact ⟨s, child, u, hfork', hf.ne, hexit, hchild, hpage,
    ((mapped_frames_marked hreach).1 child hchild).2.2 _ hpage⟩

/-- A task linked at 5 MB loads another one, and has frame 0 at `USER_MEMORY_START` then. -/
theorem frame_zero_mapped : ∃ s, Reach (mmSystem fun _ => false) anyStep s ∧
    (s.procs 1).live = true ∧ (s.word 1 userMemoryStart).p = true ∧
    ¬s.Marked (s.word 1 userMemoryStart).base := by
  have hrun : ((boot.loaderLoad idlePid (smallImage 0x500000) .user).bind fun r =>
      (r.2.loaderLoad 1 (smallImage 0x400000) .user).map fun r' =>
        ((r.2.procs 1).live, (r'.2.procs 1).live, r'.2.word 1 userMemoryStart)) =
      some (true, true, mappedEntry 0 true) := by
    decide +kernel
  obtain ⟨⟨pid, s⟩, hload, hrun⟩ := Option.bind_eq_some_iff.1 hrun
  obtain ⟨⟨pid', s'⟩, hload', hs⟩ := Option.map_eq_some_iff.1 hrun
  obtain ⟨hlive, hs⟩ := Prod.mk.inj hs
  obtain ⟨hlive', hword⟩ := Prod.mk.inj hs
  dsimp only at hlive hlive' hword
  refine ⟨s', .step (.step (.init boot_initial) trivial (.load rfl hload)) trivial
    (.load hlive hload'), hlive', ?_⟩
  rw [hword]
  exact ⟨rfl, fun hm => absurd hm.1 (by decide)⟩

end Mm
end SpuriOS
