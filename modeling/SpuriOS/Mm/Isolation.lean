import SpuriOS.Mm.Shared

/-! # Memory that is not shared

Next to a run each process gets a memory of its own, which its stores change and a fork copies. The
pages that were not passed to `share_page` are those of this memory, as long as the kernel leaves
alone the frames that wait to be copied: `copy2user` writes through them, `share_page` and
`loader_load` make them writable. -/

namespace SpuriOS
open Transition

namespace Mm

/-- What process `q` finds there, if it has the page. -/
def observe (s : Mm) (q : Pid) (page k : Nat) : Option Byte :=
  if (s.word q page).p then some (s.read q page k) else none

/-- The memories `V` after a step from `s` to `u`. A page that comes into being is taken as it
is. -/
def memories (V : Pid → Nat → Nat → Option Byte) (l : MmLabel) (s u : Mm) (q : Pid)
    (page k : Nat) : Option Byte :=
  if (s.procs q).live then
    match l with
    | .store p page' offset b _ =>
      if q = p ∧ page = page' ∧ k = offset then some b else V q page k
    | _ => V q page k <|> u.observe q page k
  else
    match l with
    | .fork p => if page = taskKStack then u.observe q page k else V p page k
    | _ => u.observe q page k

/-- The pages that were passed to `share_page`, by the process or before it was forked. -/
def passed (K : Pid → Nat → Prop) (l : MmLabel) (s : Mm) (q : Pid) (page : Nat) : Prop :=
  if (s.procs q).live then K q page ∨ l = .sharePage q page else ∃ p, l = .fork p ∧ K p page

/-- No other process has the frame that process `p` has at a page, unless both shared the page. -/
def Separate (s : Mm) (K : Pid → Nat → Prop) (p : Pid) (page : Nat) : Prop :=
  ∀ q ≠ p, s.Maps q page (s.word p page).base → K p page ∧ K q page

/-- The kernel stores, shares and loads where the process is alone. -/
def LeavesAlone (s : Mm) (K : Pid → Nat → Prop) : MmLabel → Prop
  | .load p _ _ =>
    p = idlePid ∨ (s.word p userMemoryStart).p = true ∧ s.Separate K p userMemoryStart
  | .sharePage p page => (s.word p page).p = true → s.Separate K p page
  | .store p page _ _ kernel => kernel = true → s.Separate K p page
  | _ => True

/-- Runs with the pages that were shared and the memories of the processes. -/
inductive OwnRun (reserved : Nat → Bool) :
    Mm → (Pid → Nat → Prop) → (Pid → Nat → Nat → Option Byte) → Prop
  | init {s} : Mm.Initial reserved s → OwnRun reserved s (fun _ _ => False) s.observe
  | step {s u l K V} : OwnRun reserved s K V → s.LeavesAlone K l → MmStep s l u →
    OwnRun reserved u (passed K l s) (memories V l s u)

/-- What can be written or is shared in one process is in another one only if both shared it. -/
structure Isolated (s : Mm) (K : Pid → Nat → Prop) : Prop where
  common : ∀ p q page f, p ≠ q → s.Maps p page f → s.Maps q page f →
    (s.word p page).rw = true ∨ (s.word p page).shared = true → K p page ∧ K q page
  shared : ∀ p page f, s.Maps p page f → (s.word p page).shared = true → K p page

section
variable {reserved : Nat → Bool} {s u : Mm} {l : MmLabel} {p q child : Pid}
  {page f g k : Nat} {e : MmPage} {K K' : Pid → Nat → Prop} {V : Pid → Nat → Nat → Option Byte}

/-! ## Who has a frame -/

theorem passed_of (hlive : (s.procs q).live = true) (h : K q page) : passed K l s q page := by
  rw [passed, if_pos hlive]
  exact .inl h

theorem of_passed (hlive : (s.procs q).live = true) (h : ¬passed K l s q page) : ¬K q page :=
  fun hK => h (passed_of hlive hK)

/-- The frames that were used are where they were. An entry of theirs changes where the process is
alone, and no two processes get a new frame. -/
theorem Isolated.of_maps (h : s.Isolated K)
    (hK : ∀ q page, (s.procs q).live = true → K q page → K' q page)
    (hold : ∀ q page f, u.Maps q page f → s.used f = true → s.Maps q page f ∧
      ((u.word q page).unmarked = (s.word q page).unmarked ∨
        (s.Separate K q page ∧ ((u.word q page).shared = true → K' q page))))
    (hnew : ∀ p q page f, s.used f = false → u.Maps p page f → u.Maps q page f → p = q)
    (hshared : ∀ q page f, s.used f = false → u.Maps q page f → (u.word q page).shared = true →
      K' q page) : u.Isolated K' where
  common p q page f hne hp hq hor := by
    cases hf : s.used f with
    | false => exact absurd (hnew p q page f hf hp hq) hne
    | true =>
      obtain ⟨hp', hw⟩ := hold p page f hp hf
      obtain ⟨hq', -⟩ := hold q page f hq hf
      have hboth : K p page ∧ K q page := by
        obtain hw | ⟨hsep, -⟩ := hw
        · obtain ⟨-, hrw, hs, -⟩ := MmPage.of_unmarked hw
          rw [hrw, hs] at hor
          exact h.common p q page f hne hp' hq' hor
        · exact hsep q hne.symm (hp'.2.2 ▸ hq')
      exact ⟨hK p page hp'.1 hboth.1, hK q page hq'.1 hboth.2⟩
  shared p page f hp hs := by
    cases hf : s.used f with
    | false => exact hshared p page f hf hp hs
    | true =>
      obtain ⟨hp', hw | ⟨-, hpassed⟩⟩ := hold p page f hp hf
      · obtain ⟨-, -, hw, -⟩ := MmPage.of_unmarked hw
        exact hK p page hp'.1 (h.shared p page f hp' (hw.symm.trans hs))
      · exact hpassed hs

/-- An entry changes that has no frame, that has its frame alone, or that gets a new one. -/
theorem Isolated.rewrites (h : s.Isolated K) (hb : s.Backed) (hr : Rewrites p page e s u)
    (hK : ∀ q page, (s.procs q).live = true → K q page → K' q page)
    (he : e.p = true → (e.shared = true → K' p page) ∧ (s.used e.base = false ∨
      (s.word p page).p = true ∧ e.base = (s.word p page).base ∧ s.Separate K p page)) :
    u.Isolated K' := by
  refine h.of_maps hK (fun q page' f hm hu => ?_) (fun p₁ q page' f hf hm hm' => ?_)
    fun q page' f hf hm hs => ?_
  · obtain ⟨rfl, rfl, hp, rfl⟩ | ⟨hm', hw⟩ := hr.maps hm
    · obtain ⟨hshared, hfree | ⟨hpresent, hbase, hsep⟩⟩ := he hp
      · exact absurd (hfree.symm.trans hu) Bool.false_ne_true
      · refine ⟨⟨hr.live, hpresent, hbase.symm⟩, .inr ⟨hsep, fun hs => hshared ?_⟩⟩
        rwa [hr.word, setWord_self] at hs
    · exact ⟨hm', .inl (congrArg _ hw)⟩
  · obtain ⟨rfl, -⟩ | ⟨hs, -⟩ := hr.maps hm
    · obtain ⟨rfl, -⟩ | ⟨hs, -⟩ := hr.maps hm'
      · rfl
      · exact absurd hs (hb.not_maps hf)
    · exact absurd hs (hb.not_maps hf)
  · obtain ⟨rfl, rfl, hp, -⟩ | ⟨hs', -⟩ := hr.maps hm
    · refine (he hp).1 ?_
      rwa [hr.word, setWord_self] at hs
    · exact absurd hs' (hb.not_maps hf)

/-- The new process has frames of its own. The page that was loaded through has its frame back. -/
theorem Isolated.loads {pl : Privilege} {D : Prop} {what : Nat → Option NewPage}
    (h : s.Isolated K) (hb : s.Backed) (hload : Loading s u p child pl D what)
    (htemp : u.word p userMemoryStart = if p = idlePid then .zero else
      mappedEntry (s.word p userMemoryStart).base ((s.procs p).privilegeLevel = .user))
    (hguard : p = idlePid ∨
      (s.word p userMemoryStart).p = true ∧ s.Separate K p userMemoryStart)
    (hK : ∀ q page, (s.procs q).live = true → K q page → K' q page) : u.Isolated K' := by
  have hmaps : ∀ q page f, u.Maps q page f →
      (q = child ∧ s.used f = false ∧ (u.word q page).shared = false) ∨
      (s.Maps q page f ∧ (u.word q page = s.word q page ∨
        s.Separate K q page ∧ (u.word q page).shared = false)) := by
    intro q page f hm
    obtain ⟨rfl, x, -, hw, -, hfree, -⟩ | ⟨hq, rfl, rfl⟩ | ⟨hm', hw⟩ := hload.maps hm
    · exact .inl ⟨rfl, hfree, by rw [hw]; rfl⟩
    · rcases eq_or_ne q idlePid with hidle | hidle
      · rw [Maps, htemp, if_pos hidle] at hm
        exact absurd hm.2.1 Bool.false_ne_true
      · obtain ⟨hp, hsep⟩ := hguard.resolve_left hidle
        have hlive := ((hload.live q).1 hm.1).resolve_right hq
        rw [Maps, htemp, if_neg hidle] at hm
        rw [htemp, if_neg hidle]
        exact .inr ⟨⟨hlive, hp, hm.2.2⟩, .inr ⟨hsep, rfl⟩⟩
    · exact .inr ⟨hm', .inl hw⟩
  refine h.of_maps hK (fun q page f hm hu => ?_) (fun p₁ q page f hf hm hm' => ?_)
    fun q page f hf hm hs => ?_
  · obtain ⟨-, hfree, -⟩ | ⟨hm', hw⟩ := hmaps q page f hm
    · exact absurd (hfree.symm.trans hu) Bool.false_ne_true
    · refine ⟨hm', hw.imp (congrArg _) ?_⟩
      rintro ⟨hsep, hno⟩
      exact ⟨hsep, fun hs => absurd (hno.symm.trans hs) Bool.false_ne_true⟩
  · obtain ⟨rfl, -⟩ | ⟨hs, -⟩ := hmaps p₁ page f hm
    · obtain ⟨rfl, -⟩ | ⟨hs, -⟩ := hmaps q page f hm'
      · rfl
      · exact absurd hs (hb.not_maps hf)
    · exact absurd hs (hb.not_maps hf)
  · obtain ⟨-, -, hno⟩ | ⟨hs', -⟩ := hmaps q page f hm
    · exact absurd (hno.symm.trans hs) Bool.false_ne_true
    · exact absurd hs' (hb.not_maps hf)

/-- The child can write to what its father shares, and has nothing else to itself. -/
theorem childWord_open (hp : (childWord page e).p = true)
    (h : (childWord page e).rw = true ∨ (childWord page e).shared = true) : e.shared = true := by
  obtain ⟨he, hstack⟩ := childWord_p.1 hp
  have hshared : (childWord page e).shared = true := h.elim (childWord_rw hp) id
  rw [childWord, if_pos he, if_neg hstack] at hshared
  split at hshared
  next h => exact h
  next => cases hshared

/-- What the father can still write or shares with a child that has it is shared. -/
theorem Forked.father_open (hf : Forked s u p child g) (hp : (s.word p page).p = true)
    (huser : UserPage page) (hstack : page ≠ taskKStack)
    (h : (u.word p page).rw = true ∨ (u.word p page).shared = true) :
    (s.word p page).shared = true := by
  have hw := hf.ofFather page
  rw [if_pos huser] at hw
  split at hw
  next =>
    rw [hw] at h
    exact h.elim nofun nofun
  next =>
    rw [hw, fatherWord_shared] at h
    exact h.elim (fun hrw => (fatherWord_rw hrw).2 hp hstack) id

theorem Isolated.forks (h : s.Isolated K) (hb : s.Backed) (hp : (s.procs p).live = true)
    (hf : Forked s u p child g) : u.Isolated (passed K (.fork p) s) := by
  have hfree : ∀ q page, ¬s.Maps q page g := fun _ _ => hb.not_maps hf.takes.free
  have hchild : ∀ page, K p page → passed K (.fork p) s child page := by
    intro page hK
    rw [passed, if_neg (by rw [hf.free]; exact Bool.false_ne_true)]
    exact ⟨p, rfl, hK⟩
  constructor
  case common =>
    intro p₁ q₁ page f hne hp₁ hq₁ hor
    rcases eq_or_ne p₁ child with rfl | hpc
    · obtain ⟨hq, -, -⟩ := hf.maps_old hne.symm hq₁
      obtain ⟨-, rfl⟩ | ⟨-, -, hm, hw⟩ := hf.maps_child hp hp₁
      · exact absurd hq (hfree q₁ page)
      · have hpresent := hp₁.2.1
        rw [hw] at hor hpresent
        have hshared := childWord_open hpresent hor
        refine ⟨hchild page (h.shared p page f hm hshared), ?_⟩
        rcases eq_or_ne q₁ p with rfl | hqp
        · exact passed_of hp (h.shared q₁ page f hm hshared)
        · exact passed_of hq.1 (h.common p q₁ page f hqp.symm hm hq (.inr hshared)).2
    · obtain ⟨hp', hshared, hrw⟩ := hf.maps_old hpc hp₁
      rcases eq_or_ne q₁ child with rfl | hqc
      · obtain ⟨-, rfl⟩ | ⟨hstack, huser, hm, -⟩ := hf.maps_child hp hq₁
        · exact absurd hp' (hfree p₁ page)
        · rcases eq_or_ne p₁ p with rfl | hpp
          · have hK := h.shared p₁ page f hp' (hf.father_open hp'.2.1 huser hstack hor)
            exact ⟨passed_of hp hK, hchild page hK⟩
          · rw [hshared] at hor
            obtain ⟨hK, hK'⟩ := h.common p₁ p page f hpp hp' hm (hor.imp_left hrw)
            exact ⟨passed_of hp'.1 hK, hchild page hK'⟩
      · rw [hshared] at hor
        have hq := (hf.maps_old hqc hq₁).1
        obtain ⟨hK, hK'⟩ := h.common p₁ q₁ page f hne hp' hq (hor.imp_left hrw)
        exact ⟨passed_of hp'.1 hK, passed_of hq.1 hK'⟩
  case shared =>
    intro q page f hq hs
    rcases eq_or_ne q child with rfl | hqc
    · obtain ⟨rfl, -⟩ | ⟨-, -, hm, hw⟩ := hf.maps_child hp hq
      · rw [hf.ofChild, if_pos rfl] at hs
        cases hs
      · have hpresent := hq.2.1
        rw [hw] at hs hpresent
        exact hchild page (h.shared p page f hm (childWord_open hpresent (.inr hs)))
    · obtain ⟨hq', hshared, -⟩ := hf.maps_old hqc hq
      exact passed_of hq'.1 (h.shared q page f hq' (hshared.symm.trans hs))

theorem Isolated.step (h : s.Isolated K) (hb : s.Backed) (hk : s.LeavesAlone K l)
    (hs : MmStep s l u) : u.Isolated (passed K l s) := by
  have hK : ∀ q page, (s.procs q).live = true → K q page → passed K l s q page :=
    fun _ _ => passed_of
  have hexit : ∀ {p}, Exits p s u → u.Isolated (passed K l s) := fun he =>
    h.of_maps hK (fun q page f hm _ => ⟨(he.maps hm).1, .inl (congrArg _ (he.maps hm).2)⟩)
      (fun p q page f hf hm _ => absurd (he.maps hm).1 (hb.not_maps hf))
      fun q page f hf hm _ => absurd (he.maps hm).1 (hb.not_maps hf)
  cases effect_of_step hs with
  | load hp hfree hlt hne hload htemp => exact h.loads hb hload htemp hk hK
  | fork hp _ hf => exact h.forks hb hp hf
  | request hp _ hr =>
    exact h.rewrites hb hr hK fun hp' => absurd (hp.symm.trans hp') Bool.false_ne_true
  | share hp _ hr =>
    refine h.rewrites hb hr hK fun _ => ⟨fun _ => ?_, .inr ⟨hp, rfl, hk hp⟩⟩
    rw [passed, if_pos hr.live]
    exact .inr rfl
  | shareNew _ htakes hr =>
    refine h.rewrites hb hr hK fun _ => ⟨fun _ => ?_, .inl htakes.free⟩
    rw [passed, if_pos hr.live]
    exact .inr rfl
  | shareNothing =>
    exact h.of_maps hK (fun q page f hm _ => ⟨hm, .inl rfl⟩)
      (fun p q page f hf hm _ => absurd hm (hb.not_maps hf))
      fun q page f hf hm _ => absurd hm (hb.not_maps hf)
  | demand _ _ htakes hr => exact h.rewrites hb hr hK fun _ => ⟨nofun, .inl htakes.free⟩
  | @sole p page _ _ _ hno _ hr =>
    have halone : s.Separate K p page := by
      intro q hq hm
      rw [← Bool.not_eq_true, isToBeCopiedOnWriteByOtherProcesses, othersHave_iff rfl] at hno
      exact absurd ⟨q, hb.lt q hm.1, hm.1, hq, by rw [hm.2.1]; rfl⟩ hno
    refine h.rewrites hb hr hK fun hp => ⟨fun hs => ?_, .inr ⟨hp, rfl, halone⟩⟩
    exact hK p page hr.live (h.shared p page _ ⟨hr.live, hp, rfl⟩ hs)
  | copy _ _ _ hc =>
    refine h.of_maps hK (fun q page f hm hu => ?_) (fun p q page f hf hm hm' => ?_)
      fun q page' f' hf hm hshared => ?_
    · obtain ⟨-, -, rfl, -⟩ | ⟨hm', hw⟩ := hc.maps hm
      · exact absurd (hc.takes.free.symm.trans hu) Bool.false_ne_true
      · exact ⟨hm', .inl (congrArg _ hw)⟩
    · obtain ⟨rfl, -⟩ | ⟨hs, -⟩ := hc.maps hm
      · obtain ⟨rfl, -⟩ | ⟨hs, -⟩ := hc.maps hm'
        · rfl
        · exact absurd hs (hb.not_maps hf)
      · exact absurd hs (hb.not_maps hf)
    · obtain ⟨-, -, -, us, hw⟩ | ⟨hs', -⟩ := hc.maps hm
      · rw [hw] at hshared
        cases hshared
      · exact absurd hs' (hb.not_maps hf)
  | killed _ _ he => exact hexit he
  | exit he => exact hexit he
  | store =>
    exact h.of_maps hK (fun q page f hm _ => ⟨hm, .inl rfl⟩)
      (fun p q page f hf hm _ => absurd hm (hb.not_maps hf))
      fun q page f hf hm _ => absurd hm (hb.not_maps hf)
  | @touch p page _ _ hp _ hr =>
    have hmaps : ∀ q page' f, u.Maps q page' f → s.Maps q page' f ∧
        (u.word q page').unmarked = (s.word q page').unmarked := by
      intro q page' f hm
      obtain ⟨rfl, rfl, -, rfl⟩ | ⟨hm', hw⟩ := hr.maps hm
      · exact ⟨⟨hr.live, hp, rfl⟩, by rw [hr.word, setWord_self]; rfl⟩
      · exact ⟨hm', congrArg _ hw⟩
    exact h.of_maps hK (fun q page f hm _ => ⟨(hmaps q page f hm).1, .inl (hmaps q page f hm).2⟩)
      (fun p q page f hf hm _ => absurd (hmaps p page f hm).1 (hb.not_maps hf))
      fun q page f hf hm _ => absurd (hmaps q page f hm).1 (hb.not_maps hf)

/-! ## What a process finds -/

/-- Process `q` has the page after the step, with what was there. -/
def KeepsPage (s u : Mm) (q : Pid) (page : Nat) : Prop :=
  (u.word q page).p = true ∧ ∀ k, u.read q page k = s.read q page k

theorem KeepsPage.of_word (hp : (u.word q page).p = true)
    (hbase : (u.word q page).base = (s.word q page).base)
    (hbyte : u.byte (s.word q page).base = s.byte (s.word q page).base) :
    KeepsPage s u q page :=
  ⟨hp, fun k => by rw [read, read, hbase, hbyte]⟩

theorem KeepsPage.of_eq (hp : (s.word q page).p = true) (hw : u.word q page = s.word q page)
    (hbyte : u.byte (s.word q page).base = s.byte (s.word q page).base) : KeepsPage s u q page :=
  .of_word (hw ▸ hp) (by rw [hw]) hbyte

theorem Rewrites.keepsPage (hr : Rewrites p page e s u) {page' : Nat}
    (hp : (s.word q page').p = true)
    (he : (s.word p page).p = true → e.p = true ∧ e.base = (s.word p page).base) :
    KeepsPage s u q page' := by
  have hbyte : u.byte (s.word q page').base = s.byte (s.word q page').base := by rw [hr.byte]
  rcases eq_or_ne q p with rfl | hq
  · rcases eq_or_ne page' page with rfl | hpage
    · obtain ⟨hp', hbase⟩ := he hp
      have hw : u.word q page' = e := by rw [hr.word, setWord_self]
      exact .of_word (hw ▸ hp') (hw ▸ hbase) hbyte
    · exact .of_eq hp (by rw [hr.word, setWord_of_page hpage]) hbyte
  · exact .of_eq hp (by rw [hr.word, setWord_of_proc hq]) hbyte

theorem Copies.keepsPage (hc : Copies p page f s u) {page' : Nat} (htmp : page' ≠ mmTmpPage)
    (hp : (s.word q page').p = true) (hne : (s.word q page').base ≠ f) :
    KeepsPage s u q page' := by
  obtain ⟨g, us, hbyte, hword, hsame⟩ := hc.copy
  have hbyte' : u.byte (s.word q page').base = s.byte (s.word q page').base := by
    rw [hbyte, Function.update_of_ne hne]
  rcases eq_or_ne q p with rfl | hq
  · rcases eq_or_ne page' page with rfl | hpage
    · -- the copy of the page
      have hw : u.word q page' = mappedEntry f us := by rw [hword, setWord_self]
      obtain ⟨rfl, -⟩ := hsame htmp
      refine ⟨by rw [hw]; rfl, fun k => ?_⟩
      rw [read, read, hw, hbyte]
      exact congrFun (Function.update_self ..) k
    · exact .of_eq hp (by rw [hword, setWord_of_page hpage, setWord_of_page htmp]) hbyte'
  · exact .of_eq hp (by rw [hword, setWord_of_proc hq, setWord_of_proc hq]) hbyte'

/-- A step other than a store changes no page of a process that was there, and takes none away but
`MM_TMP_PAGE`. -/
theorem keepsPage (hb : s.Backed) (hs : MmEffect s l u)
    (hstore : ∀ p page' offset b kernel, l ≠ .store p page' offset b kernel)
    (hlive : (s.procs q).live = true) (hlive' : (u.procs q).live = true) (hq : q ≠ idlePid)
    (htmp : page ≠ mmTmpPage) (hp : (s.word q page).p = true) : KeepsPage s u q page := by
  have hused := (hb.zone q page _ ⟨hlive, hp, rfl⟩).2
  have hfresh : ∀ {f}, Takes f s u → (s.word q page).base ≠ f := by
    rintro f htakes rfl
    exact Bool.false_ne_true (htakes.free.symm.trans hused)
  have hexit : ∀ {p}, Exits p s u → KeepsPage s u q page := by
    intro p he
    have hqp : q ≠ p := by
      rintro rfl
      exact Bool.false_ne_true (he.dead.symm.trans hlive')
    exact .of_eq hp (by rw [he.word_of_ne hqp]) (by rw [he.byte])
  cases hs with
  | @load p _ _ child _ _ hfree _ _ hload htemp =>
    have hbyte : u.byte (s.word q page).base = s.byte (s.word q page).base :=
      hload.byte _ fun _ => .inl hused
    have hne : q ≠ child := by
      rintro rfl
      exact Bool.false_ne_true (hfree.symm.trans hlive)
    rcases em (q = p ∧ page = userMemoryStart) with ⟨rfl, rfl⟩ | hno
    · rw [if_neg hq] at htemp
      exact .of_word (by rw [htemp]; rfl) (by rw [htemp]; rfl) hbyte
    · exact .of_eq hp (hload.others q page hne fun hp hpage => hno ⟨hp, hpage⟩) hbyte
  | @fork p child g _ _ _ hf =>
    have hbyte : u.byte (s.word q page).base = s.byte (s.word q page).base := by
      rw [hf.byte, Function.update_of_ne (hfresh hf.takes)]
    have hne : q ≠ child := by
      rintro rfl
      exact Bool.false_ne_true (hf.free.symm.trans hlive)
    rcases eq_or_ne q p with rfl | hqp
    · have hw := hf.ofFather page
      rw [if_neg htmp] at hw
      split at hw
      next =>
        exact .of_word (by rw [hw, fatherWord_p]; exact hp) (by rw [hw, fatherWord_base]) hbyte
      next => exact .of_eq hp hw hbyte
    · exact .of_eq hp (by rw [hf.others q hqp hne]) hbyte
  | request hno _ hr =>
    exact hr.keepsPage hp fun h => absurd (hno.symm.trans h) Bool.false_ne_true
  | share _ _ hr => exact hr.keepsPage hp fun h => ⟨h, rfl⟩
  | shareNew hno _ hr =>
    exact hr.keepsPage hp fun h => absurd (hno.symm.trans h) Bool.false_ne_true
  | shareNothing => exact ⟨hp, fun _ => rfl⟩
  | demand _ hno _ hr =>
    exact hr.keepsPage hp fun h => absurd (hno.symm.trans h) Bool.false_ne_true
  | sole _ _ _ _ hr => exact hr.keepsPage hp fun h => ⟨h, rfl⟩
  | copy _ _ _ hc => exact hc.keepsPage htmp hp (hfresh hc.takes)
  | killed _ _ he => exact hexit he
  | exit he => exact hexit he
  | store => exact (hstore _ _ _ _ _ rfl).elim
  | touch _ _ hr => exact hr.keepsPage hp fun h => ⟨h, rfl⟩

/-- The pages of a process that it did not share are those of its memory. -/
def Agrees (s : Mm) (K : Pid → Nat → Prop) (V : Pid → Nat → Nat → Option Byte) : Prop :=
  ∀ q page k, (s.procs q).live = true → q ≠ idlePid → UserPage page → page ≠ mmTmpPage →
    ¬K q page → s.observe q page k = V q page k

theorem observe_of_p (h : (s.word q page).p = true) :
    s.observe q page k = some (s.read q page k) := if_pos h

theorem observe_of_not_p (h : (s.word q page).p = false) : s.observe q page k = none :=
  if_neg (by rw [h]; exact Bool.false_ne_true)

/-- A store by one process does not show in what another one has for itself. -/
theorem observe_store {offset : Nat} {b : Byte} {kernel : Bool} (h : s.Isolated K)
    (hb : s.Backed) (hp : (s.procs p).live = true) (hpresent : (s.word p page).p = true)
    (hrw : kernel = false → (s.word p page).rw = true)
    (hguard : s.LeavesAlone K (.store p page offset b kernel)) (hq : (s.procs q).live = true)
    {page' : Nat} (hK : ¬K q page') :
    (s.store p page offset b).observe q page' k =
      if q = p ∧ page' = page ∧ k = offset then some b else s.observe q page' k := by
  have hword : (s.store p page offset b).word = s.word := rfl
  rw [observe, observe, hword]
  cases hp' : (s.word q page').p with
  | false =>
    rw [if_neg Bool.false_ne_true, if_neg Bool.false_ne_true, if_neg]
    rintro ⟨rfl, rfl, -⟩
    exact Bool.false_ne_true (hp'.symm.trans hpresent)
  | true =>
    rw [if_pos rfl, if_pos rfl, read_store]
    rcases em ((s.word q page').base = (s.word p page).base) with hbase | hbase
    · -- the same frame, so the same page and the same process
      have hm : s.Maps q page' (s.word p page).base := ⟨hq, hp', hbase⟩
      have hm' : s.Maps p page (s.word p page).base := ⟨hp, hpresent, rfl⟩
      obtain rfl := hb.same q p page' page _ hm hm'
      obtain rfl : q = p := by
        by_contra hne
        cases kernel with
        | false =>
          exact hK (h.common p q page' _ (Ne.symm hne) hm' hm (.inl (hrw rfl))).2
        | true => exact hK (hguard rfl q hne hm).2
      split_ifs with h₁ h₂ h₂
      · rfl
      · exact absurd ⟨rfl, rfl, h₁.2⟩ h₂
      · exact absurd ⟨rfl, h₂.2.2⟩ h₁
      · rfl
    · rw [if_neg fun hc => hbase hc.1, if_neg]
      rintro ⟨rfl, rfl, -⟩
      exact hbase rfl

theorem Agrees.step (h : s.Agrees K V) (hi : s.Isolated K) (hb : s.Backed)
    (hguard : s.LeavesAlone K l) (hs : MmStep s l u) :
    u.Agrees (passed K l s) (memories V l s u) := by
  intro q page k hlive hidle huser htmp hK
  have heffect := effect_of_step hs
  cases hold : (s.procs q).live with
  | true =>
    have hK' := of_passed hold hK
    have hagree := h q page k hold hidle huser htmp hK'
    unfold memories
    rw [if_pos hold]
    split
    next =>
      cases heffect with
      | store hp _ hpresent _ hrw _ =>
        rw [observe_store hi hb hp hpresent hrw hguard hold hK', hagree]
    next hstore =>
      cases hp : (s.word q page).p with
      | true =>
        obtain ⟨hp', hread⟩ := keepsPage hb heffect hstore hold hlive hidle htmp hp
        rw [← hagree, observe_of_p hp, observe_of_p hp', hread]
        rfl
      | false =>
        rw [← hagree, observe_of_not_p hp]
        rfl
  | false =>
    have hold' : ¬(s.procs q).live = true := by rw [hold]; exact Bool.false_ne_true
    unfold memories
    rw [if_neg hold']
    split
    next p =>
      split
      next => rfl
      next hstack =>
        cases heffect with
        | @fork _ child g _ hp hne hf =>
          obtain rfl := ((hf.live q).1 hlive).resolve_left hold'
          have hKp : ¬K p page := fun hKp => hK (by
            rw [passed, if_neg hold']
            exact ⟨p, rfl, hKp⟩)
          rw [← h p page k hp hne huser htmp hKp]
          have hw := hf.ofChild page
          rw [if_neg hstack, if_pos huser] at hw
          cases hpresent : (s.word p page).p with
          | true =>
            have hchild : (u.word q page).p = true := by
              rw [hw]
              exact childWord_p.2 ⟨hpresent, hstack⟩
            have hused := (hb.zone p page _ ⟨hp, hpresent, rfl⟩).2
            have hne : (s.word p page).base ≠ g := by
              intro heq
              exact Bool.false_ne_true (hf.takes.free.symm.trans (heq ▸ hused))
            have hbase : (u.word q page).base = (s.word p page).base := by
              rw [hw] at hchild ⊢
              exact childWord_base hchild
            rw [observe_of_p hpresent, observe_of_p hchild, read, read, hbase, hf.byte,
              Function.update_of_ne hne]
          | false =>
            have hchild : (u.word q page).p = false := by
              rw [hw, ← Bool.not_eq_true, childWord_p]
              exact fun hc => Bool.false_ne_true (hpresent.symm.trans hc.1)
            rw [observe_of_not_p hpresent, observe_of_not_p hchild]
    next => rfl

/-- The run lemma. -/
theorem ownRun_agrees (h : OwnRun reserved s K V) :
    s.Tables ∧ s.Backed ∧ s.Isolated K ∧ s.Agrees K V := by
  induction h with
  | init h =>
    obtain ⟨ht, hb⟩ := initial_owned h
    refine ⟨ht, hb, ⟨fun p q _ _ hne hp hq _ => ?_, fun p page f hm hs => ?_⟩,
      fun _ _ _ _ _ _ _ _ => rfl⟩
    · exact absurd (((h.live p).1 hp.1).trans ((h.live q).1 hq.1).symm) hne
    · obtain rfl := (h.live p).1 hm.1
      have hpresent := hm.2.1
      rw [word, entry, h.dir] at hpresent
      cases hpresent
  | @step s u l K V _ hguard hs ih =>
    obtain ⟨ht, hb, hi, ha⟩ := ih
    have hloads : s.LoadsOverPage l := by
      cases l with
      | load => exact hguard.imp_right And.left
      | _ => trivial
    exact ⟨ht.step hs fun p hp => (exits_owned ht hb hp).1, hb.step ht hloads hs,
      hi.step hb hguard hs, ha.step hi hb hguard hs⟩

/-- As long as the kernel stores, shares and loads where a process is alone, each process finds in
the pages that were not shared what is in its own memory. -/
theorem own_memory (h : OwnRun reserved s K V) (hlive : (s.procs q).live = true)
    (hidle : q ≠ idlePid) (huser : UserPage page) (htmp : page ≠ mmTmpPage) (hK : ¬K q page) :
    s.observe q page k = V q page k :=
  (ownRun_agrees h).2.2.2 q page k hlive hidle huser htmp hK

end

theorem not_passed (hK : ∀ q page, ¬K q page) (hl : ∀ q page, l ≠ .sharePage q page) (s : Mm)
    (q : Pid) (page : Nat) : ¬passed K l s q page := by
  rw [passed]
  split
  · exact fun h => h.elim (hK q page) (hl q page)
  · rintro ⟨p, -, h⟩
    exact hK p page h

/-- A task of one page forks and stores to its page, which is copied. Both processes find what is
theirs. -/
theorem own_memory_task : ∃ s K V child, OwnRun (fun _ => false) s K V ∧ child ≠ 1 ∧
    (s.procs 1).live = true ∧ (s.procs child).live = true ∧
    s.observe 1 userMemoryStart 0 = V 1 userMemoryStart 0 ∧ V 1 userMemoryStart 0 = some 7 ∧
    s.observe child userMemoryStart 0 = V child userMemoryStart 0 ∧
    V child userMemoryStart 0 = some 0x90 := by
  obtain ⟨s, child, u, hload, hlive, hlevel, hword, hfork, hsupply, -⟩ := task_loaded
  have hread : s.read 1 userMemoryStart 0 = 0x90 := by
    have hrun : ((boot.loaderLoad idlePid (smallImage 0x400000) .user).map fun r =>
        r.2.read 1 userMemoryStart 0) = some 0x90 := by
      decide +kernel
    cases hload with
    | load _ h =>
      rw [h] at hrun
      exact Option.some.inj hrun
  obtain ⟨g, hf⟩ := fork_spec hlive hfork
  have hfather : u.word 1 userMemoryStart =
      { mappedEntry 0x402 true with cor := true, rw := false } := by
    rw [hf.ofFather, hword]
    rfl
  have hchild : (u.word child userMemoryStart).p = true := by
    rw [hf.ofChild, hword]
    rfl
  have hlive' : (u.procs 1).live = true := (hf.live 1).2 (.inl hlive)
  have hliveChild : (u.procs child).live = true := (hf.live child).2 (.inr rfl)
  -- the child has the page as well, so the father gets a copy
  have hcopy : u.isToBeCopiedOnWriteByOtherProcesses userMemoryStart 1 = true :=
    (othersHave_iff rfl).2 ⟨child, hf.lt, hliveChild, hf.ne, by rw [hchild]; rfl⟩
  have hreq : u.isRequested userMemoryStart 1 = false := by
    rw [← Bool.not_eq_true, isRequested_iff, hfather]
    exact fun hc => Bool.false_ne_true hc.1.symm
  have hcow : u.isToBeCopiedOnWrite userMemoryStart 1 = true := by
    rw [isToBeCopiedOnWrite_iff, hfather]
    exact ⟨rfl, .inl rfl⟩
  have hne : u.word 1 userMemoryStart ≠ .zero := by
    rw [hfather]
    intro h0
    cases h0
  obtain ⟨v, hv⟩ := mmCopyOnWrite_total (by decide)
    (fun _ => .inr (hsupply.mono (by decide) (by decide))) hne
  have hfault : MmStep u (.fault 1 userMemoryStart) v := by
    refine .fault hlive' (by decide) (by decide) ((hf.level 1 hf.ne.symm).trans hlevel) ?_ ?_
    · rw [hfather]
      exact fun hc => Bool.false_ne_true hc.2.1
    · rw [pageFault, hreq, hcow]
      exact hv
  obtain ⟨hno, -⟩ | ⟨f, g', us, -, -, halike, -, hw, hsame⟩ := mmCopyOnWrite_spec hv hne
  · exact absurd (hno.symm.trans hcopy) Bool.false_ne_true
  obtain ⟨-, rfl⟩ := hsame (by decide)
  have hpage : v.word 1 userMemoryStart = mappedEntry f true := by
    rw [hw, setWord_self, hfather]
    rfl
  have hvlive : (v.procs 1).live = true := (halike.live 1).trans hlive'
  have hvchild : (v.procs child).live = true := (halike.live child).trans hliveChild
  have hstore : MmStep v (.store 1 userMemoryStart 0 7 false) (v.store 1 userMemoryStart 0 7) :=
    .store hvlive (by decide) (by decide) (by rw [hpage]; rfl) (by rw [hpage]; rfl)
      (fun _ => by rw [hpage]; rfl) (by decide)
  have hidle : boot.LeavesAlone (fun _ _ => False) (.load idlePid (smallImage 0x400000) .user) :=
    .inl rfl
  have hrun := (OwnRun.init boot_initial).step hidle hload
  have hrun := hrun.step (l := .fork 1) trivial (.fork hlive (by decide) hfork)
  have hrun := hrun.step (l := .fault 1 userMemoryStart) trivial hfault
  have hrun := hrun.step (l := .store 1 userMemoryStart 0 7 false)
    (fun hkernel => absurd hkernel Bool.false_ne_true) hstore
  have hK := not_passed (not_passed (not_passed (not_passed (K := fun _ _ => False)
    (l := .load idlePid (smallImage 0x400000) .user) (fun _ _ => id) (fun _ _ h => by cases h) boot)
    (l := .fork 1) (fun _ _ h => by cases h) s)
    (l := .fault 1 userMemoryStart) (fun _ _ h => by cases h) u)
    (l := .store 1 userMemoryStart 0 7 false) (fun _ _ h => by cases h) v
  have hnew : ¬(s.procs child).live = true := by
    rw [hf.free]
    exact Bool.false_ne_true
  have hchildIdle : child ≠ idlePid := by
    rintro rfl
    refine hnew ?_
    cases hload with
    | load _ h =>
      obtain ⟨-, -, -, hl, -⟩ := loaderLoad_spec rfl h
      exact (hl.live idlePid).2 (.inl rfl)
  refine ⟨_, _, _, child, hrun, hf.ne, hvlive, hvchild,
    own_memory hrun hvlive (by decide) (by decide) (by decide) (hK 1 userMemoryStart), ?_,
    own_memory hrun hvchild hchildIdle (by decide) (by decide) (hK child userMemoryStart), ?_⟩
  · rw [memories, if_pos hvlive, if_pos ⟨rfl, rfl, rfl⟩]
  · have hbefore : memories boot.observe (.load idlePid (smallImage 0x400000) .user) boot s 1
        userMemoryStart 0 = some 0x90 := by
      unfold memories
      rw [if_neg (by decide)]
      exact (observe_of_p (by rw [hword]; rfl)).trans (congrArg some hread)
    generalize memories boot.observe _ boot s = V at hbefore ⊢
    have hforked : memories V (.fork 1) s u child userMemoryStart 0 = some 0x90 := by
      unfold memories
      rw [if_neg hnew]
      exact (if_neg (by decide)).trans hbefore
    generalize memories V (.fork 1) s u = V at hforked ⊢
    have hcopied : memories V (.fault 1 userMemoryStart) u v child userMemoryStart 0 =
        some 0x90 := by
      unfold memories
      rw [if_pos hliveChild, hforked]
      rfl
    generalize memories V (.fault 1 userMemoryStart) u v = V at hcopied ⊢
    unfold memories
    rw [if_pos hvchild]
    exact (if_neg fun hc => hf.ne hc.1).trans hcopied

/-- After a fork the kernel writes into a buffer of the father, and the child reads it. -/
theorem kernel_store_seen : ∃ s u t child b,
    MmStep boot (.load idlePid (smallImage 0x400000) .user) s ∧ MmStep s (.fork 1) u ∧
    MmStep u (.store 1 userMemoryStart 0 b true) t ∧ child ≠ 1 ∧
    (s.procs child).live = false ∧ (u.procs child).live = true ∧
    t.observe child userMemoryStart 0 ≠ u.observe child userMemoryStart 0 := by
  obtain ⟨s, child, u, hload, hlive, -, hword, hfork, -⟩ := task_loaded
  obtain ⟨g, hf⟩ := fork_spec hlive hfork
  have hfather : u.word 1 userMemoryStart =
      { mappedEntry 0x402 true with cor := true, rw := false } := by
    rw [hf.ofFather, hword]
    rfl
  have hchild : u.word child userMemoryStart =
      { mappedEntry 0x402 true with cor := true, rw := false } := by
    rw [hf.ofChild, hword]
    rfl
  have hpresent : (u.word child userMemoryStart).p = true := by rw [hchild]; rfl
  have hlive' : (u.procs 1).live = true := (hf.live 1).2 (.inl hlive)
  refine ⟨s, u, u.store 1 userMemoryStart 0 (u.read child userMemoryStart 0 + 1), child, _, hload,
    .fork hlive (by decide) hfork, .store hlive' (by decide) (by decide) (by rw [hfather]; rfl)
      (by rw [hfather]; rfl) nofun (by decide), hf.ne, hf.free, (hf.live child).2 (.inr rfl), ?_⟩
  have hword' : (u.store 1 userMemoryStart 0 (u.read child userMemoryStart 0 + 1)).word = u.word :=
    rfl
  rw [observe, observe, hword', if_pos hpresent, if_pos hpresent, read_store,
    if_pos ⟨by rw [hfather, hchild], rfl⟩]
  intro h
  have hone : (1 : Byte) = 0 := UInt8.add_eq_left.1 (Option.some.inj h)
  cases hone

end Mm
end SpuriOS
