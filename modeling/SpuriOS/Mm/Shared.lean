import SpuriOS.Mm.Owned
import SpuriOS.Mm.Supply

/-! # Pages that are shared

A page that can be written keeps its frame and its write permission when it is shared, and each
process that is forked with it gets both. One that is to be copied on write keeps neither. -/

namespace SpuriOS
open Transition

namespace Mm

/-- Tasks are loaded by the idle process alone. -/
def IdleLoads (_ : Mm) : MmLabel → Prop
  | .load p _ _ => p = idlePid
  | _ => True

/-- What a process can write and does not share is in no other process. -/
structure Exclusive (s : Mm) : Prop where
  idleLive : (s.procs idlePid).live = true
  sole : ∀ p q page f, p ≠ q → s.Maps p page f → s.Maps q page f →
    (s.word p page).rw = true → (s.word p page).shared = true

/-- The processes of `G` that are left, with those that they forked. -/
def family (G : Pid → Prop) (l : MmLabel) (s u : Mm) (q : Pid) : Prop :=
  (u.procs q).live = true ∧ (G q ∨ ∃ p, G p ∧ l = .fork p ∧ (s.procs q).live = false)

/-- The states after `share_page` returned 0 in process `p` from state `s₀` on, with the processes
that are to have the page. -/
inductive Sharing (s₀ : Mm) (p : Pid) (page : Nat) : Mm → (Pid → Prop) → Prop
  | share {u} : (s₀.procs p).live = true → p ≠ idlePid → UserPage page →
    s₀.mmSharePage page p = some (0, u) → Sharing s₀ p page u (· = p)
  | step {s u l G} : Sharing s₀ p page s G → IdleLoads s l → MmStep s l u →
    Sharing s₀ p page u (family G l s u)

/-- The processes of `G` have frame `f` at the page, for good. -/
structure Held (s : Mm) (page f : Nat) (G : Pid → Prop) : Prop where
  notIdle : ∀ q, G q → q ≠ idlePid
  maps : ∀ q, G q → s.Maps q page f
  rw : ∀ q, G q → (s.word q page).rw = true
  shared : ∀ q, G q → (s.word q page).shared = true

/-- No process but those of `G` has frame `f`. -/
def Alone (s : Mm) (f : Nat) (G : Pid → Prop) : Prop :=
  ∀ q q' page, G q → ¬G q' → ¬s.Maps q' page f

section
variable {reserved : Nat → Bool} {s s₀ u : Mm} {l : MmLabel} {p q child : Pid}
  {page page' f f' g : Nat} {e : MmPage} {G : Pid → Prop}

/-! ## What is not shared is exclusive -/

/-- Where the old frames keep their words, and no two processes get a new one. -/
theorem Exclusive.of_maps (h : s.Exclusive) (hidle : (u.procs idlePid).live = true)
    (hold : ∀ q page f, u.Maps q page f → s.used f = true →
      s.Maps q page f ∧ u.word q page = s.word q page)
    (hnew : ∀ p q page f, s.used f = false → u.Maps p page f → u.Maps q page f → p = q) :
    u.Exclusive where
  idleLive := hidle
  sole p q page f hne hp hq hrw := by
    cases hf : s.used f with
    | false => exact absurd (hnew p q page f hf hp hq) hne
    | true =>
      obtain ⟨hp', hw⟩ := hold p page f hp hf
      obtain ⟨hq', -⟩ := hold q page f hq hf
      rw [hw] at hrw ⊢
      exact h.sole p q page f hne hp' hq' hrw

/-- An entry changes, without a frame that another process has but does not share. -/
theorem Exclusive.rewrites (h : s.Exclusive) (hr : Rewrites p page e s u)
    (he : e.p = true → ∀ q ≠ p, s.Maps q page e.base → (e.rw = true → e.shared = true) ∧
      ((s.word q page).rw = true → (s.word q page).shared = true)) : u.Exclusive where
  idleLive := (hr.alike.live idlePid).trans h.idleLive
  sole p₁ q₁ page' f hne hp hq hrw := by
    obtain ⟨rfl, rfl, hpe, rfl⟩ | ⟨hp', hw⟩ := hr.maps hp
    · obtain ⟨rfl, -⟩ | ⟨hq', -⟩ := hr.maps hq
      · exact absurd rfl hne
      · rw [hr.word, setWord_self] at hrw ⊢
        exact (he hpe q₁ hne.symm hq').1 hrw
    · rw [hw] at hrw ⊢
      obtain ⟨rfl, rfl, hpe, rfl⟩ | ⟨hq', -⟩ := hr.maps hq
      · exact (he hpe p₁ hne hp').2 hrw
      · exact h.sole p₁ q₁ page' f hne hp' hq' hrw

theorem Exclusive.forks (h : s.Exclusive) (hb : s.Backed) (hp : (s.procs p).live = true)
    (hf : Forked s u p child g) : u.Exclusive where
  idleLive := (hf.live idlePid).2 (.inl h.idleLive)
  sole p₁ q₁ page f hne hp₁ hq₁ hrw := by
    have hfree : ∀ q page, ¬s.Maps q page g := fun _ _ => hb.not_maps hf.takes.free
    rcases eq_or_ne p₁ child with rfl | hpc
    · obtain ⟨-, rfl⟩ | ⟨-, -, -, hw⟩ := hf.maps_child hp hp₁
      · exact absurd (hf.maps_old hne.symm hq₁).1 (hfree q₁ page)
      · rw [hw] at hrw ⊢
        refine childWord_rw ?_ hrw
        rw [← hw]
        exact hp₁.2.1
    · obtain ⟨hp', hshared, hrw'⟩ := hf.maps_old hpc hp₁
      rw [hshared]
      rcases eq_or_ne q₁ child with rfl | hqc
      · obtain ⟨-, rfl⟩ | ⟨hstack, huser, hm, -⟩ := hf.maps_child hp hq₁
        · exact absurd hp' (hfree p₁ page)
        · rcases eq_or_ne p₁ p with rfl | hpp
          · -- the father can write only to what it shares with the child
            have hw := hf.ofFather page
            rw [if_pos huser] at hw
            split at hw
            next =>
              rw [hw] at hrw
              cases hrw
            next =>
              rw [hw] at hrw
              exact (fatherWord_rw hrw).2 hp'.2.1 hstack
          · exact h.sole p₁ p page f hpp hp' hm (hrw' hrw)
      · exact h.sole p₁ q₁ page f hne hp' (hf.maps_old hqc hq₁).1 (hrw' hrw)

theorem Exclusive.step (h : s.Exclusive) (hb : s.Backed) (hk : s.IdleLoads l)
    (hs : MmStep s l u) : u.Exclusive := by
  have hfresh : ∀ {f}, Takes f s u → ∀ q page, ¬s.Maps q page f := fun htakes _ _ =>
    hb.not_maps htakes.free
  cases effect_of_step hs with
  | load hp hfree hlt hne hload htemp =>
    obtain rfl : _ = idlePid := hk
    rw [if_pos rfl] at htemp
    have hzero : (u.word idlePid userMemoryStart).p = false := by rw [htemp]; rfl
    refine h.of_maps ((hload.live idlePid).2 (.inl h.idleLive)) (fun q page f hm hu => ?_)
      fun p q page f hf hm hm' => ?_
    · refine (hload.maps_idle hzero hm).resolve_left fun hc => ?_
      rw [hu] at hc
      cases hc.2
    · obtain ⟨rfl, -⟩ | ⟨hs, -⟩ := hload.maps_idle hzero hm
      · obtain ⟨rfl, -⟩ | ⟨hs, -⟩ := hload.maps_idle hzero hm'
        · rfl
        · exact absurd hs (hb.not_maps hf)
      · exact absurd hs (hb.not_maps hf)
  | fork hp _ hf => exact h.forks hb hp hf
  | request hp _ hr =>
    exact h.rewrites hr fun hp' => absurd (hp.symm.trans hp') Bool.false_ne_true
  | share hp _ hr =>
    exact h.rewrites hr fun _ q hq hm => ⟨fun _ => rfl, fun hrw =>
      h.sole q _ _ _ hq hm ⟨hr.live, hp, rfl⟩ hrw⟩
  | shareNew _ htakes hr =>
    exact h.rewrites hr fun _ q _ hm => absurd hm (hfresh htakes q _)
  | shareNothing => exact h
  | demand _ _ htakes hr =>
    exact h.rewrites hr fun _ q _ hm => absurd hm (hfresh htakes q _)
  | sole _ _ hno _ hr =>
    refine h.rewrites hr fun _ q hq hm => ?_
    rw [← Bool.not_eq_true, isToBeCopiedOnWriteByOtherProcesses, othersHave_iff rfl] at hno
    exact absurd ⟨q, hb.lt q hm.1, hm.1, hq, by rw [hm.2.1]; rfl⟩ hno
  | copy _ _ _ hc =>
    refine h.of_maps ((hc.alike.live idlePid).trans h.idleLive) (fun q page f hm hu => ?_)
      fun p q page f hf hm hm' => ?_
    · refine (hc.maps hm).resolve_left ?_
      rintro ⟨-, -, rfl, -⟩
      exact Bool.false_ne_true (hc.takes.free.symm.trans hu)
    · obtain ⟨rfl, -⟩ | ⟨hs, -⟩ := hc.maps hm
      · obtain ⟨rfl, -⟩ | ⟨hs, -⟩ := hc.maps hm'
        · rfl
        · exact absurd hs (hb.not_maps hf)
      · exact absurd hs (hb.not_maps hf)
  | killed _ _ he =>
    exact h.of_maps ((he.live_of_ne he.notIdle.symm).trans h.idleLive)
      (fun q page f hm _ => he.maps hm) fun p q page f hf hm _ =>
        absurd (he.maps hm).1 (hb.not_maps hf)
  | exit he =>
    exact h.of_maps ((he.live_of_ne he.notIdle.symm).trans h.idleLive)
      (fun q page f hm _ => he.maps hm) fun p q page f hf hm _ =>
        absurd (he.maps hm).1 (hb.not_maps hf)
  | store => exact ⟨h.idleLive, h.sole⟩
  | @touch p page _ _ hp _ hr =>
    refine h.rewrites hr fun _ q hq hm => ⟨fun hrw => ?_, fun hrw => ?_⟩
    · exact h.sole p q page _ hq.symm ⟨hr.live, hp, rfl⟩ hm hrw
    · exact h.sole q p page _ hq hm ⟨hr.live, hp, rfl⟩ hrw

theorem initial_exclusive (h : Mm.Initial reserved s) : s.Exclusive where
  idleLive := (h.live idlePid).2 rfl
  sole p q _ _ hne hp hq _ :=
    absurd (((h.live p).1 hp.1).trans ((h.live q).1 hq.1).symm) hne

theorem exclusive (h : Reach (mmSystem reserved) IdleLoads s) :
    s.Tables ∧ s.Backed ∧ s.Exclusive := by
  refine h.invariant (I := fun s => s.Tables ∧ s.Backed ∧ s.Exclusive)
    (fun h => ⟨(initial_owned h).1, (initial_owned h).2, initial_exclusive h⟩) ?_
  rintro s l u ⟨ht, hb, he⟩ hk hs
  have hloads : s.LoadsOverPage l := by
    cases l with
    | load => exact .inl hk
    | _ => trivial
  exact ⟨ht.step hs fun p hp => (exits_owned ht hb hp).1, hb.step ht hloads hs,
    he.step hb hk hs⟩

/-! ## The processes that share a page -/

/-- A frame that was used is mapped where it was, or by the child of a process that had it. -/
theorem maps_after (hk : s.IdleLoads l) (hs : MmEffect s l u)
    (hm : u.Maps q page f) (hu : s.used f = true) :
    s.Maps q page f ∨ ∃ p, l = .fork p ∧ (s.procs q).live = false ∧ s.Maps p page f := by
  have hnot : ∀ {g}, Takes g s u → g ≠ f := by
    rintro g htakes rfl
    exact Bool.false_ne_true (htakes.free.symm.trans hu)
  have hrewrites : ∀ {p page' e}, Rewrites p page' e s u →
      (e.p = true → e.base = f → s.Maps p page' f) → s.Maps q page f := by
    intro p page' e hr he
    obtain ⟨rfl, rfl, hp, hbase⟩ | ⟨hm', -⟩ := hr.maps hm
    · exact he hp hbase
    · exact hm'
  cases hs with
  | load hp hfree hlt hne hload htemp =>
    obtain rfl : _ = idlePid := hk
    rw [if_pos rfl] at htemp
    obtain ⟨-, hf⟩ | ⟨hm', -⟩ := hload.maps_idle (by rw [htemp]; rfl) hm
    · exact absurd (hf.symm.trans hu) Bool.false_ne_true
    · exact .inl hm'
  | @fork p child g _ hp _ hf =>
    rcases eq_or_ne q child with rfl | hq
    · obtain ⟨-, rfl⟩ | ⟨-, -, hm', -⟩ := hf.maps_child hp hm
      · exact absurd rfl (hnot hf.takes)
      · exact .inr ⟨p, rfl, hf.free, hm'⟩
    · exact .inl (hf.maps_old hq hm).1
  | request hp _ hr =>
    exact .inl (hrewrites hr fun hp' => absurd (hp.symm.trans hp') Bool.false_ne_true)
  | share hp _ hr => exact .inl (hrewrites hr fun _ hbase => ⟨hr.live, hp, hbase⟩)
  | shareNew _ htakes hr => exact .inl (hrewrites hr fun _ hbase => absurd hbase (hnot htakes))
  | shareNothing => exact .inl hm
  | demand _ _ htakes hr => exact .inl (hrewrites hr fun _ hbase => absurd hbase (hnot htakes))
  | sole _ hcow _ _ hr => exact .inl (hrewrites hr fun hp hbase => ⟨hr.live, hp, hbase⟩)
  | copy _ _ _ hc =>
    obtain ⟨-, -, rfl, -⟩ | ⟨hm', -⟩ := hc.maps hm
    · exact absurd rfl (hnot hc.takes)
    · exact .inl hm'
  | killed _ _ he => exact .inl (he.maps hm).1
  | exit he => exact .inl (he.maps hm).1
  | store => exact .inl hm
  | touch hp _ hr => exact .inl (hrewrites hr fun _ hbase => ⟨hr.live, hp, hbase⟩)

/-- A process that is left keeps its entry, but for what the processor marks. -/
theorem Held.word (h : Held s page f G) (hstack : page ≠ taskKStack) (htmp : page ≠ mmTmpPage)
    (hk : s.IdleLoads l) (hs : MmEffect s l u) (hq : G q) (hlive : (u.procs q).live = true) :
    (u.word q page).unmarked = (s.word q page).unmarked := by
  have hpresent := (h.maps q hq).2.1
  have hrewrites : ∀ {p page' e}, Rewrites p page' e s u →
      (p = q → page' = page → e.unmarked = (s.word q page).unmarked) →
      (u.word q page).unmarked = (s.word q page).unmarked := by
    intro p page' e hr he
    rw [hr.word]
    rcases eq_or_ne q p with rfl | hqp
    · rcases eq_or_ne page page' with rfl | hpage
      · rw [setWord_self, he rfl rfl]
      · rw [setWord_of_page hpage]
    · rw [setWord_of_proc hqp]
  -- neither a page that is not present nor one that cannot be written
  have habsent : ∀ {p page' e}, Rewrites p page' e s u → (s.word p page').p = false →
      (u.word q page).unmarked = (s.word q page).unmarked := by
    intro p page' e hr hp
    refine hrewrites hr ?_
    rintro rfl rfl
    exact absurd (hp.symm.trans hpresent) Bool.false_ne_true
  cases hs with
  | load hp hfree hlt hne hload htemp =>
    obtain rfl : _ = idlePid := hk
    refine congrArg _ (hload.others q page ?_ fun hidle => absurd hidle (h.notIdle q hq))
    rintro rfl
    exact absurd (hfree.symm.trans (h.maps _ hq).1) Bool.false_ne_true
  | @fork p child g _ hp _ hf =>
    have hne : q ≠ child := by
      rintro rfl
      exact absurd (hf.free.symm.trans (h.maps _ hq).1) Bool.false_ne_true
    rcases eq_or_ne q p with rfl | hqp
    · rw [hf.ofFather, if_neg htmp, fatherWord_of_shared (h.shared q hq), ite_self]
    · rw [hf.others q hqp hne]
  | request hp _ hr => exact habsent hr hp
  | share _ _ hr =>
    refine hrewrites hr ?_
    rintro rfl rfl
    rw [MmPage.unmarked, ← h.shared _ hq]
    rfl
  | shareNew hp _ hr => exact habsent hr hp
  | shareNothing => rfl
  | demand _ hp _ hr => exact habsent hr hp
  | sole _ hcow _ _ hr =>
    refine hrewrites hr ?_
    rintro rfl rfl
    exact absurd ((isToBeCopiedOnWrite_iff.1 hcow).1.symm.trans (h.rw _ hq)) Bool.false_ne_true
  | @copy p page' _ _ _ hcow _ hc =>
    obtain ⟨-, us, -, hword, -⟩ := hc.copy
    rw [hword]
    rcases eq_or_ne q p with rfl | hqp
    · rcases eq_or_ne page page' with rfl | hpage
      · exact absurd ((isToBeCopiedOnWrite_iff.1 hcow).1.symm.trans (h.rw q hq))
          Bool.false_ne_true
      · rw [setWord_of_page hpage, setWord_of_page htmp]
    · rw [setWord_of_proc hqp, setWord_of_proc hqp]
  | @killed p _ _ _ _ he | @exit p _ he =>
    have hqp : q ≠ p := by
      rintro rfl
      exact Bool.false_ne_true (he.dead.symm.trans hlive)
    rw [he.word_of_ne hqp]
  | store => rfl
  | touch _ _ hr =>
    refine hrewrites hr ?_
    rintro rfl rfl
    rfl

/-- The entry of a new process of the family. -/
theorem Held.child_word (h : Held s page f G) (huser : UserPage page) (hstack : page ≠ taskKStack)
    (hp : G p) (hf : Forked s u p child g) :
    u.word child page = { mappedEntry f (s.word p page).us with shared := true } := by
  rw [hf.ofChild, if_neg hstack, if_pos huser,
    childWord_of_shared (h.maps p hp).2.1 hstack (h.shared p hp), (h.maps p hp).2.2]

theorem Held.step (h : Held s page f G) (huser : UserPage page) (hstack : page ≠ taskKStack)
    (htmp : page ≠ mmTmpPage) (hidle : (s.procs idlePid).live = true) (hk : s.IdleLoads l)
    (hs : MmEffect s l u) : Held u page f (family G l s u) := by
  have hall : ∀ q, family G l s u q → q ≠ idlePid ∧ (u.word q page).p = true ∧
      (u.word q page).base = f ∧ (u.word q page).rw = true ∧ (u.word q page).shared = true := by
    rintro q ⟨hlive, hq | ⟨p, hp, rfl, hnew⟩⟩
    · obtain ⟨hp, hrw, hshared, hbase⟩ :=
        MmPage.of_unmarked (h.word hstack htmp hk hs hq hlive)
      rw [hp, hrw, hshared, hbase]
      exact ⟨h.notIdle q hq, (h.maps q hq).2.1, (h.maps q hq).2.2, h.rw q hq, h.shared q hq⟩
    · refine ⟨?_, ?_⟩
      · rintro rfl
        exact Bool.false_ne_true (hnew.symm.trans hidle)
      · cases hs with
        | fork _ _ hf =>
          obtain rfl := ((hf.live q).1 hlive).resolve_left (by rw [hnew]; exact Bool.false_ne_true)
          rw [h.child_word huser hstack hp hf]
          exact ⟨rfl, rfl, rfl, rfl⟩
  exact {
    notIdle := fun q hq => (hall q hq).1
    maps := fun q hq => ⟨hq.1, (hall q hq).2.1, (hall q hq).2.2.1⟩
    rw := fun q hq => (hall q hq).2.2.2.1
    shared := fun q hq => (hall q hq).2.2.2.2 }

theorem Alone.step (h : Alone s f G) (hheld : Held s page f G) (hb : s.Backed)
    (hk : s.IdleLoads l) (hs : MmEffect s l u) : Alone u f (family G l s u) := by
  intro q q' page' hq hq' hm
  -- some process of the family was there before
  obtain ⟨r, hr⟩ : ∃ r, G r := by
    obtain ⟨-, hq | ⟨p, hp, -⟩⟩ := hq
    · exact ⟨q, hq⟩
    · exact ⟨p, hp⟩
  have hused := (hb.zone r page f (hheld.maps r hr)).2
  obtain hm' | ⟨p, rfl, hfree, hm'⟩ := maps_after hk hs hm hused
  · exact h r q' page' hr (fun hg => hq' ⟨hm.1, .inl hg⟩) hm'
  · exact h r p page' hr (fun hg => hq' ⟨hm.1, .inr ⟨p, hg, rfl, hfree⟩⟩) hm'

/-- What `share_page` makes of a page that can be written or was requested. -/
theorem sharePage_held (hb : s.Backed) (he : s.Exclusive) (hlive : (s.procs p).live = true)
    (hidle : p ≠ idlePid) (huser : UserPage page) (hrw : (s.word p page).rw = true)
    (h : s.mmSharePage page p = some (0, u)) :
    ∃ f, Held u page f (· = p) ∧ ((s.word p page).shared = false → Alone u f (· = p)) := by
  obtain ⟨h0, -⟩ | ⟨-, hp, halike, hused, hbyte, hword⟩ |
    ⟨f, -, hp, -, htakes, halike, hbyte, hword⟩ := mmSharePage_spec h
  · cases h0
  · have hr : Rewrites p page { s.word p page with shared := true } s u :=
      ⟨hlive, hidle, huser, halike, hbyte, hword⟩
    refine ⟨(s.word p page).base, ⟨?_, ?_, ?_, ?_⟩, fun hshared q q' page' hq hq' hm => ?_⟩
    · rintro q rfl
      exact hidle
    · rintro q rfl
      rw [Maps, hword, setWord_self]
      exact ⟨(halike.live q).trans hlive, hp, rfl⟩
    · rintro q rfl
      rw [hword, setWord_self]
      exact hrw
    · rintro q rfl
      rw [hword, setWord_self]
    · obtain ⟨rfl, -⟩ | ⟨hm', -⟩ := hr.maps hm
      · exact hq' rfl
      · obtain rfl := hb.same p q' page page' _ ⟨hlive, hp, rfl⟩ hm'
        exact absurd (hshared.symm.trans (he.sole p q' page _ (Ne.symm hq') ⟨hlive, hp, rfl⟩ hm'
          hrw)) Bool.false_ne_true
  · have hr : Rewrites p page { mappedEntry f true with shared := true } s u :=
      ⟨hlive, hidle, huser, halike, hbyte, hword⟩
    refine ⟨f, ⟨?_, ?_, ?_, ?_⟩, fun _ q q' page' hq hq' hm => ?_⟩
    · rintro q rfl
      exact hidle
    · rintro q rfl
      rw [Maps, hword, setWord_self]
      exact ⟨(halike.live q).trans hlive, rfl, rfl⟩
    · rintro q rfl
      rw [hword, setWord_self]
      rfl
    · rintro q rfl
      rw [hword, setWord_self]
    · obtain ⟨rfl, -⟩ | ⟨hm', -⟩ := hr.maps hm
      · exact hq' rfl
      · exact hb.not_maps htakes.free hm'

/-- The run lemma: the processes that share the page hold it all along, in the frame that it had
when `share_page` returned. -/
theorem sharing_held (h : Reach (mmSystem reserved) IdleLoads s₀) (hstack : page ≠ taskKStack)
    (htmp : page ≠ mmTmpPage) (hrw : (s₀.word p page).rw = true) :
    ∃ f, ∀ s G, Sharing s₀ p page s G → Reach (mmSystem reserved) IdleLoads s ∧ UserPage page ∧
      Held s page f G ∧ ((s₀.word p page).shared = false → Alone s f G) := by
  have hfirst : ∃ f, ∀ u, (s₀.procs p).live = true → p ≠ idlePid → UserPage page →
      s₀.mmSharePage page p = some (0, u) →
      Held u page f (· = p) ∧ ((s₀.word p page).shared = false → Alone u f (· = p)) := by
    by_cases hcall : ∃ u, (s₀.procs p).live = true ∧ p ≠ idlePid ∧ UserPage page ∧
        s₀.mmSharePage page p = some (0, u)
    · obtain ⟨u, hlive, hidle, huser, hs⟩ := hcall
      obtain ⟨-, hb, he⟩ := exclusive h
      obtain ⟨f, hf⟩ := sharePage_held hb he hlive hidle huser hrw hs
      refine ⟨f, fun u' _ _ _ hs' => ?_⟩
      cases hs.symm.trans hs'
      exact hf
    · exact ⟨0, fun u hlive hidle huser hs => absurd ⟨u, hlive, hidle, huser, hs⟩ hcall⟩
  obtain ⟨f, hf⟩ := hfirst
  refine ⟨f, fun s G hshare => ?_⟩
  induction hshare with
  | share hlive hidle huser hs =>
    have hk : s₀.IdleLoads (.sharePage p page) := trivial
    exact ⟨h.step hk (.sharePage hlive hidle huser hs), huser, hf _ hlive hidle huser hs⟩
  | step _ hk hs ih =>
    obtain ⟨hreach, huser, hheld, halone⟩ := ih
    obtain ⟨-, hb, he⟩ := exclusive hreach
    have heffect := effect_of_step hs
    exact ⟨hreach.step hk hs, huser, hheld.step huser hstack htmp he.idleLive hk heffect,
      fun hshared => (halone hshared).step hheld hb hk heffect⟩

theorem mmSharePage_present (s : Mm) (p : Pid) (page : Nat) (h : (s.word p page).p = true) :
    ∃ u, s.mmSharePage page p = some (0, u) := by
  have hne : s.word p page ≠ .zero := by
    intro h0
    rw [h0] at h
    cases h
  rw [mmSharePage, entry_of_pde (pde_of_word hne)]
  exact ⟨_, if_pos h⟩

/-- Once `share_page` returned 0 for a page that could be written or was requested, and that is
neither the kernel stack nor `MM_TMP_PAGE`, there is one frame in which the process and those that
are forked from it on have the page, with write permission, in every later state until they exit.
Each sees what one of them stores there, and if the page was not shared before, no other process
does. -/
theorem shared_stays (h : Reach (mmSystem reserved) IdleLoads s₀) (hstack : page ≠ taskKStack)
    (htmp : page ≠ mmTmpPage) (hrw : (s₀.word p page).rw = true) :
    ∃ f, ∀ s G, Sharing s₀ p page s G →
      (∀ q, G q → s.Maps q page f ∧ (s.word q page).rw = true) ∧
      (∀ q q' offset b, G q → G q' → (s.store q page offset b).read q' page offset = b) ∧
      ((s₀.word p page).shared = false → ∀ q q', G q → (s.procs q').live = true → ¬G q' →
        ∀ page' offset offset' b, (s.word q' page').p = true →
          (s.store q page offset b).read q' page' offset' = s.read q' page' offset') := by
  obtain ⟨f, hf⟩ := sharing_held h hstack htmp hrw
  refine ⟨f, fun s G hshare => ?_⟩
  obtain ⟨-, -, hheld, halone⟩ := hf s G hshare
  refine ⟨fun q hq => ⟨hheld.maps q hq, hheld.rw q hq⟩, fun q q' offset b hq hq' => ?_,
    fun hshared q q' hq hlive hq' page' offset offset' b hp => ?_⟩
  · rw [read_store, if_pos ⟨(hheld.maps q' hq').2.2.trans (hheld.maps q hq).2.2.symm, rfl⟩]
  · rw [read_store, if_neg]
    rintro ⟨hbase, -⟩
    exact halone hshared q q' page' hq hq' ⟨hlive, hp, hbase.trans (hheld.maps q hq).2.2⟩

end

/-- A task of one page is loaded, and forks. -/
theorem task_forks : ∃ s child u, Reach (mmSystem fun _ => false) IdleLoads s ∧
    (s.procs 1).live = true ∧ (s.procs 1).privilegeLevel = .user ∧
    s.word 1 userMemoryStart = mappedEntry 0x402 true ∧
    s.fork 1 = some (child, u) ∧ u.Supply 8 8 := by
  obtain ⟨s, child, u, hload, hlive, hlevel, hword, hfork, hsupply, -⟩ := task_loaded
  have hidle : boot.IdleLoads (.load idlePid (smallImage 0x400000) .user) := rfl
  exact ⟨s, child, u, .step (.init boot_initial) hidle hload, hlive, hlevel, hword, hfork, hsupply⟩

/-- A task shares its page and forks. What the child stores there, the father reads. -/
theorem shared_stays_task : ∃ (s₀ s : Mm) (G : Pid → Prop) (child : Pid) (f : Nat),
    Sharing s₀ 1 userMemoryStart s G ∧ child ≠ 1 ∧ G 1 ∧ G child ∧
    s.Maps 1 userMemoryStart f ∧ s.Maps child userMemoryStart f ∧
    (s.word child userMemoryStart).rw = true ∧
    (s.store child userMemoryStart 0 7).read 1 userMemoryStart 0 = 7 := by
  have hrun : ((boot.loaderLoad idlePid (smallImage 0x400000) .user).bind fun r =>
      (r.2.mmSharePage userMemoryStart 1).map fun r' =>
        ((r'.1, (r.2.procs 1).live, (r.2.word 1 userMemoryStart).rw),
          ((r'.2.procs 1).live, (r'.2.procs 1).privilegeLevel, (r'.2.procs 2).live),
          (r'.2.freeFrames 0x100 0x400, r'.2.freeFrames 0x400 r'.2.limit,
            r'.2.tableCount 1 1))) =
      some ((0, true, true), (true, .user, false), (762, 13, 2)) := by
    decide +kernel
  obtain ⟨⟨pid, s₀⟩, hload, hrun⟩ := Option.bind_eq_some_iff.1 hrun
  obtain ⟨⟨result, u⟩, hshare, h⟩ := Option.map_eq_some_iff.1 hrun
  simp only [Prod.mk.injEq] at h
  obtain ⟨⟨rfl, hlive, hrw⟩, ⟨hlive', hlevel, hslot⟩, hkernel, huser, hcount⟩ := h
  obtain ⟨child, s, hfork, -⟩ := fork_total (k := 1) (n := 1) hlive' hlevel
    ⟨2, by decide, hslot⟩ ⟨by rw [hkernel, hcount]; decide, by rw [huser]; decide⟩
  obtain ⟨g, hf⟩ := fork_spec hlive' hfork
  have hidle : boot.IdleLoads (.load idlePid (smallImage 0x400000) .user) := rfl
  have hreach : Reach (mmSystem fun _ => false) IdleLoads s₀ :=
    .step (.init boot_initial) hidle (.load rfl hload)
  have hsharing : Sharing s₀ 1 userMemoryStart s (family (· = 1) (.fork 1) u s) :=
    (Sharing.share hlive (by decide) ⟨by decide, by decide⟩ hshare).step
      (show u.IdleLoads (.fork 1) from trivial) (.fork hlive' (by decide) hfork)
  have hfather : family (· = 1) (.fork 1) u s 1 := ⟨(hf.live 1).2 (.inl hlive'), .inl rfl⟩
  have hchild : family (· = 1) (.fork 1) u s child :=
    ⟨(hf.live child).2 (.inr rfl), .inr ⟨1, rfl, rfl, hf.free⟩⟩
  obtain ⟨f, hstays⟩ := shared_stays hreach (by decide) (by decide) hrw
  obtain ⟨hmaps, hread, -⟩ := hstays s _ hsharing
  exact ⟨s₀, s, _, child, f, hsharing, hf.ne, hfather, hchild, (hmaps 1 hfather).1,
    (hmaps child hchild).1, (hmaps child hchild).2, hread child 1 0 7 hchild hfather⟩

/-- After a fork the father shares its page, which is to be copied on write. With the first store it
has a copy instead, which it does not share. -/
theorem shared_page_copied : ∃ (s₀ s s' : Mm) (G G' : Pid → Prop) (f f' : Nat),
    Reach (mmSystem fun _ => false) IdleLoads s₀ ∧
    Sharing s₀ 1 userMemoryStart s G ∧ G 1 ∧ s.Maps 1 userMemoryStart f ∧
    Sharing s₀ 1 userMemoryStart s' G' ∧ G' 1 ∧ s'.Maps 1 userMemoryStart f' ∧
    f ≠ f' ∧ (s'.word 1 userMemoryStart).shared = false := by
  obtain ⟨s, child, u, hreach, hlive, hlevel, hword, hfork, hsupply⟩ := task_forks
  obtain ⟨g, hf⟩ := fork_spec hlive hfork
  have hreach' : Reach (mmSystem fun _ => false) IdleLoads u :=
    .step hreach (show s.IdleLoads (.fork 1) from trivial) (.fork hlive (by decide) hfork)
  have hlive' : (u.procs 1).live = true := (hf.live 1).2 (.inl hlive)
  have hfather : u.word 1 userMemoryStart =
      { mappedEntry 0x402 true with cor := true, rw := false } := by
    rw [hf.ofFather, hword]
    rfl
  have hchild : (u.word child userMemoryStart).p = true := by
    rw [hf.ofChild, hword]
    rfl
  obtain ⟨t, ht⟩ := mmSharePage_present u 1 userMemoryStart
    (by rw [hfather]; rfl)
  obtain ⟨h0, -⟩ | ⟨-, hp, halike, hused, -, hw⟩ | ⟨-, -, hp, -⟩ := mmSharePage_spec ht
  · cases h0
  · have hsharing : Sharing u 1 userMemoryStart t (· = 1) :=
      .share hlive' (by decide) ⟨by decide, by decide⟩ ht
    have hpage : t.word 1 userMemoryStart =
        { mappedEntry 0x402 true with cor := true, rw := false, shared := true } := by
      rw [hw, setWord_self, hfather]
    have hlevel' : (t.procs 1).privilegeLevel = .user :=
      (halike.level 1).trans ((hf.level 1 hf.ne.symm).trans hlevel)
    -- the child has the page as well
    have hcopy : t.isToBeCopiedOnWriteByOtherProcesses userMemoryStart 1 = true := by
      refine (othersHave_iff rfl).2 ⟨child, hf.lt, ?_, hf.ne, ?_⟩
      · exact (halike.live child).trans ((hf.live child).2 (.inr rfl))
      · rw [hw, setWord_of_proc hf.ne, hchild]
        rfl
    have hreq : t.isRequested userMemoryStart 1 = false := by
      rw [← Bool.not_eq_true, isRequested_iff, hpage]
      exact fun hc => Bool.false_ne_true hc.1.symm
    have hcow : t.isToBeCopiedOnWrite userMemoryStart 1 = true := by
      rw [isToBeCopiedOnWrite_iff, hpage]
      exact ⟨rfl, .inl rfl⟩
    have hne : t.word 1 userMemoryStart ≠ .zero := by
      rw [hpage]
      nofun
    obtain ⟨v, hv⟩ := mmCopyOnWrite_total (by decide) (fun _ => .inr
      ((hsupply.of_used hused halike.limit).mono (by decide) (by decide))) hne
    have hstep : MmStep t (.fault 1 userMemoryStart) v := by
      refine .fault ((halike.live 1).trans hlive') (by decide) ⟨by decide, by decide⟩ hlevel' ?_ ?_
      · rw [hpage]
        exact fun hc => Bool.false_ne_true hc.2.1
      · rw [pageFault, hreq, hcow]
        exact hv
    obtain ⟨hno, -⟩ | ⟨f', g', us, -, htakes, halike', -, hw', -⟩ := mmCopyOnWrite_spec hv hne
    · exact absurd (hno.symm.trans hcopy) Bool.false_ne_true
    · have hpage' : v.word 1 userMemoryStart = mappedEntry f' us := by rw [hw', setWord_self]
      have hmaps : t.Maps 1 userMemoryStart 0x402 := by
        rw [Maps, hpage]
        exact ⟨(halike.live 1).trans hlive', rfl, rfl⟩
      have hreach'' : Reach (mmSystem fun _ => false) IdleLoads t :=
        .step hreach' (show u.IdleLoads (.sharePage 1 userMemoryStart) from trivial)
          (.sharePage hlive' (by decide) ⟨by decide, by decide⟩ ht)
      refine ⟨u, t, v, _, _, 0x402, f', hreach', hsharing, rfl, hmaps,
        .step hsharing (show t.IdleLoads (.fault 1 userMemoryStart) from trivial) hstep,
        ⟨?_, .inl rfl⟩, ?_, ?_, by rw [hpage']; rfl⟩
      · exact (halike'.live 1).trans hmaps.1
      · rw [Maps, hpage']
        exact ⟨(halike'.live 1).trans hmaps.1, rfl, rfl⟩
      · rintro rfl
        exact (exclusive hreach'').2.1.not_maps htakes.free hmaps
  · exact absurd (hp.symm.trans (by rw [hfather]; rfl)) Bool.false_ne_true

end Mm
end SpuriOS
