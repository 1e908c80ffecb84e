import SpuriOS.Mm.Owned

/-! # Frames that get lost

`mm_dir_free` and `mm_copy_on_write` keep a frame when another process has something at the same
page, be it another frame. A frame is lost when the process that had it was the last one. -/

namespace SpuriOS
open Transition

namespace Mm

/-- Some live process has frame `f`. -/
def Mapped (s : Mm) (f : Nat) : Prop := ∃ p page, s.Maps p page f

/-- `mm_dir_free` gives back each frame that process `p` alone has. -/
def GivesBack (s : Mm) (p : Pid) : Prop :=
  ∀ page f, 0x400 ≤ f → s.Maps p page f → (∀ q ≠ p, ∀ page', ¬s.Maps q page' f) →
    InBitmap f ∧ s.isToBeCopiedOnWriteByOtherProcesses page p = false ∧
      s.sharedWithOtherProcesses page p = false

/-- The frames at a page and at `MM_TMP_PAGE` of process `p` are mapped elsewhere as well. -/
def MappedElsewhere (s : Mm) (p : Pid) (page : Nat) : Prop :=
  ∀ page' f, page' = page ∨ page' = mmTmpPage → 0x400 ≤ f → s.Maps p page' f →
    ∃ q page'', s.Maps q page'' f ∧ (q = p → page'' ≠ page ∧ page'' ≠ mmTmpPage)

/-- The step loses no frame. -/
def Keeps (s : Mm) : MmLabel → Prop
  | .load _ f pl => f.ClearOfStacks pl
  | .fault p page =>
    if s.isRequested page p then True
    else if s.isToBeCopiedOnWrite page p then
      s.isToBeCopiedOnWriteByOtherProcesses page p = true → s.MappedElsewhere p page
    else s.GivesBack p
  | .exit p => s.GivesBack p
  | _ => True

/-- The frames of the user zone. -/
def userZone (s : Mm) : List Nat := List.range' 0x400 (s.limit - 0x400)

/-- `mm_free_page_count` for `MM_REQUEST_USER`. -/
def mmFreePageCount (s : Mm) : Nat := s.userZone.countP fun f => !s.used f

/-- The number of pages that process `p` has in memory. -/
def presentPages (s : Mm) (p : Pid) : Nat :=
  (List.range pageCount).countP fun page => (s.word p page).p

/-! ## The invariant -/

/-- Frames that are used have a page, and the idle process has none. -/
structure Accounted (reserved : Nat → Bool) (s : Mm) : Prop where
  idleLive : (s.procs idlePid).live = true
  idle : ∀ page, s.word idlePid page = .zero
  user : ∀ p page, (s.procs p).live = true → s.word p page ≠ .zero → UserPage page
  used : ∀ f, 0x400 ≤ f → s.used f = true → reserved f = true ∨ s.Mapped f

section
variable {reserved : Nat → Bool} {s u : Mm} {l : MmLabel} {p q : Pid} {page f g : Nat} {e : MmPage}

theorem initial_accounted (h : Mm.Initial reserved s) : s.Accounted reserved where
  idleLive := (h.live idlePid).2 rfl
  idle page := by
    rw [word, entry, h.dir]
    rfl
  user p page hp hne := by
    obtain rfl := (h.live p).1 hp
    refine absurd ?_ hne
    rw [word, entry, h.dir]
    rfl
  used f hf hu := .inl ((h.used f hf).symm.trans hu)

theorem Maps.of_eq (hlive : (u.procs p).live = (s.procs p).live)
    (hp : (u.word p page).p = (s.word p page).p) (hbase : (u.word p page).base =
      (s.word p page).base) (h : s.Maps p page f) : u.Maps p page f :=
  ⟨hlive.trans h.1, hp.trans h.2.1, hbase.trans h.2.2⟩

/-- The frames that are used afterwards were used before and mapped, and still are, or are newly
mapped. -/
theorem Accounted.used_of (h : s.Accounted reserved)
    (hnew : ∀ f, 0x400 ≤ f → u.used f = true → s.used f = true ∨ u.Mapped f)
    (hkeep : ∀ q page f, 0x400 ≤ f → u.used f = true → s.Maps q page f → u.Mapped f) :
    ∀ f, 0x400 ≤ f → u.used f = true → reserved f = true ∨ u.Mapped f := by
  intro f hf hu
  obtain hs | hm := hnew f hf hu
  · exact (h.used f hf hs).imp_right fun ⟨q, page, hm⟩ => hkeep q page f hf hu hm
  · exact .inr hm

/-- An entry is overwritten by one that has the same frame, or that has a frame where there was
none. -/
theorem Accounted.rewrites (h : s.Accounted reserved) (hr : Rewrites p page e s u)
    (hnew : ∀ f, 0x400 ≤ f → u.used f = true → s.used f = true ∨ (e.p = true ∧ e.base = f))
    (hold : (s.word p page).p = true → e.p = true ∧ e.base = (s.word p page).base) :
    u.Accounted reserved where
  idleLive := (hr.alike.live idlePid).trans h.idleLive
  idle page' := by
    rw [hr.word, setWord_of_proc hr.notIdle.symm, h.idle]
  user q page' hq hne := by
    by_cases hpage : q = p ∧ page' = page
    · exact hpage.2 ▸ hr.user
    · refine h.user q page' ((hr.alike.live q).symm.trans hq) fun h0 => hne ?_
      rw [hr.word]
      by_cases hqp : q = p
      · rw [setWord_of_page fun hp => hpage ⟨hqp, hp⟩, h0]
      · rw [setWord_of_proc hqp, h0]
  used := by
    refine h.used_of (fun f hf hu => (hnew f hf hu).imp_right fun he => ?_)
      fun q page' f hf hu hm => ?_
    · refine ⟨p, page, (hr.alike.live p).trans hr.live, ?_⟩
      rw [hr.word, setWord_self]
      exact he
    · refine ⟨q, page', ?_⟩
      by_cases hpage : q = p ∧ page' = page
      · obtain ⟨rfl, rfl⟩ := hpage
        obtain ⟨hp, hbase⟩ := hold hm.2.1
        refine ⟨(hr.alike.live q).trans hr.live, ?_⟩
        rw [hr.word, setWord_self]
        exact ⟨hp, hbase.trans hm.2.2⟩
      · have hw : u.word q page' = s.word q page' := by
          rw [hr.word]
          by_cases hqp : q = p
          · rw [setWord_of_page fun hp => hpage ⟨hqp, hp⟩]
          · rw [setWord_of_proc hqp]
        exact hm.of_eq (hr.alike.live q) (by rw [hw]) (by rw [hw])

theorem Accounted.exits (h : s.Accounted reserved) (he : Exits p s u) (hback : s.GivesBack p) :
    u.Accounted reserved where
  idleLive := (he.live_of_ne he.notIdle.symm).trans h.idleLive
  idle page := by rw [he.word_of_ne he.notIdle.symm, h.idle]
  user q page hq hne := by
    have hqp : q ≠ p := by
      rintro rfl
      rw [he.dead] at hq
      cases hq
    rw [he.word_of_ne hqp] at hne
    exact h.user q page ((he.live_of_ne hqp).symm.trans hq) hne
  used := by
    have hstay : ∀ q ≠ p, ∀ page f, s.Maps q page f → u.Maps q page f := by
      intro q hq page f hm
      exact hm.of_eq (he.live_of_ne hq) (by rw [he.word_of_ne hq]) (by rw [he.word_of_ne hq])
    refine h.used_of (fun f _ hu => .inl ((he.used f).1 hu).1) fun q page f hf hu hm => ?_
    by_cases hqp : q = p
    · subst hqp
      by_contra hno
      -- a frame that no other process has was given back
      obtain ⟨hbit, hcow, hshared⟩ := hback page f hf hm fun q hq page' hm' =>
        hno ⟨q, page', hstay q hq page' f hm'⟩
      have hne : s.word q page ≠ .zero := by
        intro h0
        have := hm.2.1
        rw [h0] at this
        cases this
      have huser := h.user q page hm.1 hne
      refine ((he.used f).1 hu).2 ⟨hbit, .inr ⟨pdEntryFor page, ?_, ?_, ?_⟩⟩
      · rw [pdEntryFor]
        have := huser.1
        omega
      · have : page < 0x100000 := huser.2
        rw [pdEntryFor]
        omega
      · obtain ⟨t, ht⟩ := Option.ne_none_iff_exists'.1 (pde_of_word hne)
        refine ⟨t, ht, .inr ⟨page % 1024, by omega, ?_⟩⟩
        have hpage : pdEntryFor page * 1024 + page % 1024 = page := by
          rw [pdEntryFor]
          omega
        rw [hpage, FreesPage, pte_of_word hne]
        exact ⟨hm.2.1, hm.2.2, hcow, hshared⟩
    · exact ⟨q, page, hstay q hqp page f hm⟩

theorem Accounted.copies (h : s.Accounted reserved) (hc : Copies p page f s u)
    (helse : s.MappedElsewhere p page) : u.Accounted reserved := by
  obtain ⟨g, us, -, hword, -⟩ := hc.copy
  have hother : ∀ q page', (q = p → page' ≠ page ∧ page' ≠ mmTmpPage) →
      u.word q page' = s.word q page' := by
    intro q page' hq
    rw [hword]
    by_cases hqp : q = p
    · rw [setWord_of_page (hq hqp).1, setWord_of_page (hq hqp).2]
    · rw [setWord_of_proc hqp, setWord_of_proc hqp]
  have hstay : ∀ q page' f', (q = p → page' ≠ page ∧ page' ≠ mmTmpPage) → s.Maps q page' f' →
      u.Maps q page' f' := by
    intro q page' f' hq hm
    exact hm.of_eq (hc.alike.live q) (by rw [hother q page' hq]) (by rw [hother q page' hq])
  exact {
    idleLive := (hc.alike.live idlePid).trans h.idleLive
    idle := fun page' => by
      rw [hother idlePid page' fun hp => absurd hp.symm hc.notIdle, h.idle]
    user := fun q page' hq hne => by
      by_cases hpage : q = p → page' ≠ page ∧ page' ≠ mmTmpPage
      · rw [hother q page' hpage] at hne
        exact h.user q page' ((hc.alike.live q).symm.trans hq) hne
      · obtain ⟨rfl, hpage⟩ := Classical.not_imp.1 hpage
        by_cases hp : page' = page
        · exact hp ▸ hc.user
        · have htmp : page' = mmTmpPage := by
            by_contra htmp
            exact hpage fun _ => ⟨hp, htmp⟩
          rw [hword, setWord_of_page hp, htmp, setWord_self] at hne
          exact absurd rfl hne
    used := by
      refine h.used_of (fun f' hf' hu => ?_) fun q page' f' hf' hu hm => ?_
      · refine ((hc.takes.used f' hf').1 hu).imp_right ?_
        rintro rfl
        refine ⟨p, page, (hc.alike.live p).trans hc.live, ?_⟩
        rw [hword, setWord_self]
        exact ⟨rfl, rfl⟩
      · by_cases hpage : q = p → page' ≠ page ∧ page' ≠ mmTmpPage
        · exact ⟨q, page', hstay q page' f' hpage hm⟩
        · obtain ⟨rfl, hpage⟩ := Classical.not_imp.1 hpage
          obtain ⟨q', page'', hm', hq'⟩ := helse page' f'
            (by by_contra hno; exact hpage fun _ => not_or.1 hno) hf' hm
          exact ⟨q', page'', hstay q' page'' f' hq' hm'⟩ }

theorem Accounted.loads {f : Image} {pl : Privilege} (h : s.Accounted reserved)
    (hp : (s.procs p).live = true) (hq : (s.procs q).live = false)
    (hload : Loading s u p q pl (f.ClearOfStacks pl) (f.layout pl (dataPagesNeededFor f)))
    (htemp : u.word p userMemoryStart = if p = idlePid then .zero else
      mappedEntry (s.word p userMemoryStart).base ((s.procs p).privilegeLevel = .user))
    (hclear : f.ClearOfStacks pl) : u.Accounted reserved := by
  have hne : ∀ q', (s.procs q').live = true → q' ≠ q := by
    rintro q' hq' rfl
    rw [hq] at hq'
    cases hq'
  have hpresent : ∀ page, f.layout pl (dataPagesNeededFor f) page ≠ none →
      (u.word q page).p = true := by
    intro page hpage
    obtain ⟨x, hx⟩ := Option.ne_none_iff_exists'.1 hpage
    obtain ⟨g, hw, -⟩ := hload.present page x hx
    rw [hw]
    rfl
  exact {
    idleLive := (hload.live idlePid).2 (.inl h.idleLive)
    idle := fun page => by
      by_cases htmp : idlePid = p ∧ page = userMemoryStart
      · obtain ⟨rfl, rfl⟩ := htmp
        exact htemp.trans (if_pos rfl)
      · rw [hload.others idlePid page (hne idlePid h.idleLive) fun hp hpage => htmp ⟨hp, hpage⟩,
          h.idle]
    user := fun q' page hlive hword => by
      by_cases hq' : q' = q
      · subst hq'
        exact hload.zone page fun hnone => hword (hload.absent page hnone)
      · by_cases htmp : q' = p ∧ page = userMemoryStart
        · exact htmp.2 ▸ ⟨by decide, by decide⟩
        · rw [hload.others q' page hq' fun hp hpage => htmp ⟨hp, hpage⟩] at hword
          exact h.user q' page (((hload.live q').1 hlive).resolve_right hq') hword
    used := by
      refine h.used_of (fun f' hf' hu => ?_) fun q' page f' _ _ hm => ⟨q', page, ?_⟩
      · refine (hload.covered hclear f' hf' hu).imp_right fun ⟨page, hpage, hbase⟩ => ?_
        exact ⟨q, page, (hload.live q).2 (.inr rfl), hpresent page hpage, hbase⟩
      · have hlive := (hload.live q').2 (.inl hm.1)
        by_cases htmp : q' = p ∧ page = userMemoryStart
        · obtain ⟨rfl, rfl⟩ := htmp
          have hidle : q' ≠ idlePid := by
            rintro rfl
            have := hm.2.1
            rw [h.idle] at this
            cases this
          rw [if_neg hidle] at htemp
          rw [Maps, htemp]
          exact ⟨hlive, rfl, hm.2.2⟩
        · rw [Maps, hload.others q' page (hne q' hm.1) fun hp hpage => htmp ⟨hp, hpage⟩]
          exact ⟨hlive, hm.2⟩ }

theorem Accounted.forks (h : s.Accounted reserved) (hidle : p ≠ idlePid)
    (hf : Forked s u p q g) : u.Accounted reserved := by
  have hne : ∀ q', (s.procs q').live = true → q' ≠ q := by
    rintro q' hq' rfl
    rw [hf.free] at hq'
    cases hq'
  exact {
    idleLive := (hf.live idlePid).2 (.inl h.idleLive)
    idle := fun page => by rw [hf.others idlePid hidle.symm (hne _ h.idleLive), h.idle]
    user := fun q' page hlive hword => by
      by_cases hq : q' = q
      · rw [hq, hf.ofChild] at hword
        split at hword
        next hpage => exact hpage ▸ ⟨by decide, by decide⟩
        next =>
          split at hword
          next huser => exact huser
          next => exact absurd rfl hword
      · have hlive' := ((hf.live q').1 hlive).resolve_right hq
        by_cases hp : q' = p
        · rw [hp, hf.ofFather] at hword
          split at hword
          next => exact absurd rfl hword
          next =>
            split at hword
            next huser => exact huser
            next => exact h.user p page (hp ▸ hlive') hword
        · rw [hf.others q' hp hq] at hword
          exact h.user q' page hlive' hword
    used := by
      refine h.used_of (fun f hf' hu => ?_) fun q' page f hf' hu hm => ?_
      · refine ((hf.takes.used f hf').1 hu).imp_right ?_
        rintro rfl
        refine ⟨q, taskKStack, (hf.live q).2 (.inr rfl), ?_⟩
        rw [hf.ofChild, if_pos rfl]
        exact ⟨rfl, rfl⟩
      · have hlive := (hf.live q').2 (.inl hm.1)
        by_cases hp : q' = p
        · subst hp
          have huser : UserPage page := h.user q' page hm.1 fun h0 => by
            have := hm.2.1
            rw [h0] at this
            cases this
          -- the child has what was at `MM_TMP_PAGE`
          by_cases htmp : page = mmTmpPage
          · refine ⟨q, page, (hf.live q).2 (.inr rfl), ?_⟩
            have hstack : page ≠ taskKStack := by
              rw [htmp]
              decide
            have hpresent := childWord_p.2 ⟨hm.2.1, hstack⟩
            rw [hf.ofChild, if_neg hstack, if_pos huser]
            exact ⟨hpresent, (childWord_base hpresent).trans hm.2.2⟩
          · refine ⟨q', page, hlive, ?_⟩
            rw [hf.ofFather, if_neg htmp, if_pos huser, fatherWord_p, fatherWord_base]
            exact hm.2
        · refine ⟨q', page, hlive, ?_⟩
          rw [hf.others q' hp (hne q' hm.1)]
          exact hm.2 }

theorem Accounted.step (h : s.Accounted reserved) (hk : s.Keeps l) (hs : MmStep s l u) :
    u.Accounted reserved := by
  cases effect_of_step hs with
  | load hp hfree _ _ hload htemp => exact h.loads hp hfree hload htemp hk
  | fork _ hidle hf => exact h.forks hidle hf
  | request hp hu hr =>
    refine h.rewrites hr (fun f hf hused => .inl ((hu f hf).symm.trans hused)) fun hp' => ?_
    rw [hp] at hp'
    cases hp'
  | share hp hu hr =>
    exact h.rewrites hr (fun f hf hused => .inl ((hu f hf).symm.trans hused)) fun _ => ⟨hp, rfl⟩
  | shareNew hp htakes hr =>
    refine h.rewrites hr (fun g hg hused => ?_) fun hp' => ?_
    · exact ((htakes.used g hg).1 hused).imp_right fun hgf => ⟨rfl, hgf.symm⟩
    · rw [hp] at hp'
      cases hp'
  | shareNothing => exact h
  | demand _ hp htakes hr =>
    refine h.rewrites hr (fun g hg hused => ?_) fun hp' => ?_
    · exact ((htakes.used g hg).1 hused).imp_right fun hgf => ⟨rfl, hgf.symm⟩
    · rw [hp] at hp'
      cases hp'
  | sole _ _ _ hu hr =>
    exact h.rewrites hr (fun f hf hused => .inl ((hu f hf).symm.trans hused)) fun hp => ⟨hp, rfl⟩
  | copy hreq hcow hyes hc =>
    rw [Keeps, hreq, if_neg Bool.false_ne_true, if_pos hcow] at hk
    exact h.copies hc (hk hyes)
  | killed hreq hcow he =>
    rw [Keeps, hreq, hcow, if_neg Bool.false_ne_true, if_neg Bool.false_ne_true] at hk
    exact h.exits he hk
  | exit he => exact h.exits he hk
  | store => exact ⟨h.idleLive, h.idle, h.user, h.used⟩
  | touch hp hu hr =>
    exact h.rewrites hr (fun f hf hused => .inl ((hu f hf).symm.trans hused)) fun _ => ⟨hp, rfl⟩

theorem accounted (h : Reach (mmSystem reserved) Keeps s) : s.Accounted reserved :=
  h.invariant (I := Accounted reserved) initial_accounted fun hI hk hs => hI.step hk hs

/-- As long as no step loses a frame, the used frames of the user zone are those that were reserved
and those of live processes, and with one process left as many are free as it leaves. -/
theorem used_frames_mapped (h : Reach (mmSystem reserved) Keeps s) :
    (∀ f, 0x400 ≤ f → s.used f = true → reserved f = true ∨ s.Mapped f) ∧
    ∀ p, (∀ q, (s.procs q).live = true → q = idlePid ∨ q = p) →
      s.userZone.length ≤
        s.mmFreePageCount + s.userZone.countP reserved + s.presentPages p := by
  have hI := accounted h
  refine ⟨hI.used, fun p hp => ?_⟩
  have hpages : s.userZone.countP (fun f => s.used f && !reserved f) ≤ s.presentPages p := by
    refine Counting.countP_le_countP (fun page => (s.word p page).base) List.nodup_range'
      fun f hf hu => ?_
    obtain ⟨hu, hr⟩ := Bool.and_eq_true_iff.1 hu
    rw [Bool.not_eq_true'] at hr
    obtain hres | ⟨q, page, hm⟩ := hI.used f (List.mem_range'_1.1 hf).1 hu
    · rw [hr] at hres
      cases hres
    have hne : s.word q page ≠ .zero := by
      intro h0
      have := hm.2.1
      rw [h0] at this
      cases this
    -- the idle process has no page
    obtain rfl := (hp q hm.1).resolve_left fun hidle => hne (hidle ▸ hI.idle page)
    exact ⟨page, List.mem_range.2 (hI.user q page hm.1 hne).2, hm.2⟩
  have hcases : ∀ f, (!s.used f) = true ∨ reserved f = true ∨
      (s.used f && !reserved f) = true := by
    intro f
    cases s.used f <;> cases reserved f <;> simp
  have hcount := Counting.length_le_countP hcases s.userZone
  rw [mmFreePageCount]
  omega

end

/-- The frames of a task of one page. -/
theorem task_frames : ∃ s : Mm, boot.loaderLoad idlePid (smallImage 0x400000) .user = some (1, s) ∧
    (s.procs 1).live = true ∧ (s.procs 1).privilegeLevel = .user ∧
    (s.freeFrames 0x100 0x400 = 762 ∧ s.freeFrames 0x400 s.limit = 13 ∧ s.tableCount 1 1 = 2) ∧
    (s.procs 2).live = false ∧ ∀ f, 0x400 ≤ f → s.used f = true → f < 0x403 := by
  have hrun : ((boot.loaderLoad idlePid (smallImage 0x400000) .user).map fun r =>
      ((r.1, (r.2.procs 1).live, (r.2.procs 1).privilegeLevel, (r.2.procs 2).live),
        (r.2.freeFrames 0x100 0x400, r.2.freeFrames 0x400 r.2.limit, r.2.tableCount 1 1),
        r.2.word 1 userMemoryStart, r.2.word 1 taskUStack, r.2.word 1 taskKStack)) =
      some ((1, true, .user, false), (762, 13, 2), mappedEntry 0x402 true,
        mappedEntry 0x401 true, mappedEntry 0x400 false) := by
    decide +kernel
  obtain ⟨⟨pid, s⟩, hload, h⟩ := Option.map_eq_some_iff.1 hrun
  simp only [Prod.mk.injEq] at h
  obtain ⟨⟨rfl, hlive, hlevel, hslot⟩, hcounts, hpage, hustack, hkstack⟩ := h
  refine ⟨s, hload, hlive, hlevel, hcounts, hslot, fun f hf hu => ?_⟩
  obtain ⟨-, -, -, hl, -⟩ := loaderLoad_spec rfl hload
  have hclear : (smallImage 0x400000).ClearOfStacks .user := by
    intro i hi
    have hpages : dataPagesNeededFor (smallImage 0x400000) = 1 := by decide
    obtain rfl : i = 0 := by omega
    rfl
  obtain hboot | ⟨page, hlayout, hbase⟩ := hl.covered hclear f hf hu
  · have hused : f = 0x100 ∨ f = 0x101 := of_decide_eq_true hboot
    omega
  · have hwhere : page = userMemoryStart ∨ page = taskUStack ∨ page = taskKStack := by
      by_contra hno
      obtain ⟨hstart, hno⟩ := not_or.1 hno
      obtain ⟨hu, hk⟩ := not_or.1 hno
      refine hlayout (Image.layout_eq_none.2 ⟨?_, fun i hi => ?_⟩)
      · rw [stackPages, Function.update_of_ne hu, Function.update_of_ne hk]
      · have hpages : dataPagesNeededFor (smallImage 0x400000) = 1 := by decide
        obtain rfl : i = 0 := by omega
        exact Ne.symm hstart
    rw [← hbase]
    obtain rfl | rfl | rfl := hwhere
    · rw [hpage]
      decide
    · rw [hustack]
      decide
    · rw [hkstack]
      decide

/-- A task forks, and both processes have frames. If it exits instead, all frames are free. -/
theorem used_frames_mapped_task : ∃ s child u, MmStep s (.fork 1) u ∧ child ≠ 1 ∧
    (u.procs child).live = true ∧ (∀ f, 0x400 ≤ f → u.used f = true → u.Mapped f) ∧
    MmStep s (.exit 1) (s.loaderExit 1) ∧ ∀ f, 0x400 ≤ f → (s.loaderExit 1).used f = false := by
  obtain ⟨s, hload, hlive, hlevel, ⟨hkernel, huser, hcount⟩, hslot, hframes⟩ := task_frames
  obtain ⟨child, u, hfork, -⟩ := fork_total (k := 0) (n := 0) hlive hlevel ⟨2, by decide, hslot⟩
    ⟨by rw [hkernel, hcount]; decide, by rw [huser]; decide⟩
  obtain ⟨g, hf⟩ := fork_spec hlive hfork
  have hclear : boot.Keeps (.load idlePid (smallImage 0x400000) .user) := by
    intro i hi
    have hpages : dataPagesNeededFor (smallImage 0x400000) = 1 := by decide
    obtain rfl : i = 0 := by omega
    rfl
  have hreach : Reach (mmSystem fun _ => false) Keeps s :=
    .step (.init boot_initial) hclear (.load rfl hload)
  have hidle := accounted hreach
  have hlives : ∀ q, (s.procs q).live = true ↔ q = idlePid ∨ q = 1 := by
    intro q
    obtain ⟨-, -, -, hl, -⟩ := loaderLoad_spec rfl hload
    rw [hl.live, boot_initial.live]
  have hguard : boot.LoadsOverPage (.load idlePid (smallImage 0x400000) .user) := .inl rfl
  have hb := (owned (.step (.init boot_initial) hguard (.load rfl hload))).2
  -- the idle process has no pages
  have hothers : ∀ test : MmPage → Bool, test .zero = false → ∀ page,
      s.othersHave test page 1 = false := by
    intro test htest page
    rw [← Bool.not_eq_true, othersHave_iff htest]
    rintro ⟨q, -, hq, hne, hword⟩
    obtain rfl := ((hlives q).1 hq).resolve_right hne
    rw [hidle.idle] at hword
    exact Bool.false_ne_true (htest.symm.trans hword)
  have hback : s.Keeps (.exit 1) := by
    intro page f hf hm _
    have hlt := hframes f hf (hb.zone 1 page f hm).2
    exact ⟨⟨by omega, by omega⟩, hothers _ rfl page, hothers _ rfl page⟩
  have hfork' : MmStep s (.fork 1) u := .fork hlive (by decide) hfork
  have hexit : MmStep s (.exit 1) (s.loaderExit 1) := .exit hlive (by decide)
  have hexits := loaderExit_exits hlive (show (1 : Pid) ≠ idlePid by decide)
  refine ⟨s, child, u, hfork', hf.ne, (hf.live child).2 (.inr rfl), fun f hf hu => ?_, hexit,
    fun f hf => ?_⟩
  · exact ((used_frames_mapped (.step hreach (show s.Keeps (.fork 1) from trivial) hfork')).1 f hf
      hu).resolve_left Bool.false_ne_true
  · rw [← Bool.not_eq_true]
    intro hu
    obtain ⟨q, page, hm⟩ := ((used_frames_mapped (.step hreach hback hexit)).1 f hf
      hu).resolve_left Bool.false_ne_true
    have hq : q ≠ 1 := by
      rintro rfl
      exact Bool.false_ne_true (hexits.dead.symm.trans hm.1)
    rw [Maps, hexits.live_of_ne hq, hexits.word_of_ne hq] at hm
    obtain rfl := ((hlives q).1 hm.1).resolve_right hq
    rw [hidle.idle] at hm
    exact Bool.false_ne_true hm.2.1

/-- Of two tasks one exits. Its kernel stack was at the page of the other one's. -/
theorem kernel_stack_lost : ∃ s, Reach (mmSystem fun _ => false) anyStep s ∧
    s.used 0x400 = true ∧ ¬s.Mapped 0x400 := by
  have hrun : ((boot.loaderLoad idlePid (smallImage 0x400000) .user).bind fun r =>
      (r.2.loaderLoad idlePid (smallImage 0x400000) .user).map fun r' =>
        (r.1, r'.1, (r.2.procs idlePid).live, r'.2.word idlePid taskKStack,
          r'.2.word 1 taskKStack, r'.2.word 2 taskKStack)) =
      some (1, 2, true, .zero, mappedEntry 0x400 false, mappedEntry 0x403 false) := by
    decide +kernel
  obtain ⟨⟨pid, s⟩, hload, hrun⟩ := Option.bind_eq_some_iff.1 hrun
  obtain ⟨⟨pid', s'⟩, hload', hs⟩ := Option.map_eq_some_iff.1 hrun
  simp only [Prod.mk.injEq] at hs
  obtain ⟨rfl, rfl, hidle, h₀, h₁, h₂⟩ := hs
  have hstep : MmStep boot (.load idlePid (smallImage 0x400000) .user) s := .load rfl hload
  have hstep' : MmStep s (.load idlePid (smallImage 0x400000) .user) s' := .load hidle hload'
  have hguard : ∀ s : Mm, s.LoadsOverPage (.load idlePid (smallImage 0x400000) .user) :=
    fun _ => .inl rfl
  obtain ⟨ht, hb⟩ := owned (.step (.step (.init boot_initial) (hguard _) hstep) (hguard _) hstep')
  have hlive : ∀ q, (s'.procs q).live = true ↔ (q = idlePid ∨ q = 1) ∨ q = 2 := by
    intro q
    obtain ⟨-, -, -, hl, -⟩ := loaderLoad_spec rfl hload
    obtain ⟨-, -, -, hl', -⟩ := loaderLoad_spec hidle hload'
    rw [hl'.live, hl.live, boot_initial.live]
  have hmaps : s'.Maps 1 taskKStack 0x400 := by
    rw [Maps, h₁]
    exact ⟨(hlive 1).2 (.inl (.inr rfl)), rfl, rfl⟩
  have hexit := loaderExit_exits hmaps.1 (by decide)
  refine ⟨s'.loaderExit 1, .step (.step (.step (.init boot_initial) trivial hstep) trivial hstep')
    trivial (.exit hmaps.1 (by decide)), (hexit.used _).2 ⟨(hb.zone _ _ _ hmaps).2, ?_⟩, ?_⟩
  · exact page_not_freed ht hb hmaps.1 hmaps (q := 2) (by decide) ((hlive 2).2 (.inr rfl))
      (by rw [h₂]; rfl)
  · rintro ⟨q, page, hm⟩
    have hq : q ≠ 1 := by
      rintro rfl
      exact Bool.false_ne_true (hexit.dead.symm.trans hm.1)
    rw [Maps, hexit.live_of_ne hq, hexit.word_of_ne hq] at hm
    -- a frame has one page, where neither of the others has this one
    obtain rfl := hb.same q 1 page _ _ hm hmaps
    obtain (rfl | rfl) | rfl := (hlive q).1 hm.1
    · rw [h₀] at hm
      exact absurd hm.2.1 Bool.false_ne_true
    · exact hq rfl
    · rw [h₂] at hm
      exact absurd hm.2.2 (by decide)

end Mm
end SpuriOS
