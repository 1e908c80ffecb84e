import SpuriOS.Mm.Spawn

/-! # What a step does to the address spaces -/

namespace SpuriOS
namespace Mm

/-- The entry of a page of process `p`, which is live and not the idle one, is overwritten. -/
structure Rewrites (p : Pid) (page : Nat) (e : MmPage) (s u : Mm) : Prop where
  live : (s.procs p).live = true
  notIdle : p ≠ idlePid
  user : UserPage page
  alike : s.Alike u
  byte : u.byte = s.byte
  word : u.word = setWord s.word p page e

/-- Process `p` is gone, and its frames are given back. -/
structure Exits (p : Pid) (s u : Mm) : Prop where
  live : (s.procs p).live = true
  notIdle : p ≠ idlePid
  others : ∀ q ≠ p, u.procs q = s.procs q
  dead : (u.procs p).live = false
  used : ∀ g, u.used g = true ↔ s.used g = true ∧ ¬s.Freed p g
  byte : u.byte = s.byte
  limit : u.limit = s.limit

/-- Process `p` gets a copy of a page in frame `f`, which goes through `MM_TMP_PAGE`. -/
structure Copies (p : Pid) (page f : Nat) (s u : Mm) : Prop where
  live : (s.procs p).live = true
  notIdle : p ≠ idlePid
  user : UserPage page
  takes : Takes f s u
  alike : s.Alike u
  copy : ∃ g us, u.byte = Function.update s.byte f (s.byte g) ∧
    u.word = setWord (setWord s.word p mmTmpPage .zero) p page (mappedEntry f us) ∧
    (page ≠ mmTmpPage → g = (s.word p page).base ∧ us = (s.word p page).us)

inductive MmEffect (s : Mm) : MmLabel → Mm → Prop
  | load {p f pl pid u} : (s.procs p).live = true → (s.procs pid).live = false → pid < maxPid →
    pid ≠ p → Loading s u p pid pl (f.ClearOfStacks pl) (f.layout pl (dataPagesNeededFor f)) →
    (u.word p userMemoryStart = if p = idlePid then .zero else
      mappedEntry (s.word p userMemoryStart).base ((s.procs p).privilegeLevel = .user)) →
    MmEffect s (.load p f pl) u
  | fork {p child g u} : (s.procs p).live = true → p ≠ idlePid → Forked s u p child g →
    MmEffect s (.fork p) u
  | request {p page u} : (s.word p page).p = false → s.KeepsUser u →
    Rewrites p page { s.word p page with rw := true } s u → MmEffect s (.palloc p) u
  | share {p page u} : (s.word p page).p = true → s.KeepsUser u →
    Rewrites p page { s.word p page with shared := true } s u → MmEffect s (.sharePage p page) u
  | shareNew {p page f u} : (s.word p page).p = false → Takes f s u →
    Rewrites p page { mappedEntry f true with shared := true } s u →
    MmEffect s (.sharePage p page) u
  | shareNothing {p page} : MmEffect s (.sharePage p page) s
  | demand {p page f u} : s.isRequested page p = true → (s.word p page).p = false → Takes f s u →
    Rewrites p page (mappedEntry f true) s u → MmEffect s (.fault p page) u
  | sole {p page u} : s.isRequested page p = false → s.isToBeCopiedOnWrite page p = true →
    s.isToBeCopiedOnWriteByOtherProcesses page p = false → s.KeepsUser u →
    Rewrites p page { s.word p page with rw := true, cor := false } s u →
    MmEffect s (.fault p page) u
  | copy {p page f u} : s.isRequested page p = false → s.isToBeCopiedOnWrite page p = true →
    s.isToBeCopiedOnWriteByOtherProcesses page p = true → Copies p page f s u →
    MmEffect s (.fault p page) u
  | killed {p page u} : s.isRequested page p = false → s.isToBeCopiedOnWrite page p = false →
    Exits p s u → MmEffect s (.fault p page) u
  | exit {p u} : Exits p s u → MmEffect s (.exit p) u
  | store {p page offset b kernel} : (s.procs p).live = true → UserPage page →
    (s.word p page).p = true → (s.word p page).us = true →
    (kernel = false → (s.word p page).rw = true) → offset < pageSize →
    MmEffect s (.store p page offset b kernel) (s.store p page offset b)
  | touch {p page stores u} : (s.word p page).p = true → s.KeepsUser u →
    Rewrites p page
      { s.word p page with accessed := true, dirty := (s.word p page).dirty || stores } s u →
    MmEffect s (.touch p page stores) u

variable {s u : Mm} {l : MmLabel} {p q : Pid}

theorem Exits.word_of_ne (h : Exits p s u) (hq : q ≠ p) : u.word q = s.word q :=
  word_congr (by rw [h.others q hq])

theorem Exits.live_of_ne (h : Exits p s u) (hq : q ≠ p) :
    (u.procs q).live = (s.procs q).live := by rw [h.others q hq]

theorem loaderExit_exits (hlive : (s.procs p).live = true) (hidle : p ≠ idlePid) :
    Exits p s (s.loaderExit p) := by
  obtain ⟨hothers, hdead, hused, hbyte, hlimit⟩ := loaderExit_spec s p
  exact ⟨hlive, hidle, hothers, hdead, hused, hbyte, hlimit⟩

theorem effect_of_step (h : MmStep s l u) : MmEffect s l u := by
  cases h with
  | load hlive h =>
    obtain ⟨hfree, hlt, hne, hload, htemp⟩ := loaderLoad_spec hlive h
    exact .load hlive hfree hlt hne hload htemp
  | fork hlive hidle h =>
    obtain ⟨g, hfork⟩ := fork_spec hlive h
    exact .fork hlive hidle hfork
  | palloc hlive hidle h =>
    obtain ⟨hp, huser, halike, hused, hbyte, hword⟩ := palloc_spec h
    exact .request hp hused ⟨hlive, hidle, huser, halike, hbyte, hword⟩
  | sharePage hlive hidle huser h =>
    obtain ⟨-, rfl⟩ | ⟨-, hp, halike, hused, hbyte, hword⟩ |
      ⟨f, -, hp, -, htakes, halike, hbyte, hword⟩ := mmSharePage_spec h
    · exact .shareNothing
    · exact .share hp (fun g _ => congrFun hused g) ⟨hlive, hidle, huser, halike, hbyte, hword⟩
    · exact .shareNew hp htakes ⟨hlive, hidle, huser, halike, hbyte, hword⟩
  | @fault p page _ hlive hidle huser _ _ h =>
    rw [pageFault] at h
    split at h
    next hreq =>
      obtain ⟨f, htakes, hword, halike, hbyte⟩ := mmUserAllocate_spec h
      exact .demand hreq (isRequested_iff.1 hreq).1 htakes
        ⟨hlive, hidle, huser, halike, hbyte, hword⟩
    next hreq =>
      rw [Bool.not_eq_true] at hreq
      split at h
      next hcow =>
        have hne : s.word p page ≠ .zero := by
          intro h0
          have := (isToBeCopiedOnWrite_iff.1 hcow).2
          rw [h0] at this
          exact this.elim nofun nofun
        obtain ⟨hno, hused, halike, hbyte, hword⟩ |
          ⟨f, g, us, hyes, htakes, halike, hbyte, hword, hsame⟩ := mmCopyOnWrite_spec h hne
        · exact .sole hreq hcow hno (fun g _ => congrFun hused g)
            ⟨hlive, hidle, huser, halike, hbyte, hword⟩
        · exact .copy hreq hcow hyes
            ⟨hlive, hidle, huser, htakes, halike, g, us, hbyte, hword, hsame⟩
      next hcow =>
        rw [Bool.not_eq_true] at hcow
        cases h
        exact .killed hreq hcow (loaderExit_exits hlive hidle)
  | exit hlive hidle => exact .exit (loaderExit_exits hlive hidle)
  | store hlive _ huser hp hus hrw hoff => exact .store hlive huser hp hus hrw hoff
  | @touch p page stores hlive hidle huser hp =>
    have hne : s.word p page ≠ .zero := by
      intro h0
      rw [h0] at hp
      cases hp
    obtain ⟨hword, halike⟩ := modifyPte_spec (g := fun e : MmPage =>
      { e with accessed := true, dirty := e.dirty || stores }) hne
    exact .touch hp (fun _ _ => rfl) ⟨hlive, hidle, huser, halike, rfl, hword⟩

section
variable {child : Pid} {page page' f f' g : Nat} {e : MmPage}

/-! ## What is mapped after a step -/

theorem Rewrites.maps (hr : Rewrites p page e s u) (hm : u.Maps q page' f) :
    (q = p ∧ page' = page ∧ e.p = true ∧ e.base = f) ∨
      (s.Maps q page' f ∧ u.word q page' = s.word q page') := by
  have hlive := (hr.alike.live q).symm.trans hm.1
  rcases eq_or_ne q p with rfl | hq
  · rcases eq_or_ne page' page with rfl | hpage
    · rw [Maps, hr.word, setWord_self] at hm
      exact .inl ⟨rfl, rfl, hm.2⟩
    · have hw : u.word q page' = s.word q page' := by rw [hr.word, setWord_of_page hpage]
      exact .inr ⟨⟨hlive, hw ▸ hm.2⟩, hw⟩
  · have hw : u.word q page' = s.word q page' := by rw [hr.word, setWord_of_proc hq]
    exact .inr ⟨⟨hlive, hw ▸ hm.2⟩, hw⟩

theorem Copies.maps (hc : Copies p page f s u) (hm : u.Maps q page' f') :
    (q = p ∧ page' = page ∧ f' = f ∧ ∃ us, u.word q page' = mappedEntry f us) ∨
      (s.Maps q page' f' ∧ u.word q page' = s.word q page') := by
  obtain ⟨-, us, -, hword, -⟩ := hc.copy
  have hlive := (hc.alike.live q).symm.trans hm.1
  rcases eq_or_ne q p with rfl | hq
  · rcases eq_or_ne page' page with rfl | hpage
    · have hw : u.word q page' = mappedEntry f us := by rw [hword, setWord_self]
      have hbase := hm.2.2
      rw [hw] at hbase
      exact .inl ⟨rfl, rfl, hbase.symm, us, hw⟩
    · rcases eq_or_ne page' mmTmpPage with rfl | htmp
      · rw [Maps, hword, setWord_of_page hpage, setWord_self] at hm
        exact absurd hm.2.1 Bool.false_ne_true
      · have hw : u.word q page' = s.word q page' := by
          rw [hword, setWord_of_page hpage, setWord_of_page htmp]
        exact .inr ⟨⟨hlive, hw ▸ hm.2⟩, hw⟩
  · have hw : u.word q page' = s.word q page' := by
      rw [hword, setWord_of_proc hq, setWord_of_proc hq]
    exact .inr ⟨⟨hlive, hw ▸ hm.2⟩, hw⟩

theorem Exits.maps (he : Exits p s u) (hm : u.Maps q page f) :
    s.Maps q page f ∧ u.word q page = s.word q page := by
  have hq : q ≠ p := by
    rintro rfl
    exact Bool.false_ne_true (he.dead.symm.trans hm.1)
  have hw : u.word q page = s.word q page := by rw [he.word_of_ne hq]
  exact ⟨⟨(he.live_of_ne hq).symm.trans hm.1, hw ▸ hm.2⟩, hw⟩

/-- A process that was loaded has new frames. The page of the process that loads is left open. -/
theorem Loading.maps {pl : Privilege} {D : Prop} {what : Nat → Option NewPage}
    (hload : Loading s u p child pl D what) (hm : u.Maps q page f) :
    (q = child ∧ ∃ x, what page = some x ∧ u.word q page = mappedEntry f x.us ∧ 0x400 ≤ f ∧
      s.used f = false ∧ u.used f = true) ∨
    (q ≠ child ∧ q = p ∧ page = userMemoryStart) ∨
    (s.Maps q page f ∧ u.word q page = s.word q page) := by
  rcases eq_or_ne q child with rfl | hq
  · have hpage : what page ≠ none := by
      intro hnone
      have := hm.2.1
      rw [hload.absent page hnone] at this
      exact Bool.false_ne_true this
    obtain ⟨x, hx⟩ := Option.ne_none_iff_exists'.1 hpage
    obtain ⟨g, hw, hlo, hfree, hused, -⟩ := hload.present page x hx
    have hbase := hm.2.2
    rw [hw] at hbase
    obtain rfl : g = f := hbase
    exact .inl ⟨rfl, x, hx, hw, hlo, hfree, hused⟩
  · rcases em (q = p ∧ page = userMemoryStart) with htemp | htemp
    · exact .inr (.inl ⟨hq, htemp⟩)
    · have hw : u.word q page = s.word q page :=
        hload.others q page hq fun hp hpage => htemp ⟨hp, hpage⟩
      exact .inr (.inr ⟨⟨((hload.live q).1 hm.1).resolve_right hq, hw ▸ hm.2⟩, hw⟩)

/-- The idle process keeps nothing at the page that it loads through. -/
theorem Loading.maps_idle {pl : Privilege} {D : Prop} {what : Nat → Option NewPage}
    (hload : Loading s u p child pl D what) (htemp : (u.word p userMemoryStart).p = false)
    (hm : u.Maps q page f) : (q = child ∧ s.used f = false) ∨
      (s.Maps q page f ∧ u.word q page = s.word q page) := by
  obtain ⟨rfl, x, -, -, -, hfree, -⟩ | ⟨-, rfl, rfl⟩ | hm' := hload.maps hm
  · exact .inl ⟨rfl, hfree⟩
  · exact absurd (htemp.symm.trans hm.2.1) Bool.false_ne_true
  · exact .inr hm'

theorem fatherWord_shared {e : MmPage} : (fatherWord page e).shared = e.shared := by
  rw [fatherWord]
  split <;> rfl

theorem fatherWord_rw {e : MmPage} (h : (fatherWord page e).rw = true) :
    e.rw = true ∧ (e.p = true → page ≠ taskKStack → e.shared = true) := by
  rw [fatherWord] at h
  split at h
  next => cases h
  next hno =>
    refine ⟨h, fun hp hstack => ?_⟩
    by_contra hshared
    exact hno ⟨hp, hstack, hshared⟩

theorem fatherWord_of_shared {e : MmPage} (h : e.shared = true) : fatherWord page e = e :=
  if_neg fun hc => hc.2.2 h

theorem childWord_of_shared {e : MmPage} (hp : e.p = true) (hstack : page ≠ taskKStack)
    (h : e.shared = true) :
    childWord page e = { mappedEntry e.base e.us with shared := true } := by
  rw [childWord, if_pos hp, if_neg hstack, if_pos h]

/-- The child can write only to what is shared. -/
theorem childWord_rw {e : MmPage} (hp : (childWord page e).p = true)
    (h : (childWord page e).rw = true) : (childWord page e).shared = true := by
  obtain ⟨he, hstack⟩ := childWord_p.1 hp
  rw [childWord, if_pos he, if_neg hstack] at h ⊢
  split at h
  next hshared => rw [if_pos hshared]
  next => cases h

/-- The child has what its father had, and a stack. -/
theorem Forked.maps_child (hf : Forked s u p child g) (hp : (s.procs p).live = true)
    (hm : u.Maps child page f) : (page = taskKStack ∧ f = g) ∨
      (page ≠ taskKStack ∧ UserPage page ∧ s.Maps p page f ∧
        u.word child page = childWord page (s.word p page)) := by
  have hw := hf.ofChild page
  split at hw
  next hstack =>
    have hbase := hm.2.2
    rw [hw] at hbase
    exact .inl ⟨hstack, hbase.symm⟩
  next hstack =>
    split at hw
    next huser =>
      have hpage := hm.2
      rw [hw] at hpage
      refine .inr ⟨hstack, huser, ⟨hp, (childWord_p.1 hpage.1).1, ?_⟩, hw⟩
      rw [← childWord_base hpage.1]
      exact hpage.2
    next =>
      have := hm.2.1
      rw [hw] at this
      cases this

theorem Forked.maps_old (hf : Forked s u p child g) (hq : q ≠ child) (hm : u.Maps q page f) :
    s.Maps q page f ∧ (u.word q page).shared = (s.word q page).shared ∧
      ((u.word q page).rw = true → (s.word q page).rw = true) := by
  have hlive := ((hf.live q).1 hm.1).resolve_right hq
  rcases eq_or_ne q p with rfl | hqp
  · have hw := hf.ofFather page
    have hpage := hm.2
    split at hw
    next =>
      rw [hw] at hpage
      exact absurd hpage.1 Bool.false_ne_true
    next =>
      split at hw
      next =>
        rw [hw, fatherWord_p, fatherWord_base] at hpage
        rw [hw]
        exact ⟨⟨hlive, hpage⟩, fatherWord_shared, fun h => (fatherWord_rw h).1⟩
      next =>
        rw [hw] at hpage ⊢
        exact ⟨⟨hlive, hpage⟩, rfl, id⟩
  · have hw : u.word q page = s.word q page := by rw [hf.others q hqp hq]
    have hpage := hm.2
    rw [hw] at hpage ⊢
    exact ⟨⟨hlive, hpage⟩, rfl, id⟩

end

end Mm
end SpuriOS
