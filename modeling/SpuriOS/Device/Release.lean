import SpuriOS.Device.Refcounts

/-! # What a close gives back

A slot is in use as long as a descriptor refers to its object or a process is inside of the open
or the close of it, and the frames that devices hold are those of slots in use. The last close of
`/proc/cpuid` calls no flush, that of a long file does not free its page of block numbers, an
object that finds no free descriptor is lost, and so is what a process killed inside of an open or
a close was working on; without these it holds in every run. -/

namespace SpuriOS
open Transition

namespace DevSystem

/-- Process `p` has a free descriptor. -/
def HasFd (s : DevSystem) (p : Pid) : Prop := ∃ fd < maxFd, s.fds p fd = none

/-- Frame `f` is the buffer or the page of block numbers of a slot in use, or the temporary page of
a `read_dir` at work. Until the blocks of a file have come, the buffer of its object is an old one,
and so is the page of block numbers until the inode has come. -/
def Owned (s : DevSystem) (f : Nat) : Prop :=
  (∃ d, s.klass d ≠ .none ∧ (s.data d).buffer = some f ∧
    ∀ p, .ext2Open d .inode ∉ s.stack p ∧ .ext2Open d .blocks ∉ s.stack p) ∨
  (∃ d, s.klass d = .ext2File ∧ (s.data d).blockList = some f ∧
    ∀ p, .ext2Open d .inode ∉ s.stack p) ∨
  ∃ p d, .ext2Open d (.dir (some f)) ∈ s.stack p

/-- The close of descriptor `fd` of process `p` is not the last one of `/proc/cpuid`, nor of a file
with a page of block numbers. -/
def FreesAll (s : DevSystem) (p : Pid) (fd : Nat) : Prop :=
  ∀ d, s.fds p fd = some d → s.refs d = 1 → s.klass d ≠ .procCpuid ∧
    (s.klass d = .ext2File → (s.data d).blockList = none)

/-- What is said of a state. -/
structure Released (s : DevSystem) : Prop where
  slots : ∀ d, s.klass d ≠ .none →
    (∃ i < maxPid * maxFd, s.table.devices i = some d) ∨ ∃ p, d ∈ pendings (s.stack p)
  frames : ∀ f, s.held f = true → s.Owned f
  /-- Once all descriptors are closed, every slot and every frame is free. -/
  all : (∀ p, s.stack p = []) → (∀ i < maxPid * maxFd, s.table.devices i = none) →
    (∀ d, s.klass d = .none) ∧ ∀ f, s.held f = false

end DevSystem

/-- The step loses nothing: an object that it opens finds a free descriptor, a pipe takes no slot
that an endpoint in use has for its pair and is stored in user memory, the last close of an object
frees all that is its, and no process is killed inside of an open or a close. -/
def DevLabel.GivesBack (s : DevSystem) : DevLabel → Prop
  | .open p path flags frame => flags.rd ∨ flags.wr →
    match path with
    | .procCpuid => s.freeSlot .procCpuidDevs ≠ none → s.HasFd p
    | .console => s.freeSlot .consoles ≠ none → frame ≠ none → s.HasFd p
    | _ => True
  | .ext2Buffer p _ dir => dir = none → s.HasFd p
  | .ext2Dir p => s.HasFd p
  | .pipe p array frame stores => array = .user ∧
    ∀ inp out rest, s.freeEnds = inp :: out :: rest → frame ≠ none →
      (∃ fd < maxFd, ∃ fd' < maxFd, fd ≠ fd' ∧ s.fds p fd = none ∧ s.fds p fd' = none) ∧
        stores ≠ 0 ∧ ∀ d, s.klass d = .pipe → (s.data d).pair ≠ inp ∧ (s.data d).pair ≠ out
  | .close p fd => s.FreesAll p fd
  | .runClose p => ∀ fd rest, s.stack p = .runRead fd :: rest → s.FreesAll p fd
  | .exitClose p => ∀ fd rest, s.stack p = .exit fd :: rest → s.FreesAll p fd
  | .exit p => pendings (s.stack p) = []
  | _ => True

theorem DevLabel.GivesBack.pipesToUser {s : DevSystem} {a : DevLabel} (h : a.GivesBack s) :
    a.PipesToUser := by
  cases a with
  | pipe => exact h.1
  | «open» | ext2Inode | ext2Buffer | ext2Dir | use | close | screenSaver | runLoad | runClose
  | conFlush | fork | exit | exitClose | exitEnd => trivial

/-! ## The invariant -/

/-- What an `exit` cuts short holds no object. -/
def Bottom : List Pending → Prop
  | [] => True
  | .exit _ :: rest => pendings rest = []
  | _ :: rest => Bottom rest

namespace DevSystem

/-- The array and the flush that go with the class of an object in use. -/
def Kind (s : DevSystem) (d : Nat) : Prop :=
  match s.klass d with
  | .procCpuid => Pool.procCpuidDevs.Mem d ∧ (s.table.objects d).flush = none
  | .console => Pool.consoles.Mem d ∧ (s.table.objects d).flush = some .conFlush
  | .ext2File => Pool.ext2Files.Mem d ∧ (s.table.objects d).flush = some .ext2FileFlush
  | .pipe => Pool.endpoints.Mem d ∧ Pool.endpoints.Mem (s.data d).pair ∧
    (s.table.objects d).flush = some .pipeFlush
  | _ => False

/-- What is kept, but for the slots in `X`, which are in use without need. -/
structure Kept (X : Nat → Prop) (s : DevSystem) : Prop where
  slots : ∀ d, s.klass d ≠ .none → X d ∨ 0 < s.refs d ∨ ∃ p, d ∈ pendings (s.stack p)
  owned : ∀ f, s.held f = true → s.Owned f
  kind : ∀ d, s.klass d ≠ .none → s.Kind d
  ext2 : ∀ p d stage, .ext2Open d stage ∈ s.stack p → s.klass d = .ext2File
  con : ∀ p d, .conFlush d ∈ s.stack p → s.klass d = .console
  pairs : ∀ d, s.klass d = .pipe → s.klass (s.data d).pair ≠ .none →
    (s.data (s.data d).pair).buffer = (s.data d).buffer
  bottom : ∀ p, Bottom (s.stack p)

end DevSystem

section
variable {s u : DevSystem} {X Y : Nat → Prop} {p q d fd : Nat} {x : Pending} {l : List Pending}

theorem Pending.mem_cons {y : Pending} (hy : y.object = none) (hx : x.object ≠ none) :
    x ∈ y :: l ↔ x ∈ l := by
  rw [List.mem_cons]
  refine or_iff_right ?_
  rintro rfl
  exact hx hy

namespace DevSystem

theorem Initial.kept (h : s.Initial) : s.Kept fun _ => False := by
  refine ⟨fun d hd => (hd (h.klass d)).elim, fun f hf => ?_, fun d hd => (hd (h.klass d)).elim,
    fun p d stage hd => ?_, fun p d hd => ?_, fun d hd => ?_, fun p => ?_⟩
  · rw [h.held] at hf
    cases hf
  · rw [h.stack] at hd
    cases hd
  · rw [h.stack] at hd
    cases hd
  · rw [h.klass] at hd
    cases hd
  · rw [h.stack]
    trivial

namespace Kept

/-- The objects stay what they are, and no frame is allocated. -/
theorem step (h : s.Kept X)
    (hobj : ∀ e, u.klass e = s.klass e ∧
      (u.table.objects e).flush = (s.table.objects e).flush)
    (hdata : ∀ e, u.data e = s.data e)
    (hheld : ∀ f, u.held f = true → s.held f = true)
    (hslots : ∀ e, X e ∨ 0 < s.refs e ∨ (∃ q, e ∈ pendings (s.stack q)) →
      Y e ∨ 0 < u.refs e ∨ ∃ q, e ∈ pendings (u.stack q))
    (hext2 : ∀ q e stage, .ext2Open e stage ∈ u.stack q ↔ .ext2Open e stage ∈ s.stack q)
    (hcon : ∀ q e, .conFlush e ∈ u.stack q → .conFlush e ∈ s.stack q ∨ s.klass e = .console)
    (hbottom : ∀ q, Bottom (u.stack q)) : u.Kept Y := by
  refine ⟨fun e he => ?_, fun f hf => ?_, fun e he => ?_, fun q e stage he => ?_,
    fun q e he => ?_, fun e he hp => ?_, hbottom⟩
  · rw [(hobj e).1] at he
    exact hslots e (h.slots e he)
  · obtain ⟨e, he, hb, hnot⟩ | ⟨e, he, hb, hnot⟩ | ⟨q, e, he⟩ := h.owned f (hheld f hf)
    · refine .inl ⟨e, by rwa [(hobj e).1], by rwa [hdata], fun q => ?_⟩
      rw [hext2, hext2]
      exact hnot q
    · refine .inr (.inl ⟨e, by rwa [(hobj e).1], by rwa [hdata], fun q => ?_⟩)
      rw [hext2]
      exact hnot q
    · exact .inr (.inr ⟨q, e, (hext2 q e _).2 he⟩)
  · rw [(hobj e).1] at he
    have := h.kind e he
    rw [Kind] at this ⊢
    rw [(hobj e).1, (hobj e).2, hdata]
    exact this
  · rw [(hobj e).1]
    exact h.ext2 q e stage ((hext2 q e stage).1 he)
  · rw [(hobj e).1]
    exact (hcon q e he).elim (h.con q e) id
  · rw [(hobj e).1] at he
    rw [hdata, (hobj _).1] at hp
    rw [hdata, hdata]
    exact h.pairs e he hp

theorem mono (h : s.Kept X) (hX : ∀ e, X e → Y e) : s.Kept Y :=
  { h with slots := fun e he => (h.slots e he).imp_left (hX e) }

/-- The stack of a process changes by functions that hold no object. -/
theorem setStack (h : s.Kept X) (hpend : pendings l = pendings (s.stack p))
    (hmem : ∀ x : Pending, x.object ≠ none → (x ∈ l ↔ x ∈ s.stack p)) (hbottom : Bottom l) :
    (s.setStack p l).Kept X := by
  have hstack : ∀ q, pendings ((s.setStack p l).stack q) = pendings (s.stack q) ∧
      (∀ x : Pending, x.object ≠ none → (x ∈ (s.setStack p l).stack q ↔ x ∈ s.stack q)) ∧
      Bottom ((s.setStack p l).stack q) := by
    intro q
    by_cases hq : q = p
    · rw [hq, setStack_self]
      exact ⟨hpend, hmem, hbottom⟩
    · rw [setStack_of_ne hq]
      exact ⟨rfl, fun _ _ => Iff.rfl, h.bottom q⟩
  refine h.step (fun _ => ⟨rfl, rfl⟩) (fun _ => rfl) (fun _ hf => hf) (fun e he => ?_)
    (fun q e stage => (hstack q).2.1 _ (by simp [Pending.object]))
    (fun q e he => .inl (((hstack q).2.1 _ (by simp [Pending.object])).1 he))
    fun q => (hstack q).2.2
  refine he.imp_right fun he => he.imp_right fun ⟨q, hq⟩ => ⟨q, ?_⟩
  rwa [(hstack q).1]

/-- Frames and data apart, nothing changed. -/
theorem same (h : s.Kept X) (htable : u.table.devices = s.table.devices ∧
    u.table.objects = s.table.objects) (hdata : u.data = s.data) (hheld : u.held = s.held)
    (hstack : u.stack = s.stack) : u.Kept X := by
  have hrefs : u.refs = s.refs := by
    funext e
    rw [refs, htable.1, refs]
  refine h.step (fun e => ?_) (fun e => ?_) (fun f hf => ?_) (fun e he => ?_)
    (fun q e stage => ?_) (fun q e he => ?_) fun q => ?_
  · rw [klass, klass, htable.2]
    exact ⟨rfl, rfl⟩
  · rw [hdata]
  · rwa [hheld] at hf
  · rwa [hrefs, hstack]
  · rw [hstack]
  · rw [hstack] at he
    exact .inl he
  · rw [hstack]
    exact h.bottom q

end Kept

/-! ### Opens -/

/-- What `open` does to the stack when it returns. -/
theorem return'_stack (hst : Opening (s.stack p)) (r : Int) :
    ∃ l, s.return' p r = s.setStack p l ∧ pendings l = pendings (s.stack p) ∧
      (∀ x : Pending, x.object ≠ none → (x ∈ l ↔ x ∈ s.stack p)) ∧
      (Bottom (s.stack p) → Bottom l) := by
  obtain hnil | ⟨rest, hrun⟩ := hst
  · refine ⟨s.stack p, ?_, rfl, fun _ _ => Iff.rfl, id⟩
    rw [return'_of_nil hnil, DevSystem.setStack, Function.update_eq_self]
  · rw [return'_of_run hrun, hrun]
    split
    · exact ⟨rest, rfl, rfl, fun x hx => (Pending.mem_cons rfl hx).symm, id⟩
    · exact ⟨_, rfl, rfl, fun x hx => by rw [Pending.mem_cons rfl hx, Pending.mem_cons rfl hx], id⟩

namespace Kept

theorem failed (h : s.Kept X) (hst : Opening (s.stack p)) : (s.opened p none).Kept X := by
  obtain ⟨l, hl, hpend, hmem, hbottom⟩ := return'_stack hst openError
  rw [opened, hl]
  exact h.setStack hpend hmem (hbottom (h.bottom p))

/-- A descriptor for the object in slot `d`. -/
theorem opened (h : s.Kept X) (hlt : p < maxPid) (hst : Opening (s.stack p))
    (hX : ∀ e, X e → Y e ∨ (e = d ∧ s.HasFd p)) : (s.opened p (some d)).Kept Y := by
  have hcases := deviceDescriptor_cases s p d
  rw [DevSystem.opened]
  generalize deviceDescriptor d { s.table with curPid := p } = r at hcases
  dsimp only at hcases ⊢
  obtain ⟨l, hl, hpend, hmem, hbottom⟩ := return'_stack (s := { s with table := r.2 }) hst r.1
  rw [hl]
  refine Kept.setStack ?_ hpend hmem (hbottom (h.bottom p))
  obtain ⟨fd, hfd, hnone, -, hdev, hobj⟩ | ⟨hfull, -, hdev, hobj⟩ := hcases
  · refine h.step (fun e => ?_) (fun _ => rfl) (fun _ hf => hf) (fun e he => ?_)
      (fun _ _ _ => Iff.rfl) (fun _ _ he => .inl he) h.bottom
    · rw [klass]
      dsimp only
      rw [hobj]
      by_cases he : e = d
      · rw [he, Function.update_self]
        exact ⟨rfl, rfl⟩
      · rw [Function.update_of_ne he]
        exact ⟨rfl, rfl⟩
    · have hrefs := refs_of_update (d := e) (u := { s with table := r.2 }) hlt hfd hdev
      rw [hnone, if_neg (by simp)] at hrefs
      obtain he | he | he := he
      · obtain he | ⟨rfl, -⟩ := hX e he
        · exact .inl he
        · rw [if_pos rfl] at hrefs
          exact .inr (.inl (by omega))
      · exact .inr (.inl (by omega))
      · exact .inr (.inr he)
  · refine h.step (fun e => ?_) (fun _ => rfl) (fun _ hf => hf) (fun e he => ?_)
      (fun _ _ _ => Iff.rfl) (fun _ _ he => .inl he) h.bottom
    · rw [klass]
      dsimp only
      rw [hobj]
      exact ⟨rfl, rfl⟩
    · rw [refs]
      dsimp only
      rw [hdev]
      refine he.imp_left fun he => (hX e he).resolve_right ?_
      rintro ⟨-, fd, hfd, hnone⟩
      exact hfull fd hfd hnone

theorem describe (h : s.Kept X) (hlt : p < maxPid) (hst : s.stack p = [])
    (hX : ∀ e, X e → Y e ∨ (e = d ∧ s.HasFd p)) : (s.describe p d).Kept Y := by
  have heq : s.opened p (some d) = s.describe p d := return'_of_nil (s := s.describe p d) hst _
  exact heq ▸ h.opened hlt (.inl hst) hX

/-- A free slot is taken, with the frame that its object may have for its buffer. -/
theorem take (h : s.Kept X) (hi : s.Inv) (hk : s.klass d = .none) {o : Chardev DevFn}
    (hdev : u.table.devices = s.table.devices)
    (hobj : u.table.objects = Function.update s.table.objects d o)
    (hdata : ∀ e, e ≠ d → u.data e = s.data e)
    (hheld : ∀ f, u.held f = true → s.held f = true ∨ (u.data d).buffer = some f)
    (hstack : u.stack = s.stack) (ho : o.klass ≠ .none) (hkind : u.Kind d)
    (hpair : o.klass = .pipe → u.klass (u.data d).pair ≠ .none →
      (u.data (u.data d).pair).buffer = (u.data d).buffer)
    (hspare : ∀ e, s.klass e = .pipe → (s.data e).pair = d →
      (u.data d).buffer = (s.data e).buffer) : u.Kept fun e => X e ∨ e = d := by
  have hother : ∀ e, e ≠ d → u.klass e = s.klass e ∧
      (u.table.objects e).flush = (s.table.objects e).flush := fun e he => by
    rw [klass, klass, hobj, Function.update_of_ne he]
    exact ⟨rfl, rfl⟩
  have hself : u.klass d = o.klass := by
    rw [klass, hobj, Function.update_self]
  have hne : ∀ e, s.klass e ≠ .none → e ≠ d := fun e he hed => he (hed ▸ hk)
  have hrefs : u.refs = s.refs := by
    funext e
    rw [refs, hdev, refs]
  refine ⟨fun e he => ?_, fun f hf => ?_, fun e he => ?_, fun q e stage he => ?_,
    fun q e he => ?_, fun e he hp => ?_, fun q => ?_⟩
  · by_cases hed : e = d
    · exact .inl (.inr hed)
    · rw [(hother e hed).1] at he
      rw [hrefs, hstack]
      exact (h.slots e he).imp_left .inl
  · obtain hf | hnew := hheld f hf
    · obtain ⟨e, he, hb, hnot⟩ | ⟨e, he, hb, hnot⟩ | hdir := h.owned f hf
      · have hed := hne e he
        refine .inl ⟨e, by rwa [(hother e hed).1], by rwa [hdata e hed], ?_⟩
        rw [hstack]
        exact hnot
      · have hed := hne e (by rw [he]; simp)
        refine .inr (.inl ⟨e, by rwa [(hother e hed).1], by rwa [hdata e hed], ?_⟩)
        rw [hstack]
        exact hnot
      · rw [← hstack] at hdir
        exact .inr (.inr hdir)
    · refine .inl ⟨d, by rwa [hself], hnew, fun q => ?_⟩
      rw [hstack]
      have hq := hi.not_pending hk q
      exact ⟨fun hm => hq (List.mem_filterMap.2 ⟨_, hm, rfl⟩),
        fun hm => hq (List.mem_filterMap.2 ⟨_, hm, rfl⟩)⟩
  · by_cases hed : e = d
    · exact hed ▸ hkind
    · rw [(hother e hed).1] at he
      have := h.kind e he
      rw [Kind] at this ⊢
      rw [(hother e hed).1, (hother e hed).2, hdata e hed]
      exact this
  · rw [hstack] at he
    have hke := h.ext2 q e stage he
    rw [(hother e (hne e (by rw [hke]; simp))).1, hke]
  · rw [hstack] at he
    have hke := h.con q e he
    rw [(hother e (hne e (by rw [hke]; simp))).1, hke]
  · by_cases hed : e = d
    · subst hed
      rw [hself] at he
      exact hpair he hp
    · rw [(hother e hed).1] at he
      rw [hdata e hed] at hp ⊢
      by_cases hpd : (s.data e).pair = d
      · rw [hpd]
        exact hspare e he hpd
      · rw [(hother _ hpd).1] at hp
        rw [hdata _ hpd]
        exact h.pairs e he hp
  · rw [hstack]
    exact h.bottom q

/-- An endpoint has no console and no file for its pair. -/
theorem pair_ne (h : s.Kept X) {P : Pool} (hd : P.Mem d) (hP : P.base + P.size ≤ 74) {e : Nat}
    (he : s.klass e = .pipe) : (s.data e).pair ≠ d := by
  have hkind := h.kind e (by rw [he]; simp)
  rw [Kind, he] at hkind
  rintro rfl
  have hmem := hkind.2.1
  simp only [Pool.Mem, Pool.endpoints] at hmem hd
  omega

/-- The data of a free slot. -/
theorem setData (h : s.Kept X) (hk : s.klass d = .none)
    (hspare : ∀ e, s.klass e = .pipe → (s.data e).pair ≠ d) (y : DevData) :
    (s.setData d y).Kept X := by
  have hother : ∀ e, e ≠ d → (s.setData d y).data e = s.data e := fun e he =>
    Function.update_of_ne he ..
  have hne : ∀ e, s.klass e ≠ .none → e ≠ d := fun e he hed => he (hed ▸ hk)
  refine ⟨h.slots, fun f hf => ?_, fun e he => ?_, h.ext2, h.con, fun e he hp => ?_, h.bottom⟩
  · obtain ⟨e, he, hb, hnot⟩ | ⟨e, he, hb, hnot⟩ | hdir := h.owned f hf
    · exact .inl ⟨e, he, by rwa [hother e (hne e he)], hnot⟩
    · have hed := hne e (by rw [show s.klass e = .ext2File from he]; simp)
      exact .inr (.inl ⟨e, he, by rwa [hother e hed], hnot⟩)
    · exact .inr (.inr hdir)
  · have := h.kind e he
    rw [Kind] at this ⊢
    rw [hother e (hne e he)]
    exact this
  · have hed := hne e (by rw [show s.klass e = .pipe from he]; simp)
    rw [hother e hed] at hp ⊢
    rw [hother _ (hspare e he)]
    exact h.pairs e he hp

theorem takeConsole (h : s.Kept X) (hi : s.Inv) (hmem : Pool.consoles.Mem d)
    (hk : s.klass d = .none) {f : Nat} {y : DevData} {o : Chardev DevFn} (hy : y.buffer = some f)
    (ho : o.klass = .console ∧ o.flush = some .conFlush) :
    (((s.setData d y).kalloc (some f)).setObject d o).Kept fun e => X e ∨ e = d := by
  have hdata : (Function.update s.data d y d).buffer = some f := by
    rw [Function.update_self, hy]
  refine h.take hi hk rfl rfl (fun e he => Function.update_of_ne he ..) (fun g hg => ?_) rfl
    (by rw [ho.1]; simp) ?_ (fun hp => ?_) fun e he hp => ?_
  · by_cases hgf : g = f
    · exact .inr (hgf ▸ hdata)
    · exact .inl ((Function.update_of_ne hgf ..).symm.trans hg)
  · rw [Kind, klass, setObject_self, ho.1]
    exact ⟨hmem, ho.2⟩
  · rw [ho.1] at hp
    cases hp
  · exact (h.pair_ne hmem (by decide) he hp).elim

theorem conOpen (h : s.Kept fun _ => False) (hi : s.Inv) (hlt : p < maxPid)
    (hst : Opening (s.stack p)) {frame : Option Nat}
    (hok : s.freeSlot .consoles ≠ none → frame ≠ none → s.HasFd p) :
    ((s.conOpen frame).2.opened p (s.conOpen frame).1).Kept fun _ => False := by
  rw [DevSystem.conOpen]
  split
  · exact h.failed hst
  next d hd =>
    obtain ⟨hmem, hk⟩ := freeSlot_spec hd
    cases frame with
    | none => exact (h.setData hk (fun e => h.pair_ne hmem (by decide)) _).failed hst
    | some f =>
      refine (h.takeConsole hi hmem hk ?_ ?_).opened hlt hst fun e he => ?_
      · rfl
      · exact ⟨rfl, rfl⟩
      · exact .inr ⟨he.resolve_left id, hok (by rw [hd]; simp) (by simp)⟩

theorem procCpuidOpen (h : s.Kept fun _ => False) (hi : s.Inv) (hlt : p < maxPid)
    (hst : Opening (s.stack p)) (hok : s.freeSlot .procCpuidDevs ≠ none → s.HasFd p) :
    (s.procCpuidOpen.2.opened p s.procCpuidOpen.1).Kept fun _ => False := by
  rw [DevSystem.procCpuidOpen]
  split
  · exact h.failed hst
  next d hd =>
    obtain ⟨hmem, hk⟩ := freeSlot_spec hd
    generalize ho : Chardev.mk .procCpuid 0 none (some DevFn.procCpuidRead) none none = o
    have h' : (s.setObject d o).Kept fun e => False ∨ e = d := by
      refine h.take hi hk rfl rfl (fun _ _ => rfl) (fun _ hf => .inl hf) rfl (by rw [← ho]; simp)
        ?_ (fun hp => ?_) fun e he hp => ?_
      · rw [Kind, klass, setObject_self, ← ho]
        exact ⟨hmem, rfl⟩
      · rw [← ho] at hp
        cases hp
      · exact (h.pair_ne hmem (by decide) he hp).elim
    exact h'.opened hlt hst fun e he => .inr ⟨he.resolve_left id, hok (by rw [hd]; simp)⟩

theorem ext2Open (h : s.Kept fun _ => False) (hi : s.Inv) (hst : Opening (s.stack p))
    (found : Bool) (flags : OpenFlags) : (s.ext2Open p found flags).Kept fun _ => False := by
  rw [DevSystem.ext2Open]
  split
  · exact h.failed hst
  split
  · exact h.failed hst
  next d hd =>
    obtain ⟨hmem, hk⟩ := freeSlot_spec hd
    have hspare := fun e => h.pair_ne hmem (by decide) (e := e)
    have hnot := hi.not_pending hk
    generalize ho : Chardev.mk .ext2File 0 (some DevFn.ext2FileFlush) (some .ext2FileRead) none
      (some .ext2FileSeek) = o
    have hother : ∀ e, e ≠ d → (s.setObject d o).table.objects e = s.table.objects e :=
      fun e he => setObject_of_ne he
    have hself : (s.setObject d o).table.objects d = o := setObject_self
    have hne : ∀ e, s.klass e ≠ .none → e ≠ d := fun e he hed => he (hed ▸ hk)
    have hstack : ∀ q x, x ∈ ((s.setObject d o).push p (.ext2Open d .inode)).stack q ↔
        x ∈ s.stack q ∨ (x = .ext2Open d .inode ∧ q = p) := by
      intro q x
      by_cases hq : q = p
      · rw [hq, push, setStack_self, List.mem_cons]
        exact ⟨fun hx => hx.symm.imp_right fun hx => ⟨hx, rfl⟩,
          fun hx => hx.symm.imp_left And.left⟩
      · rw [push, setStack_of_ne hq]
        exact ⟨.inl, fun hx => hx.resolve_right fun hx => hq hx.2⟩
    refine ⟨fun e he => ?_, fun f hf => ?_, fun e he => ?_, fun q e stage he => ?_,
      fun q e he => ?_, fun e he hp => ?_, fun q => ?_⟩
    · by_cases hed : e = d
      · refine .inr (.inr ⟨p, List.mem_filterMap.2 ⟨.ext2Open d .inode, ?_, by rw [hed]; rfl⟩⟩)
        exact (hstack p _).2 (.inr ⟨rfl, rfl⟩)
      · rw [klass, push, setStack_table, hother e hed] at he
        refine (h.slots e he).imp_right fun hs => hs.imp_right ?_
        rintro ⟨q, hq⟩
        obtain ⟨x, hx, hxe⟩ := List.mem_filterMap.1 hq
        exact ⟨q, List.mem_filterMap.2 ⟨x, (hstack q x).2 (.inl hx), hxe⟩⟩
    · obtain ⟨e, he, hb, hold⟩ | ⟨e, he, hb, hold⟩ | ⟨q, e, he⟩ := h.owned f hf
      · have hed := hne e he
        refine .inl ⟨e, by rwa [klass, push, setStack_table, hother e hed], hb, fun q => ?_⟩
        rw [hstack, hstack]
        simp [hold q, hed]
      · have hed := hne e (by rw [he]; simp)
        refine .inr (.inl ⟨e, by rwa [klass, push, setStack_table, hother e hed], hb,
          fun q => ?_⟩)
        rw [hstack]
        simp [hold q, hed]
      · exact .inr (.inr ⟨q, e, (hstack q _).2 (.inl he)⟩)
    · by_cases hed : e = d
      · rw [hed, Kind, klass, push, setStack_table, hself, ← ho]
        exact ⟨hmem, rfl⟩
      · rw [klass, push, setStack_table, hother e hed] at he
        have := h.kind e he
        rw [Kind] at this ⊢
        rw [klass, push, setStack_table, hother e hed]
        exact this
    · obtain he | ⟨he, -⟩ := (hstack q _).1 he
      · have hke := h.ext2 q e stage he
        rw [klass, push, setStack_table, hother e (hne e (by rw [hke]; simp))]
        exact hke
      · cases he
        rw [klass, push, setStack_table, hself, ← ho]
    · have hke := h.con q e (((hstack q _).1 he).resolve_right (by simp))
      rw [klass, push, setStack_table, hother e (hne e (by rw [hke]; simp))]
      exact hke
    · by_cases hed : e = d
      · rw [hed, klass, push, setStack_table, hself, ← ho] at he
        cases he
      · rw [klass, push, setStack_table, hother e hed] at he
        rw [klass, push, setStack_table] at hp
        have hp' : ((s.setObject d o).table.objects (s.data e).pair).klass ≠ .none := hp
        rw [hother _ (hspare e he)] at hp'
        exact h.pairs e he hp'
    · by_cases hq : q = p
      · rw [hq, push, setStack_self]
        exact h.bottom p
      · rw [push, setStack_of_ne hq]
        exact h.bottom q

theorem «open» (h : s.Kept fun _ => False) (hi : s.Inv) (hlive : s.live p = true)
    (hst : Opening (s.stack p)) {path : DevPath} {flags : OpenFlags} {frame : Option Nat}
    (hok : DevLabel.GivesBack s (.open p path flags frame)) :
    (s.open p path flags frame).Kept fun _ => False := by
  have hlt := hi.lt p hlive
  have hserial : ∀ d, Pool.serialDevs.Mem d →
      ((s.serialOpen d flags).2.opened p (s.serialOpen d flags).1).Kept fun _ => False := by
    intro d hd
    have hk := (hi.serial d hd).1
    rw [DevSystem.serialOpen, if_neg (by rw [hk]; simp)]
    dsimp only
    refine Kept.opened (X := fun _ => False) ?_ hlt hst fun e he => he.elim
    refine h.step (fun e => ?_) (fun _ => rfl) (fun _ hf => hf) (fun _ he => he)
      (fun _ _ _ => Iff.rfl) (fun _ _ he => .inl he) h.bottom
    by_cases he : e = d
    · rw [he, klass, setObject_self]
      split <;> split <;> exact ⟨rfl, rfl⟩
    · rw [klass, setObject_of_ne he]
      exact ⟨rfl, rfl⟩
  rw [DevSystem.open.eq_def]
  dsimp only
  split
  · exact h.failed hst
  next hflags =>
    rw [Decidable.not_not] at hflags
    have hok := hok hflags
    cases path with
    | serial0 => exact hserial _ (by decide)
    | serial1 => exact hserial _ (by decide)
    | console => exact h.conOpen hi hlt hst hok
    | procCpuid => exact h.procCpuidOpen hi hlt hst hok
    | disk found => exact h.ext2Open hi hst found flags
    | other => exact h.failed hst

end Kept

/-! ### Frames -/

theorem kalloc_held {frame : Option Nat} {f : Nat} (h : (s.kalloc frame).held f = true) :
    s.held f = true ∨ frame = some f := by
  cases frame with
  | none => exact .inl h
  | some g =>
    by_cases hfg : f = g
    · exact .inr (hfg ▸ rfl)
    · exact .inl ((Function.update_of_ne hfg ..).symm.trans h)

theorem kalloc_rest (frame : Option Nat) : (s.kalloc frame).table = s.table ∧
    (s.kalloc frame).data = s.data ∧ (s.kalloc frame).stack = s.stack := by
  cases frame <;> exact ⟨rfl, rfl, rfl⟩

theorem free_held {frame : Option Nat} {f : Nat} (h : (s.free frame).held f = true) :
    s.held f = true ∧ frame ≠ some f := by
  cases frame with
  | none => exact ⟨h, by simp⟩
  | some g =>
    by_cases hfg : f = g
    · subst hfg
      rw [show (s.free (some f)).held f = false from Function.update_self ..] at h
      cases h
    · exact ⟨(Function.update_of_ne hfg ..).symm.trans h, fun he => hfg (Option.some.inj he).symm⟩

theorem free_rest (frame : Option Nat) : (s.free frame).table = s.table ∧
    (s.free frame).data = s.data ∧ (s.free frame).stack = s.stack := by
  cases frame <;> exact ⟨rfl, rfl, rfl⟩

/-! ### The rest of `ext2_open` -/

section
variable {stage : Ext2Stage} {l' : List Pending}

theorem ext2_unique (hi : s.Inv) (hst : s.stack p = .ext2Open d stage :: l) :
    (∀ q stage', .ext2Open d stage' ∈ s.stack q → q = p ∧ stage' = stage) ∧
      ∀ stage', .ext2Open d stage' ∉ l := by
  obtain ⟨-, hnot⟩ := hi.released hst rfl
  have hl : ∀ stage', .ext2Open d stage' ∉ l := by
    intro stage' hm
    refine hnot p ?_
    rw [setStack_self]
    exact List.mem_filterMap.2 ⟨_, hm, rfl⟩
  refine ⟨fun q stage' hm => ?_, hl⟩
  by_cases hq : q = p
  · rw [hq, hst, List.mem_cons] at hm
    obtain hm | hm := hm
    · cases hm
      exact ⟨hq, rfl⟩
    · exact (hl stage' hm).elim
  · refine (hnot q ?_).elim
    rw [setStack_of_ne hq]
    exact List.mem_filterMap.2 ⟨_, hm, rfl⟩

/-- The open of the object in slot `d` goes on, to another stage or to its end. -/
structure Advance (s : DevSystem) (p d : Nat) (stage : Ext2Stage) (l l' : List Pending)
    (u : DevSystem) : Prop where
  start : s.stack p = .ext2Open d stage :: l
  next : l' = l ∨ ∃ stage', stage' ≠ .inode ∧ l' = .ext2Open d stage' :: l
  table : u.table = s.table
  data : ∀ e, e ≠ d → u.data e = s.data e
  list : stage ≠ .inode → (u.data d).blockList = (s.data d).blockList
  pair : (u.data d).pair = (s.data d).pair
  stack : u.stack = Function.update s.stack p l'

/-- The pending opens of other objects stay. -/
theorem Advance.mem (h : s.Advance p d stage l l' u) {e : Nat} (he : e ≠ d) (q : Pid)
    (stage' : Ext2Stage) : .ext2Open e stage' ∈ u.stack q ↔ .ext2Open e stage' ∈ s.stack q := by
  rw [h.stack]
  by_cases hq : q = p
  · rw [hq, Function.update_self, h.start]
    obtain rfl | ⟨stage'', -, rfl⟩ := h.next <;> simp [he]
  · rw [Function.update_of_ne hq]

/-- The inode of the object has come. -/
theorem Advance.past (h : s.Advance p d stage l l' u) (hi : s.Inv) (q : Pid) :
    .ext2Open d .inode ∉ u.stack q := by
  obtain ⟨hunique, hnot⟩ := ext2_unique hi h.start
  rw [h.stack]
  by_cases hq : q = p
  · rw [hq, Function.update_self]
    obtain rfl | ⟨stage', hne, rfl⟩ := h.next
    · exact hnot _
    · simp [hnot, hne.symm]
  · rw [Function.update_of_ne hq]
    exact fun hm => hq (hunique q _ hm).1

theorem Advance.con (h : s.Advance p d stage l l' u) {q : Pid} {e : Nat}
    (he : .conFlush e ∈ u.stack q) : .conFlush e ∈ s.stack q := by
  rw [h.stack] at he
  by_cases hq : q = p
  · rw [hq, Function.update_self] at he
    rw [hq, h.start]
    obtain rfl | ⟨stage', -, rfl⟩ := h.next
    · exact List.mem_cons_of_mem _ he
    · exact List.mem_cons_of_mem _ ((List.mem_cons.1 he).resolve_left (by simp))
  · rwa [Function.update_of_ne hq] at he

theorem Advance.owned (h : s.Advance p d stage l l' u) (hi : s.Inv) {f : Nat} (ho : s.Owned f) :
    u.Owned f ∨ ((s.data d).buffer = some f ∧ ∃ tmpPage, stage = .dir tmpPage) ∨
      stage = .dir (some f) := by
  have hk : ∀ e, u.klass e = s.klass e := fun e => by rw [klass, klass, h.table]
  obtain ⟨e, he, hb, hnot⟩ | ⟨e, he, hb, hnot⟩ | ⟨q, e, he⟩ := ho
  · by_cases hed : e = d
    · subst hed
      refine .inr (.inl ⟨hb, ?_⟩)
      have hp := hnot p
      rw [h.start] at hp
      cases stage with
      | inode => exact (hp.1 (List.mem_cons_self ..)).elim
      | blocks => exact (hp.2 (List.mem_cons_self ..)).elim
      | dir tmpPage => exact ⟨tmpPage, rfl⟩
    · refine .inl (.inl ⟨e, by rwa [hk], by rwa [h.data e hed], fun q => ?_⟩)
      rw [h.mem hed, h.mem hed]
      exact hnot q
  · by_cases hed : e = d
    · subst hed
      have hstage : stage ≠ .inode := by
        rintro rfl
        have hp := hnot p
        rw [h.start] at hp
        exact hp (List.mem_cons_self ..)
      exact .inl (.inr (.inl ⟨e, by rwa [hk], by rwa [h.list hstage], h.past hi⟩))
    · refine .inl (.inr (.inl ⟨e, by rwa [hk], by rwa [h.data e hed], fun q => ?_⟩))
      rw [h.mem hed]
      exact hnot q
  · by_cases hed : e = d
    · subst hed
      exact .inr (.inr ((ext2_unique hi h.start).1 q _ he).2.symm)
    · exact .inl (.inr (.inr ⟨q, e, (h.mem hed q _).2 he⟩))

/-- The object whose open goes on has its new buffer, once the old one is gone. -/
theorem Advance.own (h : s.Advance p d stage l l' u) (hi : s.Inv) {f : Nat}
    (hb : (u.data d).buffer = some f)
    (hstage : .ext2Open d .inode ∉ l' ∧ .ext2Open d .blocks ∉ l') : u.Owned f := by
  refine .inl ⟨d, ?_, hb, fun q => ?_⟩
  · rw [klass, h.table]
    exact (hi.released h.start rfl).1.1
  · rw [h.stack]
    by_cases hq : q = p
    · rw [hq, Function.update_self]
      exact hstage
    · rw [Function.update_of_ne hq]
      exact ⟨fun hm => hq ((ext2_unique hi h.start).1 q _ hm).1,
        fun hm => hq ((ext2_unique hi h.start).1 q _ hm).1⟩

theorem Kept.advance (h : s.Kept fun _ => False) (_ : s.Inv) (ha : s.Advance p d stage l l' u)
    (howned : ∀ f, u.held f = true → u.Owned f) :
    u.Kept fun e => e = d ∧ l' = l := by
  have hk : ∀ e, u.klass e = s.klass e := fun e => by rw [klass, klass, ha.table]
  have hrefs : u.refs = s.refs := by
    funext e
    rw [refs, ha.table, refs]
  have hpair : ∀ e, (u.data e).pair = (s.data e).pair := by
    intro e
    by_cases hed : e = d
    · rw [hed, ha.pair]
    · rw [ha.data e hed]
  have hd : s.klass d = .ext2File := by
    refine h.ext2 p d stage ?_
    rw [ha.start]
    exact List.mem_cons_self ..
  have hpend : ∀ q e, e ∈ pendings (s.stack q) → e ∈ pendings (u.stack q) ∨ e = d ∧ l' = l := by
    intro q e he
    rw [ha.stack]
    by_cases hq : q = p
    · rw [hq, Function.update_self]
      rw [hq, ha.start] at he
      obtain rfl | ⟨stage'', -, rfl⟩ := ha.next
      · rw [pendings, List.filterMap_cons_some (f := Pending.object) rfl, List.mem_cons] at he
        exact he.symm.imp_right fun he => ⟨he, rfl⟩
      · exact .inl he
    · rw [Function.update_of_ne hq]
      exact .inl he
  have hmem : Pool.ext2Files.Mem d := by
    have := h.kind d (by rw [hd]; simp)
    rw [Kind, hd] at this
    exact this.1
  refine ⟨fun e he => ?_, howned, fun e he => ?_, fun q e stage' he => ?_, fun q e he => ?_,
    fun e he hp => ?_, fun q => ?_⟩
  · rw [hk] at he
    rw [hrefs]
    obtain he | he | ⟨q, hq⟩ := h.slots e he
    · exact he.elim
    · exact .inr (.inl he)
    · obtain hq | hq := hpend q e hq
      · exact .inr (.inr ⟨q, hq⟩)
      · exact .inl hq
  · rw [hk] at he
    have := h.kind e he
    rw [Kind] at this ⊢
    rw [hk, ha.table, hpair]
    exact this
  · rw [hk]
    by_cases hed : e = d
    · rw [hed, hd]
    · exact h.ext2 q e stage' ((ha.mem hed q _).1 he)
  · rw [hk]
    exact h.con q e (ha.con he)
  · rw [hk] at he
    rw [hpair, hk] at hp
    have hed : e ≠ d := by
      rintro rfl
      rw [hd] at he
      cases he
    rw [hpair, ha.data e hed, ha.data _ (h.pair_ne hmem (by decide) he)]
    exact h.pairs e he hp
  · rw [ha.stack]
    by_cases hq : q = p
    · have hb := h.bottom p
      rw [ha.start] at hb
      rw [hq, Function.update_self]
      obtain rfl | ⟨stage'', -, rfl⟩ := ha.next
      · exact hb
      · exact hb
    · rw [Function.update_of_ne hq]
      exact h.bottom q

end

namespace Kept

theorem ext2Inode (h : s.Kept fun _ => False) (hi : s.Inv)
    (hst : s.stack p = .ext2Open d .inode :: l) (blocks : Nat) (frame : Option Nat) :
    (s.ext2Inode p d l blocks frame).Kept fun _ => False := by
  generalize hlist : (if blocks > 12 then frame else none) = list
  have hstep : s.ext2Inode p d l blocks frame =
      ((s.setStack p (.ext2Open d .blocks :: l)).kalloc list).setData d
        { s.data d with blockList := list } := by
    rw [DevSystem.ext2Inode, ← hlist]
    split
    · cases frame <;> rfl
    · rfl
  obtain ⟨htable, hdata, hstack⟩ := kalloc_rest (s := s.setStack p (.ext2Open d .blocks :: l)) list
  rw [hstep]
  have ha : s.Advance p d .inode l (.ext2Open d .blocks :: l)
      (((s.setStack p (.ext2Open d .blocks :: l)).kalloc list).setData d
        { s.data d with blockList := list }) :=
    ⟨hst, .inr ⟨_, by simp, rfl⟩, htable, fun e he => by rw [setData_of_ne he, hdata]; rfl,
      fun hne => (hne rfl).elim, by rw [setData_self], hstack⟩
  refine (h.advance hi ha fun f hf => ?_).mono fun e he => List.cons_ne_self _ _ he.2
  obtain hf | hf := kalloc_held hf
  · obtain ho | ⟨-, tmpPage, ht⟩ | ht := ha.owned hi (h.owned f hf)
    · exact ho
    · cases ht
    · cases ht
  · refine .inr (.inl ⟨d, ?_, by rw [setData_self, hf], ha.past hi⟩)
    rw [klass, ha.table]
    refine h.ext2 p d .inode ?_
    rw [hst]
    exact List.mem_cons_self ..

theorem ext2Buffer (h : s.Kept fun _ => False) (hi : s.Inv)
    (hst : s.stack p = .ext2Open d .blocks :: l) {frame : Option Nat} {dir : Option (Option Nat)}
    (hok : dir = none → s.HasFd p) : (s.ext2Buffer p d l frame dir).Kept fun _ => False := by
  have hlive := hi.live_of_stack hst
  have hn := hi.nested p
  rw [hst] at hn
  obtain ⟨htable, hdata, hstack⟩ := kalloc_rest (s := s) frame
  have hnone := (ext2_unique hi hst).2
  generalize hy : DevData.mk frame (s.data d).blockList (s.data d).pair = y
  have hstep : s.ext2Buffer p d l frame dir =
      match dir with
      | none => (((s.kalloc frame).setData d y).setStack p l).opened p (some d)
      | some tmpPage => (((s.kalloc frame).setData d y).kalloc tmpPage).setStack p
          (.ext2Open d (.dir tmpPage) :: l) := by
    rw [← hy]
    cases dir <;> rfl
  have hkept : ∀ t : DevSystem, t.table = s.table → t.stack = s.stack → (∀ e, e ≠ d →
      t.data e = s.data e) → t.data d = y →
      ∀ l', (l' = l ∨ ∃ stage', stage' ≠ .inode ∧ l' = .ext2Open d stage' :: l) →
      s.Advance p d .blocks l l' (t.setStack p l') := by
    intro t ht hs ho hd l' hl'
    refine ⟨hst, hl', ht, ho, fun _ => ?_, ?_, ?_⟩
    · exact (congrArg DevData.blockList hd).trans (by rw [← hy])
    · exact (congrArg DevData.pair hd).trans (by rw [← hy])
    · rw [DevSystem.setStack, hs]
  have hbuffer : y.buffer = frame := by rw [← hy]
  rw [hstep]
  cases dir with
  | none =>
    have ha := hkept ((s.kalloc frame).setData d y) htable hstack
      (fun e he => by rw [setData_of_ne he, hdata]) setData_self l (.inl rfl)
    refine (h.advance hi ha fun f hf => ?_).opened (hi.lt p hlive)
      (by rw [setStack_self]; exact hn.1) fun e he => .inr ⟨he.1, ?_⟩
    · obtain hf | hf := kalloc_held hf
      · obtain ho | ⟨-, tmpPage, ht⟩ | ht := ha.owned hi (h.owned f hf)
        · exact ho
        · cases ht
        · cases ht
      · refine ha.own hi ?_ ⟨hnone _, hnone _⟩
        rw [show (((s.kalloc frame).setData d y).setStack p l).data d = y from setData_self,
          hbuffer, hf]
    · rw [HasFd]
      obtain ⟨fd, hfd, hfree⟩ := hok rfl
      refine ⟨fd, hfd, ?_⟩
      rw [fds, setStack_table, show ((s.kalloc frame).setData d y).table = s.table from htable]
      exact hfree
  | some tmpPage =>
    obtain ⟨htable', hdata', hstack'⟩ := kalloc_rest (s := (s.kalloc frame).setData d y) tmpPage
    have ha := hkept (((s.kalloc frame).setData d y).kalloc tmpPage) (htable'.trans htable)
      (hstack'.trans hstack) (fun e he => by rw [hdata', setData_of_ne he, hdata])
      (by rw [hdata', setData_self]) (.ext2Open d (.dir tmpPage) :: l) (.inr ⟨_, by simp, rfl⟩)
    refine (h.advance hi ha fun f hf => ?_).mono fun e he => List.cons_ne_self _ _ he.2
    obtain hf | rfl := kalloc_held hf
    · obtain hf | hf := kalloc_held hf
      · obtain ho | ⟨-, tmpPage, ht⟩ | ht := ha.owned hi (h.owned f hf)
        · exact ho
        · cases ht
        · cases ht
      · refine ha.own hi ?_ ⟨by simp [hnone], by simp [hnone]⟩
        exact (congrArg DevData.buffer ((congrFun hdata' d).trans setData_self)).trans
          (hbuffer.trans hf)
    · refine .inr (.inr ⟨p, d, ?_⟩)
      rw [setStack_self]
      exact List.mem_cons_self ..

theorem ext2Dir (h : s.Kept fun _ => False) (hi : s.Inv) {tmpPage : Option Nat}
    (hst : s.stack p = .ext2Open d (.dir tmpPage) :: l) (hok : s.HasFd p) :
    (s.ext2Dir p d l tmpPage).Kept fun _ => False := by
  have hlive := hi.live_of_stack hst
  have hn := hi.nested p
  rw [hst] at hn
  obtain ⟨htable, hdata, hstack⟩ := free_rest (s := s) tmpPage
  have hnone := (ext2_unique hi hst).2
  have ha : s.Advance p d (.dir tmpPage) l l ((s.free tmpPage).setStack p l) := by
    refine ⟨hst, .inl rfl, htable, fun e _ => congrFun hdata e, fun _ => ?_, ?_, ?_⟩
    · exact congrArg DevData.blockList (congrFun hdata d)
    · exact congrArg DevData.pair (congrFun hdata d)
    · rw [DevSystem.setStack, hstack]
  rw [DevSystem.ext2Dir]
  refine (h.advance hi ha fun f hf => ?_).opened (hi.lt p hlive)
    (by rw [setStack_self]; exact hn.1) fun e he => .inr ⟨he.1, ?_⟩
  · obtain ⟨hf, hne⟩ := free_held hf
    obtain ho | ⟨hb, -⟩ | ht := ha.owned hi (h.owned f hf)
    · exact ho
    · exact ha.own hi ((congrArg DevData.buffer (congrFun hdata d)).trans hb) ⟨hnone _, hnone _⟩
    · cases ht
      exact (hne rfl).elim
  · obtain ⟨fd, hfd, hfree⟩ := hok
    refine ⟨fd, hfd, ?_⟩
    rw [fds, setStack_table, htable]
    exact hfree

/-! ### Pipes -/

/-- The begin of an exit at user level. -/
theorem exit (h : s.Kept X) (hst : pendings (s.stack p) = []) : (s.push p (.exit 0)).Kept X :=
  h.setStack rfl (fun _ hx => Pending.mem_cons rfl hx) hst

theorem pipeOpen (h : s.Kept fun _ => False) (hi : s.Inv) {inp out buffer : Nat} {rest : List Nat}
    (hends : s.freeEnds = inp :: out :: rest)
    (hspare : ∀ d, s.klass d = .pipe → (s.data d).pair ≠ inp ∧ (s.data d).pair ≠ out) :
    (s.pipeOpen inp out buffer).Kept fun e => e = inp ∨ e = out := by
  obtain ⟨⟨hinp, hik⟩, ⟨hout, hok⟩, hne⟩ := freeEnds_spec hends
  rw [DevSystem.pipeOpen]
  dsimp only
  generalize hoi : initEndpoint (some .pipeRead) none = oi
  generalize hoo : initEndpoint none (some .pipeWrite) = oo
  generalize hs₁ : ((s.kalloc (some buffer)).setObject inp oi).setData inp
    { ((s.kalloc (some buffer)).setObject inp oi).data inp with
      buffer := some buffer, pair := out } = s₁
  have hi₁ : s₁.Inv := by
    have h' : (s.kalloc (some buffer)).Inv := hi.frames rfl rfl rfl
    rw [← hs₁]
    refine (h'.take hik (not_serial hinp (by decide)) (o := oi) ?_ ?_).frames rfl rfl rfl <;>
      rw [← hoi]
    · simp [initEndpoint]
    · rfl
  have hinp₁ : s₁.data inp =
      { (s.data inp) with buffer := some buffer, pair := out } := by
    rw [← hs₁, setData_self]
    rfl
  have hother₁ : ∀ e, e ≠ inp → s₁.klass e = s.klass e ∧ s₁.data e = s.data e := by
    intro e he
    constructor
    · rw [← hs₁]
      exact congrArg Chardev.klass (setObject_of_ne (s := s.kalloc (some buffer)) he)
    · rw [← hs₁, setData_of_ne he]
      rfl
  have hobj₁ : s₁.table.objects = Function.update s.table.objects inp oi := by rw [← hs₁]; rfl
  have hk₁ : s₁.klass out = .none := by rw [(hother₁ out hne.symm).1, hok]
  have h₁ : s₁.Kept fun e => False ∨ e = inp := by
    refine h.take hi hik (by rw [← hs₁]; rfl) hobj₁ (fun e he => (hother₁ e he).2) (fun f hf => ?_)
      (by rw [← hs₁]; rfl) (by rw [← hoi]; simp [initEndpoint]) ?_ (fun _ hp => ?_)
      fun e he hp => ((hspare e he).1 hp).elim
    · rw [← hs₁] at hf
      have hheld : s.held f = true ∨ some buffer = some f := kalloc_held hf
      exact hheld.imp_right fun hf => by rw [hinp₁, hf]
    · rw [Kind, klass, hobj₁, Function.update_self, ← hoi, hinp₁]
      exact ⟨hinp, hout, rfl⟩
    · rw [hinp₁] at hp
      exact (hp hk₁).elim
  generalize hs₂ : (s₁.setObject out oo).setData out
    { (s₁.setObject out oo).data out with buffer := some buffer, pair := inp } = s₂
  have hout₂ : s₂.data out = { s₁.data out with buffer := some buffer, pair := inp } := by
    rw [← hs₂, setData_self]
    rfl
  have hother₂ : ∀ e, e ≠ out → s₂.data e = s₁.data e := fun e he => by
    rw [← hs₂, setData_of_ne he]
    rfl
  have hobj₂ : s₂.table.objects = Function.update s₁.table.objects out oo := by rw [← hs₂]; rfl
  refine (h₁.take (u := s₂) hi₁ hk₁ (by rw [← hs₂]; rfl) hobj₂ hother₂
    (fun _ hf => .inl (by rw [← hs₂] at hf; exact hf)) (by rw [← hs₂]; rfl)
    (by rw [← hoo]; simp [initEndpoint]) ?_ (fun _ _ => ?_) fun e he hp => ?_).mono
    fun e he => he.imp_left fun he => he.resolve_left id
  · rw [Kind, klass, hobj₂, Function.update_self, ← hoo, hout₂]
    exact ⟨hout, hinp, rfl⟩
  · rw [hout₂, hother₂ inp hne, hinp₁]
  · rw [hout₂]
    by_cases hei : e = inp
    · rw [hei, hinp₁]
    · rw [(hother₁ e hei).1] at he
      rw [(hother₁ e hei).2] at hp
      exact ((hspare e he).2 hp).elim

theorem pipe (h : s.Kept fun _ => False) (hi : s.Inv) (hlive : s.live p = true)
    (hst : s.stack p = []) {frame : Option Nat} {stores : Nat}
    (hok : DevLabel.GivesBack s (.pipe p .user frame stores)) :
    (s.pipe p .user frame stores).Kept fun _ => False := by
  have hlt := hi.lt p hlive
  rw [DevSystem.pipe.eq_def]
  split
  next inp out rest buffer hends =>
    obtain ⟨⟨fd, hfd, fd', hfd', hne, hfree, hfree'⟩, hstores, hspare⟩ :=
      hok.2 inp out rest hends (by simp)
    obtain ⟨-, -, hio⟩ := freeEnds_spec hends
    have h₁ : (s.pipeOpen inp out buffer).Kept fun e => e = inp ∨ e = out :=
      h.pipeOpen hi hends hspare
    have hfds : (s.pipeOpen inp out buffer).fds p = s.fds p := rfl
    have h₂ : ((s.pipeOpen inp out buffer).describe p inp).Kept fun e => e = out :=
      h₁.describe hlt hst fun e he => he.symm.imp_right fun he => ⟨he, fd, hfd, hfree⟩
    -- the first descriptor took one of the two free ones
    have hroom : ((s.pipeOpen inp out buffer).describe p inp).HasFd p := by
      have hcases := deviceDescriptor_cases (s.pipeOpen inp out buffer) p inp
      dsimp only at hcases
      obtain ⟨g, hg, -, -, hdev, -⟩ | ⟨hfull, -⟩ := hcases
      · have hupdate := (fds_of_update (s := s.pipeOpen inp out buffer)
          (u := (s.pipeOpen inp out buffer).describe p inp) hdev).1
        by_cases hgf : fd = g
        · refine ⟨fd', hfd', ?_⟩
          rw [hupdate, Function.update_of_ne (by omega)]
          exact hfree'
        · refine ⟨fd, hfd, ?_⟩
          rw [hupdate, Function.update_of_ne hgf]
          exact hfree
      · exact (hfull fd hfd hfree).elim
    have h₃ : (((s.pipeOpen inp out buffer).describe p inp).describe p out).Kept
        fun _ => False := h₂.describe hlt hst fun e he => .inr ⟨he, hroom⟩
    simp only [storeFd_user]
    rw [if_neg hstores]
    split
    · refine h₃.exit ?_
      rw [show (((s.pipeOpen inp out buffer).describe p inp).describe p out).stack p = [] from hst]
      rfl
    · exact h₃
  · exact h

/-! ### Closes -/

/-- A slot that nothing holds and that has no page of block numbers is given back, and its buffer
is freed or has another owner. -/
theorem drop (h : s.Kept X) (hnot : ∀ q, d ∉ pendings (s.stack q))
    (hdev : u.table.devices = s.table.devices)
    (hobj : u.table.objects =
      Function.update s.table.objects d { s.table.objects d with klass := .none })
    (hdata : u.data = s.data) (hstack : u.stack = s.stack)
    (hheld : ∀ f, u.held f = true → s.held f = true)
    (hbuffer : ∀ f, u.held f = true → (s.data d).buffer = some f →
      ∃ e, e ≠ d ∧ s.klass e = .pipe ∧ (s.data e).buffer = some f)
    (hlist : s.klass d = .ext2File → (s.data d).blockList = none) :
    u.Kept fun e => X e ∧ e ≠ d := by
  have hother : ∀ e, e ≠ d → u.klass e = s.klass e ∧
      (u.table.objects e).flush = (s.table.objects e).flush := fun e he => by
    rw [klass, klass, hobj, Function.update_of_ne he]
    exact ⟨rfl, rfl⟩
  have hself : u.klass d = .none := by rw [klass, hobj, Function.update_self]
  have hne : ∀ e, u.klass e ≠ .none → e ≠ d := fun e he hed => he (hed ▸ hself)
  have hrefs : u.refs = s.refs := by
    funext e
    rw [refs, hdev, refs]
  refine ⟨fun e he => ?_, fun f hf => ?_, fun e he => ?_, fun q e stage he => ?_,
    fun q e he => ?_, fun e he hp => ?_, fun q => ?_⟩
  · have hed := hne e he
    rw [(hother e hed).1] at he
    rw [hrefs, hstack]
    exact (h.slots e he).imp_left fun hx => ⟨hx, hed⟩
  · rw [Owned, hstack, hdata]
    obtain ⟨e, he, hb, hold⟩ | ⟨e, he, hb, hold⟩ | hdir := h.owned f (hheld f hf)
    · by_cases hed : e = d
      · obtain ⟨e', hed', he', hb'⟩ := hbuffer f hf (hed ▸ hb)
        have hext2 : ∀ q stage, .ext2Open e' stage ∉ s.stack q := fun q stage hm => by
          rw [h.ext2 q e' stage hm] at he'
          cases he'
        exact .inl ⟨e', by rw [(hother e' hed').1, he']; simp, hb',
          fun q => ⟨hext2 q _, hext2 q _⟩⟩
      · exact .inl ⟨e, by rwa [(hother e hed).1], hb, hold⟩
    · have hed : e ≠ d := by
        rintro rfl
        rw [hlist he] at hb
        cases hb
      exact .inr (.inl ⟨e, by rwa [(hother e hed).1], hb, hold⟩)
    · exact .inr (.inr hdir)
  · have hed := hne e he
    rw [(hother e hed).1] at he
    have := h.kind e he
    rw [Kind] at this ⊢
    rw [(hother e hed).1, (hother e hed).2, hdata]
    exact this
  · rw [hstack] at he
    have hed : e ≠ d := by
      rintro rfl
      exact hnot q (List.mem_filterMap.2 ⟨_, he, rfl⟩)
    rw [(hother e hed).1]
    exact h.ext2 q e stage he
  · rw [hstack] at he
    have hed : e ≠ d := by
      rintro rfl
      exact hnot q (List.mem_filterMap.2 ⟨_, he, rfl⟩)
    rw [(hother e hed).1]
    exact h.con q e he
  · have hed := hne e (by rw [he]; simp)
    rw [(hother e hed).1] at he
    rw [hdata] at hp ⊢
    rw [(hother _ (hne _ hp)).1] at hp
    exact h.pairs e he hp
  · rw [hstack]
    exact h.bottom q

theorem flush (h : s.Kept fun e => e = d) (hk : s.klass d ≠ .none)
    (hnot : ∀ q, d ∉ pendings (s.stack q)) {f : DevFn}
    (hf : (s.table.objects d).flush = some f)
    (hlist : s.klass d = .ext2File → (s.data d).blockList = none) :
    (s.flush p f d).Kept fun _ => False := by
  have hkind := h.kind d hk
  rw [Kind] at hkind
  cases hkd : s.klass d with
  | none => exact (hk hkd).elim
  | procCpuid =>
    rw [hkd, hf] at hkind
    cases hkind.2
  | serial | hdd =>
    rw [hkd] at hkind
    exact hkind.elim
  | console =>
    rw [hkd] at hkind
    obtain rfl : f = .conFlush := Option.some.inj (hf.symm.trans hkind.2)
    refine h.step (fun _ => ⟨rfl, rfl⟩) (fun _ => rfl) (fun _ hf => hf) (fun e he => ?_)
      (fun q e stage => ?_) (fun q e he => ?_) fun q => ?_
    · obtain rfl | he | ⟨q, hq⟩ := he
      · refine .inr (.inr ⟨p, ?_⟩)
        rw [DevSystem.flush, push, setStack_self]
        exact List.mem_cons_self ..
      · exact .inr (.inl he)
      · refine .inr (.inr ⟨q, ?_⟩)
        by_cases hqp : q = p
        · rw [DevSystem.flush, push, hqp, setStack_self]
          exact List.mem_cons_of_mem _ (hqp ▸ hq)
        · rw [DevSystem.flush, push, setStack_of_ne hqp]
          exact hq
    · by_cases hqp : q = p
      · rw [DevSystem.flush, push, hqp, setStack_self]
        simp
      · rw [DevSystem.flush, push, setStack_of_ne hqp]
    · by_cases hqp : q = p
      · rw [DevSystem.flush, push, hqp, setStack_self, List.mem_cons] at he
        obtain he | he := he
        · cases he
          exact .inr hkd
        · exact .inl (hqp ▸ he)
      · rw [DevSystem.flush, push, setStack_of_ne hqp] at he
        exact .inl he
    · by_cases hqp : q = p
      · rw [DevSystem.flush, push, hqp, setStack_self]
        exact h.bottom p
      · rw [DevSystem.flush, push, setStack_of_ne hqp]
        exact h.bottom q
  | ext2File =>
    rw [hkd] at hkind
    obtain rfl : f = .ext2FileFlush := Option.some.inj (hf.symm.trans hkind.2)
    obtain ⟨htable, hdata, hstack⟩ := free_rest (s := s.setKlass d .none) (s.data d).buffer
    rw [DevSystem.flush]
    refine (h.drop hnot (by rw [htable]; rfl) (by rw [htable]; rfl) hdata hstack
      (fun g hg => (free_held hg).1) (fun g hg hb => ((free_held hg).2 hb).elim) hlist).mono
      fun e he => he.2 he.1
  | pipe =>
    rw [hkd] at hkind
    obtain rfl : f = .pipeFlush := Option.some.inj (hf.symm.trans hkind.2.2)
    rw [DevSystem.flush, DevSystem.pipeFlush]
    split
    · obtain ⟨htable, hdata, hstack⟩ := free_rest (s := s.setKlass d .none)
        ((s.setKlass d .none).data d).buffer
      refine (h.drop hnot (by rw [htable]; rfl) (by rw [htable]; rfl) hdata hstack
        (fun g hg => (free_held hg).1) (fun g hg hb => ((free_held hg).2 hb).elim) hlist).mono
        fun e he => he.2 he.1
    next hpair =>
      -- the other end keeps the buffer
      have hpd : (s.data d).pair ≠ d := by
        intro he
        exact hpair ((congrArg (s.setKlass d .none).klass he).trans
          (congrArg Chardev.klass setObject_self))
      have hpk : s.klass (s.data d).pair ≠ .none := fun he =>
        hpair ((congrArg Chardev.klass (setObject_of_ne hpd)).trans he)
      refine (h.drop (u := s.setKlass d .none) hnot rfl rfl rfl rfl (fun _ hg => hg)
        (fun g _ hb => ⟨(s.data d).pair, hpd, ?_, ?_⟩) hlist).mono fun e he => he.2 he.1
      · have hpkind := h.kind _ hpk
        rw [Kind] at hpkind
        have hmem := hkind.2.1
        simp only [Pool.Mem, Pool.endpoints, Pool.consoles, Pool.ext2Files,
          Pool.procCpuidDevs] at hmem hpkind
        revert hpkind
        cases s.klass (s.data d).pair with
        | pipe => exact fun _ => rfl
        | none | serial | hdd => exact False.elim
        | procCpuid | console | ext2File =>
          rintro ⟨hmem', -⟩
          omega
      · rw [h.pairs d hkd hpk, hb]

/-- A close by a process that goes on with the stack `l`. -/
theorem close (h : s.Kept fun _ => False) (hi : s.Inv) (hlive : s.live p = true) (hfd : fd < maxFd)
    (hok : s.FreesAll p fd) (hl : pendings l = pendings (s.stack p))
    (hmem : ∀ x : Pending, x.object ≠ none → (x ∈ l ↔ x ∈ s.stack p)) (hbottom : Bottom l) :
    ((s.setStack p l).close p fd).Kept fun _ => False := by
  have h' := h.setStack hl hmem hbottom
  have htable : (s.setStack p l).closeTable p fd = s.closeTable p fd := rfl
  rw [DevSystem.close, htable]
  cases hcell : s.fds p fd with
  | none =>
    obtain ⟨t, ht, hdev, hobj, hworld⟩ := closeTable_none hfd hcell
    rw [ht, Outcome.state_ret, hworld, List.foldl_nil]
    exact h'.same ⟨hdev, hobj⟩ rfl rfl rfl
  | some d =>
    obtain ⟨hd, hpos⟩ := hi.counted hlive hfd hcell
    have hcount := hi.count d hd
    obtain ⟨n, hn⟩ : ∃ n, (s.table.objects d).refcount = n + 1 := ⟨s.refs d - 1, by omega⟩
    obtain ⟨r, t, ht, hdev, hobj, hworld⟩ := closeTable_some hfd hcell hn
    rw [ht, Outcome.state_ret, hworld]
    have hklass : ∀ e, (t.objects e).klass = s.klass e ∧
        (t.objects e).flush = (s.table.objects e).flush := by
      intro e
      rw [hobj]
      by_cases he : e = d
      · rw [he, Function.update_self]; exact ⟨rfl, rfl⟩
      · rw [Function.update_of_ne he]; exact ⟨rfl, rfl⟩
    generalize hu : ({ s.setStack p l with table := t } : DevSystem) = u
    have hrefs : ∀ e, u.refs e + (if some d = some e then 1 else 0) = s.refs e := by
      intro e
      have hupdate :=
        refs_of_update (d := e) (u := u) (hi.lt p hlive) hfd (by rw [← hu]; exact hdev)
      rw [hcell, if_neg (c := none = some e) (by simp), Nat.add_zero] at hupdate
      exact hupdate
    have hkept : u.Kept fun e => e = d ∧ n = 0 := by
      rw [← hu] at hrefs ⊢
      refine h'.step hklass (fun _ => rfl) (fun _ hf => hf) (fun e he => ?_)
        (fun _ _ _ => Iff.rfl) (fun _ _ he => .inl he) h'.bottom
      obtain he | he | he := he
      · exact he.elim
      · have hr := hrefs e
        have hs : (s.setStack p l).refs e = s.refs e := rfl
        by_cases hed : e = d
        · subst hed
          rw [if_pos rfl] at hr
          by_cases hzero : n = 0
          · exact .inl ⟨rfl, hzero⟩
          · exact .inr (.inl (by omega))
        · rw [if_neg fun he => hed (Option.some.inj he).symm] at hr
          exact .inr (.inl (by omega))
      · exact .inr (.inr he)
    have huk : u.klass d = s.klass d := by rw [← hu]; exact (hklass d).1
    have huf : (u.table.objects d).flush = (s.table.objects d).flush := by
      rw [← hu]; exact (hklass d).2
    split
    next hzero =>
      -- the last reference is gone
      have hnot : ∀ q, d ∉ pendings (u.stack q) := by
        intro q hq
        have hq' : d ∈ pendings (s.stack q) := by
          rw [← hu] at hq
          by_cases hqp : q = p
          · rw [hqp] at hq ⊢
            rwa [← hl, ← setStack_self (s := s) (p := p) (l := l)]
          · rwa [← setStack_of_ne (s := s) (l := l) hqp]
        have := (hi.pending q d hq').2
        omega
      have hlast := hkept.mono (Y := fun e => e = d) fun e he => he.1
      obtain ⟨hcpuid, hlist⟩ := hok d hcell (by omega)
      cases hf : (s.table.objects d).flush with
      | none =>
        refine { hlast with slots := fun e he => (hlast.slots e he).imp_left fun hed => ?_ }
        have hkind := hlast.kind e he
        rw [hed, Kind, huf, hf, huk] at hkind
        revert hkind hcpuid
        cases s.klass d <;> simp
      | some f =>
        refine hlast.flush ?_ hnot (huf.trans hf) (by rw [huk, ← hu]; exact hlist)
        rw [huk]
        refine hd.resolve_right fun hserial => ?_
        rw [(hi.serial d hserial).2] at hf
        cases hf
    next hzero => exact hkept.mono fun e he => hzero he.2

/-- The end of `con_flush`. -/
theorem conFlush (h : s.Kept fun _ => False) (hi : s.Inv) (hst : s.stack p = .conFlush d :: l) :
    (s.conFlush p d l).Kept fun _ => False := by
  have hpend : pendings (s.stack p) = d :: pendings l := by rw [hst]; rfl
  have hpop : (s.setStack p l).Kept fun e => e = d := by
    refine h.step (fun _ => ⟨rfl, rfl⟩) (fun _ => rfl) (fun _ hf => hf) (fun e he => ?_)
      (fun q e stage => ?_) (fun q e he => .inl ?_) fun q => ?_
    · obtain he | he | ⟨q, hq⟩ := he
      · exact he.elim
      · exact .inr (.inl he)
      · by_cases hqp : q = p
        · rw [hqp, hpend, List.mem_cons] at hq
          exact hq.imp_right fun hq => .inr ⟨p, by rwa [setStack_self]⟩
        · exact .inr (.inr ⟨q, by rwa [setStack_of_ne hqp]⟩)
    · by_cases hqp : q = p
      · rw [hqp, setStack_self, hst]
        simp
      · rw [setStack_of_ne hqp]
    · by_cases hqp : q = p
      · rw [hqp, setStack_self] at he
        rw [hqp, hst]
        exact List.mem_cons_of_mem _ he
      · rwa [setStack_of_ne hqp] at he
    · by_cases hqp : q = p
      · have hb := h.bottom p
        rw [hst] at hb
        rw [hqp, setStack_self]
        exact hb
      · rw [setStack_of_ne hqp]
        exact h.bottom q
  obtain ⟨htable, hdata, hstack⟩ := free_rest (s := s) (s.data d).buffer
  refine (hpop.drop (u := s.conFlush p d l) (hi.released hst rfl).2 ?_ ?_ hdata ?_
    (fun f hf => (free_held hf).1) (fun f hf hb => ((free_held hf).2 hb).elim) fun hk => ?_).mono
    fun e he => he.2 he.1
  · have hdev : (s.free (s.data d).buffer).table.devices = s.table.devices := by rw [htable]
    exact hdev
  · rw [setStack_table, ← htable]
    rfl
  · exact congrArg (Function.update · p l) hstack
  · have hcon : s.klass d = .console := h.con p d (by rw [hst]; exact List.mem_cons_self ..)
    rw [show s.klass d = .ext2File from hk] at hcon
    cases hcon

theorem closeNext (h : s.Kept fun _ => False) (hi : s.Inv) (hst : s.stack p = .exit fd :: l)
    (hfd : fd < maxFd) (hok : s.FreesAll p fd) : (s.closeNext p fd l).Kept fun _ => False := by
  have hpend : pendings (.exit (fd + 1) :: l) = pendings (s.stack p) := by
    rw [hst]
    rfl
  have hmem : ∀ x : Pending, x.object ≠ none →
      (x ∈ Pending.exit (fd + 1) :: l ↔ x ∈ s.stack p) := by
    intro x hx
    rw [hst, Pending.mem_cons rfl hx, Pending.mem_cons rfl hx]
  have hbottom : Bottom (.exit (fd + 1) :: l) := by
    have hb := h.bottom p
    rw [hst] at hb
    exact hb
  rw [DevSystem.closeNext]
  split
  · exact h.close hi (hi.live_of_stack hst) hfd hok hpend hmem hbottom
  · exact h.setStack hpend hmem hbottom

theorem exitEnd (h : s.Kept X) (hst : s.stack p = .exit fd :: l) :
    Kept X { s.setStack p [] with live := Function.update s.live p false } := by
  have hb := h.bottom p
  rw [hst] at hb
  have hl : pendings l = [] := hb
  have h' : (s.setStack p []).Kept X := by
    refine h.setStack ?_ (fun x hx => ?_) trivial
    · rw [hst]
      exact hl.symm
    · rw [hst]
      refine iff_of_false (by simp) fun hm => ?_
      obtain ⟨e, he⟩ := Option.ne_none_iff_exists'.1 hx
      have hm := (List.mem_cons.1 hm).resolve_left (by rintro rfl; cases he)
      have hd : e ∈ pendings l := List.mem_filterMap.2 ⟨_, hm, he⟩
      rw [hl] at hd
      cases hd
  exact h'.same ⟨rfl, rfl⟩ rfl rfl rfl

theorem fork (h : s.Kept X) (hi : s.Inv) {child : Pid} (hlive : s.live p = true)
    (hlt : child < maxPid) (hdead : s.live child = false) : (s.fork p child).Kept X := by
  have hne : p ≠ child := by
    rintro rfl
    rw [hlive] at hdead
    cases hdead
  have hrow := hi.row child hlt hdead
  have hc := deviceCopyFds_copied hne hlt hrow
  refine h.step hc.objects (fun _ => rfl) (fun _ hf => hf) (fun e he => ?_)
    (fun _ _ _ => Iff.rfl) (fun _ _ he => .inl he) h.bottom
  refine he.imp_right fun he => he.imp_left fun he => ?_
  obtain ⟨i, hi, hcell⟩ : ∃ i < maxPid * maxFd, s.table.devices i = some e := by
    by_contra hno
    push Not at hno
    exact Nat.ne_of_gt he (Counting.refs_eq_zero.2 hno)
  have hdiv : cell (i / maxFd) (i % maxFd) = i := by
    rw [cell, Nat.mul_comm, Nat.div_add_mod]
  have hmod : i % maxFd < maxFd := Nat.mod_lt _ (by decide)
  refine Counting.refs_pos hi ?_
  by_cases hchild : i / maxFd = child
  · have := hrow (i % maxFd) hmod
    rw [fds, ← hchild, hdiv, hcell] at this
    cases this
  · rw [← hdiv] at hcell ⊢
    exact (hc.kept _ hchild _ hmod).trans hcell

end Kept

end DevSystem

end

/-! ## Runs -/

section
variable {s u : DevSystem}

theorem DevStep.kept {a : DevLabel} (h : s.Kept fun _ => False) (hi : s.Inv)
    (hok : a.GivesBack s) (hs : DevStep s a u) : u.Kept fun _ => False := by
  cases hs with
  | «open» hlive hst _ => exact h.open hi hlive hst hok
  | ext2Inode hst _ => exact h.ext2Inode hi hst _ _
  | ext2Buffer hst _ _ => exact h.ext2Buffer hi hst hok
  | ext2Dir hst => exact h.ext2Dir hi hst hok
  | pipe hlive hst _ _ =>
    obtain rfl := hok.1
    exact h.pipe hi hlive hst hok
  | pipeKernel _ _ => cases hok.1
  | @use p c fd _ _ _ hc =>
    refine h.same ?_ rfl rfl rfl
    cases c with
    | close => exact (hc rfl).elim
    | read | write | seek => exact dispatch_table _ _
  | @close p fd hlive hst hfd =>
    have h' := h.close (l := []) hi hlive hfd hok (by rw [hst]) (fun x _ => by rw [hst]) trivial
    rwa [DevSystem.setStack, ← hst, Function.update_eq_self] at h'
  | @screenSaver p d rest hst =>
    exact h.setStack rfl (fun _ hx => Pending.mem_cons rfl hx) (h.bottom p)
  | runLoad _ _ _ => exact h.same ⟨rfl, rfl⟩ rfl rfl rfl
  | @runClose p fd rest hst =>
    have hn := hi.nested p
    have hb := h.bottom p
    rw [hst] at hn hb
    exact h.close hi (hi.live_of_stack hst) hn.1 (hok fd rest hst) (by rw [hst]; rfl)
      (fun x hx => by rw [hst, Pending.mem_cons rfl hx]) hb
  | conFlush hst => exact h.conFlush hi hst
  | fork hlive _ hlt hdead => exact h.fork hi hlive hlt hdead
  | @exit p hlive => exact h.exit hok
  | exitClose hst hfd => exact h.closeNext hi hst hfd (hok _ _ hst)
  | exitEnd hst => exact h.exitEnd hst

theorem DevSystem.Kept.released (h : s.Kept fun _ => False) : s.Released := by
  have hslots : ∀ d, s.klass d ≠ .none →
      (∃ i < maxPid * maxFd, s.table.devices i = some d) ∨ ∃ p, d ∈ pendings (s.stack p) := by
    intro d hd
    refine ((h.slots d hd).resolve_left id).imp_left fun hrefs => ?_
    by_contra hno
    push Not at hno
    exact Nat.ne_of_gt hrefs (Counting.refs_eq_zero.2 hno)
  refine ⟨hslots, h.owned, fun hstack hcells => ?_⟩
  have hfree : ∀ d, s.klass d = .none := by
    intro d
    by_contra hd
    obtain ⟨i, hi, hcell⟩ | ⟨p, hp⟩ := hslots d hd
    · rw [hcells i hi] at hcell
      cases hcell
    · rw [hstack] at hp
      cases hp
  refine ⟨hfree, fun f => ?_⟩
  by_contra hf
  rw [Bool.not_eq_false] at hf
  obtain ⟨d, hd, -⟩ | ⟨d, hd, -⟩ | ⟨p, d, hm⟩ := h.owned f hf
  · exact hd (hfree d)
  · rw [hfree] at hd
    cases hd
  · rw [hstack] at hm
    cases hm

/-- In every run whose steps give back what they take, everything is given back. -/
theorem devices_released (h : Reach devSystem (fun s a => a.GivesBack s) s) : s.Released := by
  have hboth : s.Inv ∧ s.Kept fun _ => False :=
    Reach.invariant (M := devSystem) (I := fun s => s.Inv ∧ s.Kept fun _ => False)
      (fun h => ⟨h.inv, h.kept⟩)
      (fun h hok hs => ⟨DevStep.inv h.1 hok.pipesToUser hs, DevStep.kept h.2 h.1 hok hs⟩) h
  exact hboth.2.released

end

/-- Process 1 closes its console, and `con_flush` comes to its end. -/
def consoleClosed : DevSystem := (consoleOpened.close 1 0).conFlush 1 32 []

/-- The open takes slot 32 and frame 7, and the close gives both back. -/
theorem devices_released_console : consoleOpened.klass 32 = .console ∧
    consoleOpened.held 7 = true ∧ consoleClosed.Released ∧ consoleClosed.klass 32 = .none ∧
    consoleClosed.held 7 = false := by
  have hopen : DevLabel.GivesBack bootDevices (.open 1 .console ⟨true, true⟩ (some 7)) :=
    fun _ _ _ => ⟨0, by decide, rfl⟩
  have hcell : consoleOpened.fds 1 0 = some 32 := rfl
  have hclose : DevLabel.GivesBack consoleOpened (.close 1 0) := by
    intro d hd _
    obtain rfl : 32 = d := Option.some.inj (hcell.symm.trans hd)
    exact ⟨by decide, by decide⟩
  have hflush : DevLabel.GivesBack (consoleOpened.close 1 0) (.conFlush 1) := trivial
  have hreach : Reach devSystem (fun s a => a.GivesBack s) consoleClosed :=
    Reach.step (M := devSystem)
      (.step (M := devSystem) (consoleOpened_reach hopen) hclose (.close rfl rfl (by decide)))
      hflush (.conFlush rfl)
  exact ⟨rfl, rfl, devices_released hreach, rfl, rfl⟩

/-- Process 1 opens `/proc/cpuid` and closes it. -/
def cpuidClosed : DevSystem := (bootDevices.open 1 .procCpuid ⟨true, false⟩ none).close 1 0

theorem cpuidClosed_reach : Reach devSystem anyStep cpuidClosed :=
  have hopen : Reach devSystem anyStep (bootDevices.open 1 .procCpuid ⟨true, false⟩ none) :=
    Reach.step (M := devSystem) (.init bootDevices_initial) trivial
      (.open rfl (.inl rfl) fun _ h => by cases h)
  Reach.step (M := devSystem) hopen trivial (.close rfl rfl (by decide))

/-- The slot stays taken, though no descriptor refers to it. -/
theorem cpuid_lost : Reach devSystem anyStep cpuidClosed ∧ (∀ p, cpuidClosed.stack p = []) ∧
    cpuidClosed.klass 0 = .procCpuid ∧
    (∀ i < maxPid * maxFd, cpuidClosed.table.devices i ≠ some 0) ∧ ¬cpuidClosed.Released := by
  have hklass : cpuidClosed.klass 0 = .procCpuid := rfl
  have hcells : ∀ i < maxPid * maxFd, cpuidClosed.table.devices i = none := by
    intro i _
    have hdev : cpuidClosed.table.devices =
        Function.update (Function.update (fun _ => none) (cell 1 0) (some 0)) (cell 1 0) none := rfl
    rw [hdev, Function.update_idem]
    by_cases hi : i = cell 1 0
    · rw [hi, Function.update_self]
    · rw [Function.update_of_ne hi]
  refine ⟨cpuidClosed_reach, fun _ => rfl, hklass, fun i hi => by simp [hcells i hi], fun h => ?_⟩
  have hnone := (h.all (fun _ => rfl) hcells).1 0
  rw [hklass] at hnone
  cases hnone

end SpuriOS
