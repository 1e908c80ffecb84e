import SpuriOS.Device.Pools
import Mathlib.Data.List.Nodup

/-! # Reference counts

The number of references kept in an object is the number of cells of `devices` that point to it,
and a flush is called by the close that takes away the last of them. -/

namespace SpuriOS
open Transition

/-- What is said of a state. -/
structure DevSystem.Exact (s : DevSystem) : Prop where
  count : ∀ i < maxPid * maxFd, ∀ d, s.table.devices i = some d →
    (s.table.objects d).refcount = s.refs d
  freePid : ∀ p < maxPid, s.live p = false → ∀ fd < maxFd, s.fds p fd = none
  /-- The `kassert` of `close` holds, whoever closes what. -/
  noHalt : ∀ p, s.live p = true → ∀ fd < maxFd, ∃ r t, s.closeTable p fd = .ret r t
  /-- A close calls the flush of the object if and only if it takes away the last reference. -/
  flush : ∀ p, s.live p = true → ∀ fd < maxFd, ∀ d, s.fds p fd = some d →
    ∀ f, (s.table.objects d).flush = some f →
      (s.closeTable p fd).state.world = if s.refs d = 1 then [(f, d)] else []
  /-- No cell points to a console while `con_flush` is at work on it. -/
  flushing : ∀ p d, .conFlush d ∈ s.stack p → ∀ i < maxPid * maxFd, s.table.devices i ≠ some d

/-! ## The table -/

section
variable {s u : DevSystem} {p q d fd fd' n : Nat} {x : Pending} {l : List Pending}

theorem cell_inj (h : fd < maxFd) (h' : fd' < maxFd) (he : cell p fd = cell q fd') :
    p = q ∧ fd = fd' := by
  simp only [cell, maxFd] at *
  omega

theorem cell_lt (hp : p < maxPid) (h : fd < maxFd) : cell p fd < maxPid * maxFd := by
  simp only [cell, maxFd, maxPid] at *
  omega

theorem DevSystem.closeTable_none (hfd : fd < maxFd) (h : s.fds p fd = none) :
    ∃ t, s.closeTable p fd = .ret (-einvalid) t ∧ t.devices = s.table.devices ∧
      t.objects = s.table.objects ∧ t.world = [] := by
  have hrange : ¬((fd : Int) < 0 ∨ (fd : Int) > maxFd) := by omega
  rw [fds] at h
  simp only [closeTable, SpuriOS.close, if_neg hrange, DevTable.touch, Int.toNat_natCast, h]
  exact ⟨_, rfl, rfl, rfl, rfl⟩

theorem DevSystem.closeTable_some (hfd : fd < maxFd) (h : s.fds p fd = some d)
    (hn : (s.table.objects d).refcount = n + 1) :
    ∃ r t, s.closeTable p fd = .ret r t ∧
      t.devices = Function.update s.table.devices (cell p fd) none ∧
      t.objects = Function.update s.table.objects d
        { s.table.objects d with refcount := n } ∧
      t.world = if n = 0 then (s.table.objects d).flush.toList.map (·, d) else [] := by
  have hrange : ¬((fd : Int) < 0 ∨ (fd : Int) > maxFd) := by omega
  rw [fds] at h
  simp only [closeTable, SpuriOS.close, if_neg hrange, DevTable.touch, Int.toNat_natCast, h,
    DevTable.setCell, DevTable.setRefcount, Function.update_self, hn,
    Nat.add_sub_cancel]
  rcases n with _ | n
  · rcases hf : (s.table.objects d).flush with _ | f
    · exact ⟨_, _, rfl, rfl, rfl, rfl⟩
    · exact ⟨_, _, rfl, rfl, rfl, rfl⟩
  · exact ⟨_, _, rfl, rfl, rfl, rfl⟩

/-! ## The invariant -/

/-- The object a pending function holds. -/
def Pending.object : Pending → Option Nat
  | .ext2Open d _ | .conFlush d => some d
  | _ => none

/-- The objects that the pending functions of a process hold. -/
def pendings (l : List Pending) : List Nat := l.filterMap Pending.object

/-- The stack `l` fits the row `fds` of its process: a `run` finds a free descriptor to open its
file with, and the row is empty as far as `device_close_fds_for` has come, but for the file of a
`run` in between. -/
def Nested : (Nat → Option Nat) → List Pending → Prop
  | _, [] => True
  | fds, .ext2Open _ _ :: rest => (rest = [] ∨ ∃ l, rest = .run :: l) ∧ Nested fds rest
  | fds, .run :: rest => (∃ fd < maxFd, fds fd = none) ∧ Nested fds rest
  | fds, .runRead fd :: rest => fd < maxFd ∧ Nested (Function.update fds fd none) rest
  | fds, .conFlush _ :: rest => (∃ fd < maxFd, fds fd = none) ∧ Nested fds rest
  | fds, .exit i :: _ => i ≤ maxFd ∧ ∀ fd < i, fds fd = none

structure DevSystem.Inv (s : DevSystem) : Prop where
  lt : ∀ p, s.live p = true → p < maxPid
  row : ∀ p < maxPid, s.live p = false → ∀ fd < maxFd, s.fds p fd = none
  idle : ∀ p, s.live p = false → s.stack p = []
  serial : ∀ d, Pool.serialDevs.Mem d → s.klass d = .none ∧ (s.table.objects d).flush = none
  count : ∀ d, s.klass d ≠ .none ∨ Pool.serialDevs.Mem d →
    (s.table.objects d).refcount = s.refs d
  unref : ∀ d, s.klass d = .none → ¬Pool.serialDevs.Mem d → s.refs d = 0
  pending : ∀ p, ∀ d ∈ pendings (s.stack p), s.klass d ≠ .none ∧ s.refs d = 0
  nodup : ∀ p, (pendings (s.stack p)).Nodup
  apart : ∀ p q d, d ∈ pendings (s.stack p) → d ∈ pendings (s.stack q) → p = q
  nested : ∀ p, Nested (s.fds p) (s.stack p)

/-- A stack goes on fitting a row in which descriptors are freed. -/
theorem Nested.mono {fds fds' : Nat → Option Nat} {l : List Pending} (h : Nested fds l)
    (hle : ∀ fd < maxFd, fds fd = none → fds' fd = none) : Nested fds' l := by
  induction l generalizing fds fds' with
  | nil => trivial
  | cons x rest ih =>
    cases x with
    | ext2Open d stage => exact ⟨h.1, ih h.2 hle⟩
    | run | conFlush =>
      obtain ⟨⟨fd, hfd, hnone⟩, hrest⟩ := h
      exact ⟨⟨fd, hfd, hle fd hfd hnone⟩, ih hrest hle⟩
    | runRead fd =>
      refine ⟨h.1, ih h.2 fun fd' hfd' hnone => ?_⟩
      by_cases he : fd' = fd
      · rw [he, Function.update_self]
      · rw [Function.update_of_ne he] at hnone ⊢
        exact hle fd' hfd' hnone
    | exit i => exact ⟨h.1, fun fd hfd => hle fd (Nat.lt_of_lt_of_le hfd h.1) (h.2 fd hfd)⟩

theorem DevSystem.Initial.inv (h : s.Initial) : s.Inv := by
  have hrefs : ∀ d, s.refs d = 0 := fun d => Counting.refs_eq_zero.2 fun i hi => by
    rw [h.cells i hi]
    simp
  refine ⟨h.live, fun p hp _ fd hfd => h.cells _ (cell_lt hp hfd), fun p _ => h.stack p,
    fun d hd => ⟨h.klass d, (h.serial d hd).2⟩, fun d hd => ?_, fun d _ _ => hrefs d,
    fun p d hd => ?_, fun p => ?_, fun p q d hd => ?_, fun p => ?_⟩
  · rw [hrefs]
    exact (h.serial d (hd.resolve_left fun hk => hk (h.klass d))).1
  · rw [h.stack] at hd
    cases hd
  · rw [h.stack]
    exact List.nodup_nil
  · rw [h.stack] at hd
    cases hd
  · rw [h.stack]
    trivial

/-! ### What keeps it -/

namespace DevSystem

theorem fds_of_update {v : Option Nat}
    (h : u.table.devices = Function.update s.table.devices (cell p fd) v) :
    u.fds p = Function.update (s.fds p) fd v ∧
      ∀ q ≠ p, fd < maxFd → ∀ fd' < maxFd, u.fds q fd' = s.fds q fd' := by
  constructor
  · funext fd'
    rw [fds, h]
    by_cases he : fd' = fd
    · rw [he, Function.update_self, Function.update_self]
    · rw [Function.update_of_ne he, Function.update_of_ne (by simp only [cell]; omega), fds]
  · intro q hq hfd fd' hfd'
    rw [fds, h, Function.update_of_ne fun he => hq (cell_inj hfd' hfd he).1, fds]

theorem refs_of_update {v : Option Nat} (hp : p < maxPid) (hfd : fd < maxFd)
    (h : u.table.devices = Function.update s.table.devices (cell p fd) v) :
    u.refs d + (if s.fds p fd = some d then 1 else 0) =
      s.refs d + if v = some d then 1 else 0 := by
  rw [refs, h]
  exact Counting.refs_update (cell_lt hp hfd)

namespace Inv

theorem congr (h : s.Inv) (hdev : u.table.devices = s.table.devices)
    (hobj : ∀ e, u.klass e = s.klass e ∧
      (u.table.objects e).flush = (s.table.objects e).flush ∧
      (u.table.objects e).refcount = (s.table.objects e).refcount)
    (hlive : u.live = s.live) (hstack : u.stack = s.stack) : u.Inv := by
  have hfds : u.fds = s.fds := by
    funext p fd
    rw [fds, hdev, fds]
  have hrefs : u.refs = s.refs := by
    funext d
    rw [refs, hdev, refs]
  refine ⟨?_, ?_, ?_, fun e => ?_, fun e => ?_, fun e => ?_, fun p e => ?_, ?_, ?_, ?_⟩
  · rw [hlive]; exact h.lt
  · rw [hlive, hfds]; exact h.row
  · rw [hlive, hstack]; exact h.idle
  · rw [(hobj e).1, (hobj e).2.1]; exact h.serial e
  · rw [(hobj e).1, (hobj e).2.2, hrefs]; exact h.count e
  · rw [(hobj e).1, hrefs]; exact h.unref e
  · rw [(hobj e).1, hrefs, hstack]; exact h.pending p e
  · rw [hstack]; exact h.nodup
  · rw [hstack]; exact h.apart
  · rw [hfds, hstack]; exact h.nested

/-- Frames and the data of objects are not looked at. -/
theorem frames (h : s.Inv) (htable : u.table = s.table) (hlive : u.live = s.live)
    (hstack : u.stack = s.stack) : u.Inv :=
  h.congr (by rw [htable]) (fun e => by rw [klass, klass, htable]; exact ⟨rfl, rfl, rfl⟩) hlive
    hstack

/-- The stack of process `p` changes, and what is new on it holds nothing that is in use. -/
theorem setStack (h : s.Inv) (hlive : s.live p = true)
    (hmem : ∀ d ∈ pendings l, d ∈ pendings (s.stack p) ∨
      s.klass d ≠ .none ∧ s.refs d = 0 ∧ ∀ q, d ∉ pendings (s.stack q))
    (hnodup : (pendings l).Nodup) (hn : Nested (s.fds p) l) : (s.setStack p l).Inv := by
  have hold : ∀ q d, d ∈ pendings ((s.setStack p l).stack q) → d ∈ pendings (s.stack q) ∨
      s.klass d ≠ .none ∧ s.refs d = 0 ∧ q = p ∧ ∀ q, d ∉ pendings (s.stack q) := by
    intro q d hd
    by_cases hq : q = p
    · subst hq
      rw [setStack_self] at hd
      exact (hmem d hd).imp_right fun ⟨hk, hr, hnot⟩ => ⟨hk, hr, rfl, hnot⟩
    · rw [setStack_of_ne hq] at hd
      exact .inl hd
  refine ⟨h.lt, h.row, fun q hq => ?_, h.serial, h.count, h.unref, fun q d hd => ?_, fun q => ?_,
    fun q r d hq hr => ?_, fun q => ?_⟩
  · have hqp : q ≠ p := by
      rintro rfl
      rw [show s.live q = false from hq] at hlive
      cases hlive
    rw [setStack_of_ne hqp]
    exact h.idle q hq
  · obtain hd | ⟨hk, hr, -⟩ := hold q d hd
    · exact h.pending q d hd
    · exact ⟨hk, hr⟩
  · by_cases hq : q = p
    · rw [hq, setStack_self]
      exact hnodup
    · rw [setStack_of_ne hq]
      exact h.nodup q
  · obtain hq | ⟨-, -, hqp, hnot⟩ := hold q d hq <;> obtain hr | ⟨-, -, hrp, hnot'⟩ := hold r d hr
    · exact h.apart q r d hq hr
    · exact (hnot' q hq).elim
    · exact (hnot r hr).elim
    · rw [hqp, hrp]
  · by_cases hq : q = p
    · rw [hq, setStack_self]
      exact hn
    · rw [setStack_of_ne hq]
      exact h.nested q

/-- A pending function that holds nothing new, or one that ends. -/
theorem resume (h : s.Inv) (hlive : s.live p = true)
    (hsub : (pendings l).Sublist (pendings (s.stack p))) (hn : Nested (s.fds p) l) :
    (s.setStack p l).Inv :=
  h.setStack hlive (fun _ hd => .inl (hsub.subset hd)) ((h.nodup p).sublist hsub) hn

/-- A pending function of process `p` takes charge of an object. -/
theorem hold (h : s.Inv) (hlive : s.live p = true) (hx : x.object = some d)
    (hk : s.klass d ≠ .none) (hrefs : s.refs d = 0) (hnot : ∀ q, d ∉ pendings (s.stack q))
    (hn : Nested (s.fds p) (x :: s.stack p)) : (s.push p x).Inv := by
  have hp : pendings (x :: s.stack p) = d :: pendings (s.stack p) := by
    rw [pendings, List.filterMap_cons_some hx, pendings]
  refine h.setStack hlive (fun e he => ?_) ?_ hn
  · rw [hp, List.mem_cons] at he
    obtain rfl | he := he
    · exact .inr ⟨hk, hrefs, hnot⟩
    · exact .inl he
  · rw [hp]
    exact List.nodup_cons.2 ⟨hnot p, h.nodup p⟩

/-- A free slot is taken. -/
theorem take (h : s.Inv) (hk : s.klass d = .none) (hd : ¬Pool.serialDevs.Mem d)
    {o : Chardev DevFn} (ho : o.klass ≠ .none) (hr : o.refcount = 0) : (s.setObject d o).Inv := by
  have hobj : ∀ e, e ≠ d → (s.setObject d o).table.objects e = s.table.objects e := fun e he =>
    setObject_of_ne he
  have hself : (s.setObject d o).table.objects d = o := setObject_self
  have hrefs : ∀ e, (s.setObject d o).refs e = s.refs e := fun _ => rfl
  refine ⟨h.lt, h.row, h.idle, fun e he => ?_, fun e he => ?_, fun e he hs => ?_,
    fun q e he => ?_, h.nodup, h.apart, h.nested⟩
  · have hne : e ≠ d := fun hed => hd (hed ▸ he)
    rw [klass, hobj e hne]
    exact h.serial e he
  · rw [hrefs]
    by_cases hed : e = d
    · rw [hed, hself, hr, h.unref d hk hd]
    · rw [klass, hobj e hed] at he
      rw [hobj e hed]
      exact h.count e he
  · have hne : e ≠ d := by
      rintro rfl
      rw [klass, hself] at he
      exact ho he
    rw [klass, hobj e hne] at he
    exact h.unref e he hs
  · obtain ⟨hke, hre⟩ := h.pending q e he
    have hne : e ≠ d := fun hed => hke (hed ▸ hk)
    rw [klass, hobj e hne]
    exact ⟨hke, hre⟩

/-- A slot without references that nothing pending holds is given back. -/
theorem drop (h : s.Inv) (hrefs : s.refs d = 0) (hnot : ∀ q, d ∉ pendings (s.stack q)) :
    (s.setKlass d .none).Inv := by
  have hobj : ∀ e, e ≠ d → (s.setKlass d .none).table.objects e = s.table.objects e :=
    fun e he => setObject_of_ne he
  have hself : (s.setKlass d .none).table.objects d =
      { s.table.objects d with klass := .none } := setObject_self
  refine ⟨h.lt, h.row, h.idle, fun e he => ?_, fun e he => ?_, fun e he hs => ?_,
    fun q e he => ?_, h.nodup, h.apart, h.nested⟩
  · by_cases hed : e = d
    · rw [hed, klass, hself]
      exact ⟨rfl, (h.serial d (hed ▸ he)).2⟩
    · rw [klass, hobj e hed]
      exact h.serial e he
  · by_cases hed : e = d
    · rw [hed, klass, hself] at he
      rw [hed, hself]
      exact h.count d (.inr (he.resolve_left fun hk => hk rfl))
    · rw [klass, hobj e hed] at he
      rw [hobj e hed]
      exact h.count e he
  · by_cases hed : e = d
    · rw [hed]
      exact hrefs
    · rw [klass, hobj e hed] at he
      exact h.unref e he hs
  · have hne : e ≠ d := by
      rintro rfl
      exact hnot q he
    rw [klass, hobj e hne]
    exact h.pending q e he

/-- The cell of a descriptor of process `p` is overwritten, with the references counted. -/
theorem recell (h : s.Inv) (hlive : s.live p = true) (hfd : fd < maxFd) {v : Option Nat}
    (hdev : u.table.devices = Function.update s.table.devices (cell p fd) v)
    (hobj : ∀ e, u.klass e = s.klass e ∧
      (u.table.objects e).flush = (s.table.objects e).flush)
    (hcount : ∀ e, (u.table.objects e).refcount + (if s.fds p fd = some e then 1 else 0) =
      (s.table.objects e).refcount + if v = some e then 1 else 0)
    (hv : ∀ e, v = some e → (s.klass e ≠ .none ∨ Pool.serialDevs.Mem e) ∧
      ∀ q, e ∉ pendings (s.stack q))
    (hlive' : u.live = s.live) (hstack : u.stack = Function.update s.stack p l)
    (hl : pendings l = pendings (s.stack p)) (hn : Nested (Function.update (s.fds p) fd v) l) :
    u.Inv := by
  obtain ⟨hself, hother⟩ := fds_of_update hdev
  have hrefs := fun e => refs_of_update (d := e) (h.lt p hlive) hfd hdev
  have hpend : ∀ q, pendings (u.stack q) = pendings (s.stack q) := by
    intro q
    rw [hstack]
    by_cases hq : q = p
    · rw [hq, Function.update_self, hl]
    · rw [Function.update_of_ne hq]
  have hzero : ∀ e, s.refs e = 0 → v ≠ some e → u.refs e = 0 := by
    intro e he hve
    have := hrefs e
    rw [he, if_neg hve] at this
    omega
  have hne : ∀ q, s.live q = false → q ≠ p := by
    rintro q hq rfl
    rw [hlive] at hq
    cases hq
  refine ⟨?_, fun q hq hdead fd' hfd' => ?_, fun q hdead => ?_, fun e he => ?_, fun e he => ?_,
    fun e he hs => ?_, fun q e he => ?_, fun q => ?_, fun q r e hq hr => ?_, fun q => ?_⟩
  · rw [hlive']; exact h.lt
  · rw [hlive'] at hdead
    rw [hother q (hne q hdead) hfd fd' hfd']
    exact h.row q hq hdead fd' hfd'
  · rw [hlive'] at hdead
    rw [hstack, Function.update_of_ne (hne q hdead)]
    exact h.idle q hdead
  · rw [(hobj e).1, (hobj e).2]
    exact h.serial e he
  · rw [(hobj e).1] at he
    have := h.count e he
    have := hcount e
    have := hrefs e
    omega
  · rw [(hobj e).1] at he
    refine hzero e (h.unref e he hs) fun hve => ?_
    exact (hv e hve).1.elim (fun hk => hk he) hs
  · rw [hpend] at he
    obtain ⟨hk, hr⟩ := h.pending q e he
    rw [(hobj e).1]
    exact ⟨hk, hzero e hr fun hve => (hv e hve).2 q he⟩
  · rw [hpend]; exact h.nodup q
  · rw [hpend] at hq hr
    exact h.apart q r e hq hr
  · by_cases hq : q = p
    · rw [hq, hself, hstack, Function.update_self]
      exact hn
    · rw [hstack, Function.update_of_ne hq]
      exact (h.nested q).mono fun fd' hfd' hnone => by rw [hother q hq hfd fd' hfd', hnone]

end Inv

/-! ### Opens -/

/-- `device_descriptor` takes the first free descriptor, if there is one. -/
theorem deviceDescriptor_cases (s : DevSystem) (p d : Nat) :
    let r := deviceDescriptor d { s.table with curPid := p }
    (∃ fd < maxFd, s.fds p fd = none ∧ r.1 = fd ∧
      r.2.devices = Function.update s.table.devices (cell p fd) (some d) ∧
      r.2.objects = Function.update s.table.objects d
        { s.table.objects d with refcount := (s.table.objects d).refcount + 1 }) ∨
    ((∀ fd < maxFd, s.fds p fd ≠ none) ∧ r.1 = maxFd ∧ r.2.devices = s.table.devices ∧
      r.2.objects = s.table.objects) := by
  dsimp only
  rw [deviceDescriptor]
  dsimp only
  split
  next fd hfd =>
    refine .inl ⟨fd, List.mem_range.1 (List.mem_of_find?_eq_some hfd), ?_, rfl, rfl, rfl⟩
    rw [fds]
    simpa using List.find?_some hfd
  next hnone =>
    refine .inr ⟨fun fd hfd => ?_, rfl, rfl, rfl⟩
    rw [fds]
    simpa using List.find?_eq_none.1 hnone fd (List.mem_range.2 hfd)

/-- The ways in which a process comes to `open`: from user level, or in `run`. -/
def Opening (l : List Pending) : Prop := l = [] ∨ ∃ rest, l = .run :: rest

theorem return'_of_nil (h : s.stack p = []) (r : Int) : s.return' p r = s := by
  rw [return', h]

theorem return'_of_run (h : s.stack p = .run :: l) (r : Int) :
    s.return' p r = s.setStack p (if r < 0 then l else .runRead r.toNat :: l) := by
  rw [return', h]
  dsimp only
  split <;> rfl

namespace Inv

theorem failed (h : s.Inv) (hlive : s.live p = true) (hst : Opening (s.stack p)) :
    (s.opened p none).Inv := by
  rw [opened]
  obtain hnil | ⟨rest, hrun⟩ := hst
  · rw [return'_of_nil hnil]
    exact h
  · have hn := h.nested p
    rw [hrun] at hn
    rw [return'_of_run hrun, if_pos (by decide)]
    refine h.resume hlive ?_ hn.2
    rw [hrun]
    exact List.Sublist.refl _

/-- The object gets a descriptor of the process, or none is free. -/
theorem opened (h : s.Inv) (hlive : s.live p = true) (hst : Opening (s.stack p))
    (hd : s.klass d ≠ .none ∨ Pool.serialDevs.Mem d) (hnot : ∀ q, d ∉ pendings (s.stack q)) :
    (s.opened p (some d)).Inv := by
  have hcases := deviceDescriptor_cases s p d
  rw [DevSystem.opened]
  generalize deviceDescriptor d { s.table with curPid := p } = r at hcases
  dsimp only at hcases ⊢
  obtain ⟨fd, hfd, hnone, hr, hdev, hobj⟩ | ⟨hfull, hr, hdev, hobj⟩ := hcases
  · have hself : r.2.objects d =
        { s.table.objects d with refcount := (s.table.objects d).refcount + 1 } := by
      rw [hobj, Function.update_self]
    have hother : ∀ e, e ≠ d → r.2.objects e = s.table.objects e := fun e he => by
      rw [hobj, Function.update_of_ne he]
    -- the call counts whatever stack `l` the process goes on with
    have hrecell : ∀ l, pendings l = pendings (s.stack p) →
        Nested (Function.update (s.fds p) fd (some d)) l →
        ({ s with table := r.2 }.setStack p l).Inv := by
      intro l hl hn
      refine h.recell hlive hfd hdev (fun e => ?_) (fun e => ?_) (fun e he => ?_) rfl rfl hl hn
      · by_cases he : e = d
        · subst he
          rw [klass, setStack_table]
          dsimp only
          rw [hself]
          exact ⟨rfl, rfl⟩
        · rw [klass, setStack_table]
          dsimp only
          rw [hother e he]
          exact ⟨rfl, rfl⟩
      · rw [hnone, setStack_table]
        dsimp only
        by_cases he : e = d
        · subst he
          rw [hself, if_pos rfl]
          rfl
        · rw [hother e he, if_neg fun hde => he (Option.some.inj hde).symm]
          rfl
      · cases he
        exact ⟨hd, hnot⟩
    obtain hnil | ⟨rest, hrun⟩ := hst
    · rw [return'_of_nil (s := { s with table := r.2 }) hnil]
      have := hrecell [] (by rw [hnil]) trivial
      rwa [DevSystem.setStack, ← hnil, Function.update_eq_self] at this
    · have hn := h.nested p
      rw [hrun] at hn
      rw [return'_of_run (s := { s with table := r.2 }) hrun, if_neg (by omega), hr,
        Int.toNat_natCast]
      refine hrecell _ (by rw [hrun]; rfl) ⟨hfd, ?_⟩
      rw [Function.update_idem]
      exact hn.2.mono fun fd' _ hfd' => by
        by_cases he : fd' = fd
        · rw [he, Function.update_self]
        · rw [Function.update_of_ne he, hfd']
  · -- without a free descriptor the process is not in `run`
    obtain hnil | ⟨rest, hrun⟩ := hst
    · rw [return'_of_nil (s := { s with table := r.2 }) hnil]
      exact h.congr hdev (fun e => by rw [klass, hobj]; exact ⟨rfl, rfl, rfl⟩) rfl rfl
    · have hn := h.nested p
      rw [hrun] at hn
      obtain ⟨⟨fd, hfd, hnone⟩, -⟩ := hn
      exact (hfull fd hfd hnone).elim

theorem describe (h : s.Inv) (hlive : s.live p = true) (hst : s.stack p = [])
    (hd : s.klass d ≠ .none ∨ Pool.serialDevs.Mem d) (hnot : ∀ q, d ∉ pendings (s.stack q)) :
    (s.describe p d).Inv := by
  have heq : s.opened p (some d) = s.describe p d := return'_of_nil (s := s.describe p d) hst _
  exact heq ▸ h.opened hlive (.inl hst) hd hnot

/-- A free slot holds nothing up. -/
theorem not_pending (h : s.Inv) (hk : s.klass d = .none) (q : Pid) : d ∉ pendings (s.stack q) :=
  fun hd => (h.pending q d hd).1 hk

/-- The object of a new slot. -/
theorem fresh (h : s.Inv) (hk : s.klass d = .none) (hd : ¬Pool.serialDevs.Mem d)
    (hlive : s.live p = true) (hst : Opening (s.stack p)) {o : Chardev DevFn}
    (ho : o.klass ≠ .none) (hr : o.refcount = 0) : ((s.setObject d o).opened p (some d)).Inv :=
  (h.take hk hd ho hr).opened hlive hst (.inl (by rwa [klass, setObject_self]))
    (h.not_pending hk)

end Inv

theorem freeSlot_spec {P : Pool} (h : s.freeSlot P = some d) : P.Mem d ∧ s.klass d = .none := by
  have hmem := List.mem_range'_1.1 (List.mem_of_find?_eq_some h)
  exact ⟨hmem, by simpa using List.find?_some h⟩

theorem freeEnds_spec {inp out : Nat} {rest : List Nat} (h : s.freeEnds = inp :: out :: rest) :
    (Pool.endpoints.Mem inp ∧ s.klass inp = .none) ∧
      (Pool.endpoints.Mem out ∧ s.klass out = .none) ∧ inp ≠ out := by
  have hmem : ∀ d ∈ s.freeEnds, Pool.endpoints.Mem d ∧ s.klass d = .none := by
    intro d hd
    rw [freeEnds, List.mem_filter] at hd
    exact ⟨List.mem_range'_1.1 hd.1, by simpa using hd.2⟩
  have hnodup : s.freeEnds.Nodup := (List.nodup_range' ..).filter _
  rw [h] at hmem hnodup
  simp only [List.nodup_cons, List.mem_cons, not_or] at hnodup
  exact ⟨hmem inp (by simp), hmem out (by simp), hnodup.1.1⟩

/-- The arrays are apart. -/
theorem not_serial {P : Pool} (h : P.Mem d) (hP : P.base + P.size ≤ 40 ∨ 42 ≤ P.base) :
    ¬Pool.serialDevs.Mem d := by
  simp only [Pool.Mem, Pool.serialDevs] at *
  omega

namespace Inv

/-- The pointers to the functions that read and write are not looked at. -/
theorem rewire (h : s.Inv) {o : Chardev DevFn} (ho : o.klass = s.klass d ∧
    o.flush = (s.table.objects d).flush ∧ o.refcount = (s.table.objects d).refcount) :
    (s.setObject d o).Inv := by
  refine h.congr rfl (fun e => ?_) rfl rfl
  by_cases he : e = d
  · rw [he, klass, setObject_self]
    exact ho
  · rw [klass, setObject_of_ne he]
    exact ⟨rfl, rfl, rfl⟩

theorem serialOpen (h : s.Inv) (hlive : s.live p = true) (hst : Opening (s.stack p))
    (hd : Pool.serialDevs.Mem d) (flags : OpenFlags) :
    ((s.serialOpen d flags).2.opened p (s.serialOpen d flags).1).Inv := by
  have hk := (h.serial d hd).1
  rw [DevSystem.serialOpen, if_neg (by rw [hk]; simp)]
  dsimp only
  refine (h.rewire ?_).opened hlive hst (.inr hd) (h.not_pending hk)
  split <;> split <;> exact ⟨rfl, rfl, rfl⟩

theorem conOpen (h : s.Inv) (hlive : s.live p = true) (hst : Opening (s.stack p))
    (frame : Option Nat) : ((s.conOpen frame).2.opened p (s.conOpen frame).1).Inv := by
  rw [DevSystem.conOpen]
  split
  · exact h.failed hlive hst
  next d hd =>
    obtain ⟨hmem, hk⟩ := freeSlot_spec hd
    cases frame with
    | none => exact (h.frames (u := s.setData d _) rfl rfl rfl).failed hlive hst
    | some f =>
      have h' : ((s.setData d { s.data d with buffer := some f }).kalloc (some f)).Inv :=
        h.frames rfl rfl rfl
      exact h'.fresh hk (not_serial hmem (by decide)) hlive hst (by simp) rfl

theorem procCpuidOpen (h : s.Inv) (hlive : s.live p = true) (hst : Opening (s.stack p)) :
    (s.procCpuidOpen.2.opened p s.procCpuidOpen.1).Inv := by
  rw [DevSystem.procCpuidOpen]
  split
  · exact h.failed hlive hst
  next d hd =>
    obtain ⟨hmem, hk⟩ := freeSlot_spec hd
    exact h.fresh hk (not_serial hmem (by decide)) hlive hst (by simp) rfl

theorem ext2Open (h : s.Inv) (hlive : s.live p = true) (hst : Opening (s.stack p)) (found : Bool)
    (flags : OpenFlags) : (s.ext2Open p found flags).Inv := by
  rw [DevSystem.ext2Open]
  split
  · exact h.failed hlive hst
  split
  · exact h.failed hlive hst
  next d hd =>
    obtain ⟨hmem, hk⟩ := freeSlot_spec hd
    have hs := not_serial hmem (by decide)
    refine (h.take hk hs (by simp) rfl).hold (d := d) hlive rfl ?_ (h.unref d hk hs)
      (h.not_pending hk) ⟨hst, h.nested p⟩
    rw [klass, setObject_self]
    simp

theorem «open» (h : s.Inv) (hlive : s.live p = true) (hst : Opening (s.stack p)) (path : DevPath)
    (flags : OpenFlags) (frame : Option Nat) : (s.open p path flags frame).Inv := by
  rw [DevSystem.open.eq_def]
  dsimp only
  split
  · exact h.failed hlive hst
  cases path with
  | serial0 => exact h.serialOpen hlive hst (by decide) flags
  | serial1 => exact h.serialOpen hlive hst (by decide) flags
  | console => exact h.conOpen hlive hst frame
  | procCpuid => exact h.procCpuidOpen hlive hst
  | disk found => exact h.ext2Open hlive hst found flags
  | other => exact h.failed hlive hst

/-- A process with something pending is alive. -/
theorem live_of_stack (h : s.Inv) (hst : s.stack p = x :: l) : s.live p = true := by
  cases hlive : s.live p with
  | true => rfl
  | false =>
    rw [h.idle p hlive] at hst
    cases hst

/-- Once the function that holds an object has ended, nothing holds it. -/
theorem released (h : s.Inv) (hst : s.stack p = x :: l) (hx : x.object = some d) :
    (s.klass d ≠ .none ∧ s.refs d = 0) ∧ ∀ q, d ∉ pendings ((s.setStack p l).stack q) := by
  have hp : pendings (s.stack p) = d :: pendings l := by
    rw [hst, pendings, List.filterMap_cons_some hx, pendings]
  have hd : d ∈ pendings (s.stack p) := by
    rw [hp]
    exact List.mem_cons_self ..
  refine ⟨h.pending p d hd, fun q hq => ?_⟩
  by_cases hqp : q = p
  · have hnodup := h.nodup p
    rw [hp, List.nodup_cons] at hnodup
    rw [hqp, setStack_self] at hq
    exact hnodup.1 hq
  · rw [setStack_of_ne hqp] at hq
    exact hqp (h.apart q p d hq hd)

theorem pop (h : s.Inv) (hst : s.stack p = x :: l) (hn : Nested (s.fds p) l) :
    (s.setStack p l).Inv := by
  refine h.resume (h.live_of_stack hst) ?_ hn
  rw [hst, pendings, pendings]
  exact (List.sublist_cons_self x l).filterMap _

/-- The end of `ext2_open`. -/
theorem ext2Opened (h : s.Inv) {stage : Ext2Stage} (hst : s.stack p = .ext2Open d stage :: l) :
    ((s.setStack p l).opened p (some d)).Inv := by
  have hn := h.nested p
  rw [hst] at hn
  obtain ⟨⟨hk, -⟩, hnot⟩ := h.released hst rfl
  exact (h.pop hst hn.2).opened (h.live_of_stack hst) (by rw [setStack_self]; exact hn.1) (.inl hk)
    hnot

/-- `ext2_open` goes on to the next stage. -/
theorem ext2Stage (h : s.Inv) {stage stage' : Ext2Stage}
    (hst : s.stack p = .ext2Open d stage :: l) :
    (s.setStack p (.ext2Open d stage' :: l)).Inv := by
  have hn := h.nested p
  rw [hst] at hn
  refine h.resume (h.live_of_stack hst) ?_ hn
  rw [hst]
  exact List.Sublist.refl _

end Inv

theorem describe_klass (e : Nat) : (s.describe p d).klass e = s.klass e := by
  have hcases := deviceDescriptor_cases s p d
  rw [klass, describe]
  dsimp only at hcases ⊢
  obtain ⟨fd, -, -, -, -, hobj⟩ | ⟨-, -, -, hobj⟩ := hcases
  · rw [hobj]
    by_cases he : e = d
    · rw [he, Function.update_self]
      rfl
    · rw [Function.update_of_ne he]
      rfl
  · rw [hobj]
    rfl

namespace Inv

/-- A process begins to exit, wherever it is. -/
theorem exit (h : s.Inv) (hlive : s.live p = true) : (s.push p (.exit 0)).Inv :=
  h.resume hlive (List.Sublist.refl _) ⟨Nat.zero_le _, fun _ h => by cases h⟩

theorem pipeOpen (h : s.Inv) {inp out buffer : Nat} {rest : List Nat}
    (hends : s.freeEnds = inp :: out :: rest) : (s.pipeOpen inp out buffer).Inv ∧
      ∀ d, d = inp ∨ d = out → (s.pipeOpen inp out buffer).klass d ≠ .none := by
  obtain ⟨⟨hinp, hik⟩, ⟨hout, hok⟩, hne⟩ := freeEnds_spec hends
  have h1 : (s.kalloc (some buffer)).Inv := h.frames rfl rfl rfl
  have h2 := h1.take hik (not_serial hinp (by decide)) (o := initEndpoint (some .pipeRead) none)
    (by simp [initEndpoint]) rfl
  have h3 := h2.frames (u := ((s.kalloc (some buffer)).setObject inp
    (initEndpoint (some .pipeRead) none)).setData inp
      { s.data inp with buffer := some buffer, pair := out }) rfl rfl rfl
  have hok' : ((s.kalloc (some buffer)).setObject inp
      (initEndpoint (some .pipeRead) none)).klass out = .none := by
    rw [klass, setObject_of_ne hne.symm]
    exact hok
  have h4 := h3.take (d := out) hok' (not_serial hout (by decide))
    (o := initEndpoint none (some .pipeWrite)) (by simp [initEndpoint]) rfl
  refine ⟨h4.frames rfl rfl rfl, ?_⟩
  have hklass : ∀ d, (s.pipeOpen inp out buffer).klass d =
      (Function.update (Function.update s.table.objects inp (initEndpoint (some .pipeRead) none))
        out (initEndpoint none (some .pipeWrite)) d).klass := fun _ => rfl
  rintro d (rfl | rfl)
  · rw [hklass, Function.update_of_ne hne, Function.update_self]
    simp [initEndpoint]
  · rw [hklass, Function.update_self]
    simp [initEndpoint]

theorem pipe (h : s.Inv) (hlive : s.live p = true) (hst : s.stack p = []) (frame : Option Nat)
    (stores : Nat) : (s.pipe p .user frame stores).Inv := by
  rw [DevSystem.pipe.eq_def]
  split
  next inp out rest buffer hends =>
    obtain ⟨hinp, hout⟩ : s.klass inp = .none ∧ s.klass out = .none := by
      obtain ⟨hinp, hout, -⟩ := freeEnds_spec hends
      exact ⟨hinp.2, hout.2⟩
    obtain ⟨h1, hk⟩ : (s.pipeOpen inp out buffer).Inv ∧
        ∀ d, d = inp ∨ d = out → (s.pipeOpen inp out buffer).klass d ≠ .none := h.pipeOpen hends
    have h2 := h1.describe hlive hst (.inl (hk inp (.inl rfl))) (h.not_pending hinp)
    have h3 := h2.describe (d := out) hlive hst
      (.inl (by rw [describe_klass]; exact hk out (.inr rfl))) (h.not_pending hout)
    simp only [storeFd_user]
    split
    · exact h2.exit hlive
    · split
      · exact h3.exit hlive
      · exact h3
  · exact h

/-! ### Closes -/

/-- An object that a cell points to is counted. -/
theorem counted (h : s.Inv) (hlive : s.live p = true) (hfd : fd < maxFd)
    (hd : s.fds p fd = some d) : (s.klass d ≠ .none ∨ Pool.serialDevs.Mem d) ∧ 0 < s.refs d := by
  have hpos := Counting.refs_pos (cell_lt (h.lt p hlive) hfd) hd
  refine ⟨?_, hpos⟩
  by_contra hno
  rw [not_or, Decidable.not_not] at hno
  exact Nat.ne_of_gt hpos (h.unref d hno.1 hno.2)

/-- The flush of an object that nothing refers to any more. -/
theorem flush (h : s.Inv) (hlive : s.live p = true) (hk : s.klass d ≠ .none)
    (hrefs : s.refs d = 0) (hnot : ∀ q, d ∉ pendings (s.stack q)) (hfd : fd < maxFd)
    (hnone : s.fds p fd = none) (f : DevFn) : (s.flush p f d).Inv := by
  cases f with
  | conFlush => exact h.hold hlive rfl hk hrefs hnot ⟨⟨fd, hfd, hnone⟩, h.nested p⟩
  | ext2FileFlush =>
    have h' := h.drop hrefs hnot
    rw [DevSystem.flush]
    cases (s.data d).buffer with
    | none => exact h'
    | some f => exact h'.frames rfl rfl rfl
  | pipeFlush =>
    have h' := h.drop hrefs hnot
    rw [DevSystem.flush, DevSystem.pipeFlush]
    split
    · cases ((s.setKlass d .none).data d).buffer with
      | none => exact h'
      | some f => exact h'.frames rfl rfl rfl
    · exact h'
  | procCpuidRead | conRead | conWrite | serialRead | serialWrite | ext2FileRead | ext2FileSeek
  | pipeRead | pipeWrite => exact h

/-- A close by a process that goes on with the stack `l`. -/
theorem close (h : s.Inv) (hlive : s.live p = true) (hfd : fd < maxFd)
    (hl : pendings l = pendings (s.stack p)) (hn : Nested (Function.update (s.fds p) fd none) l) :
    ((s.setStack p l).close p fd).Inv := by
  have htable : (s.setStack p l).closeTable p fd = s.closeTable p fd := rfl
  rw [DevSystem.close, htable]
  cases hcell : s.fds p fd with
  | none =>
    obtain ⟨t, ht, hdev, hobj, hworld⟩ := closeTable_none hfd hcell
    rw [ht, Outcome.state_ret, hworld, List.foldl_nil]
    have h' : (s.setStack p l).Inv := by
      refine h.resume hlive (by rw [hl]) ?_
      rwa [← hcell, Function.update_eq_self] at hn
    exact h'.congr hdev (fun e => by rw [klass, klass, hobj]; exact ⟨rfl, rfl, rfl⟩) rfl rfl
  | some d =>
    obtain ⟨hd, hpos⟩ := h.counted hlive hfd hcell
    have hcount := h.count d hd
    obtain ⟨n, hn'⟩ : ∃ n, (s.table.objects d).refcount = n + 1 := ⟨s.refs d - 1, by omega⟩
    obtain ⟨r, t, ht, hdev, hobj, hworld⟩ := closeTable_some hfd hcell hn'
    rw [ht, Outcome.state_ret, hworld]
    have hself : t.objects d = { s.table.objects d with refcount := n } := by
      rw [hobj, Function.update_self]
    have hother : ∀ e, e ≠ d → t.objects e = s.table.objects e := fun e he => by
      rw [hobj, Function.update_of_ne he]
    have hklass : ∀ e, (t.objects e).klass = s.klass e ∧
        (t.objects e).flush = (s.table.objects e).flush := by
      intro e
      by_cases he : e = d
      · rw [he, hself]; exact ⟨rfl, rfl⟩
      · rw [hother e he]; exact ⟨rfl, rfl⟩
    have h' : DevSystem.Inv { s.setStack p l with table := t } := by
      refine h.recell hlive hfd hdev hklass (fun e => ?_) (fun e he => by cases he) rfl rfl hl hn
      dsimp only
      rw [hcell]
      by_cases he : e = d
      · rw [he, hself, if_pos rfl, hn']
        rfl
      · rw [hother e he, if_neg fun hde => he (Option.some.inj hde).symm]
        rfl
    split
    next hzero =>
      -- the last reference is gone
      cases hf : (s.table.objects d).flush with
      | none => exact h'
      | some f =>
        have hk : s.klass d ≠ .none := by
          refine hd.resolve_right fun hserial => ?_
          rw [(h.serial d hserial).2] at hf
          cases hf
        have hrefs := refs_of_update (d := d) (h.lt p hlive) hfd
          (u := { s.setStack p l with table := t }) hdev
        rw [hcell, if_pos rfl, if_neg (by simp)] at hrefs
        refine h'.flush (d := d) hlive ?_ (by omega) (fun q hq => ?_) hfd ?_ f
        · rw [klass]
          dsimp only
          rw [(hklass d).1]
          exact hk
        · have hq' : d ∈ pendings (s.stack q) := by
            by_cases hqp : q = p
            · rw [hqp, ← hl]
              rw [hqp] at hq
              dsimp only at hq
              rwa [setStack_self] at hq
            · dsimp only at hq
              rwa [setStack_of_ne hqp] at hq
          have := (h.pending q d hq').2
          omega
        · rw [(fds_of_update (u := { s.setStack p l with table := t }) hdev).1,
            Function.update_self]
    · exact h'

/-- The end of `con_flush`. -/
theorem conFlush (h : s.Inv) (hst : s.stack p = .conFlush d :: l) : (s.conFlush p d l).Inv := by
  have hn := h.nested p
  rw [hst] at hn
  obtain ⟨⟨-, hrefs⟩, hnot⟩ := h.released hst rfl
  have h' := (h.pop hst hn.2).drop (d := d) hrefs hnot
  rw [DevSystem.conFlush]
  cases (s.data d).buffer with
  | none => exact h'.frames rfl rfl rfl
  | some f => exact h'.frames rfl rfl rfl

theorem closeNext (h : s.Inv) (hst : s.stack p = .exit fd :: l) (hfd : fd < maxFd) :
    (s.closeNext p fd l).Inv := by
  have hlive := h.live_of_stack hst
  have hn := h.nested p
  rw [hst] at hn
  have hpend : pendings (.exit (fd + 1) :: l) = pendings (s.stack p) := by
    rw [hst]
    rfl
  have hswept : ∀ fds' : Nat → Option Nat, (∀ fd' < fd, s.fds p fd' = none → fds' fd' = none) →
      fds' fd = none → Nested fds' (.exit (fd + 1) :: l) := by
    intro fds' hle hnone
    refine ⟨hfd, fun fd' hfd' => ?_⟩
    obtain hlt | rfl := Nat.lt_succ_iff_lt_or_eq.1 hfd'
    · exact hle fd' hlt (hn.2 fd' hlt)
    · exact hnone
  rw [DevSystem.closeNext]
  split
  · refine h.close hlive hfd hpend (hswept _ (fun fd' hfd' hnone => ?_) (Function.update_self ..))
    rw [Function.update_of_ne (by omega), hnone]
  next hnone =>
    exact h.resume hlive (by rw [hpend]) (hswept _ (fun _ _ h => h) hnone)

/-! ### New processes and old ones -/

theorem spawn (h : s.Inv) {child : Pid} (hlt : child < maxPid) :
    DevSystem.Inv { s with live := Function.update s.live child true } := by
  have hdead : ∀ q, Function.update s.live child true q = false → s.live q = false := by
    intro q hq
    by_cases he : q = child
    · rw [he, Function.update_self] at hq
      cases hq
    · rwa [Function.update_of_ne he] at hq
  refine ⟨fun q hq => ?_, fun q hq hd => h.row q hq (hdead q hd), fun q hd => h.idle q (hdead q hd),
    h.serial, h.count, h.unref, h.pending, h.nodup, h.apart, h.nested⟩
  by_cases he : q = child
  · exact he ▸ hlt
  · dsimp only at hq
    rw [Function.update_of_ne he] at hq
    exact h.lt q hq

/-- A process with nothing pending and no descriptor is gone. -/
theorem kill (h : s.Inv) (hst : s.stack p = []) (hrow : ∀ fd < maxFd, s.fds p fd = none) :
    DevSystem.Inv { s with live := Function.update s.live p false } := by
  have hlive : ∀ q, Function.update s.live p false q = true → s.live q = true := by
    intro q hq
    by_cases he : q = p
    · rw [he, Function.update_self] at hq
      cases hq
    · rwa [Function.update_of_ne he] at hq
  refine ⟨fun q hq => h.lt q (hlive q hq), fun q hq hd => ?_, fun q hd => ?_, h.serial, h.count,
    h.unref, h.pending, h.nodup, h.apart, h.nested⟩
  · by_cases he : q = p
    · rw [he]
      exact hrow
    · dsimp only at hd
      rw [Function.update_of_ne he] at hd
      exact h.row q hq hd
  · by_cases he : q = p
    · rw [he]
      exact hst
    · dsimp only at hd
      rw [Function.update_of_ne he] at hd
      exact h.idle q hd

theorem exitEnd (h : s.Inv) (hst : s.stack p = .exit maxFd :: l) :
    DevSystem.Inv { s.setStack p [] with live := Function.update s.live p false } := by
  have hn := h.nested p
  rw [hst] at hn
  have h' := h.resume (l := []) (h.live_of_stack hst) (List.nil_sublist _) trivial
  exact h'.kill setStack_self hn.2

end Inv

/-- The table `t` after `k` rounds of `device_copy_fds`. -/
structure Copied (p child k : Nat) (t₀ t : DevTable DevFn (List (DevFn × Nat))) : Prop where
  cells : ∀ i, t.devices i = t₀.devices i ∨
    ∃ fd < k, i = cell child fd ∧ t.devices i = t₀.devices (cell p fd)
  kept : ∀ q ≠ child, ∀ fd < maxFd, t.devices (cell q fd) = t₀.devices (cell q fd)
  todo : ∀ fd < maxFd, k ≤ fd → t.devices (cell child fd) = none
  objects : ∀ e, (t.objects e).klass = (t₀.objects e).klass ∧
    (t.objects e).flush = (t₀.objects e).flush
  count : ∀ e, (t.objects e).refcount + Counting.refs t₀.devices (maxPid * maxFd) e =
    (t₀.objects e).refcount + Counting.refs t.devices (maxPid * maxFd) e

theorem Copied.next {child k : Nat} {t₀ t : DevTable DevFn (List (DevFn × Nat))}
    (h : Copied p child k t₀ t) (hne : p ≠ child) (hlt : child < maxPid) (hk : k < maxFd) :
    Copied p child (k + 1) t₀ (copyFd p child k t) := by
  have hsource := h.kept p hne k hk
  have hdev : (copyFd p child k t).devices =
      Function.update t.devices (cell child k) (t₀.devices (cell p k)) := by
    rw [copyFd, hsource]
    split <;> rfl
  have hobj : ∀ e, ((copyFd p child k t).objects e).klass = (t.objects e).klass ∧
      ((copyFd p child k t).objects e).flush = (t.objects e).flush ∧
      ((copyFd p child k t).objects e).refcount =
        (t.objects e).refcount + if t₀.devices (cell p k) = some e then 1 else 0 := by
    intro e
    rw [copyFd, hsource]
    dsimp only [DevTable.setCell]
    rw [Function.update_self]
    split
    next d hd =>
      rw [hd, DevTable.setRefcount]
      dsimp only
      by_cases he : e = d
      · rw [he, Function.update_self, if_pos rfl]
        exact ⟨rfl, rfl, rfl⟩
      · rw [Function.update_of_ne he, if_neg fun hde => he (Option.some.inj hde).symm]
        exact ⟨rfl, rfl, rfl⟩
    next hnone =>
      rw [hnone, if_neg (by simp)]
      exact ⟨rfl, rfl, rfl⟩
  refine ⟨fun i => ?_, fun q hq fd hfd => ?_, fun fd hfd hle => ?_, fun e => ?_, fun e => ?_⟩
  · rw [hdev]
    by_cases hi : i = cell child k
    · rw [hi, Function.update_self]
      exact .inr ⟨k, Nat.lt_succ_self k, rfl, rfl⟩
    · rw [Function.update_of_ne hi]
      refine (h.cells i).imp_right ?_
      rintro ⟨fd, hfd, heq⟩
      exact ⟨fd, Nat.lt_succ_of_lt hfd, heq⟩
  · rw [hdev, Function.update_of_ne fun he => hq (cell_inj hfd hk he).1]
    exact h.kept q hq fd hfd
  · rw [hdev, Function.update_of_ne (by simp only [cell]; omega)]
    exact h.todo fd hfd (by omega)
  · rw [(hobj e).1, (hobj e).2.1]
    exact h.objects e
  · have hcount := h.count e
    have hupdate := Counting.refs_update (f := t.devices) (v := t₀.devices (cell p k)) (a := e)
      (cell_lt hlt hk)
    rw [h.todo k hk (Nat.le_refl k), if_neg (by simp), ← hdev] at hupdate
    rw [(hobj e).2.2]
    omega

theorem deviceCopyFds_copied {child : Nat} {t₀ : DevTable DevFn (List (DevFn × Nat))}
    (hne : p ≠ child) (hlt : child < maxPid)
    (hrow : ∀ fd < maxFd, t₀.devices (cell child fd) = none) :
    Copied p child maxFd t₀ (deviceCopyFds p child t₀) := by
  have hloop : ∀ k ≤ maxFd,
      Copied p child k t₀ ((List.range k).foldl (fun t fd => copyFd p child fd t) t₀) := by
    intro k
    induction k with
    | zero =>
      intro _
      exact ⟨fun _ => .inl rfl, fun _ _ _ _ => rfl, fun fd hfd _ => hrow fd hfd,
        fun _ => ⟨rfl, rfl⟩, fun _ => rfl⟩
    | succ k ih =>
      intro hk
      rw [List.range_succ, List.foldl_append]
      exact (ih (by omega)).next hne hlt hk
  exact hloop maxFd (Nat.le_refl _)

namespace Inv

theorem fork (h : s.Inv) {child : Pid} (hlive : s.live p = true) (hlt : child < maxPid)
    (hdead : s.live child = false) : (s.fork p child).Inv := by
  have hne : p ≠ child := by
    rintro rfl
    rw [hlive] at hdead
    cases hdead
  have hc := deviceCopyFds_copied hne hlt (h.row child hlt hdead)
  have h' := h.spawn hlt
  have hzero : ∀ e, s.refs e = 0 → (s.fork p child).refs e = 0 := by
    intro e he
    rw [refs, Counting.refs_eq_zero] at he ⊢
    intro i hi
    obtain heq | ⟨fd, hfd, -, heq⟩ := hc.cells i
    · exact fun h => he i hi (heq ▸ h)
    · exact fun h => he _ (cell_lt (h'.lt p (by simp [Function.update, hne, hlive])) hfd) (heq ▸ h)
  have hklass : ∀ e, (s.fork p child).klass e = s.klass e := fun e => (hc.objects e).1
  refine ⟨h'.lt, fun q hq hd fd hfd => ?_, h'.idle, fun e he => ?_, fun e he => ?_,
    fun e he hs => ?_, fun q e he => ?_, h.nodup, h.apart, fun q => ?_⟩
  · have hqc : q ≠ child := by
      rintro rfl
      rw [show (s.fork p q).live q = true from Function.update_self ..] at hd
      cases hd
    rw [fds, DevSystem.fork, hc.kept q hqc fd hfd]
    exact h'.row q hq hd fd hfd
  · rw [hklass]
    exact ⟨(h.serial e he).1, (hc.objects e).2.trans (h.serial e he).2⟩
  · rw [hklass] at he
    have hcount := hc.count e
    have hold := h.count e he
    rw [refs] at hold ⊢
    rw [DevSystem.fork]
    dsimp only
    omega
  · rw [hklass] at he
    exact hzero e (h.unref e he hs)
  · rw [hklass]
    exact ⟨(h.pending q e he).1, hzero e (h.pending q e he).2⟩
  · by_cases hqc : q = child
    · rw [hqc, show (s.fork p child).stack child = [] from h.idle child hdead]
      trivial
    · refine (h.nested q).mono fun fd hfd hnone => ?_
      rw [fds, DevSystem.fork, hc.kept q hqc fd hfd]
      exact hnone

end Inv

end DevSystem

/-! ## Runs -/

/-- `read`, `write` and `seek` change nothing of the table. -/
theorem dispatch_table {slot : Chardev DevFn → Option DevFn}
    {eff : DevFn → Nat → List (DevFn × Nat) → List (DevFn × Nat) × Int} (fd : Int)
    (t : DevTable DevFn (List (DevFn × Nat))) :
    (dispatch slot eff fd t).state.devices = t.devices ∧
      (dispatch slot eff fd t).state.objects = t.objects := by
  rw [dispatch]
  split
  · exact ⟨rfl, rfl⟩
  dsimp only
  split
  · exact ⟨rfl, rfl⟩
  · split <;> exact ⟨rfl, rfl⟩

theorem DevSystem.Inv.use (h : s.Inv) {c : FdSyscall} (hc : c ≠ .close) : DevSystem.Inv
    { s with table := (c.run flushCalls fd { s.table with curPid := p }).state } := by
  have htable : (c.run flushCalls fd { s.table with curPid := p }).state.devices =
      s.table.devices ∧
      (c.run flushCalls fd { s.table with curPid := p }).state.objects = s.table.objects := by
    cases c with
    | close => exact (hc rfl).elim
    | read | write | seek => exact dispatch_table _ _
  exact h.congr htable.1 (fun e => by rw [klass, klass, htable.2]; exact ⟨rfl, rfl, rfl⟩) rfl rfl

/-- The array that a call of `pipe` passes is in user memory. -/
def DevLabel.PipesToUser : DevLabel → Prop
  | .pipe _ array _ _ => array = .user
  | _ => True

theorem DevStep.inv {a : DevLabel} (h : s.Inv) (hok : a.PipesToUser) (hs : DevStep s a u) :
    u.Inv := by
  cases hs with
  | «open» hlive hst _ => exact h.open hlive hst _ _ _
  | @ext2Inode p d rest blocks frame hst _ =>
    have h' : (s.setStack p (.ext2Open d .blocks :: rest)).Inv := h.ext2Stage hst
    rw [DevSystem.ext2Inode]
    split
    · cases frame with
      | none => exact h'.frames rfl rfl rfl
      | some f => exact h'.frames rfl rfl rfl
    · exact h'.frames rfl rfl rfl
  | @ext2Buffer p d rest frame dir hst _ _ =>
    have hframe : DevSystem.Inv ((s.kalloc frame).setData d { s.data d with buffer := frame }) ∧
        ((s.kalloc frame).setData d { s.data d with buffer := frame }).stack p =
          .ext2Open d .blocks :: rest := by
      cases frame with
      | none => exact ⟨h.frames rfl rfl rfl, hst⟩
      | some f => exact ⟨h.frames rfl rfl rfl, hst⟩
    have hdata : (s.kalloc frame).data d = s.data d := by cases frame <;> rfl
    rw [DevSystem.ext2Buffer.eq_def]
    cases dir with
    | none => exact hdata ▸ hframe.1.ext2Opened hframe.2
    | some tmpPage =>
      have h' : (((s.kalloc frame).setData d { s.data d with buffer := frame }).setStack p
          (.ext2Open d (.dir tmpPage) :: rest)).Inv := hframe.1.ext2Stage hframe.2
      rw [← hdata] at h'
      cases tmpPage with
      | none => exact h'.frames rfl rfl rfl
      | some f => exact h'.frames rfl rfl rfl
  | @ext2Dir p d rest tmpPage hst =>
    have hfree : (s.free tmpPage).Inv ∧
        (s.free tmpPage).stack p = .ext2Open d (.dir tmpPage) :: rest := by
      cases tmpPage with
      | none => exact ⟨h, hst⟩
      | some f => exact ⟨h.frames rfl rfl rfl, hst⟩
    exact hfree.1.ext2Opened hfree.2
  | pipe hlive hst _ _ =>
    obtain rfl := hok
    exact h.pipe hlive hst _ _
  | pipeKernel _ _ => cases hok
  | use _ _ _ hc => exact h.use hc
  | @close p fd hlive hst hfd =>
    have h' := h.close (l := []) hlive hfd (by rw [hst]) trivial
    rwa [DevSystem.setStack, ← hst, Function.update_eq_self] at h'
  | @screenSaver p d rest hst =>
    have hn := h.nested p
    refine h.resume (h.live_of_stack hst) (List.Sublist.refl _) ⟨?_, hn⟩
    rw [hst] at hn
    exact hn.1
  | runLoad _ hlt _ => exact h.spawn hlt
  | @runClose p fd rest hst =>
    have hn := h.nested p
    rw [hst] at hn
    exact h.close (h.live_of_stack hst) hn.1 (by rw [hst]; rfl) hn.2
  | conFlush hst => exact h.conFlush hst
  | fork hlive _ hlt hdead => exact h.fork hlive hlt hdead
  | exit hlive => exact h.exit hlive
  | exitClose hst hfd => exact h.closeNext hst hfd
  | exitEnd hst => exact h.exitEnd hst

theorem DevSystem.Inv.exact (h : s.Inv) : s.Exact where
  count i hi d hd := by
    refine h.count d ?_
    by_contra hno
    rw [not_or, Decidable.not_not] at hno
    exact Nat.ne_of_gt (Counting.refs_pos hi hd) (h.unref d hno.1 hno.2)
  freePid := h.row
  noHalt p hlive fd hfd := by
    cases hcell : s.fds p fd with
    | none =>
      obtain ⟨t, ht, -⟩ := closeTable_none hfd hcell
      exact ⟨_, t, ht⟩
    | some d =>
      obtain ⟨hd, hpos⟩ := h.counted hlive hfd hcell
      have hcount := h.count d hd
      obtain ⟨r, t, ht, -⟩ := closeTable_some (n := s.refs d - 1) hfd hcell (by omega)
      exact ⟨r, t, ht⟩
  flush p hlive fd hfd d hcell f hf := by
    obtain ⟨hd, hpos⟩ := h.counted hlive hfd hcell
    have hcount := h.count d hd
    obtain ⟨r, t, ht, -, -, hworld⟩ := closeTable_some (n := s.refs d - 1) hfd hcell (by omega)
    rw [ht, Outcome.state_ret, hworld, hf]
    by_cases hlast : s.refs d = 1
    · rw [if_pos hlast, if_pos (by omega)]
      rfl
    · rw [if_neg hlast, if_neg (by omega)]
  flushing p d hp i hi := by
    have hmem : d ∈ pendings (s.stack p) := List.mem_filterMap.2 ⟨_, hp, rfl⟩
    exact Counting.refs_eq_zero.1 (h.pending p d hmem).2 i hi

/-- In every run whose pipes are stored in user memory the counts are exact, and flushes are
called by the closes of last descriptors. -/
theorem refcounts_exact (h : Reach devSystem (fun _ a => a.PipesToUser) s) : s.Exact :=
  (Reach.invariant (M := devSystem) (I := DevSystem.Inv) DevSystem.Initial.inv
    (fun h hok hs => DevStep.inv h hok hs) h).exact

end

/-- After `device_init`, with one process. -/
def bootDevices : DevSystem where
  table :=
    { curPid := 1
      devices := fun _ => none
      objects := fun _ => { klass := .none, refcount := 0, flush := none, read := none
                            write := none, seek := none }
      world := []
      log := [] }
  data _ := { buffer := none, blockList := none, pair := 0 }
  held _ := false
  live p := p = 1
  stack _ := []

theorem bootDevices_initial : bootDevices.Initial :=
  ⟨fun _ _ => rfl, fun _ => rfl, fun _ _ => ⟨rfl, rfl⟩, fun _ => rfl, fun _ => rfl,
    fun p hp => by rw [of_decide_eq_true hp]; decide, fun _ => rfl⟩

/-- Process 1 opens a console. -/
def consoleOpened : DevSystem := bootDevices.open 1 .console ⟨true, true⟩ (some 7)

/-- Process 1 opens a console and forks. -/
def consoleShared : DevSystem := consoleOpened.fork 1 2

section
variable {ok : DevSystem → DevLabel → Prop}

theorem consoleOpened_reach (hopen : ok bootDevices (.open 1 .console ⟨true, true⟩ (some 7))) :
    Reach devSystem ok consoleOpened :=
  Reach.step (M := devSystem) (.init bootDevices_initial) hopen
    (.open rfl (.inl rfl) fun _ _ => rfl)

theorem consoleShared_reach (hopen : ok bootDevices (.open 1 .console ⟨true, true⟩ (some 7)))
    (hfork : ok consoleOpened (.fork 1 2)) : Reach devSystem ok consoleShared :=
  Reach.step (M := devSystem) (consoleOpened_reach hopen) hfork (.fork rfl rfl (by decide) rfl)

end

/-- Process 1 closes the console that its child has too. -/
theorem refcounts_exact_console : (consoleShared.close 1 0).Exact ∧
    (consoleShared.table.objects 32).refcount = 2 ∧
    ((consoleShared.close 1 0).table.objects 32).refcount = 1 ∧
    (consoleShared.close 1 0).fds 2 0 = some 32 :=
  have hok : (DevLabel.close 1 0).PipesToUser := trivial
  ⟨refcounts_exact (Reach.step (M := devSystem) (consoleShared_reach trivial trivial) hok
    (.close rfl rfl (by decide))), rfl, rfl, rfl⟩

/-- With the console shared, process 1 calls `pipe` with the address of the row of its child. -/
def rowOverwritten : DevSystem := consoleShared.pipe 1 (.table (cell 2 0)) (some 8) 2

/-- The console has a count of two, and one cell that points to it. -/
theorem pipe_overwrites : Reach devSystem anyStep rowOverwritten ∧
    rowOverwritten.fds 1 0 = some 32 ∧ (rowOverwritten.table.objects 32).refcount = 2 ∧
    rowOverwritten.refs 32 = 1 ∧ ¬rowOverwritten.Exact := by
  have hreach : Reach devSystem anyStep rowOverwritten :=
    Reach.step (M := devSystem) (consoleShared_reach trivial trivial) trivial
      (.pipe rfl rfl (fun _ h => by cases h; rfl) (by simp))
  have hcell : rowOverwritten.fds 1 0 = some 32 := rfl
  have hcount : (rowOverwritten.table.objects 32).refcount = 2 := rfl
  have hrefs : rowOverwritten.refs 32 = 1 := by decide +kernel
  refine ⟨hreach, hcell, hcount, hrefs, fun h => ?_⟩
  have := h.count (cell 1 0) (by decide) 32 hcell
  omega

end SpuriOS
