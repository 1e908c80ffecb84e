import SpuriOS.Common
import Mathlib.Logic.Function.Basic
import Mathlib.Tactic.Common

/-! # Descriptor tables (`kernel/device.c`)

`devices[MAX_PID][MAX_FD]` is laid out row by row, so the model is the memory that starts at
`&devices[0][0]`, one pointer per word: `devices[pid][fd]` is word `pid * MAX_FD + fd`, whatever
`fd` is, and words from `MAX_PID * MAX_FD` on are what the linker put after the table. A device
object is named by a number. The function pointers of an object are values of a type `Fn`, and
`Drivers` says what calling one does to the rest of the kernel (`World`).

Every access a syscall makes to a cell or to an object is recorded in the ghost field `log`. -/

namespace SpuriOS

/-- `struct str_chardev`. -/
structure Chardev (Fn : Type) where
  klass : Klass
  refcount : Nat
  flush : Option Fn
  read : Option Fn
  write : Option Fn
  seek : Option Fn

inductive Access (Fn : Type) where
  | readCell (i : Nat)
  | writeCell (i : Nat)
  | readObj (d : Nat)
  | writeObj (d : Nat)
  /-- The call of the function pointer `f` found in object `d`, with `d` as `this`. -/
  | call (f : Fn) (d : Nat)

structure DevTable (Fn World : Type) where
  curPid : Nat
  devices : Nat → Option Nat
  objects : Nat → Chardev Fn
  world : World
  log : List (Access Fn)

/-- What an indirect call through a function pointer does. -/
structure Drivers (Fn World : Type) where
  flush : Fn → Nat → World → World × Int
  read : Fn → Nat → (buf size : Nat) → World → World × Int
  write : Fn → Nat → (buf size : Nat) → World → World × Int
  seek : Fn → Nat → (pos : Nat) → World → World × Int

/-- The word that holds `devices[pid][fd]`. -/
def cell (pid fd : Nat) : Nat := pid * maxFd + fd

namespace DevTable
variable {Fn World : Type}

def touch (s : DevTable Fn World) (a : Access Fn) : DevTable Fn World :=
  { s with log := s.log ++ [a] }

def setCell (s : DevTable Fn World) (i : Nat) (d : Option Nat) : DevTable Fn World :=
  { s with devices := Function.update s.devices i d }

def setRefcount (s : DevTable Fn World) (d n : Nat) : DevTable Fn World :=
  { s with objects := Function.update s.objects d { s.objects d with refcount := n } }

/-- `dev->f(dev, …)`. -/
def call (s : DevTable Fn World) (f : Fn) (d : Nat) (eff : World → World × Int) :
    Outcome (DevTable Fn World) :=
  let r := eff s.world
  .ret r.2 { s.touch (.call f d) with world := r.1 }

end DevTable

section
variable {Fn World : Type}

def close (drv : Drivers Fn World) (fd : Int) (s : DevTable Fn World) :
    Outcome (DevTable Fn World) :=
  if fd < 0 ∨ fd > maxFd then .ret (-einvalid) s
  else
    let i := cell s.curPid fd.toNat
    let s := s.touch (.readCell i)
    match s.devices i with
    | none => .ret (-einvalid) s
    | some d =>
      let s := s.touch (.readObj d)
      -- kassert(dev->refcount > 0)
      if (s.objects d).refcount = 0 then .halt s
      else
        let s := (s.setRefcount d ((s.objects d).refcount - 1)).touch (.writeObj d)
        let s := (s.setCell i none).touch (.writeCell i)
        match (s.objects d).refcount, (s.objects d).flush with
        | 0, some f => s.call f d (drv.flush f d)
        | _, _ => .ret 0 s

/-- The common body of `read`, `write` and `seek`: they differ in the function pointer that is
tested and in the arguments handed to it. -/
def dispatch (slot : Chardev Fn → Option Fn) (eff : Fn → Nat → World → World × Int)
    (fd : Int) (s : DevTable Fn World) : Outcome (DevTable Fn World) :=
  if fd < 0 ∨ fd > maxFd then .ret (-einvalid) s
  else
    let i := cell s.curPid fd.toNat
    let s := s.touch (.readCell i)
    match s.devices i with
    | none => .ret (-einvalid) s
    | some d =>
      let s := s.touch (.readObj d)
      match slot (s.objects d) with
      | some f => s.call f d (eff f d)
      | none => .ret (-enofunc) s

def read (drv : Drivers Fn World) (fd : Int) (buf size : Nat) :
    DevTable Fn World → Outcome (DevTable Fn World) :=
  dispatch (·.read) (fun f d => drv.read f d buf size) fd

def write (drv : Drivers Fn World) (fd : Int) (buf size : Nat) :
    DevTable Fn World → Outcome (DevTable Fn World) :=
  dispatch (·.write) (fun f d => drv.write f d buf size) fd

def seek (drv : Drivers Fn World) (fd : Int) (size : Nat) :
    DevTable Fn World → Outcome (DevTable Fn World) :=
  dispatch (·.seek) (fun f d => drv.seek f d size) fd

/-- The four syscalls that take a descriptor, with their other arguments. -/
inductive FdSyscall where
  | close
  | read (buf size : Nat)
  | write (buf size : Nat)
  | seek (size : Nat)

def FdSyscall.run (drv : Drivers Fn World) (fd : Int) :
    FdSyscall → DevTable Fn World → Outcome (DevTable Fn World)
  | .close => SpuriOS.close drv fd
  | .read buf size => SpuriOS.read drv fd buf size
  | .write buf size => SpuriOS.write drv fd buf size
  | .seek size => SpuriOS.seek drv fd size

/-! ## Isolation -/

/-- Word `i` is one of `devices[pid][0 .. MAX_FD-1]`. -/
def OwnCell (pid i : Nat) : Prop := ∃ fd < maxFd, i = cell pid fd

/-- Object `d` is pointed to from the row of the caller. -/
def OwnObj (s : DevTable Fn World) (d : Nat) : Prop :=
  ∃ i, OwnCell s.curPid i ∧ s.devices i = some d

/-- An access that stays within the row of the caller and the objects it points to. A function
pointer is own when it is a field of such an object. -/
def Access.Own (s : DevTable Fn World) : Access Fn → Prop
  | .readCell i | .writeCell i => OwnCell s.curPid i
  | .readObj d | .writeObj d => OwnObj s d
  | .call f d => OwnObj s d ∧ f ∈ (s.objects d).flush.toList ++ (s.objects d).read.toList ++
      (s.objects d).write.toList ++ (s.objects d).seek.toList

/-- The syscall `c` on descriptor `fd` keeps the caller to its own row. -/
structure Isolated (drv : Drivers Fn World) (c : FdSyscall) (fd : Int)
    (s : DevTable Fn World) : Prop where
  /-- A descriptor in range: what is consulted and modified is the caller's own. -/
  own : 0 ≤ fd → fd < maxFd → ∀ a ∈ (c.run drv fd { s with log := [] }).state.log, a.Own s
  otherCells : ∀ i, ¬OwnCell s.curPid i →
    (c.run drv fd { s with log := [] }).state.devices i = s.devices i
  otherObjs : ∀ d, ¬OwnObj s d →
    (c.run drv fd { s with log := [] }).state.objects d = s.objects d
  /-- Any other value: a negative error, nothing looked at and nothing changed. -/
  error : ¬(0 ≤ fd ∧ fd < maxFd) →
    ∃ e < 0, c.run drv fd { s with log := [] } = .ret e { s with log := [] }

theorem ownCell_cell {pid fd : Nat} (h : fd < maxFd) : OwnCell pid (cell pid fd) := ⟨fd, h, rfl⟩

theorem not_ownCell_maxFd (pid : Nat) : ¬OwnCell pid (cell pid maxFd) := by
  rintro ⟨fd, hfd, h⟩
  simp only [cell] at h
  omega

/-- A syscall that may touch cell `i`, the object `d` it points to, and nothing else of the
table. -/
structure Confined (s : DevTable Fn World) (i : Nat) (o : Outcome (DevTable Fn World)) : Prop where
  accesses : ∀ a ∈ o.state.log, match a with
    | .readCell j | .writeCell j => j = i
    | .readObj d | .writeObj d => s.devices i = some d
    | .call f d => s.devices i = some d ∧ f ∈ (s.objects d).flush.toList ++
        (s.objects d).read.toList ++ (s.objects d).write.toList ++ (s.objects d).seek.toList
  cells : ∀ j, j ≠ i → o.state.devices j = s.devices j
  objs : ∀ d, s.devices i ≠ some d → o.state.objects d = s.objects d

variable {drv : Drivers Fn World} {c : FdSyscall} {fd : Int} {s : DevTable Fn World}

/-- The bounds check common to the four syscalls. -/
theorem run_out_of_range (h : fd < 0 ∨ fd > maxFd) :
    c.run drv fd s = .ret (-einvalid) s := by
  cases c <;> simp [FdSyscall.run, close, read, write, seek, dispatch, h]

theorem close_confined (h : ¬(fd < 0 ∨ fd > maxFd)) (hlog : s.log = []) :
    Confined s (cell s.curPid fd.toNat) (close drv fd s) := by
  rw [close, if_neg h]
  cases hd : s.devices (cell s.curPid fd.toNat) with
  | none => constructor <;> simp [DevTable.touch, hd, hlog]
  | some d =>
    by_cases hr : (s.objects d).refcount = 0
    · constructor <;> simp [DevTable.touch, hd, hlog, hr]
    -- the count after the decrement and the flush pointer decide between the last two returns
    have hne : ∀ d', d ≠ d' → d' ≠ d := fun _ h => h.symm
    rcases hn : (s.objects d).refcount - 1 with _ | n <;> rcases hf : (s.objects d).flush with _ | f
    all_goals
      constructor <;>
        simp +contextual [DevTable.touch, DevTable.setCell, DevTable.setRefcount, DevTable.call,
          hd, hlog, hr, hn, hf, hne]

theorem dispatch_confined {slot : Chardev Fn → Option Fn}
    {eff : Fn → Nat → World → World × Int} (h : ¬(fd < 0 ∨ fd > maxFd)) (hlog : s.log = [])
    (hslot : ∀ (d : Nat) (f : Fn), slot (s.objects d) = some f → f ∈ (s.objects d).flush.toList ++
      (s.objects d).read.toList ++ (s.objects d).write.toList ++ (s.objects d).seek.toList) :
    Confined s (cell s.curPid fd.toNat) (dispatch slot eff fd s) := by
  rw [dispatch, if_neg h]
  cases hd : s.devices (cell s.curPid fd.toNat) with
  | none => constructor <;> simp [DevTable.touch, hd, hlog]
  | some d =>
    cases hf : slot (s.objects d) with
    | none => constructor <;> simp [DevTable.touch, hd, hlog, hf]
    | some f =>
      have hmem := hslot d f hf
      constructor
      · simpa [DevTable.touch, DevTable.call, hd, hlog, hf] using hmem
      · simp [DevTable.touch, DevTable.call, hd, hf]
      · simp [DevTable.touch, DevTable.call, hd, hf]

theorem run_confined (h : ¬(fd < 0 ∨ fd > maxFd)) (hlog : s.log = []) :
    Confined s (cell s.curPid fd.toNat) (c.run drv fd s) := by
  cases c with
  | close => exact close_confined h hlog
  | read buf size => exact dispatch_confined h hlog (by simp +contextual)
  | write buf size => exact dispatch_confined h hlog (by simp +contextual)
  | seek size => exact dispatch_confined h hlog (by simp +contextual)

/-- Every syscall that passes the bounds check looks at `devices[pid][fd]`. -/
theorem readCell_mem_log (h : ¬(fd < 0 ∨ fd > maxFd)) (hlog : s.log = []) :
    Access.readCell (cell s.curPid fd.toNat) ∈ (c.run drv fd s).state.log := by
  have hdispatch : ∀ slot (eff : Fn → Nat → World → World × Int),
      Access.readCell (cell s.curPid fd.toNat) ∈ (dispatch slot eff fd s).state.log := by
    intro slot eff
    simp only [dispatch, if_neg h, DevTable.touch, hlog]
    split
    · simp
    · split <;> simp [DevTable.call, DevTable.touch]
  cases c with
  | close =>
    simp only [FdSyscall.run, close, if_neg h, DevTable.touch, hlog]
    split
    · simp
    · split
      · simp
      · split <;> simp [DevTable.call, DevTable.touch, DevTable.setCell, DevTable.setRefcount]
  | read buf size => exact hdispatch _ _
  | write buf size => exact hdispatch _ _
  | seek size => exact hdispatch _ _

/-- The bounds check lets `fd = MAX_FD` through, one cell past the row; every other descriptor
is confined to the row or refused. -/
theorem fdSyscall_isolated_iff (drv : Drivers Fn World) (c : FdSyscall) (fd : Int)
    (s : DevTable Fn World) : Isolated drv c fd s ↔ fd ≠ maxFd := by
  constructor
  · rintro H rfl
    obtain ⟨e, _, he⟩ := H.error (by omega)
    have hmem : _ ∈ (c.run drv maxFd { s with log := [] }).state.log :=
      readCell_mem_log (by simp [maxFd]) rfl
    rw [he] at hmem
    simp at hmem
  · intro hne
    by_cases hr : fd < 0 ∨ fd > maxFd
    · have hrun : c.run drv fd { s with log := [] } = .ret (-einvalid) { s with log := [] } :=
        run_out_of_range hr
      refine ⟨fun h0 h1 => by omega, fun i _ => by rw [hrun]; rfl, fun d _ => by rw [hrun]; rfl,
        fun _ => ⟨-einvalid, by decide, hrun⟩⟩
    · have hlt : fd.toNat < maxFd := by omega
      have H : Confined _ _ (c.run drv fd { s with log := [] }) := run_confined hr rfl
      have hown : OwnCell s.curPid (cell s.curPid fd.toNat) := ownCell_cell hlt
      refine ⟨fun _ _ a ha => ?_, fun i hi => H.cells i ?_, fun d hd => H.objs d ?_,
        fun h => by omega⟩
      · have ha := H.accesses a ha
        cases a with
        | readCell j | writeCell j => exact ha ▸ hown
        | readObj d | writeObj d => exact ⟨_, hown, ha⟩
        | call f d => exact ⟨⟨_, hown, ha.1⟩, ha.2⟩
      · rintro rfl; exact hi hown
      · intro hp; exact hd ⟨_, hown, hp⟩

/-- Process 1 runs; descriptor 0 of process 2 points to object 0, which has one reference. -/
def neighbours : DevTable Unit Unit where
  curPid := 1
  devices i := if i = cell 2 0 then some 0 else none
  objects _ := { klass := .pipe, refcount := 1, flush := none, read := none, write := none,
                 seek := none }
  world := ()
  log := []

def idleDrivers : Drivers Unit Unit where
  flush _ _ w := (w, 0)
  read _ _ _ _ w := (w, 0)
  write _ _ _ _ w := (w, 0)
  seek _ _ _ w := (w, 0)

/-- `close(32)` by process 1 succeeds and empties descriptor 0 of process 2. -/
theorem close_next_row : ¬Isolated idleDrivers .close 32 neighbours ∧
    neighbours.devices (cell 2 0) = some 0 ∧
    (close idleDrivers 32 neighbours).state.devices (cell 2 0) = none ∧
    ¬OwnCell neighbours.curPid (cell 2 0) := by
  refine ⟨fun H => ?_, rfl, rfl, not_ownCell_maxFd 1⟩
  obtain ⟨e, _, he⟩ := H.error (by decide)
  have hcell : (none : Option Nat) = some 0 := congrArg (fun o => o.state.devices (cell 2 0)) he
  cases hcell

end

end SpuriOS
