import SpuriOS.Lib.Memory
import SpuriOS.Lib.Transition
import SpuriOS.Sched

/-! # Processes and where they wait (`kernel/loader.c`)

The part of the loader that moves processes between the scheduler, the wait queues, which are
linked through `processes[].prev` and `processes[].next`, and the list of sleepers. `Q` are the
variables that hold the head of a wait queue. `FREE_PCB_PID` and `FREE_QUEUE` are `none`. What
`loader_load` and `loader_exit` do to memory is left to the modules on paging.

A loop over links is given as many rounds as there are processes; one that needs more does not
end, and counts as halted like a false `kassert`. -/

namespace SpuriOS

structure Pcb where
  id : Option Pid
  prev : Option Pid
  next : Option Pid

structure SleptTask where
  id : Option Pid
  time : Nat
  next : Option Pid

/-- What a flush function called by `device_close_fds_for` does to processes: `pipe_flush` wakes
those in a queue, and `run_screen_saver` waits for the disk and loads. -/
inductive FlushOp (Q : Type) where
  | unqueue (q : Q)
  | load
  | enqueue (q : Q)

/-- A call of `sched_block` or `sched_exit`: the process it is made for, the one whose slot is
`actual`, and `running_tasks`. -/
structure SchedCall where
  pid : Pid
  node : Option Pid
  running : Nat

structure Kernel (Q : Type) where
  processes : Pid → Pcb
  curPid : Pid
  sched : Sched
  sleeping : Pid → SleptTask
  firstSlept : Option Pid
  queue : Q → Option Pid
  /-- The processes that wait inside of `loader_exit`, with what is left of their flush functions
  and their `local_tmp_pid`. -/
  exiting : Pid → Option (List (FlushOp Q) × Pid)
  halted : Bool
  /-- All calls of `sched_block` and `sched_exit` so far. -/
  schedCalls : List SchedCall
  /-- The arguments of all calls of `sched_load` and `sched_unblock` so far. -/
  schedLoads : List Pid

def Outcome.andThen {σ : Type} (o : Outcome σ) (f : σ → Outcome σ) : Outcome σ :=
  match o with
  | .halt s => .halt s
  | .ret _ s => f s

@[simp] theorem Outcome.andThen_ret {σ : Type} {f : σ → Outcome σ} {v : Int} {s : σ} :
    (Outcome.ret v s).andThen f = f s := rfl

section
variable {Q : Type} [DecidableEq Q]

namespace Kernel

def modifyPcb (k : Kernel Q) (p : Pid) (f : Pcb → Pcb) : Kernel Q :=
  { k with processes := Function.update k.processes p (f (k.processes p)) }

def modifySlept (k : Kernel Q) (p : Pid) (f : SleptTask → SleptTask) : Kernel Q :=
  { k with sleeping := Function.update k.sleeping p (f (k.sleeping p)) }

def setQueue (k : Kernel Q) (q : Q) (head : Option Pid) : Kernel Q :=
  { k with queue := Function.update k.queue q head }

/-- `sched_load(p)`, which `sched_unblock(p)` is too. -/
def schedLoad (k : Kernel Q) (p : Pid) : Outcome (Kernel Q) :=
  let k := { k with schedLoads := k.schedLoads ++ [p] }
  match SpuriOS.schedLoad p k.sched with
  | none => .halt k
  | some sched => .ret 0 { k with sched }

/-- `sched_exit()`, which `sched_block()` is too. -/
def schedExit (k : Kernel Q) : Outcome (Kernel Q) :=
  let call : SchedCall :=
    { pid := k.curPid
      node := k.sched.actual.bind fun actual => (k.sched.tasks actual).pd
      running := k.sched.runningTasks }
  let k := { k with schedCalls := k.schedCalls ++ [call] }
  match SpuriOS.schedExit k.sched with
  | none => .halt k
  | some (pd, sched) => .ret pd { k with sched }

def taskSwitch (k : Kernel Q) (tmpPid : Pid) : Kernel Q := { k with curPid := tmpPid }

/-- `tmp_pid = sched_block(); task_switch();`. -/
def block (k : Kernel Q) : Outcome (Kernel Q) :=
  match k.schedExit with
  | .halt k => .halt k
  | .ret tmpPid k => .ret 0 (k.taskSwitch tmpPid.toNat)

end Kernel

/-- `get_new_pid`. -/
def getNewPid (k : Kernel Q) : Option Pid :=
  (List.range maxPid).find? fun p => (k.processes p).id = none

def loaderLoad (k : Kernel Q) : Outcome (Kernel Q) :=
  match getNewPid k with
  | none => .halt k
  | some pid =>
    let k := k.modifyPcb pid fun _ => { id := some pid, prev := none, next := none }
    k.schedLoad pid

/-- The last process of the queue that `p` is in. -/
def queueTail (k : Kernel Q) : Nat → Pid → Option Pid
  | 0, _ => none
  | fuel + 1, p =>
    match (k.processes p).next with
    | none => some p
    | some next => queueTail k fuel next

/-- The part of `loader_enqueue` that links the current process into the queue. -/
def linkInto (q : Q) (k : Kernel Q) : Option (Kernel Q) :=
  match k.queue q with
  | none => some (k.setQueue q (some k.curPid))
  | some head => do
    let tail ← queueTail k maxPid head
    let k := k.modifyPcb tail fun t => { t with next := some k.curPid }
    some (k.modifyPcb k.curPid fun t => { t with prev := some tail })

def loaderEnqueue (q : Q) (k : Kernel Q) : Outcome (Kernel Q) :=
  if (k.processes k.curPid).prev ≠ none then .halt k
  else if (k.processes k.curPid).next ≠ none then .halt k
  else
    match linkInto q k with
    | none => .halt k
    | some k => k.block

def loaderUnqueue (q : Q) (k : Kernel Q) : Outcome (Kernel Q) :=
  match k.queue q with
  | none => .ret 0 k
  | some head =>
    match (k.processes head).next with
    | some next =>
      let k := k.modifyPcb next fun t => { t with prev := none }
      let k := k.modifyPcb head fun t => { t with next := none }
      (k.schedLoad head).andThen fun k => .ret 0 (k.setQueue q (some next))
    | none => (k.schedLoad head).andThen fun k => .ret 0 (k.setQueue q none)

/-- The loop of `loader_sleep`: what is left of `time`, `prev_slept` and `tmp_slept`. -/
def sleepPosition (k : Kernel Q) :
    Nat → Nat → Option Pid → Option Pid → Option (Nat × Option Pid × Option Pid)
  | 0, _, _, _ => none
  | _ + 1, time, prevSlept, none => some (time, prevSlept, none)
  | fuel + 1, time, prevSlept, some tmpSlept =>
    if (k.sleeping tmpSlept).time < time then
      sleepPosition k fuel (time - (k.sleeping tmpSlept).time) (some tmpSlept)
        (k.sleeping tmpSlept).next
    else some (time, prevSlept, some tmpSlept)

/-- The part of `loader_sleep` that puts the current process among the sleepers. -/
def insertSleeper (time : Nat) (k : Kernel Q) : Option (Kernel Q) :=
  let cur := k.curPid
  match k.firstSlept with
  | none =>
    let k := { k with firstSlept := some cur }
    some (k.modifySlept cur fun _ => { id := some cur, time, next := none })
  | some _ => do
    let (time, prevSlept, tmpSlept) ← sleepPosition k (maxPid + 1) time none k.firstSlept
    match prevSlept, tmpSlept with
    | none, none => none
    | some prev, none =>
      let k := k.modifySlept prev fun t => { t with next := some cur }
      some (k.modifySlept cur fun _ => { id := some cur, time, next := none })
    | prevSlept, some tmp =>
      let k := match prevSlept with
        | none => { k with firstSlept := some cur }
        | some prev => k.modifySlept prev fun t => { t with next := some cur }
      let k := k.modifySlept cur fun _ => { id := some cur, time, next := some tmp }
      some (k.modifySlept tmp fun t => { t with time := Word32.sub t.time time })

def loaderSleep (time : Nat) (k : Kernel Q) : Outcome (Kernel Q) :=
  if time ≤ 0 then .ret 0 k
  else
    match insertSleeper time k with
    | none => .halt k
    | some k => k.block

/-- The loop of `loader_tick`. -/
def wakeSleepers : Nat → Kernel Q → Outcome (Kernel Q)
  | 0, k => .halt k
  | fuel + 1, k =>
    match k.firstSlept with
    | none => .ret 0 k
    | some first =>
      if (k.sleeping first).time = 0 then
        (k.schedLoad first).andThen fun k =>
          let k := k.modifySlept first fun t => { t with id := none }
          wakeSleepers fuel { k with firstSlept := (k.sleeping first).next }
      else .ret 0 k

def loaderTick (k : Kernel Q) : Outcome (Kernel Q) :=
  match k.firstSlept with
  | none => .ret 0 k
  | some first =>
    wakeSleepers (maxPid + 1)
      (k.modifySlept first fun t => { t with time := Word32.sub t.time 1 })

/-- `sched_tick` and the switch to the process it names, in `timer_handler`. -/
def timerSwitch (k : Kernel Q) : Outcome (Kernel Q) :=
  match schedTick k.sched with
  | none => .halt k
  | some (pd, sched) => .ret 0 ({ k with sched }.taskSwitch pd)

/-- The end of `loader_exit`, from `device_close_fds_for` on. -/
def finishExit (localTmpPid : Pid) (k : Kernel Q) : Kernel Q :=
  let cur := k.curPid
  let task := k.processes cur
  let k := match task.prev, task.next with
    | none, none => k
    | none, some next => k.modifyPcb next fun t => { t with prev := none }
    | some prev, some next =>
      let k := k.modifyPcb next fun t => { t with prev := some prev }
      k.modifyPcb prev fun t => { t with next := task.next }
    | some prev, none => k.modifyPcb prev fun t => { t with next := none }
  let k := k.modifyPcb cur fun t => { t with id := none }
  k.taskSwitch localTmpPid

/-- `loader_exit` from its `sched_exit` on. A flush function that waits leaves the rest of the call
on the stack of the process. -/
def closeFds (localTmpPid : Pid) : List (FlushOp Q) → Kernel Q → Outcome (Kernel Q)
  | [], k => .ret 0 (finishExit localTmpPid k)
  | .unqueue q :: ops, k => (loaderUnqueue q k).andThen (closeFds localTmpPid ops)
  | .load :: ops, k => (loaderLoad k).andThen (closeFds localTmpPid ops)
  | .enqueue q :: ops, k =>
    loaderEnqueue q
      { k with exiting := Function.update k.exiting k.curPid (some (ops, localTmpPid)) }

def loaderExit (ops : List (FlushOp Q)) (k : Kernel Q) : Outcome (Kernel Q) :=
  match k.schedExit with
  | .halt k => .halt k
  | .ret localTmpPid k => closeFds localTmpPid.toNat ops k

/-! ## Runs -/

inductive KernelLabel (Q : Type) where
  | load
  | enqueue (q : Q)
  | unqueue (q : Q)
  | sleep (time : Nat)
  | tick
  | timerSwitch
  | exit (ops : List (FlushOp Q))
  | resume

/-- The state a function leaves behind. -/
def Kernel.after : Outcome (Kernel Q) → Kernel Q
  | .halt k => { k with halted := true }
  | .ret _ k => k

/-- The idle process makes no calls, and a process inside of `loader_exit` goes on with it. -/
def Kernel.calls (k : Kernel Q) : Prop := k.curPid ≠ idlePid ∧ k.exiting k.curPid = none

inductive KernelStep : Kernel Q → KernelLabel Q → Kernel Q → Prop
  | load {k : Kernel Q} : k.halted = false → k.exiting k.curPid = none →
    KernelStep k .load (.after (loaderLoad k))
  | enqueue {k : Kernel Q} {q} : k.halted = false → k.calls →
    KernelStep k (.enqueue q) (.after (loaderEnqueue q k))
  | unqueue {k : Kernel Q} {q} : k.halted = false →
    KernelStep k (.unqueue q) (.after (loaderUnqueue q k))
  | sleep {k : Kernel Q} {time} : k.halted = false → k.calls → time < 2 ^ 32 →
    KernelStep k (.sleep time) (.after (loaderSleep time k))
  | tick {k : Kernel Q} : k.halted = false → KernelStep k .tick (.after (loaderTick k))
  | timerSwitch {k : Kernel Q} : k.halted = false →
    KernelStep k .timerSwitch (.after (timerSwitch k))
  | exit {k : Kernel Q} {ops} : k.halted = false → k.calls →
    KernelStep k (.exit ops) (.after (loaderExit ops k))
  | resume {k : Kernel Q} {ops localTmpPid} : k.halted = false →
    k.exiting k.curPid = some (ops, localTmpPid) →
    KernelStep k .resume (.after (closeFds localTmpPid ops
      { k with exiting := Function.update k.exiting k.curPid none }))

/-- After `loader_init` and `sched_init`. The links of the idle process are not set. -/
structure Kernel.Initial (k : Kernel Q) : Prop where
  idle : k.processes idlePid = { id := some idlePid, prev := some 0, next := some 0 }
  free : ∀ p ≠ idlePid, (k.processes p).id = none
  cur : k.curPid = idlePid
  tasks : ∀ i, (k.sched.tasks i).pd = none
  actual : k.sched.actual = none
  first : k.sched.first = none
  last : k.sched.last = none
  running : k.sched.runningTasks = 0
  firstSlept : k.firstSlept = none
  queue : ∀ q, k.queue q = none
  exiting : ∀ p, k.exiting p = none
  halted : k.halted = false
  schedCalls : k.schedCalls = []
  schedLoads : k.schedLoads = []

def kernelSystem (Q : Type) [DecidableEq Q] : Transition.System (Kernel Q) (KernelLabel Q) where
  init := Kernel.Initial
  step := KernelStep

end

end SpuriOS
