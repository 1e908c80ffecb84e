import SpuriOS.Mm.Stack
import SpuriOS.Sched

/-! # Traps and task switches (`kernel/taskswitch.asm`, `kernel/interrup.asm`, `kernel/loader.c`)

The processor with the stack of the kernel that the current page directory maps. An instruction is
a function on the machine, and a routine runs its instructions in order. What compiled code does
between them is a parameter: it may change the registers and what lies below the stack pointer. -/

namespace SpuriOS

def ssKCode : Nat := 0x8
def ssKData : Nat := 0x10

/-- `PL_KERNEL`. -/
def plKernel : Nat := 0

def taskDefaultEflags : Nat := 0x202

/-- `K_STACK_TOP`. -/
def kStackTop : Nat := 0xff800000

/-- `U_STACK_BOTTOM`. -/
def uStackBottom : Nat := taskUStackAddress + 1024 * 4

def freePcbPid : Nat := 0xFFFFFFFF

/-! ## Fields of a packed `pcb_t`, as `taskswitch.asm` has them -/

def pcbSz : Nat := 28
def pcbIdOff : Nat := 0
def pcbPlOff : Nat := 4
def pcbCr3Off : Nat := 8
def pcbEspOff : Nat := 12

/-- The addresses that are called or returned to. -/
structure Labels where
  goBack : Nat
  taskInit : Nat
  /-- Behind the call of `isr_handler` or `irq_handler`. -/
  afterHandler : Nat
  goBack_ne : goBack ≠ taskInit

structure Machine where
  cpu : Context
  ds : Nat
  es : Nat
  cr3 : Nat
  /-- The word that a page directory has at an address. -/
  mem : Nat → Nat → Nat
  /-- The words of `processes`, by their offset in bytes. -/
  processes : Nat → Nat
  curPid : Pid
  tmpPid : Pid
  /-- `the_tss.esp0`. -/
  esp0 : Nat
  sched : Sched
  /-- The stack pointer at the first instruction of the handler of the trap that a process is
  in. The `registers_t` of the handler are in the words behind it. -/
  trap : Pid → Option Nat

namespace Machine

def pcb (m : Machine) (p : Pid) (off : Nat) : Nat := m.processes (p * pcbSz + off)

/-! ## Instructions -/

def push (w : Nat) (m : Machine) : Machine :=
  { m with
    cpu := { m.cpu with esp := m.cpu.esp - 4 }
    mem := Function.update m.mem m.cr3 (Function.update (m.mem m.cr3) (m.cpu.esp - 4) w) }

def pop (m : Machine) : Nat × Machine :=
  (m.mem m.cr3 m.cpu.esp, { m with cpu := { m.cpu with esp := m.cpu.esp + 4 } })

def pushad (m : Machine) : Machine :=
  let c := m.cpu
  let m := m.push c.eax |>.push c.ecx |>.push c.edx |>.push c.ebx
  m.push c.esp |>.push c.ebp |>.push c.esi |>.push c.edi

/-- `popad`, which skips the word of `esp`. -/
def popad (m : Machine) : Machine :=
  let (edi, m) := m.pop
  let (esi, m) := m.pop
  let (ebp, m) := m.pop
  let (_, m) := m.pop
  let (ebx, m) := m.pop
  let (edx, m) := m.pop
  let (ecx, m) := m.pop
  let (eax, m) := m.pop
  { m with cpu := { m.cpu with
    edi := edi, esi := esi, ebp := ebp, ebx := ebx, edx := edx, ecx := ecx, eax := eax } }

/-- `mul ebx`. -/
def mulEbx (m : Machine) : Machine :=
  { m with cpu := { m.cpu with
    eax := m.cpu.eax * m.cpu.ebx % 2 ^ 32
    edx := m.cpu.eax * m.cpu.ebx / 2 ^ 32 } }

/-- The processor enters an interrupt gate of the kernel. From user level it changes to the stack
of `the_tss`. -/
def interrupt (m : Machine) : Machine :=
  let c := m.cpu
  let m := if c.cs % 4 = plUser then
      { m with cpu := { c with esp := m.esp0, ss := ssKData } } |>.push c.ss |>.push c.esp
    else m
  let m := m.push c.eflags |>.push c.cs |>.push c.eip
  { m with cpu := { m.cpu with cs := ssKCode } }

def iret (m : Machine) : Machine :=
  let (eip, m) := m.pop
  let (cs, m) := m.pop
  let (eflags, m) := m.pop
  if cs % 4 = plUser then
    let (esp, m) := m.pop
    let (ss, m) := m.pop
    { m with cpu := { m.cpu with eip := eip, cs := cs, eflags := eflags, esp := esp, ss := ss } }
  else { m with cpu := { m.cpu with eip := eip, cs := cs, eflags := eflags } }

/-! ## `taskswitch.asm` -/

/-- Save current process information. -/
def saveCurrent (m : Machine) : Machine :=
  let m := { m with cpu := { m.cpu with eax := m.curPid } }
  let m := { m with cpu := { m.cpu with ebx := pcbSz } }
  let m := m.mulEbx
  { m with processes := Function.update m.processes (m.cpu.eax + pcbEspOff) m.cpu.esp }

/-- Restore destination process information. -/
def restoreNext (m : Machine) : Machine :=
  let m := { m with cpu := { m.cpu with eax := m.tmpPid } }
  let m := { m with cpu := { m.cpu with ebx := pcbSz } }
  let m := m.mulEbx
  let m := { m with cpu := { m.cpu with esp := m.processes (m.cpu.eax + pcbEspOff) } }
  -- Set data segments
  let m := { m with cpu := { m.cpu with esi := m.cpu.eax } }
  let m := { m with cpu := { m.cpu with ebx := m.processes (m.cpu.eax + pcbPlOff) } }
  let m := if m.cpu.ebx = plKernel then
      { m with ds := ssKData, es := ssKData, esp0 := 0 }
    else { m with ds := ssUData ||| plUser, es := ssUData ||| plUser, esp0 := kStackTop }
  -- Restore CR3
  let m := { m with cpu := { m.cpu with eax := m.processes (m.cpu.esi + pcbCr3Off) } }
  let m := { m with cr3 := m.cpu.eax }
  -- Set the new current process
  let m := { m with cpu := { m.cpu with eax := m.tmpPid } }
  { m with curPid := m.cpu.eax }

/-- `task_switch` up to its `ret`. -/
def taskSwitch (m : Machine) : Machine := m.pushad.saveCurrent.restoreNext.popad

/-- The `ret` of `task_switch`, to `go_back`, to `task_init` or into compiled code. -/
def switchRet (L : Labels) (m : Machine) : Machine :=
  let (eip, m) := m.pop
  if eip = L.goBack then m.popad.iret
  else if eip = L.taskInit then m.iret
  else m

/-- `call task_switch`. -/
def callTaskSwitch (L : Labels) (ret : Nat) (m : Machine) : Machine :=
  (m.push ret).taskSwitch.switchRet L

/-- What a function of the kernel leaves: registers that need not be kept, and the part of the
stack below the stack pointer. -/
structure Clobber where
  ecx : Nat
  edx : Nat
  below : Nat → Nat

/-- The words below address `a` are overwritten. -/
def overwrite (a : Nat) (below : Nat → Nat) (m : Machine) : Machine :=
  { m with mem := Function.update m.mem m.cr3 fun b => if b < a then below b else m.mem m.cr3 b }

/-- The return from a function with this result. -/
def called (k : Clobber) (result : Nat) (m : Machine) : Machine :=
  let m := m.overwrite m.cpu.esp k.below
  { m with cpu := { m.cpu with eax := result, ecx := k.ecx, edx := k.edx } }

/-- The calls of `sched_unblock` for these processes. -/
def unblockAll (woken : List Pid) (m : Machine) : Option Machine := do
  let sched ← woken.foldlM (fun s p => schedUnblock p s) m.sched
  some { m with sched := sched }

/-- `timer_handler` from the result of `sched_tick` on. -/
def afterTick (L : Labels) (m : Machine) : Machine :=
  if m.cpu.eax = m.curPid then m.popad.iret
  else
    let m := { m with tmpPid := m.cpu.eax }
    m.callTaskSwitch L L.goBack

/-- `timer_handler`, in which `loader_tick` wakes these processes. -/
def timerHandler (L : Labels) (woken : List Pid) (k : Clobber) (m : Machine) : Option Machine := do
  let m := m.pushad
  let m ← m.unblockAll woken
  let (pd, sched) ← schedTick m.sched
  some (({ m with sched := sched }.called k pd).afterTick L)

/-! ## `interrup.asm` -/

/-- `isr_common` and `irq_common` up to the call of the handler. -/
def isrCommon (L : Labels) (intNo errCode : Nat) (m : Machine) : Machine :=
  let m := m.push errCode |>.push intNo
  let m := m.pushad
  m.push L.afterHandler

/-- The `ret` of the handler, and the rest of `isr_common` or `irq_common`. -/
def isrReturn (L : Labels) (m : Machine) : Option Machine :=
  let (eip, m) := m.pop
  if eip = L.afterHandler then
    let m := m.popad
    let m := { m with cpu := { m.cpu with esp := m.cpu.esp + 8 } }
    some m.iret
  else none

/-! ## `loader.c` -/

def live (m : Machine) (p : Pid) : Prop := p < maxPid ∧ m.pcb p pcbIdOff ≠ freePcbPid

def getNewPid (m : Machine) : Option Pid :=
  (List.range maxPid).find? fun p => m.pcb p pcbIdOff = freePcbPid

/-- `create_kernel_stack`. -/
def createKernelStack (taskInit : Nat) (stack : Nat → Nat) (eflags eip : Nat) : Nat → Nat :=
  let stack := Function.update stack stackTop eflags
  let stack := Function.update stack (stackTop - 1) ssKCode
  let stack := Function.update stack (stackTop - 2) eip
  let stack := Function.update stack (stackTop - 3) taskInit
  let stack := Function.update stack (stackTop - 8) (taskKStackAddress + (stackTop - 4) * 4)
  Function.update stack (stackTop - 9) (taskKStackAddress + (stackTop - 1) * 4)

/-- The directory `cr3` gets a frame with these words for the kernel stack. -/
def mapStack (cr3 : Nat) (stack : Nat → Nat) (m : Machine) : Machine :=
  { m with mem := Function.update m.mem cr3 fun a =>
      if taskKStackAddress ≤ a ∧ a < kStackTop then stack ((a - taskKStackAddress) / 4)
      else m.mem cr3 a }

/-- The fields that a new process is given. -/
def setPcb (pid : Pid) (pl cr3 esp : Nat) (m : Machine) : Machine :=
  let f := Function.update m.processes (pid * pcbSz + pcbIdOff) pid
  let f := Function.update f (pid * pcbSz + pcbPlOff) pl
  let f := Function.update f (pid * pcbSz + pcbCr3Off) cr3
  let f := Function.update f (pid * pcbSz + pcbEspOff) esp
  { m with processes := f, trap := Function.update m.trap pid none }

/-- `sched_load`. -/
def schedLoads (pid : Pid) (m : Machine) : Option Machine := do
  let sched ← schedLoad pid m.sched
  some { m with sched := sched }

/-- `loader_load` of a file that starts at `eip`, with the new directory `cr3`. -/
def loaderLoad (L : Labels) (cr3 pl eip : Nat) (m : Machine) : Option Machine := do
  let pid ← m.getNewPid
  let m := if pl = plKernel then
      (m.mapStack cr3 (createKernelStack L.taskInit (fun _ => 0) taskDefaultEflags eip)).setPcb pid
        pl cr3 (taskKStackAddress + kInSwitchEsp * 4)
    else
      (m.mapStack cr3 (createUserStack L.taskInit (fun _ => 0) taskDefaultEflags eip
        uStackBottom)).setPcb pid pl cr3 (taskKStackAddress + uInSwitchEsp * 4)
  m.schedLoads pid

/-- `fork`, with the new directory `cr3`. -/
def fork (L : Labels) (cr3 : Nat) (m : Machine) : Option Machine :=
  if m.pcb m.curPid pcbPlOff ≠ plUser then none
  else do
    let child ← m.getNewPid
    let stack i := m.mem m.cr3 (taskKStackAddress + i * 4)
    let eip := stack (stackTop - 4)
    let eflags := stack (stackTop - 2)
    let userEsp := stack (stackTop - 1)
    let m := (m.mapStack cr3 (createUserStack L.taskInit (fun _ => 0) eflags eip userEsp)).setPcb
      child plUser cr3 (taskKStackAddress + uInSwitchEsp * 4)
    m.schedLoads child

/-- `tmp_pid = sched_block(); task_switch();`, to return to `ret`. -/
def block (L : Labels) (ret : Nat) (m : Machine) : Option Machine := do
  let (pd, sched) ← schedBlock m.sched
  some ({ m with sched := sched, tmpPid := pd }.callTaskSwitch L ret)

/-- `loader_exit`, in which the flushes of `device_close_fds_for` wake these processes and none of
them waits. -/
def exit (L : Labels) (woken : List Pid) (ret : Nat) (m : Machine) : Option Machine := do
  let (pd, sched) ← schedExit m.sched
  let m ← { m with sched := sched }.unblockAll woken
  let processes := Function.update m.processes (m.curPid * pcbSz + pcbIdOff) freePcbPid
  some ({ m with processes := processes, tmpPid := pd }.callTaskSwitch L ret)

/-! ## Runs -/

inductive Act where
  /-- The process goes on at its own level. -/
  | work (c : Context)
  /-- The interrupt of the timer. -/
  | tick (woken : List Pid) (k : Clobber)
  /-- Every other interrupt or exception, and `int 0x30`. -/
  | trap (intNo errCode : Nat)
  /-- An exception within the handler of a trap, of which the handler returns. -/
  | fault (intNo errCode : Nat) (k : Clobber)
  /-- The code of a handler goes on, with what it writes to its stack. -/
  | code (c : Context) (below : Nat → Nat)
  /-- `sched_unblock`. -/
  | unblock (p : Pid)
  /-- `regs->eax = r`. -/
  | result (r : Nat)
  | block (ret : Nat)
  | exit (woken : List Pid) (ret : Nat)
  | load (cr3 pl eip : Nat)
  | fork (cr3 : Nat)
  /-- The handler returns. -/
  | ret

def step (L : Labels) (m : Machine) : Act → Option Machine
  | .work c => some { m with cpu := c }
  | .tick woken k => m.interrupt.timerHandler L woken k
  | .trap intNo errCode =>
    let m := m.interrupt.isrCommon L intNo errCode
    some { m with trap := Function.update m.trap m.curPid (some m.cpu.esp) }
  | .fault intNo errCode k =>
    (((m.interrupt.isrCommon L intNo errCode).called k 0).isrReturn L)
  | .code c below => do
    let esp ← m.trap m.curPid
    some { m.overwrite esp below with cpu := c }
  | .unblock p => m.unblockAll [p]
  | .result r => do
    let esp ← m.trap m.curPid
    some { m with mem :=
      Function.update m.mem m.cr3 (Function.update (m.mem m.cr3) (esp + 32) r) }
  | .block ret => m.block L ret
  | .exit woken ret => m.exit L woken ret
  | .load cr3 pl eip => m.loaderLoad L cr3 pl eip
  | .fork cr3 => m.fork L cr3
  | .ret => do
    let m ← m.isrReturn L
    some { m with trap := Function.update m.trap m.curPid none }

end Machine

end SpuriOS
