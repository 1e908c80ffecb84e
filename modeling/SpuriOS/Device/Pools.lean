import SpuriOS.Device
import SpuriOS.Lib.Counting
import SpuriOS.Lib.Transition

/-! # Devices and their slots (`kernel/device.c`, `kernel/fs.c`)

The opens and flushes of the drivers over the arrays their objects come from, the frames they
allocate, and the runs of any number of processes that open, use, close, fork and exit.

A kernel function that waits for the disk is cut there, and what is left of it is kept on the
stack of its process: the rest of `ext2_open`, of the `run` that starts the screen saver, of
`con_flush` and of `device_close_fds_for`. Any process may take the next step. Whether `con_flush`
starts the screen saver depends on which console is shown, and both are among the steps. A process
may exit at any point, since a page fault in the kernel ends it.

Of the fields of an object those stay that decide over its slot and its frames. The object in
slot `i` of an array is named by the number `base + i`. -/

namespace SpuriOS
open Transition

/-- The functions an object may point to. -/
inductive DevFn where
  | procCpuidRead
  | conFlush
  | conRead
  | conWrite
  | serialRead
  | serialWrite
  | ext2FileFlush
  | ext2FileRead
  | ext2FileSeek
  | pipeFlush
  | pipeRead
  | pipeWrite
  deriving DecidableEq

/-- An array of objects. -/
structure Pool where
  base : Nat
  size : Nat

namespace Pool

def Mem (P : Pool) (d : Nat) : Prop := P.base ≤ d ∧ d < P.base + P.size

instance (P : Pool) (d : Nat) : Decidable (P.Mem d) := inferInstanceAs (Decidable (_ ∧ _))

/-- `proc_cpuid_devs[MAX_PROC_CPUID_DEVS]`. -/
def procCpuidDevs : Pool := ⟨0, 32⟩

/-- `consoles[MAX_CONSOLES]`. -/
def consoles : Pool := ⟨32, 8⟩

/-- `serial_devs[SERIAL_PORTS]`. -/
def serialDevs : Pool := ⟨40, 2⟩

/-- `ext2_files[MAX_EXT2_FILES]`. -/
def ext2Files : Pool := ⟨42, 32⟩

/-- `endpoints[MAX_ENDPOINTS]`. -/
def endpoints : Pool := ⟨74, 64⟩

end Pool

/-- The frames of an object, and for an endpoint its pair. -/
structure DevData where
  buffer : Option Nat
  blockList : Option Nat
  pair : Nat

/-- Where `ext2_open` waits for the disk: for the inode, for the blocks of block numbers, or in
`read_dir` with its temporary page. -/
inductive Ext2Stage where
  | inode
  | blocks
  | dir (tmpPage : Option Nat)

/-- What a process has still to do in the kernel. -/
inductive Pending where
  | ext2Open (d : Nat) (stage : Ext2Stage)
  /-- `run` that has not opened its file yet, and that reads from `fd`. -/
  | run
  | runRead (fd : Nat)
  | conFlush (d : Nat)
  /-- The loop of `device_close_fds_for` has come to `fd`. -/
  | exit (fd : Nat)

/-- The drivers' functions as far as `device.c` sees them: `world` is the list of the flushes that
were called. -/
def flushCalls : Drivers DevFn (List (DevFn × Nat)) where
  flush f d calls := (calls ++ [(f, d)], 0)
  read _ _ _ _ calls := (calls, 0)
  write _ _ _ _ calls := (calls, 0)
  seek _ _ _ calls := (calls, 0)

structure DevSystem where
  table : DevTable DevFn (List (DevFn × Nat))
  data : Nat → DevData
  /-- The frames that devices allocated and did not free. -/
  held : Nat → Bool
  /-- `processes[pid].id` is not `FREE_PCB_PID`. -/
  live : Pid → Bool
  stack : Pid → List Pending

/-- `device_descriptor`. -/
def deviceDescriptor (d : Nat) (t : DevTable DevFn (List (DevFn × Nat))) :
    Nat × DevTable DevFn (List (DevFn × Nat)) :=
  match (List.range maxFd).find? fun fd => t.devices (cell t.curPid fd) = none with
  | some fd => (fd, (t.setCell (cell t.curPid fd) (some d)).setRefcount d
      ((t.objects d).refcount + 1))
  | none => (maxFd, t)

/-- A round of the loop of `device_copy_fds`. -/
def copyFd (source dest fd : Nat) (t : DevTable DevFn (List (DevFn × Nat))) :
    DevTable DevFn (List (DevFn × Nat)) :=
  let t := t.setCell (cell dest fd) (t.devices (cell source fd))
  match t.devices (cell dest fd) with
  | some d => t.setRefcount d ((t.objects d).refcount + 1)
  | none => t

def deviceCopyFds (source dest : Nat) (t : DevTable DevFn (List (DevFn × Nat))) :
    DevTable DevFn (List (DevFn × Nat)) :=
  (List.range maxFd).foldl (fun t fd => copyFd source dest fd t) t

/-- The names `fs_open` knows. -/
inductive DevPath where
  | serial0
  | serial1
  | console
  | procCpuid
  /-- `found`: `get_file_inode` comes upon the file. -/
  | disk (found : Bool)
  | other

/-- `FS_OPEN_RD` and `FS_OPEN_WR`. -/
structure OpenFlags where
  rd : Bool
  wr : Bool

/-- Where the array is that the caller of `pipe` passes. The stores to it are made in ring 0, and
nothing checks the pointer. -/
inductive PipeArray where
  | user
  /-- `&devices[0][0] + i`. -/
  | table (i : Nat)
  /-- Elsewhere in the memory of the kernel. -/
  | kernel

/-- A descriptor that is taken for a pointer: `NULL`, or one to none of the objects. -/
def strayDev (fd : Nat) : Option Nat :=
  if fd = 0 then none else some (Pool.endpoints.base + Pool.endpoints.size + fd)

namespace DevSystem

def klass (s : DevSystem) (d : Nat) : Klass := (s.table.objects d).klass

/-- `devices[pid][fd]`. -/
def fds (s : DevSystem) (p : Pid) (fd : Nat) : Option Nat := s.table.devices (cell p fd)

/-- The number of cells of `devices` that point to `d`. -/
def refs (s : DevSystem) (d : Nat) : Nat := Counting.refs s.table.devices (maxPid * maxFd) d

def setObject (s : DevSystem) (d : Nat) (o : Chardev DevFn) : DevSystem :=
  { s with table := { s.table with objects := Function.update s.table.objects d o } }

def setKlass (s : DevSystem) (d : Nat) (k : Klass) : DevSystem :=
  s.setObject d { s.table.objects d with klass := k }

def setData (s : DevSystem) (d : Nat) (x : DevData) : DevSystem :=
  { s with data := Function.update s.data d x }

def setStack (s : DevSystem) (p : Pid) (l : List Pending) : DevSystem :=
  { s with stack := Function.update s.stack p l }

def push (s : DevSystem) (p : Pid) (x : Pending) : DevSystem := s.setStack p (x :: s.stack p)

section
variable {s : DevSystem} {p q : Pid} {d e : Nat} {l : List Pending} {o : Chardev DevFn}
  {y : DevData}

@[simp] theorem setStack_self : (s.setStack p l).stack p = l := Function.update_self ..

@[simp] theorem setStack_of_ne (h : q ≠ p) : (s.setStack p l).stack q = s.stack q :=
  Function.update_of_ne h ..

@[simp] theorem setStack_fds : (s.setStack p l).fds = s.fds := rfl

@[simp] theorem setStack_table : (s.setStack p l).table = s.table := rfl

@[simp] theorem setObject_self : (s.setObject d o).table.objects d = o := Function.update_self ..

@[simp] theorem setObject_of_ne (h : e ≠ d) :
    (s.setObject d o).table.objects e = s.table.objects e := Function.update_of_ne h ..

@[simp] theorem setData_self : (s.setData d y).data d = y := Function.update_self ..

@[simp] theorem setData_of_ne (h : e ≠ d) : (s.setData d y).data e = s.data e :=
  Function.update_of_ne h ..

end

/-- `mm_mem_kalloc` that returns `frame`. -/
def kalloc (s : DevSystem) : Option Nat → DevSystem
  | some f => { s with held := Function.update s.held f true }
  | none => s

/-- `mm_mem_free`. That of a null pointer clears a bit in front of the bitmap, which is none of a
frame. -/
def free (s : DevSystem) : Option Nat → DevSystem
  | some f => { s with held := Function.update s.held f false }
  | none => s

/-- The first slot of an array that is free. -/
def freeSlot (s : DevSystem) (P : Pool) : Option Nat :=
  (List.range' P.base P.size).find? fun d => s.klass d = .none

/-! ### Opens -/

/-- `open` returns `result`, to its caller or to `run`. -/
def return' (s : DevSystem) (p : Pid) (result : Int) : DevSystem :=
  match s.stack p with
  | .run :: rest =>
    if result < 0 then s.setStack p rest else s.setStack p (.runRead result.toNat :: rest)
  | _ => s

/-- `~EINVALID`. -/
def openError : Int := -einvalid - 1

/-- `open` after `fs_open` returned. -/
def opened (s : DevSystem) (p : Pid) : Option Nat → DevSystem
  | none => s.return' p openError
  | some d =>
    let r := deviceDescriptor d { s.table with curPid := p }
    { s with table := r.2 }.return' p r.1

/-- `serial_open` never sets the class, so a port stays free however often it is opened. -/
def serialOpen (s : DevSystem) (d : Nat) (flags : OpenFlags) : Option Nat × DevSystem :=
  if s.klass d ≠ .none then (none, s)
  else
    let o := s.table.objects d
    let o := if flags.rd then { o with read := some .serialRead } else o
    let o := if flags.wr then { o with write := some .serialWrite } else o
    (some d, s.setObject d o)

def conOpen (s : DevSystem) (frame : Option Nat) : Option Nat × DevSystem :=
  match s.freeSlot .consoles with
  | none => (none, s)
  | some d =>
    let s := s.setData d { s.data d with buffer := frame }
    match frame with
    | none => (none, s)
    | some f =>
      (some d, (s.kalloc (some f)).setObject d
        { klass := .console, refcount := 0, flush := some .conFlush, read := some .conRead
          write := some .conWrite, seek := none })

def procCpuidOpen (s : DevSystem) : Option Nat × DevSystem :=
  match s.freeSlot .procCpuidDevs with
  | none => (none, s)
  | some d => (some d, s.setObject d
      { klass := .procCpuid, refcount := 0, flush := none, read := some .procCpuidRead
        write := none, seek := none })

/-- `ext2_open` up to where it waits for the inode. -/
def ext2Open (s : DevSystem) (p : Pid) (found : Bool) (flags : OpenFlags) : DevSystem :=
  if flags.wr ∨ found = false then s.opened p none
  else
    match s.freeSlot .ext2Files with
    | none => s.opened p none
    | some d => (s.setObject d
        { klass := .ext2File, refcount := 0, flush := some .ext2FileFlush
          read := some .ext2FileRead, write := none
          seek := some .ext2FileSeek }).push p (.ext2Open d .inode)

def «open» (s : DevSystem) (p : Pid) (path : DevPath) (flags : OpenFlags) (frame : Option Nat) :
    DevSystem :=
  let finish := fun r : Option Nat × DevSystem => r.2.opened p r.1
  if ¬(flags.rd ∨ flags.wr) then s.opened p none
  else
    match path with
    | .serial0 => finish (s.serialOpen Pool.serialDevs.base flags)
    | .serial1 => finish (s.serialOpen (Pool.serialDevs.base + 1) flags)
    | .console => finish (s.conOpen frame)
    | .procCpuid => finish s.procCpuidOpen
    | .disk found => s.ext2Open p found flags
    | .other => s.opened p none

/-- The inode has come, of a file of `blocks` blocks. -/
def ext2Inode (s : DevSystem) (p : Pid) (d : Nat) (rest : List Pending) (blocks : Nat)
    (frame : Option Nat) : DevSystem :=
  let s := s.setStack p (.ext2Open d .blocks :: rest)
  if blocks > 12 then
    (s.kalloc frame).setData d { s.data d with blockList := frame }
  else s.setData d { s.data d with blockList := none }

/-- The block numbers have come. For a directory, `tmpPage` is what `read_dir` allocates. -/
def ext2Buffer (s : DevSystem) (p : Pid) (d : Nat) (rest : List Pending) (frame : Option Nat)
    (dir : Option (Option Nat)) : DevSystem :=
  let s := (s.kalloc frame).setData d { s.data d with buffer := frame }
  match dir with
  | none => (s.setStack p rest).opened p (some d)
  | some tmpPage => (s.kalloc tmpPage).setStack p (.ext2Open d (.dir tmpPage) :: rest)

/-- The end of `read_dir`. -/
def ext2Dir (s : DevSystem) (p : Pid) (d : Nat) (rest : List Pending) (tmpPage : Option Nat) :
    DevSystem :=
  ((s.free tmpPage).setStack p rest).opened p (some d)

/-- The two free slots `pipe_open` comes upon. -/
def freeEnds (s : DevSystem) : List Nat :=
  (List.range' Pool.endpoints.base Pool.endpoints.size).filter fun d => s.klass d = .none

def initEndpoint (read write : Option DevFn) : Chardev DevFn where
  klass := .pipe
  refcount := 0
  flush := some .pipeFlush
  read := read
  write := write
  seek := none

/-- `pipe_open` with the slots and the frame it got. -/
def pipeOpen (s : DevSystem) (inp out buffer : Nat) : DevSystem :=
  let s := s.kalloc (some buffer)
  let s := s.setObject inp (initEndpoint (some .pipeRead) none)
  let s := s.setData inp { s.data inp with buffer := some buffer, pair := out }
  let s := s.setObject out (initEndpoint none (some .pipeWrite))
  s.setData out { s.data out with buffer := some buffer, pair := inp }

/-- A call of `device_descriptor` by process `p`. -/
def describe (s : DevSystem) (p : Pid) (d : Nat) : DevSystem :=
  { s with table := (deviceDescriptor d { s.table with curPid := p }).2 }

/-- The descriptor that this call returns. -/
def descriptor (s : DevSystem) (p : Pid) (d : Nat) : Nat :=
  (deviceDescriptor d { s.table with curPid := p }).1

/-- `pipes[k] = fd`, in user memory or in the table. -/
def storeFd (s : DevSystem) (array : PipeArray) (k fd : Nat) : DevSystem :=
  match array with
  | .table i => { s with table := s.table.setCell (i + k) (strayDev fd) }
  | .user | .kernel => s

@[simp] theorem storeFd_user {s : DevSystem} {k fd : Nat} : s.storeFd .user k fd = s := rfl

/-- `pipe`, when `stores` of its two stores to the array of the caller do not fault. -/
def pipe (s : DevSystem) (p : Pid) (array : PipeArray) (frame : Option Nat) (stores : Nat) :
    DevSystem :=
  match s.freeEnds, frame with
  | inp :: out :: _, some buffer =>
    let s := s.pipeOpen inp out buffer
    let fd := s.descriptor p inp
    let s := s.describe p inp
    if stores = 0 then s.push p (.exit 0)
    else
      let s := s.storeFd array 0 fd
      let fd := s.descriptor p out
      let s := s.describe p out
      if stores = 1 then s.push p (.exit 0) else s.storeFd array 1 fd
  | _, _ => s

/-! ### Closes -/

def pipeFlush (s : DevSystem) (d : Nat) : DevSystem :=
  let s := s.setKlass d .none
  if s.klass (s.data d).pair = .none then s.free (s.data d).buffer else s

/-- The call of a flush function: of `con_flush` only the beginning, the rest is pending. -/
def flush (s : DevSystem) (p : Pid) : DevFn → Nat → DevSystem
  | .conFlush, d => s.push p (.conFlush d)
  | .ext2FileFlush, d => (s.setKlass d .none).free (s.data d).buffer
  | .pipeFlush, d => s.pipeFlush d
  | _, _ => s

/-- What `close` does to the table, with the flush it calls. -/
def closeTable (s : DevSystem) (p : Pid) (fd : Nat) :
    Outcome (DevTable DevFn (List (DevFn × Nat))) :=
  SpuriOS.close flushCalls fd { s.table with curPid := p, world := [] }

/-- `close(fd)` by process `p`, and the flush. -/
def close (s : DevSystem) (p : Pid) (fd : Nat) : DevSystem :=
  let t := (s.closeTable p fd).state
  t.world.foldl (fun s c => s.flush p c.1 c.2) { s with table := t }

/-- The rest of `con_flush`. -/
def conFlush (s : DevSystem) (p : Pid) (d : Nat) (rest : List Pending) : DevSystem :=
  ((s.free (s.data d).buffer).setKlass d .none).setStack p rest

/-- A round of the loop of `device_close_fds_for`. -/
def closeNext (s : DevSystem) (p : Pid) (fd : Nat) (rest : List Pending) : DevSystem :=
  let s := s.setStack p (.exit (fd + 1) :: rest)
  match s.fds p fd with
  | some _ => s.close p fd
  | none => s

def fork (s : DevSystem) (p child : Pid) : DevSystem :=
  { s with table := deviceCopyFds p child s.table, live := Function.update s.live child true }

end DevSystem

/-! ## Runs -/

inductive DevLabel where
  /-- `frame` is what `mm_mem_kalloc` returns if it is called; likewise below. -/
  | open (p : Pid) (path : DevPath) (flags : OpenFlags) (frame : Option Nat)
  | ext2Inode (p : Pid) (blocks : Nat) (frame : Option Nat)
  | ext2Buffer (p : Pid) (frame : Option Nat) (dir : Option (Option Nat))
  | ext2Dir (p : Pid)
  | pipe (p : Pid) (array : PipeArray) (frame : Option Nat) (stores : Nat)
  | use (p : Pid) (c : FdSyscall) (fd : Nat)
  | close (p : Pid) (fd : Nat)
  | screenSaver (p : Pid)
  | runLoad (p child : Pid)
  | runClose (p : Pid)
  | conFlush (p : Pid)
  | fork (p child : Pid)
  | exit (p : Pid)
  | exitClose (p : Pid)
  | exitEnd (p : Pid)

/-- A frame that `mm_mem_kalloc` may return. -/
def DevSystem.Gives (s : DevSystem) (frame : Option Nat) : Prop :=
  ∀ f, frame = some f → s.held f = false

inductive DevStep : DevSystem → DevLabel → DevSystem → Prop
  | open {s : DevSystem} {p path flags frame} : s.live p = true →
    (s.stack p = [] ∨ ∃ rest, s.stack p = .run :: rest) → s.Gives frame →
    DevStep s (.open p path flags frame) (s.open p path flags frame)
  | ext2Inode {s : DevSystem} {p d rest blocks frame} : s.stack p = .ext2Open d .inode :: rest →
    s.Gives frame → DevStep s (.ext2Inode p blocks frame) (s.ext2Inode p d rest blocks frame)
  | ext2Buffer {s : DevSystem} {p d rest frame dir} : s.stack p = .ext2Open d .blocks :: rest →
    s.Gives frame → (∀ tmpPage, dir = some tmpPage → (s.kalloc frame).Gives tmpPage) →
    DevStep s (.ext2Buffer p frame dir) (s.ext2Buffer p d rest frame dir)
  | ext2Dir {s : DevSystem} {p d rest tmpPage} :
    s.stack p = .ext2Open d (.dir tmpPage) :: rest →
    DevStep s (.ext2Dir p) (s.ext2Dir p d rest tmpPage)
  | pipe {s : DevSystem} {p array frame stores} : s.live p = true → s.stack p = [] →
    s.Gives frame → array ≠ .kernel →
    DevStep s (.pipe p array frame stores) (s.pipe p array frame stores)
  /-- What the stores change elsewhere in the kernel is left open. -/
  | pipeKernel {s u : DevSystem} {p frame stores} : s.live p = true → s.stack p = [] →
    DevStep s (.pipe p .kernel frame stores) u
  | use {s : DevSystem} {p c fd} : s.live p = true → s.stack p = [] → fd < maxFd → c ≠ .close →
    DevStep s (.use p c fd)
      { s with table := (c.run flushCalls fd { s.table with curPid := p }).state }
  | close {s : DevSystem} {p fd} : s.live p = true → s.stack p = [] → fd < maxFd →
    DevStep s (.close p fd) (s.close p fd)
  | screenSaver {s : DevSystem} {p d rest} : s.stack p = .conFlush d :: rest →
    DevStep s (.screenSaver p) (s.push p .run)
  /-- `loader_load`, called by `run`. -/
  | runLoad {s : DevSystem} {p fd rest child} : s.stack p = .runRead fd :: rest →
    child < maxPid → s.live child = false →
    DevStep s (.runLoad p child) { s with live := Function.update s.live child true }
  | runClose {s : DevSystem} {p fd rest} : s.stack p = .runRead fd :: rest →
    DevStep s (.runClose p) ((s.setStack p rest).close p fd)
  | conFlush {s : DevSystem} {p d rest} : s.stack p = .conFlush d :: rest →
    DevStep s (.conFlush p) (s.conFlush p d rest)
  | fork {s : DevSystem} {p child} : s.live p = true → s.stack p = [] → child < maxPid →
    s.live child = false → DevStep s (.fork p child) (s.fork p child)
  | exit {s : DevSystem} {p} : s.live p = true → DevStep s (.exit p) (s.push p (.exit 0))
  | exitClose {s : DevSystem} {p fd rest} : s.stack p = .exit fd :: rest → fd < maxFd →
    DevStep s (.exitClose p) (s.closeNext p fd rest)
  | exitEnd {s : DevSystem} {p rest} : s.stack p = .exit maxFd :: rest →
    DevStep s (.exitEnd p) { s.setStack p [] with live := Function.update s.live p false }

/-- After `device_init`. -/
structure DevSystem.Initial (s : DevSystem) : Prop where
  cells : ∀ i < maxPid * maxFd, s.table.devices i = none
  klass : ∀ d, s.klass d = .none
  serial : ∀ d, Pool.serialDevs.Mem d →
    (s.table.objects d).refcount = 0 ∧ (s.table.objects d).flush = none
  blockList : ∀ d, (s.data d).blockList = none
  held : ∀ f, s.held f = false
  live : ∀ p, s.live p = true → p < maxPid
  stack : ∀ p, s.stack p = []

def devSystem : System DevSystem DevLabel where
  init := DevSystem.Initial
  step := DevStep

end SpuriOS
