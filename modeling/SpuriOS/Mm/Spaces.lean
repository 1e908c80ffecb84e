import SpuriOS.Lib.Transition
import SpuriOS.Mm.Frames
import SpuriOS.Mm.Paging
import SpuriOS.Mm.Stack

/-! # Address spaces (`kernel/mm.c`, `kernel/loader.c`)

The processes with their page directories, the frames with what is in them, and the calls that
change them: `loader_load`, `fork`, `palloc`, `share_page`, page faults and `loader_exit`. Frames
and pages go by their numbers. What is in the page table of the kernel is left out, as is what
`loader_load` and system calls put on the kernel stacks. A function that a `kassert` stops, or that
does not get a frame, yields `none`. -/

namespace SpuriOS
open Transition

/-- Addresses wrap around after so many pages. -/
def pageCount : Nat := 0x100000

instance : NeZero pageCount := ⟨by decide⟩

/-- The memory part of `struct str_pcb`. `live` says that the slot is not free, `cr3` is the frame
of the page directory, and `nextEmptyPage` a page. `kernelTable` is the frame in entry 0 of the
directory, and `dir` the rest of it. The stack pointer is a word of the kernel stack. -/
structure MmPcb where
  live : Bool
  privilegeLevel : Privilege
  cr3 : Nat
  kernelTable : Nat
  dir : PageDir
  esp : Nat
  nextEmptyPage : Fin pageCount

/-- `used` is the bitmap; `limit` is the end of the memory that it is of. `taskInit` is where the
linker puts `task_init`. -/
structure Mm where
  used : Nat → Bool
  limit : Nat
  byte : Nat → Nat → Byte
  kernelPagetable : Nat
  taskInit : UInt32
  procs : Pid → MmPcb

/-- The page of `USER_MEMORY_START`. -/
def userMemoryStart : Nat := 0x400

/-- The page of `TASK_U_STACK_ADDRESS`. -/
def taskUStack : Nat := 0xff7fe

/-- The page of `TASK_K_STACK_ADDRESS`. -/
def taskKStack : Nat := 0xff7ff

/-- `MM_TMP_PAGE`. -/
def mmTmpPage : Nat := 0xff800

/-- `pso_file` with what follows its header. -/
structure Image where
  memStart : Nat
  memEndDisk : Nat
  memEnd : Nat
  data : Nat → Byte

def dataPagesNeededFor (f : Image) : Nat :=
  let bytes := Word32.sub f.memEnd f.memStart
  if bytes % pageSize ≠ 0 then bytes / pageSize + 1 else bytes / pageSize

/-- What `copy_data_from` puts in the frame of page `i` of the image. -/
def Image.content (f : Image) (i : Nat) : Nat → Byte := fun k =>
  if Word32.add f.memStart (i * pageSize) ≥ f.memEndDisk then 0
  else if k < f.memEndDisk - Word32.add f.memStart (i * pageSize) then f.data (i * pageSize + k)
  else 0

namespace Mm

/-! ### Frames -/

/-- `mm_mem_seek`: the first free frame from `lo` up to `hi`. -/
def memSeek (lo hi : Nat) (s : Mm) : Option (Nat × Mm) :=
  ((List.range' lo (hi - lo)).find? fun f => !s.used f).map fun f =>
    (f, { s with used := Function.update s.used f true })

def kalloc (s : Mm) : Option (Nat × Mm) := s.memSeek 0x100 0x400

def alloc (s : Mm) : Option (Nat × Mm) := s.memSeek 0x400 s.limit

/-- `mm_mem_free`. The bit of a frame below 1 MB, or from 1 MB above 2 GB on, is taken to be in
front of the bitmap. -/
def free (f : Nat) (s : Mm) : Mm :=
  if 0x100 ≤ f ∧ f < 0x80100 then { s with used := Function.update s.used f false } else s

/-- A copy of a page. -/
def copyFrame (f g : Nat) (s : Mm) : Mm := { s with byte := Function.update s.byte g (s.byte f) }

def fill (f : Nat) (content : Nat → Byte) (s : Mm) : Mm :=
  { s with byte := Function.update s.byte f content }

/-! ### Page tables -/

def setPcb (p : Pid) (x : MmPcb) (s : Mm) : Mm := { s with procs := Function.update s.procs p x }

def entry (p : Pid) (page : Nat) (s : Mm) : Option MmPage := mmPtEntryFor page (s.procs p).dir

/-- The word of a page in its page table, 0 without one. -/
def word (s : Mm) (p : Pid) (page : Nat) : MmPage := (s.entry p page).getD .zero

def setPte (p : Pid) (page : Nat) (e : MmPage) (s : Mm) : Mm :=
  let x := s.procs p
  s.setPcb p { x with dir := { x.dir with pte := Function.update x.dir.pte page e } }

def modifyPte (p : Pid) (page : Nat) (f : MmPage → MmPage) (s : Mm) : Mm :=
  s.setPte p page (f ((s.procs p).dir.pte page))

/-- An empty page table in frame `t`. -/
def addTable (p : Pid) (i t : Nat) (s : Mm) : Mm :=
  let x := s.procs p
  s.setPcb p { x with dir := {
    pde := Function.update x.dir.pde i (some t)
    pte := fun page => if pdEntryFor page = i then .zero else x.dir.pte page } }

/-- The page table of a page, from `mm_mem_kalloc` if it is missing. The one of the kernel is left
out. -/
def needTable (p : Pid) (page : Nat) (s : Mm) : Option Mm :=
  if pdEntryFor page = 0 then none
  else
    match (s.procs p).dir.pde (pdEntryFor page) with
    | some _ => some s
    | none => s.kalloc.map fun r => r.2.addTable p (pdEntryFor page) r.1

def mmMapFrame (frame page : Nat) (p : Pid) (pl : Privilege) (s : Mm) : Option Mm :=
  (s.needTable p page).map
    (setPte p page ⟨true, true, pl = .user, false, false, false, false, frame⟩)

/-- In a page table that is there. -/
def mmUnmapPage (page : Nat) (p : Pid) (s : Mm) : Mm := s.setPte p page .zero

def mmSetPtEntry (page : Nat) (e : MmPage) (p : Pid) (s : Mm) : Option Mm :=
  if e.p then none else (s.needTable p page).map (setPte p page e)

/-- An entry with nothing but `PAGE_REQUESTED`. -/
def requestedEntry : MmPage := { MmPage.zero with rw := true }

def setAsRequested (page : Nat) (p : Pid) (s : Mm) : Option Mm :=
  match s.entry p page with
  | none => s.mmSetPtEntry page requestedEntry p
  | some e => s.mmSetPtEntry page { e with rw := true } p

def palloc (p : Pid) (s : Mm) : Option Mm :=
  let page := (s.procs p).nextEmptyPage
  (s.setPcb p { s.procs p with nextEmptyPage := page + 1 }).setAsRequested page p

def isRequested (page : Nat) (p : Pid) (s : Mm) : Bool :=
  match s.entry p page with
  | none => false
  | some e => !e.p && e.rw

def isToBeCopiedOnWrite (page : Nat) (p : Pid) (s : Mm) : Bool :=
  match s.entry p page with
  | none => false
  | some e => !e.rw && (e.p || e.cor)

/-- The loops over the entries that the other processes have for a page. -/
def othersHave (test : MmPage → Bool) (page : Nat) (p : Pid) (s : Mm) : Bool :=
  (List.range maxPid).any fun q => (s.procs q).live && q ≠ p &&
    match s.entry q page with
    | none => false
    | some e => test e

def sharedWithOtherProcesses : (page : Nat) → (p : Pid) → (s : Mm) → Bool :=
  othersHave fun e => e.shared

/-- That an attribute other than `MM_ATTR_RW` is set goes without saying. -/
def isToBeCopiedOnWriteByOtherProcesses : (page : Nat) → (p : Pid) → (s : Mm) → Bool :=
  othersHave fun e => e.p || e.cor

/-! ### Page faults -/

def mmUserAllocate (page : Nat) (p : Pid) (s : Mm) : Option Mm := do
  let (frame, s) ← s.alloc
  s.mmMapFrame frame page p .user

def mmCopyOnWrite (page : Nat) (p : Pid) (s : Mm) : Option Mm :=
  if ¬s.isToBeCopiedOnWriteByOtherProcesses page p then
    some (s.modifyPte p page fun e => { e with rw := true, cor := false })
  else do
    let (frame, s) ← s.alloc
    let s ← s.mmMapFrame frame mmTmpPage p .kernel
    let e := (s.procs p).dir.pte page
    let s := (s.copyFrame e.base frame).mmUnmapPage mmTmpPage p
    s.mmMapFrame frame page p (if e.us then .user else .kernel)

def mmSharePage (page : Nat) (p : Pid) (s : Mm) : Option (Int × Mm) :=
  match s.entry p page with
  | none => some (-1, s)
  | some e =>
    if e.p then some (0, s.modifyPte p page fun e => { e with shared := true })
    else if e.rw then do
      let s ← s.mmUserAllocate page p
      some (0, s.modifyPte p page fun e => { e with shared := true })
    else some (-1, s)

/-! ### Exit -/

/-- A round of the inner loop of `mm_dir_free`. -/
def freePage (p : Pid) (page : Nat) (s : Mm) : Mm :=
  let e := (s.procs p).dir.pte page
  if e.p then
    if s.isToBeCopiedOnWriteByOtherProcesses page p then
      s.modifyPte p page fun e => { e with cor := false, rw := true }
    else if s.sharedWithOtherProcesses page p then s
    else s.free e.base
  else s

def freeTable (p : Pid) (pde : Nat) (s : Mm) : Mm :=
  match (s.procs p).dir.pde pde with
  | none => s
  | some t => ((List.range 1024).foldl (fun s pte => s.freePage p (pde * 1024 + pte)) s).free t

def mmDirFree (p : Pid) (s : Mm) : Mm :=
  ((List.range' 1 1023).foldl (fun s pde => s.freeTable p pde) s).free (s.procs p).cr3

def loaderExit (p : Pid) (s : Mm) : Mm :=
  let s := s.mmDirFree p
  s.setPcb p { s.procs p with live := false }

/-- `page_fault_handler`, in a process of user level. -/
def pageFault (page : Nat) (p : Pid) (s : Mm) : Option Mm :=
  if s.isRequested page p then s.mmUserAllocate page p
  else if s.isToBeCopiedOnWrite page p then s.mmCopyOnWrite page p
  else some (s.loaderExit p)

/-! ### New processes -/

def getNewPid (s : Mm) : Option Pid := (List.range maxPid).find? fun p => !(s.procs p).live

def emptyDir : PageDir := ⟨fun _ => none, fun _ => .zero⟩

/-- Where a new process has its stack pointer. -/
def inSwitchEsp : Privilege → Nat
  | .kernel => kInSwitchEsp
  | .user => uInSwitchEsp

/-- A slot for a process, with the directory that `mm_dir_new` returns. -/
def newPcb (pl : Privilege) (nextEmptyPage : Fin pageCount) (s : Mm) : Option (Pid × Mm) := do
  let p ← s.getNewPid
  let (cr3, s) ← s.kalloc
  some (p, s.setPcb p ⟨true, pl, cr3, s.kernelPagetable, emptyDir, inSwitchEsp pl, nextEmptyPage⟩)

/-- A round of the inner loop of `copy_nonkernel_pages`. -/
def copyPage (father child : Pid) (page : Nat) (s : Mm) : Option Mm :=
  let e := (s.procs father).dir.pte page
  if e.p then
    if page = taskKStack then some s
    else
      (s.mmMapFrame e.base page child (if e.us then .user else .kernel)).map fun s =>
        if e.shared then s.modifyPte child page fun e => { e with shared := true }
        else
          (s.modifyPte child page fun e => { e with cor := true, rw := false }).modifyPte father
            page fun e => { e with cor := true, rw := false }
  else s.mmSetPtEntry page e child

def copyTable (father child : Pid) (pde : Nat) (s : Mm) : Option Mm :=
  match (s.procs father).dir.pde pde with
  | none => some s
  | some _ => (List.range 1024).foldlM (fun s pte => s.copyPage father child (pde * 1024 + pte)) s

def copyNonkernelPages (father child : Pid) (s : Mm) : Option Mm :=
  (List.range' 1 1023).foldlM (fun s pde => s.copyTable father child pde) s

/-- The words of the kernel stack of a process. -/
def kernelStack (p : Pid) (s : Mm) : Nat → Nat := wordAt (s.byte (s.word p taskKStack).base)

/-- The kernel stack of a child of process `father`. -/
def childStack (father : Pid) (s : Mm) : Nat → Nat :=
  let stack := s.kernelStack father
  let eip := stack (stackTop - 4)
  let eflags := stack (stackTop - 2)
  let userEsp := stack (stackTop - 1)
  createUserStack s.taskInit.toNat (fun _ => 0) eflags eip userEsp

def createChildKernelStack (father child : Pid) (s : Mm) : Option Mm := do
  let (frame, s) ← s.alloc
  let s ← s.mmMapFrame frame taskKStack child .kernel
  let stack := s.childStack father
  let s ← s.mmMapFrame frame mmTmpPage father .kernel
  some ((s.fill frame (pageOf stack)).mmUnmapPage mmTmpPage father)

def fork (father : Pid) (s : Mm) : Option (Pid × Mm) :=
  if (s.procs father).privilegeLevel ≠ .user then none
  else do
    let (child, s) ← s.newPcb .user (s.procs father).nextEmptyPage
    let s ← s.copyNonkernelPages father child
    let s ← s.createChildKernelStack father child
    some (child, s)

/-- What a switch to a process puts into the registers. -/
def taskSwitch (p : Pid) (s : Mm) : Option Context :=
  resume s.taskInit.toNat (s.kernelStack p) (s.procs p).esp

/-- The system call, and what the process that called goes on with. -/
def sysFork (p : Pid) (s : Mm) : Option (Context × Mm) :=
  (s.fork p).map fun r => (syscallReturn (r.2.kernelStack p) r.1, r.2)

/-- The stacks, with the frame of the kernel stack mapped at `USER_MEMORY_START` of the process
that loads. -/
def createStacksFor (cur pid : Pid) (pl : Privilege) (s : Mm) : Option Mm := do
  let (kernelStack, s) ← s.alloc
  let s ← s.mmMapFrame kernelStack taskKStack pid .kernel
  let s ← s.mmMapFrame kernelStack userMemoryStart cur .kernel
  match pl with
  | .kernel => some s
  | .user => do
    let (userStack, s) ← s.alloc
    s.mmMapFrame userStack taskUStack pid .user

/-- A round of the loop of `copy_data_from`. -/
def copyData (f : Image) (cur pid : Pid) (pl : Privilege) (i : Nat) (s : Mm) : Option Mm := do
  let (frame, s) ← s.alloc
  let s ← s.mmMapFrame frame (Word32.add f.memStart (i * pageSize) / pageSize) pid pl
  let s ← s.mmMapFrame frame userMemoryStart cur .kernel
  some (s.fill frame (f.content i))

def copyDataFrom (f : Image) (cur pid : Pid) (pl : Privilege) (s : Mm) : Option Mm :=
  if dataPagesNeededFor f ≠ 0 ∧ f.memStart % pageSize ≠ 0 then none
  else (List.range (dataPagesNeededFor f)).foldlM (fun s i => s.copyData f cur pid pl i) s

/-- The frame at `USER_MEMORY_START` of the process that loads. Without a page table there the
kernel loads through a null pointer. -/
def oldFrame (cur : Pid) (s : Mm) : Option Nat :=
  if cur = idlePid then some 0 else (s.entry cur userMemoryStart).map (·.base)

def undoTempMappingOn (cur : Pid) (oldFrame : Nat) (s : Mm) : Option Mm :=
  let s := s.mmUnmapPage userMemoryStart cur
  if cur = idlePid then some s
  else s.mmMapFrame oldFrame userMemoryStart cur (s.procs cur).privilegeLevel

def loaderLoad (cur : Pid) (f : Image) (pl : Privilege) (s : Mm) : Option (Pid × Mm) := do
  let oldFrame ← s.oldFrame cur
  let (pid, s) ← s.newPcb pl (Fin.ofNat pageCount (userMemoryStart + dataPagesNeededFor f))
  let s ← s.createStacksFor cur pid pl
  let s ← s.copyDataFrom f cur pid pl
  let s ← s.undoTempMappingOn cur oldFrame
  some (pid, s)

end Mm

/-! ## Runs -/

inductive MmLabel where
  | load (p : Pid) (f : Image) (pl : Privilege)
  | fork (p : Pid)
  | palloc (p : Pid)
  | sharePage (p : Pid) (page : Nat)
  | fault (p : Pid) (page : Nat)
  | exit (p : Pid)
  /-- The process stores a byte, or the kernel does on its behalf. -/
  | store (p : Pid) (page offset : Nat) (b : Byte) (kernel : Bool)
  /-- The processor marks a page that is read, or stored to. -/
  | touch (p : Pid) (page : Nat) (stores : Bool)

/-- An address of the user, past the page table of the kernel. -/
def UserPage (page : Nat) : Prop := 0x400 ≤ page ∧ page < pageCount

instance : DecidablePred UserPage := fun _ => inferInstanceAs (Decidable (_ ∧ _))

namespace Mm

/-- A live process has frame `f` at a page. -/
def Maps (s : Mm) (p : Pid) (page f : Nat) : Prop :=
  (s.procs p).live = true ∧ (s.word p page).p = true ∧ (s.word p page).base = f

def store (p : Pid) (page offset : Nat) (b : Byte) (s : Mm) : Mm :=
  let f := (s.word p page).base
  s.fill f (Function.update (s.byte f) offset b)

/-- An access sets `MM_ATTR_A`, and a store `MM_ATTR_D` as well. -/
def touch (p : Pid) (page : Nat) (stores : Bool) (s : Mm) : Mm :=
  s.modifyPte p page fun e => { e with accessed := true, dirty := e.dirty || stores }

/-- What the process reads there. -/
def read (p : Pid) (page offset : Nat) (s : Mm) : Byte := s.byte (s.word p page).base offset

end Mm

/-- The idle process does nothing but load. An entry that lets the user write faults in no way, and
the kernel, for which `CR0.WP` is 0, may write to every page that is present. The processor may
mark a page whenever it is present, so no access has to say what it marks. The pages in which `run`
puts a file before it is loaded are no steps here, nor are calls that find no frame. -/
inductive MmStep : Mm → MmLabel → Mm → Prop
  | load {s : Mm} {p f pl pid u} : (s.procs p).live = true → s.loaderLoad p f pl = some (pid, u) →
    MmStep s (.load p f pl) u
  | fork {s : Mm} {p child u} : (s.procs p).live = true → p ≠ idlePid →
    s.fork p = some (child, u) → MmStep s (.fork p) u
  | palloc {s : Mm} {p u} : (s.procs p).live = true → p ≠ idlePid → s.palloc p = some u →
    MmStep s (.palloc p) u
  | sharePage {s : Mm} {p page result u} : (s.procs p).live = true → p ≠ idlePid → UserPage page →
    s.mmSharePage page p = some (result, u) → MmStep s (.sharePage p page) u
  | fault {s : Mm} {p page u} : (s.procs p).live = true → p ≠ idlePid → UserPage page →
    (s.procs p).privilegeLevel = .user →
    ¬((s.word p page).p ∧ (s.word p page).rw ∧ (s.word p page).us) →
    s.pageFault page p = some u → MmStep s (.fault p page) u
  | exit {s : Mm} {p} : (s.procs p).live = true → p ≠ idlePid → MmStep s (.exit p) (s.loaderExit p)
  | store {s : Mm} {p page offset b kernel} : (s.procs p).live = true → p ≠ idlePid →
    UserPage page → (s.word p page).p → (s.word p page).us →
    (kernel = false → (s.word p page).rw) → offset < pageSize →
    MmStep s (.store p page offset b kernel) (s.store p page offset b)
  | touch {s : Mm} {p page stores} : (s.procs p).live = true → p ≠ idlePid → UserPage page →
    (s.word p page).p → MmStep s (.touch p page stores) (s.touch p page stores)

/-- The kernel is about to load its first task. `reserved` are the frames marked by the memory
map. -/
structure Mm.Initial (reserved : Nat → Bool) (s : Mm) : Prop where
  live : ∀ p, (s.procs p).live = true ↔ p = idlePid
  level : (s.procs idlePid).privilegeLevel = .kernel
  dir : (s.procs idlePid).dir = Mm.emptyDir
  kernelTable : (s.procs idlePid).kernelTable = s.kernelPagetable
  cr3 : 0x100 ≤ (s.procs idlePid).cr3 ∧ (s.procs idlePid).cr3 < 0x400 ∧
    s.used (s.procs idlePid).cr3 = true
  used : ∀ f, 0x400 ≤ f → s.used f = reserved f

/-- A machine with 16 frames for users. -/
def Mm.boot : Mm where
  used f := f = 0x100 ∨ f = 0x101
  limit := 0x410
  byte _ _ := 0
  kernelPagetable := 0x101
  taskInit := 0x1000
  procs p := ⟨p = idlePid, .kernel, 0x100, 0x101, emptyDir, kInSwitchEsp, 0⟩

theorem Mm.boot_initial : Mm.Initial (fun _ => false) Mm.boot where
  live p := by simp [boot]
  level := rfl
  dir := rfl
  kernelTable := rfl
  cr3 := by decide
  used f hf := by
    rw [boot]
    exact decide_eq_false (by omega)

/-- A task of one page at address `addr`. -/
def smallImage (addr : Nat) : Image := ⟨addr, addr + 4, addr + 4, fun _ => 0x90⟩

def mmSystem (reserved : Nat → Bool) : System Mm MmLabel where
  init := Mm.Initial reserved
  step := MmStep

end SpuriOS
