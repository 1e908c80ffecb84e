import SpuriOS.Device.Refcounts
import SpuriOS.Mm.Supply

/-! # Running a file (`run` of `kernel/loader.c`)

`run` puts the file at the pages of a free entry of the page directory of its caller, calls
`loader_load` on it there and cleans up. No other process runs in between. What a device does with
frames of its own, when it is opened and when its last descriptor is closed, is left out. -/

namespace SpuriOS

def runErrorReading : Int := 1
def runInvalidExecutable : Int := 2
def runErrorOpening : Int := 3
def runUnavailableMemory : Int := 4

/-- The file that `run` is called with. -/
structure RunFile where
  /-- What `fs_open` returns. -/
  dev : Option Nat
  /-- What the `n`-th `read` returns, of a request for `size` bytes, and the bytes. -/
  answer : (n size : Nat) → Int
  data : (n : Nat) → Nat → Byte

/-- A device returns an `int`, at most what was asked for. -/
def RunFile.Honest (file : RunFile) : Prop :=
  ∀ n size, -2 ^ 31 ≤ file.answer n size ∧ file.answer n size < 2 ^ 31 ∧
    file.answer n size ≤ size

/-! ## The header of a file -/

/-- `strncmp` with `PSO_SIGNATURE`. -/
def hasSignature (file : Nat → Byte) : Bool :=
  (List.range 4).map file = [0x50, 0x53, 0x4f, 0]

/-- The `k`-th word after the signature. -/
def headerWord (file : Nat → Byte) (k : Nat) : Nat := Memory.le file (4 + 4 * k) 4

/-- The file from its header on is what is loaded. -/
def headerImage (file : Nat → Byte) : Image :=
  ⟨headerWord file 0, headerWord file 1, headerWord file 2, file⟩

def effectiveBytes (file : Nat → Byte) : Nat :=
  Word32.sub (headerWord file 1) (headerWord file 0)

def neededPages (effectiveBytes : Nat) : Nat :=
  let pages := effectiveBytes / pageSize
  if effectiveBytes % pageSize ≠ 0 then pages + 1 else pages

/-- `got` counts the bytes that were read. -/
structure RunSystem where
  mm : Mm
  table : DevTable DevFn (List (DevFn × Nat))
  got : Nat

namespace Mm

/-! ## Frames and pages -/

/-- `mm_vaddr_for_free_pdt_entry`: a page, 0 if there is none. -/
def mmVaddrForFreePdtEntry (p : Pid) (s : Mm) : Nat :=
  if (s.procs p).kernelTable = 0 then 0
  else
    match (List.range' 1 1023).find? fun i => ((s.procs p).dir.pde i).isNone with
    | some i => i * 1024
    | none => 0

/-- `mm_free_page_table_for`. An entry 0 that was cleared is told by table 0. -/
def mmFreePageTableFor (page : Nat) (p : Pid) (s : Mm) : Mm :=
  let x := s.procs p
  if pdEntryFor page = 0 then (s.free x.kernelTable).setPcb p { x with kernelTable := 0 }
  else
    (s.free ((x.dir.pde (pdEntryFor page)).getD 0)).setPcb p
      { x with dir := { x.dir with pde := Function.update x.dir.pde (pdEntryFor page) none } }

/-- A round of the loop of `free_run_resources`. -/
def freeRunPage (page : Nat) (p : Pid) (s : Mm) : Option Mm :=
  (s.entry p page).map fun e => (s.mmUnmapPage page p).free e.base

/-- The bytes that a device copies to an address of the process. -/
def storeBytes (p : Pid) (vaddr : Nat) (data : Nat → Byte) : Nat → Mm → Mm
  | 0, s => s
  | n + 1, s =>
    let a := Word32.add vaddr n
    (storeBytes p vaddr data n s).store p (a / pageSize) (a % pageSize) (data n)

/-- The bytes of the process from a page on. -/
def bytesAt (p : Pid) (page : Nat) (s : Mm) (k : Nat) : Byte :=
  s.read p ((page * pageSize + k) / pageSize) ((page * pageSize + k) % pageSize)

/-- The `i`-th page from a page on. -/
def pageAfter (page i : Nat) : Nat := (page + i) % pageCount

/-- The loop that maps pages after the first one, the next of them `i`-th. It says how many it has
mapped, and whether these are all. -/
def mapPages (page : Nat) (p : Pid) : (n i : Nat) → Mm → Option (Bool × Nat × Mm)
  | 0, i, s => some (true, i, s)
  | n + 1, i, s =>
    s.alloc.elim (some (false, i, s)) fun (frame, s) =>
      (s.mmMapFrame frame (pageAfter page (i + 1)) p .user).bind (mapPages page p n (i + 1))

end Mm

/-! ## Reading -/

/-- What `read(fd, …)` returns. -/
def readFd (file : RunFile) (p : Pid) (fd n size : Nat)
    (table : DevTable DevFn (List (DevFn × Nat))) : Int :=
  if fd > maxFd then -einvalid
  else
    match table.devices (cell p fd) with
    | none => -einvalid
    | some _ => file.answer n size

/-- An `int` as an `uint_32`. -/
def toUint32 (r : Int) : Nat := (r % 2 ^ 32).toNat

/-- The variables of the two loops that read; `n` counts the calls. -/
structure Reading where
  n : Nat
  readed : Nat
  copyPointer : Nat
  got : Nat
  mm : Mm

/-- A read that returned `r`. -/
def Reading.next (file : RunFile) (p : Pid) (r : Int) (x : Reading) : Reading where
  n := x.n + 1
  readed := Word32.add x.readed (toUint32 r)
  copyPointer := Word32.add x.copyPointer (toUint32 r)
  got := x.got + r.toNat
  mm := x.mm.storeBytes p x.copyPointer (file.data x.n) r.toNat

/-- A round of one of the loops. It says at its end whether all was read. -/
def readRound (file : RunFile) (p : Pid) (fd size : Nat)
    (table : DevTable DevFn (List (DevFn × Nat))) (x : Reading) :
    Option (Loop.Round Reading (Bool × Reading)) :=
  if x.readed < size then
    let r := readFd file p fd x.n (Word32.sub size x.readed) table
    if 0 < toUint32 r then some (.again (x.next file p r)) else some (.done (false, x))
  else some (.done (true, x))

namespace RunSystem

/-! ## The call -/

def freeRunResources (page count : Nat) (fd : Nat) (p : Pid) (s : RunSystem) :
    Option RunSystem := do
  let mm ← (List.range count).foldlM
    (fun mm i => mm.freeRunPage (Mm.pageAfter page i) p) s.mm
  let mm := mm.mmFreePageTableFor page p
  match SpuriOS.close flushCalls fd { s.table with curPid := p } with
  | .halt _ => none
  | .ret _ table => some { s with mm, table }

/-- A clean-up, and a return. -/
def finish (page count fd : Nat) (p : Pid) (result : Int) (s : RunSystem) :
    Option (Int × RunSystem) :=
  (s.freeRunResources page count fd p).map fun s => (result, s)

/-- `run` from the first page on, after the header was read. -/
def runImage (fuel : Nat) (file : RunFile) (p : Pid) (page fd : Nat) (x : Reading)
    (s : RunSystem) : Option (Int × RunSystem) :=
  let header := x.mm.bytesAt p page
  if hasSignature header = false then
    finish page 1 fd p (-runInvalidExecutable) { s with mm := x.mm, got := x.got }
  else do
    let bytes := effectiveBytes header
    let count := Word32.sub (neededPages bytes) 1
    let (all, i, mm) ← Mm.mapPages page p count 0 x.mm
    if all = false then
      finish page (Word32.add i 1) fd p (-runUnavailableMemory) { s with mm, got := x.got }
    else
      let x : Reading := { x with mm }
      let (all, x) ← Loop.run (readRound file p fd bytes s.table) fuel x
      let s : RunSystem := { s with mm := x.mm, got := x.got }
      if all = false then s.finish page (Word32.add count 1) fd p (-runErrorReading)
      else
        let (pid, mm) ← s.mm.loaderLoad p (headerImage (s.mm.bytesAt p page)) .user
        finish page (Word32.add count 1) fd p pid { s with mm }

/-- `run` with the first page in `mm`. -/
def runHeader (fuel : Nat) (file : RunFile) (p : Pid) (page fd : Nat) (mm : Mm) (s : RunSystem) :
    Option (Int × RunSystem) := do
  let x : Reading := ⟨0, 0, page * pageSize, s.got, mm⟩
  let (all, x) ← Loop.run (readRound file p fd 20 s.table) fuel x
  if all = false then
    finish page 1 fd p (-runErrorReading) { s with mm := x.mm, got := x.got }
  else s.runImage fuel file p page fd x

/-- `run` with the file at descriptor `fd`. -/
def runOpened (fuel : Nat) (file : RunFile) (p : Pid) (fd : Nat) (s : RunSystem) :
    Option (Int × RunSystem) :=
  let page := s.mm.mmVaddrForFreePdtEntry p
  s.mm.alloc.elim (s.finish 0 0 fd p (-runUnavailableMemory)) fun (frame, mm) =>
    (mm.mmMapFrame frame page p .user).bind fun mm => s.runHeader fuel file p page fd mm

/-- `run` by process `p`. The two loops that read get `fuel` rounds at most. -/
def run (fuel : Nat) (file : RunFile) (p : Pid) (s : RunSystem) : Option (Int × RunSystem) :=
  match file.dev with
  | none => some (-runErrorOpening, s)
  | some d =>
    let (fd, table) := deviceDescriptor d { s.table with curPid := p }
    { s with table }.runOpened fuel file p fd

end RunSystem

end SpuriOS
