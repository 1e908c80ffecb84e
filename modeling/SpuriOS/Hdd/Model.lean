import SpuriOS.Ext2.File
import SpuriOS.Lib.Transition
import Mathlib.Logic.Function.Basic

/-! # The disks of the primary channel (`kernel/hdd.c`)

The registers of the controller, `hdd_block_read` cut in two at its `loader_enqueue`,
`hdd_enhanced_read` cut at the reads of its loop, the interrupt handler, and the runs of any
number of processes over them.

Of the four entries of `hdd_devs` only the two of the primary channel have an interrupt handler;
they are told apart by `slave`. The controller takes the drive and the sector number from its
registers when the command is written, and its data port gives the sector of that command. -/

namespace SpuriOS

/-- The `size` of a disk. -/
def sectorSize : Nat := 512

theorem sectorSize_eq : sectorSize = 512 := rfl

/-- `DRIVE_MASTER` and `DRIVE_SLAVE`. -/
def channel (slave : Bool) : Nat := if slave then 0xF0 else 0xE0

def cmdRead : Nat := 0x20

def stErr : Nat := 1
def stDrq : Nat := 8
def stDf : Nat := 32
def stRdy : Nat := 64
def stBsy : Nat := 128

/-- The registers that `hdd_block_read` writes. -/
inductive HddPort where
  | sectorCount
  | lbaLo
  | lbaMid
  | lbaHi
  | drive
  | command

structure Controller where
  sectorCount : Nat
  lbaLo : Nat
  lbaMid : Nat
  lbaHi : Nat
  drive : Nat
  /-- The drive and the sector of the last command. -/
  last : Bool × Nat
  /-- The commands whose interrupt has not been raised. -/
  irqs : Nat

namespace Controller

/-- Bit 4 of the drive register selects the drive, bits 0 to 3 are bits 24 to 27 of the sector
number. -/
def selected (c : Controller) : Bool × Nat :=
  (c.drive.testBit 4, c.lbaLo + 2 ^ 8 * c.lbaMid + 2 ^ 16 * c.lbaHi + 2 ^ 24 * (c.drive % 2 ^ 4))

def outb (c : Controller) (value : Nat) : HddPort → Controller
  | .sectorCount => { c with sectorCount := value }
  | .lbaLo => { c with lbaLo := value }
  | .lbaMid => { c with lbaMid := value }
  | .lbaHi => { c with lbaHi := value }
  | .drive => { c with drive := value }
  | .command =>
    if value = cmdRead then { c with last := c.selected, irqs := c.irqs + 1 } else c

end Controller

structure Hdd where
  ctl : Controller
  /-- `read_queue` of the two disks: the processes linked in it. -/
  readQueue : Bool → List Pid
  hddEnhancedBuffer : Nat → Byte

def driveRegister (slave : Bool) (pos : Nat) : Nat := channel slave ||| ((pos >>> 24) &&& 0xF)

/-- The six `outb` of `hdd_block_read`. -/
def Controller.issue (c : Controller) (slave : Bool) (pos : Nat) : Controller :=
  let c := c.outb (driveRegister slave pos) .drive
  let c := c.outb 1 .sectorCount
  let c := c.outb (pos % 2 ^ 8) .lbaLo
  let c := c.outb ((pos >>> 8) % 2 ^ 8) .lbaMid
  let c := c.outb ((pos >>> 16) % 2 ^ 8) .lbaHi
  c.outb cmdRead .command

/-- `hdd_block_read` by process `p` up to the `loader_enqueue`, unless it returns -1 before. -/
def hddBlockReadStart (p : Pid) (slave : Bool) (pos size : Nat) (s : Hdd) : Option Hdd :=
  if sectorSize ≠ size then none
  else if s.readQueue slave ≠ [] then none
  else some { s with
    ctl := s.ctl.issue slave pos
    readQueue := Function.update s.readQueue slave (s.readQueue slave ++ [p]) }

/-- `hdd_block_read` from the `loader_enqueue` on, where `status` is what the status port says and
`sector` what is in each sector of the two disks. -/
def hddBlockReadFinish (sector : Bool → Nat → Nat → Byte) (status : Nat) (s : Hdd)
    (buf : Nat → Byte) : Int × (Nat → Byte) :=
  if status &&& stErr ≠ 0 then (-1, buf)
  else if status &&& stDf ≠ 0 then (-1, buf)
  else if status &&& stBsy ≠ 0 ∨ status &&& stRdy = 0 then (-1, buf)
  else if status &&& stDrq = 0 then (-1, buf)
  else
    let wordsToRead := sectorSize / 2
    (sectorSize, Memory.write buf 0 (2 * wordsToRead) (sector s.ctl.last.1 s.ctl.last.2))

/-- The disk that `hdd_primary_handler` takes the interrupt for. -/
def Controller.deviceFor (c : Controller) : Bool := c.drive &&& 1 ≠ 0

/-- `hdd_primary_handler`; `loader_unqueue` takes the head of the queue, if there is one. -/
def hddPrimaryHandler (s : Hdd) : Hdd :=
  let dev := s.ctl.deviceFor
  { s with readQueue := Function.update s.readQueue dev (s.readQueue dev).tail }

/-- The local variables of `hdd_enhanced_read`; `bufPtr` counts from the start of `buffer`. -/
structure EnhancedRead where
  blockCount : Nat
  pos : Nat
  readSpan : Nat
  byteCount : Nat
  bufPtr : Nat

namespace EnhancedRead

/-- Before the loop. -/
def enter (startingByte byteCount : Nat) : EnhancedRead :=
  let realByteCount := Word32.add (startingByte % sectorSize) byteCount
  let blockCount := realByteCount / sectorSize
  { blockCount := if realByteCount % sectorSize ≠ 0 then blockCount + 1 else blockCount
    pos := startingByte / sectorSize
    readSpan := startingByte % sectorSize
    byteCount
    bufPtr := 0 }

def copiedBytes (l : EnhancedRead) : Nat :=
  if Word32.sub sectorSize l.readSpan < l.byteCount then Word32.sub sectorSize l.readSpan
  else l.byteCount

/-- After a round of the loop. -/
def next (l : EnhancedRead) : EnhancedRead where
  blockCount := l.blockCount - 1
  pos := Word32.add l.pos 1
  readSpan := Word32.sub l.readSpan l.readSpan
  byteCount := Word32.sub l.byteCount l.copiedBytes
  bufPtr := Word32.add l.bufPtr l.copiedBytes

end EnhancedRead

/-! ## Runs -/

inductive HddOp where
  | blockRead (pos size : Nat)
  /-- The arguments and the local variables. -/
  | enhancedRead (startingByte byteCount : Nat) (l : EnhancedRead)

/-- A call of `hdd_block_read` or `hdd_enhanced_read` with its buffer. `issued` says that it is
between the command and the transfer of its data. -/
structure HddCall where
  slave : Bool
  op : HddOp
  buf : Nat → Byte
  issued : Bool

/-- The sector that the next `hdd_block_read` of the call asks for, if it has the right size. -/
def HddCall.request (c : HddCall) : Option Nat :=
  match c.op with
  | .blockRead pos size => if size = sectorSize then some pos else none
  | .enhancedRead _ _ l => if l.blockCount = 0 then none else some l.pos

def HddCall.isEnhanced (c : HddCall) : Bool :=
  match c.op with
  | .blockRead .. => false
  | .enhancedRead .. => true

/-- A call that came back: its buffer at that time is the call's, and `value` is what it returned,
`none` for the `void` of `hdd_enhanced_read`. -/
structure HddReturn where
  call : HddCall
  value : Option Int

/-- An interrupt: the process it woke and the one that waited for the drive of the last command. -/
structure HddInterrupt where
  woken : Option Pid
  awaited : Option Pid

structure HddSystem where
  hdd : Hdd
  calls : Pid → Option HddCall
  returned : List HddReturn
  interrupts : List HddInterrupt

inductive HddLabel where
  | start (p : Pid) (c : HddCall)
  | run (p : Pid) (status : Nat)
  | irq

namespace HddSystem

def setCall (s : HddSystem) (p : Pid) (c : Option HddCall) : HddSystem :=
  { s with calls := Function.update s.calls p c }

@[simp] theorem setCall_self {s : HddSystem} {p : Pid} {c : Option HddCall} :
    (s.setCall p c).calls p = c := Function.update_self ..

@[simp] theorem setCall_of_ne {s : HddSystem} {p q : Pid} {c : Option HddCall} (h : q ≠ p) :
    (s.setCall p c).calls q = s.calls q := Function.update_of_ne h ..

def return' (s : HddSystem) (p : Pid) (call : HddCall) (value : Option Int) : HddSystem :=
  { s with returned := s.returned ++ [HddReturn.mk call value] }.setCall p none

/-- The call `c` of process `p` waits for the disk, which is now in state `hdd`. -/
def wait (s : HddSystem) (p : Pid) (c : HddCall) (hdd : Hdd) : HddSystem :=
  { s with hdd }.setCall p (some { c with issued := true })

/-- The rest of a round of `hdd_enhanced_read`, when the static buffer holds `buffer`. -/
def copy (s : HddSystem) (p : Pid) (c : HddCall) (startingByte byteCount : Nat) (l : EnhancedRead)
    (buffer : Nat → Byte) : HddSystem :=
  { s with hdd := { s.hdd with hddEnhancedBuffer := buffer } }.setCall p (some
    { c with
      op := .enhancedRead startingByte byteCount l.next
      buf := Memory.write c.buf l.bufPtr l.copiedBytes fun i => buffer (l.readSpan + i)
      issued := false })

/-- The call `c` of process `p` goes on to its next blocking point or its end. -/
def run (sector : Bool → Nat → Nat → Byte) (s : HddSystem) (p : Pid) (c : HddCall)
    (status : Nat) : HddSystem :=
  match c.op with
  | .blockRead pos size =>
    if c.issued then
      let (value, buf) := hddBlockReadFinish sector status s.hdd c.buf
      s.return' p { c with buf } (some value)
    else
      match hddBlockReadStart p c.slave pos size s.hdd with
      | none => s.return' p c (some (-1))
      | some hdd => s.wait p c hdd
  | .enhancedRead startingByte byteCount l =>
    if c.issued then
      let (_, buffer) := hddBlockReadFinish sector status s.hdd s.hdd.hddEnhancedBuffer
      s.copy p c startingByte byteCount l buffer
    else if l.blockCount = 0 then s.return' p c none
    else
      match hddBlockReadStart p c.slave l.pos sectorSize s.hdd with
      | none => s.copy p c startingByte byteCount l s.hdd.hddEnhancedBuffer
      | some hdd => s.wait p c hdd

def irq (s : HddSystem) : HddSystem :=
  { s with
    hdd := hddPrimaryHandler { s.hdd with ctl := { s.hdd.ctl with irqs := s.hdd.ctl.irqs - 1 } }
    interrupts := s.interrupts ++
      [{ woken := (s.hdd.readQueue s.hdd.ctl.deviceFor).head?
         awaited := (s.hdd.readQueue s.hdd.ctl.last.1).head? }] }

end HddSystem

/-- A call at its start, for a sector that fits the registers and words of 32 bits. -/
inductive HddCall.Fresh : HddCall → Prop
  | blockRead {slave buf pos size} : pos < 2 ^ 28 →
    Fresh { slave, op := .blockRead pos size, buf, issued := false }
  | enhancedRead {slave buf startingByte byteCount} : startingByte < 2 ^ 32 → byteCount < 2 ^ 32 →
    Fresh { slave, op := .enhancedRead startingByte byteCount (.enter startingByte byteCount), buf
            issued := false }

/-- Any process that is not linked in a queue may come next. -/
inductive HddStep (sector : Bool → Nat → Nat → Byte) : HddSystem → HddLabel → HddSystem → Prop
  | start {s : HddSystem} {p c} : s.calls p = none → c.Fresh →
    HddStep sector s (.start p c) (s.setCall p (some c))
  | run {s : HddSystem} {p c status} : s.calls p = some c → p ∉ s.hdd.readQueue c.slave →
    HddStep sector s (.run p status) (s.run sector p c status)
  | irq {s : HddSystem} : s.hdd.ctl.irqs ≠ 0 → HddStep sector s .irq s.irq

/-- After `hdd_init`. -/
structure HddSystem.Initial (s : HddSystem) : Prop where
  queue : ∀ slave, s.hdd.readQueue slave = []
  irqs : s.hdd.ctl.irqs = 0
  calls : ∀ p, s.calls p = none
  returned : s.returned = []
  interrupts : s.interrupts = []

def hddSystem (sector : Bool → Nat → Nat → Byte) : Transition.System HddSystem HddLabel where
  init := HddSystem.Initial
  step := HddStep sector

end SpuriOS
