import SpuriOS.Device.Pools

/-! # The serial ports (`kernel/serial.c`)

One of the two ports, with the descriptors that point to it and the processes that wait in its
queue. A read that waits is cut at its `loader_enqueue`; a write only sleeps between two bytes and
leaves the port as it is. -/

namespace SpuriOS

open Transition

/-- `SERIAL_BUFFER_LENGTH`. -/
def serialBufferLength : Nat := 50

/-- The functions that the pointers of a port may hold. -/
inductive SerialFn where
  | flush
  | read
  | write
  deriving DecidableEq, Repr

/-- `struct str_dev_serial`; `queue = []` is `FREE_QUEUE`. -/
structure SerialPort where
  klass : Klass
  refcount : Nat
  flush : Option SerialFn
  read : Option SerialFn
  write : Option SerialFn
  readQueue : List Pid
  writeQueue : List Pid
  bufferFree : Bool
  buffer : Nat → Byte
  ptrTo : Nat

namespace SerialPort

/-- `init_serial_dev`. -/
def init : SerialPort where
  klass := .none
  refcount := 0
  flush := none
  read := none
  write := none
  readQueue := []
  writeQueue := []
  bufferFree := false
  buffer _ := 0
  ptrTo := 0

def serialFlush (d : SerialPort) : SerialPort :=
  { d with klass := .none, read := none, write := none }

/-- `serial_open` of a port in range; `none` is `NULL`. -/
def serialOpen (flags : OpenFlags) (d : SerialPort) : Option SerialPort :=
  if d.klass ≠ .none then none
  else some { d with
    read := if flags.rd then some .read else d.read
    write := if flags.wr then some .write else d.write
    readQueue := []
    writeQueue := []
    bufferFree := true
    ptrTo := 0 }

/-- `serial_read` behind its `loader_enqueue`. -/
def copyOut (size : Nat) (d : SerialPort) : Nat × SerialPort :=
  (min size d.ptrTo, { d with ptrTo := 0, bufferFree := true })

/-- `read_from_serial` for a byte that has come. -/
def readFromSerial (data : Byte) (d : SerialPort) : SerialPort :=
  let d := if d.ptrTo < serialBufferLength then
      { d with
        buffer := Function.update d.buffer d.ptrTo data
        ptrTo := d.ptrTo + 1
        bufferFree := false }
    else d
  { d with readQueue := d.readQueue.tail }

end SerialPort

/-- A word of `devices`, as far as the port is concerned: for a descriptor of the port, the flags
of the `open` that it comes from. -/
inductive SerialCell where
  | free
  | other
  | port (flags : OpenFlags)

structure SerialSystem where
  port : SerialPort
  /-- `devices`, row by row. -/
  cells : Nat → SerialCell
  /-- The size of the `serial_read` that a process is in. -/
  reading : Pid → Option Nat

/-- What a syscall comes to. -/
inductive SerialAnswer where
  | returns (value : Int)
  | waits
  deriving DecidableEq, Repr

namespace SerialSystem

/-- `device_descriptor`: the first free descriptor of the process, if there is one. -/
def freeFd (s : SerialSystem) (p : Pid) : Option Nat :=
  (List.range maxFd).find? fun fd => s.cells (cell p fd) matches .free

def setCell (s : SerialSystem) (i : Nat) (c : SerialCell) : SerialSystem :=
  { s with cells := Function.update s.cells i c }

/-- `open` of the port, with the checks of `fs_open`. -/
def «open» (p : Pid) (flags : OpenFlags) (s : SerialSystem) : SerialSystem :=
  if ¬(flags.rd ∨ flags.wr) then s
  else
    match s.port.serialOpen flags with
    | none => s
    | some d =>
      match s.freeFd p with
      | none => { s with port := d }
      | some fd => { s with port := { d with refcount := d.refcount + 1 } }.setCell (cell p fd)
          (.port flags)

/-- `close` of a descriptor of the port; a false `kassert` halts. -/
def close (p : Pid) (fd : Nat) (s : SerialSystem) : Option SerialSystem :=
  match s.cells (cell p fd) with
  | .port _ =>
    if s.port.refcount = 0 then none
    else
      let d := { s.port with refcount := s.port.refcount - 1 }
      let d := if d.refcount = 0 ∧ d.flush ≠ none then d.serialFlush else d
      some ({ s with port := d }.setCell (cell p fd) .free)
  | _ => some s

/-- `read` of a descriptor of the port. -/
def read (p : Pid) (fd size : Nat) (s : SerialSystem) : SerialAnswer × SerialSystem :=
  match s.cells (cell p fd), s.port.read with
  | .port _, some _ =>
    if size = 0 then (.returns 0, s)
    else if s.port.bufferFree then
      (.waits, { s with
        port := { s.port with readQueue := s.port.readQueue ++ [p] }
        reading := Function.update s.reading p (some size) })
    else
      let r := s.port.copyOut size
      (.returns r.1, { s with port := r.2 })
  | .port _, none => (.returns (-enofunc), s)
  | _, _ => (.returns (-einvalid), s)

/-- The rest of `serial_read` after the process was taken from the queue. -/
def resume (p : Pid) (size : Nat) (s : SerialSystem) : SerialSystem :=
  { s with
    port := (s.port.copyOut size).2
    reading := Function.update s.reading p none }

/-- `write` of a descriptor of the port; `user` says that the buffer is at user level. -/
def write (p : Pid) (fd size : Nat) (user : Bool) (s : SerialSystem) : SerialAnswer :=
  match s.cells (cell p fd), s.port.write with
  | .port _, some _ => if user then .returns size else .returns (-1)
  | .port _, none => .returns (-enofunc)
  | _, _ => .returns (-einvalid)

/-- `device_copy_fds`. -/
def fork (p child : Pid) (s : SerialSystem) : SerialSystem :=
  let inRow i := maxFd * child ≤ i ∧ i < maxFd * child + maxFd
  { s with
    port := { s.port with refcount := s.port.refcount +
      (List.range maxFd).countP fun fd => s.cells (cell p fd) matches .port _ }
    cells := fun i => if inRow i then s.cells (cell p (i - maxFd * child)) else s.cells i }

end SerialSystem

inductive SerialLabel where
  | open (p : Pid) (flags : OpenFlags)
  | close (p : Pid) (fd : Nat)
  | read (p : Pid) (fd size : Nat)
  | resume (p : Pid)
  | write (p : Pid) (fd size : Nat) (user : Bool)
  | byte (data : Byte)
  | fork (p child : Pid)
  | others

/-- A process in a read takes no other step. Syscalls look at the descriptors up to `MAX_FD`. -/
inductive SerialStep : SerialSystem → SerialLabel → SerialSystem → Prop
  | open {s : SerialSystem} {p flags} : s.reading p = none →
    SerialStep s (.open p flags) (s.open p flags)
  | close {s s' : SerialSystem} {p fd} : s.reading p = none → fd ≤ maxFd → s.close p fd = some s' →
    SerialStep s (.close p fd) s'
  | read {s : SerialSystem} {p fd size} : s.reading p = none → fd ≤ maxFd →
    SerialStep s (.read p fd size) (s.read p fd size).2
  | resume {s : SerialSystem} {p size} : s.reading p = some size → p ∉ s.port.readQueue →
    SerialStep s (.resume p) (s.resume p size)
  | write {s : SerialSystem} {p fd size user} : s.reading p = none → fd ≤ maxFd →
    SerialStep s (.write p fd size user) s
  | byte {s : SerialSystem} {data} :
    SerialStep s (.byte data) { s with port := s.port.readFromSerial data }
  | fork {s : SerialSystem} {p child} : s.reading p = none →
    (∀ fd < maxFd, s.cells (cell child fd) = .free) → SerialStep s (.fork p child) (s.fork p child)
  /-- The other devices come and go. -/
  | others {s : SerialSystem} {cells} :
    (∀ i flags, cells i = .port flags ↔ s.cells i = .port flags) →
    SerialStep s .others { s with cells := cells }

def serialSystem : System SerialSystem SerialLabel where
  init s := s.port = .init ∧ (∀ i flags, s.cells i ≠ .port flags) ∧ ∀ p, s.reading p = none
  step := SerialStep

/-! ## Exclusive opening -/

/-- A descriptor of the port is open, or a process waits in its queue. -/
def SerialSystem.InUse (s : SerialSystem) : Prop :=
  (∃ i flags, s.cells i = .port flags) ∨ s.port.readQueue ≠ []

/-- What a syscall on the port promises. -/
def SerialHonest (s : SerialSystem) : SerialLabel → SerialSystem → Prop
  | .open _ flags, s' => flags.rd ∨ flags.wr →
    (s.InUse → s.port.serialOpen flags = none ∧ s'.port = s.port) ∧
      (¬s.InUse → s.port.serialOpen flags ≠ none)
  | .read p fd size, s' => ∀ flags, s.cells (cell p fd) = .port flags → flags.rd = false →
    s.read p fd size = (.returns (-enofunc), s')
  | .write p fd size user, _ => ∀ flags, s.cells (cell p fd) = .port flags → flags.wr = false →
    s.write p fd size user = .returns (-enofunc)
  | _, _ => True

/-- The port is opened when it is not in use, and with every flag it was opened with before. -/
def SerialOk (s : SerialSystem) : SerialLabel → Prop
  | .open _ flags => flags.rd ∨ flags.wr → ¬s.InUse ∧
      (s.port.read ≠ none → flags.rd) ∧ (s.port.write ≠ none → flags.wr)
  | _ => True

structure SerialSystem.Inv (s : SerialSystem) : Prop where
  klass : s.port.klass = .none
  flush : s.port.flush = none
  rd : ∀ i flags, s.cells i = .port flags → s.port.read ≠ none → flags.rd = true
  wr : ∀ i flags, s.cells i = .port flags → s.port.write ≠ none → flags.wr = true

section
variable {s s' : SerialSystem} {a : SerialLabel} {p : Pid} {fd size : Nat} {flags : OpenFlags}

namespace SerialSystem.Inv

/-- A step that keeps the pointers, and brings no new descriptor. -/
theorem frame (h : s.Inv) (hk : s'.port.klass = s.port.klass) (hf : s'.port.flush = s.port.flush)
    (hr : s'.port.read = s.port.read) (hw : s'.port.write = s.port.write)
    (hcells : ∀ i flags, s'.cells i = .port flags → ∃ j, s.cells j = .port flags) : s'.Inv where
  klass := hk.trans h.klass
  flush := hf.trans h.flush
  rd i flags hi hne := by
    obtain ⟨j, hj⟩ := hcells i flags hi
    exact h.rd j flags hj (hr ▸ hne)
  wr i flags hi hne := by
    obtain ⟨j, hj⟩ := hcells i flags hi
    exact h.wr j flags hj (hw ▸ hne)

theorem serialOpen (h : s.Inv) (flags : OpenFlags) : ∃ d, s.port.serialOpen flags = some d ∧
    d.klass = .none ∧ d.flush = none ∧
    (d.read ≠ none → flags.rd = true ∨ s.port.read ≠ none) ∧
    (d.write ≠ none → flags.wr = true ∨ s.port.write ≠ none) := by
  refine ⟨_, if_neg (by simp [h.klass]), h.klass, h.flush, fun hd => ?_, fun hd => ?_⟩
  · cases hrd : flags.rd with
    | true => exact .inl rfl
    | false => exact .inr (by simpa [hrd] using hd)
  · cases hwr : flags.wr with
    | true => exact .inl rfl
    | false => exact .inr (by simpa [hwr] using hd)

theorem «open» (h : s.Inv) (hok : SerialOk s (.open p flags)) : (s.open p flags).Inv := by
  unfold SerialSystem.open
  split
  · exact h
  case isFalse hflags =>
    obtain ⟨hfree, hrd, hwr⟩ := hok (not_not.mp hflags)
    obtain ⟨d, hd, hk, hf, hdr, hdw⟩ := h.serialOpen flags
    have hnone : ∀ i f, s.cells i ≠ .port f := fun i f hi => hfree (.inl ⟨i, f, hi⟩)
    simp only [hd]
    split
    · exact ⟨hk, hf, fun i f hi => absurd hi (hnone i f), fun i f hi => absurd hi (hnone i f)⟩
    case h_2 fd _ =>
      -- the descriptor that is made is the only one
      have hcell : ∀ i f, Function.update s.cells (cell p fd) (.port flags) i = .port f →
          f = flags := by
        intro i f hi
        rcases eq_or_ne i (cell p fd) with rfl | hne
        · rw [Function.update_self] at hi
          exact (SerialCell.port.inj hi).symm
        · rw [Function.update_of_ne hne] at hi
          exact absurd hi (hnone i f)
      refine ⟨hk, hf, fun i f hi hne => ?_, fun i f hi hne => ?_⟩
      · rw [hcell i f hi]
        exact (hdr hne).elim id hrd
      · rw [hcell i f hi]
        exact (hdw hne).elim id hwr

theorem close (h : s.Inv) (hs : s.close p fd = some s') : s'.Inv := by
  unfold SerialSystem.close at hs
  split at hs
  · split at hs
    · cases hs
    · cases hs
      have hflush : ¬(s.port.refcount - 1 = 0 ∧ s.port.flush ≠ none) := fun hn => hn.2 h.flush
      refine h.frame ?_ ?_ ?_ ?_ fun i f hi => ⟨i, ?_⟩
      iterate 4 simp only [SerialSystem.setCell, if_neg hflush]
      rcases eq_or_ne i (cell p fd) with rfl | hne
      · simp [SerialSystem.setCell] at hi
      · simpa [SerialSystem.setCell, hne] using hi
  · cases hs
    exact h

theorem read (h : s.Inv) : (s.read p fd size).2.Inv := by
  unfold SerialSystem.read
  split
  · split_ifs
    · exact h
    · exact h.frame rfl rfl rfl rfl fun i _ hi => ⟨i, hi⟩
    · exact h.frame rfl rfl rfl rfl fun i _ hi => ⟨i, hi⟩
  · exact h
  · exact h

theorem fork {child : Pid} (h : s.Inv) : (s.fork p child).Inv := by
  refine h.frame rfl rfl rfl rfl fun i f hi => ?_
  simp only [SerialSystem.fork] at hi
  split at hi
  · exact ⟨_, hi⟩
  · exact ⟨i, hi⟩

theorem step (h : s.Inv) (hok : SerialOk s a) (hs : SerialStep s a s') : s'.Inv := by
  cases hs with
  | «open» => exact h.open hok
  | close _ _ hs => exact h.close hs
  | read => exact h.read
  | resume => exact h.frame rfl rfl rfl rfl fun i _ hi => ⟨i, hi⟩
  | write => exact h
  | byte =>
    refine h.frame ?_ ?_ ?_ ?_ fun i _ hi => ⟨i, hi⟩ <;>
      (simp only [SerialPort.readFromSerial]; split <;> rfl)
  | fork => exact h.fork
  | others hcells => exact h.frame rfl rfl rfl rfl fun i f hi => ⟨i, (hcells i f).mp hi⟩

/-- Without the flag the pointer is null. -/
theorem honest (h : s.Inv) (hok : SerialOk s a) (hs : SerialStep s a s') :
    SerialHonest s a s' := by
  cases hs with
  | @«open» p flags =>
    intro hflags
    obtain ⟨hfree, -⟩ := hok hflags
    obtain ⟨d, hd, -⟩ := h.serialOpen flags
    exact ⟨fun hu => absurd hu hfree, fun _ => by rw [hd]; nofun⟩
  | read =>
    intro f hf hrd
    have hnone : s.port.read = none := by
      by_contra hne
      rw [h.rd _ f hf hne] at hrd
      cases hrd
    simp only [SerialSystem.read, hf, hnone]
  | write =>
    intro f hf hwr
    have hnone : s.port.write = none := by
      by_contra hne
      rw [h.wr _ f hf hne] at hwr
      cases hwr
    simp only [SerialSystem.write, hf, hnone]
  | close | resume | byte | fork | others => trivial

end SerialSystem.Inv

theorem serial_inv (h : Reach serialSystem SerialOk s) : s.Inv := by
  refine h.invariant (I := SerialSystem.Inv) ?_ fun hi hok hs => hi.step hok hs
  rintro s ⟨hport, hcells, -⟩
  exact ⟨by rw [hport]; rfl, by rw [hport]; rfl, fun i f hi => absurd hi (hcells i f),
    fun i f hi => absurd hi (hcells i f)⟩

/-- In a run that opens the port only when it is not in use, and with every flag it was opened
with before, every step keeps what the port promises. -/
theorem serial_honest (h : Reach serialSystem SerialOk s) (ha : SerialOk s a)
    (hs : SerialStep s a s') : SerialHonest s a s' :=
  (serial_inv h).honest ha hs

end

def SerialSystem.boot : SerialSystem := ⟨.init, fun _ => .free, fun _ => none⟩

theorem SerialSystem.boot_initial : serialSystem.init .boot := ⟨rfl, nofun, fun _ => rfl⟩

theorem serialSystem_open {ok} {s : SerialSystem} {p : Pid} {flags : OpenFlags}
    (h : Reach serialSystem ok s) (hok : ok s (.open p flags)) (hp : s.reading p = none) :
    Reach serialSystem ok (s.open p flags) :=
  Reach.step (M := serialSystem) h hok (.open hp)

/-- Process 1 opens the port to write, and cannot read from it. -/
theorem serial_honest_writer :
    (SerialSystem.boot.open 1 ⟨false, true⟩).read 1 0 5 =
      (.returns (-enofunc), SerialSystem.boot.open 1 ⟨false, true⟩) := by
  have hok : SerialOk .boot (.open 1 ⟨false, true⟩) := fun _ =>
    ⟨by rintro (⟨i, f, hi⟩ | hq)
        · cases hi
        · exact hq rfl, fun hne => absurd rfl hne, fun _ => rfl⟩
  have hreach := serialSystem_open (.init SerialSystem.boot_initial) hok rfl
  exact serial_honest hreach (a := .read 1 0 5) trivial (.read rfl (by decide)) ⟨false, true⟩ rfl
    rfl

/-- Process 1 opens the port to read and waits. Process 2 opens it too: that succeeds, and empties
the queue that process 1 waits in. -/
theorem queue_discarded : ∃ s : SerialSystem, Reach serialSystem anyStep s ∧
    s.port.readQueue = [1] ∧ (s.open 2 ⟨false, true⟩).port.readQueue = [] ∧
    ¬SerialHonest s (.open 2 ⟨false, true⟩) (s.open 2 ⟨false, true⟩) := by
  have hopen : Reach serialSystem anyStep (SerialSystem.boot.open 1 ⟨true, false⟩) :=
    serialSystem_open (.init SerialSystem.boot_initial) trivial rfl
  have hread : SerialStep (SerialSystem.boot.open 1 ⟨true, false⟩) (.read 1 0 5)
      ((SerialSystem.boot.open 1 ⟨true, false⟩).read 1 0 5).2 := .read rfl (by decide)
  refine ⟨_, Reach.step (M := serialSystem) hopen trivial hread, rfl, rfl, fun hh => ?_⟩
  have := (hh (.inr rfl)).1 (.inr (by decide))
  exact absurd this.1 nofun

end SpuriOS
