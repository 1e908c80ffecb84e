import SpuriOS.User
import SpuriOS.Lib.Circular
import SpuriOS.Lib.Transition
import Mathlib.Logic.Function.Basic

/-! # Pipes (`kernel/pipe.c`)

The array of endpoints with the buffer frames behind it, the calls of `pipe_read` and `pipe_write`
in progress, and the runs of any number of processes over them.

A call is cut at the rounds of its `while` loop. The kernel leaves a call only in
`loader_enqueue`, so its runs are among those here, where any round of any call may come next
whose process does not wait in a queue. The wait queue of an endpoint is the list of the
processes linked in it: `loader_enqueue` appends the caller and `wake_all` unblocks them all.
A process that is in a call has the endpoint open, so `pipe_flush`, which runs when the last
descriptor is closed, finds no call on its endpoint. -/

namespace SpuriOS

/-- `BUFFER_SIZE`. -/
def bufferSize : Nat := 4096

theorem bufferSize_eq : bufferSize = 4096 := rfl

/-- `MAX_ENDPOINTS`. -/
def maxEndpoints : Nat := maxFd * 2

/-- `struct str_pipe`. `read` and `write` say whether the pointer is set, `pair` is the index of
the other endpoint and `buffer` the frame. -/
structure PipeDevice where
  klass : Klass
  read : Bool
  write : Bool
  pair : Nat
  buffer : Nat
  bytesAvailable : Nat
  pos : Nat
  queue : List Pid

/-- The endpoints, the contents of the frames, and the frames in use. -/
structure Pipes where
  endpoints : Nat → PipeDevice
  mem : Nat → Nat → Byte
  held : Nat → Bool

/-- A call of `pipe_read` or `pipe_write` (`writing`) with its arguments and its variable `sz`. -/
structure PipeCall where
  writing : Bool
  self : Nat
  buf : Nat
  size : Nat
  sz : Nat
  user : UserMem

/-- The first `n` bytes of the caller's buffer. -/
def PipeCall.bytes (c : PipeCall) (n : Nat) : List Byte := Circular.slice c.user.byte c.buf n

/-- What a round of the `while` loop ends in. -/
inductive Progress where
  | again
  /-- `loader_enqueue` on the queue of the endpoint. -/
  | block
  | done (result : Int)

namespace Pipes

def modify (s : Pipes) (x : Nat) (f : PipeDevice → PipeDevice) : Pipes :=
  { s with endpoints := Function.update s.endpoints x (f (s.endpoints x)) }

/-- The index of `PAIR(self)`. -/
def partner (s : Pipes) (x : Nat) : Nat := (s.endpoints x).pair

/-- `PAIR(self)`. -/
def pair (s : Pipes) (x : Nat) : PipeDevice := s.endpoints (s.partner x)

end Pipes

section
variable {P : Pipes} {x y : Nat}

@[simp] theorem Pipes.modify_self (f : PipeDevice → PipeDevice) :
    (P.modify x f).endpoints x = f (P.endpoints x) := Function.update_self ..

@[simp] theorem Pipes.modify_of_ne (f : PipeDevice → PipeDevice) (h : y ≠ x) :
    (P.modify x f).endpoints y = P.endpoints y := Function.update_of_ne h ..

@[simp] theorem Pipes.modify_mem (f : PipeDevice → PipeDevice) : (P.modify x f).mem = P.mem := rfl

@[simp] theorem Pipes.modify_held (f : PipeDevice → PipeDevice) : (P.modify x f).held = P.held :=
  rfl

end

def initEndpoint : PipeDevice where
  klass := .pipe
  read := false
  write := false
  pair := 0
  buffer := 0
  bytesAvailable := 0
  pos := 0
  queue := []

/-- The free slots, in the order in which `pipe_open` comes upon them. -/
def freeSlots (s : Pipes) : List Nat :=
  (List.range maxEndpoints).filter fun i => (s.endpoints i).klass = .none

/-- `pipe_open`, where `frame` is what `mm_mem_kalloc` returns when it is called. -/
def pipeOpen (frame : Option Nat) (s : Pipes) : Int × Pipes :=
  match freeSlots s with
  | inp :: out :: _ =>
    match frame with
    | none => (-enomem, s)
    | some buffer =>
      let s := { s with held := Function.update s.held buffer true }
      let s := s.modify inp fun _ => { initEndpoint with buffer, read := true, pair := out }
      let s := s.modify out fun _ => { initEndpoint with buffer, write := true, pair := inp }
      (0, s)
  | _ => (-enomem, s)

/-- The chunk the next round of a read takes. -/
def readSize (s : Pipes) (c : PipeCall) : Nat :=
  min (s.endpoints c.self).bytesAvailable (c.size - c.sz)

/-- The copies of a round of `pipe_read`; both start at `buf`. -/
def readCopy (s : Pipes) (c : PipeCall) (effSize : Nat) : UserMem :=
  let self := s.endpoints c.self
  let buffer := s.mem self.buffer
  if self.pos + effSize > bufferSize then
    let tmp := bufferSize - self.pos
    let u := (copy2user (fun i => buffer (self.pos + i)) c.buf tmp c.user).2
    (copy2user (fun i => buffer (0 + i)) c.buf (effSize - tmp) u).2
  else (copy2user (fun i => buffer (self.pos + i)) c.buf effSize c.user).2

/-- The rest of a round of `pipe_read` that finds something to take. -/
def readMove (s : Pipes) (c : PipeCall) : Pipes :=
  let effSize := readSize s c
  (s.modify c.self fun e =>
    { e with pos := (e.pos + effSize) % bufferSize
             bytesAvailable := e.bytesAvailable - effSize }).modify (s.partner c.self) fun e =>
    { e with bytesAvailable := Word32.sub e.bytesAvailable effSize, queue := [] }

def readCall (s : Pipes) (c : PipeCall) : PipeCall :=
  { c with user := readCopy s c (readSize s c), sz := c.sz + readSize s c }

def pipeReadRound (s : Pipes) (c : PipeCall) : Pipes × PipeCall × Progress :=
  let self := s.endpoints c.self
  if ¬c.sz < c.size then (s, c, .done c.sz)
  else if (s.pair c.self).klass = .none ∧ self.bytesAvailable = 0 then (s, c, .done c.sz)
  else if self.bytesAvailable = 0 then (s, c, .block)
  else (readMove s c, readCall s c, .again)

/-- The chunk the next round of a write puts in. -/
def writeSize (s : Pipes) (c : PipeCall) : Nat :=
  min (Word32.sub bufferSize (s.endpoints c.self).bytesAvailable) (c.size - c.sz)

/-- The copies of a round of `pipe_write`; both start at `buf`. -/
def writeCopy (s : Pipes) (c : PipeCall) (effSize : Nat) : Nat → Byte :=
  let self := s.endpoints c.self
  let buffer := s.mem self.buffer
  let src := fun i => c.user.byte (c.buf + i)
  if self.pos + effSize > bufferSize then
    let tmp := bufferSize - self.pos
    Memory.write (Memory.write buffer self.pos tmp src) 0 (effSize - tmp) src
  else Memory.write buffer self.pos effSize src

/-- The rest of a round of `pipe_write` that finds room. -/
def writeMove (s : Pipes) (c : PipeCall) : Pipes :=
  let effSize := writeSize s c
  let buffer := (s.endpoints c.self).buffer
  ({ s with mem := Function.update s.mem buffer (writeCopy s c effSize) }.modify c.self fun e =>
    { e with pos := (e.pos + effSize) % bufferSize
             bytesAvailable := e.bytesAvailable + effSize }).modify (s.partner c.self) fun e =>
    { e with bytesAvailable := Word32.add e.bytesAvailable effSize, queue := [] }

def writeCall (s : Pipes) (c : PipeCall) : PipeCall := { c with sz := c.sz + writeSize s c }

def pipeWriteRound (s : Pipes) (c : PipeCall) : Pipes × PipeCall × Progress :=
  let self := s.endpoints c.self
  if ¬c.sz < c.size then (s, c, .done c.sz)
  else if (s.pair c.self).klass = .none then (s, c, .done 0)
  else if self.bytesAvailable = bufferSize then (s, c, .block)
  else (writeMove s c, writeCall s c, .again)

def pipeRound (s : Pipes) (c : PipeCall) : Pipes × PipeCall × Progress :=
  if c.writing then pipeWriteRound s c else pipeReadRound s c

def pipeFlush (x : Nat) (s : Pipes) : Pipes :=
  let s := s.modify x fun e => { e with klass := .none }
  let s := s.modify (s.partner x) fun e => { e with queue := [] }
  if (s.pair x).klass = .none then
    { s with held := Function.update s.held (s.endpoints x).buffer false }
  else s

/-- What a round does, case by case. -/
inductive RoundCases (s : Pipes) (c : PipeCall) : Pipes × PipeCall × Progress → Prop
  | full : ¬c.sz < c.size → RoundCases s c (s, c, .done c.sz)
  | readEnd : c.writing = false → c.sz < c.size → (s.pair c.self).klass = .none →
    (s.endpoints c.self).bytesAvailable = 0 → RoundCases s c (s, c, .done c.sz)
  | readBlock : c.writing = false → c.sz < c.size → (s.pair c.self).klass ≠ .none →
    (s.endpoints c.self).bytesAvailable = 0 → RoundCases s c (s, c, .block)
  | readMove : c.writing = false → c.sz < c.size → (s.endpoints c.self).bytesAvailable ≠ 0 →
    RoundCases s c (readMove s c, readCall s c, .again)
  | writeEnd : c.writing = true → c.sz < c.size → (s.pair c.self).klass = .none →
    RoundCases s c (s, c, .done 0)
  | writeBlock : c.writing = true → c.sz < c.size → (s.pair c.self).klass ≠ .none →
    (s.endpoints c.self).bytesAvailable = bufferSize → RoundCases s c (s, c, .block)
  | writeMove : c.writing = true → c.sz < c.size → (s.pair c.self).klass ≠ .none →
    (s.endpoints c.self).bytesAvailable ≠ bufferSize →
    RoundCases s c (writeMove s c, writeCall s c, .again)

theorem pipeRound_cases (s : Pipes) (c : PipeCall) : RoundCases s c (pipeRound s c) := by
  cases hw : c.writing with
  | true =>
    rw [pipeRound, if_pos hw, pipeWriteRound]
    split
    · exact .full ‹_›
    next hsz =>
      rw [Decidable.not_not] at hsz
      split
      · exact .writeEnd hw hsz ‹_›
      · split
        · exact .writeBlock hw hsz ‹_› ‹_›
        · exact .writeMove hw hsz ‹_› ‹_›
  | false =>
    rw [pipeRound, if_neg (by simp [hw]), pipeReadRound]
    split
    · exact .full ‹_›
    next hsz =>
      rw [Decidable.not_not] at hsz
      split
      next hk => exact .readEnd hw hsz hk.1 hk.2
      next hk =>
        split
        next h => exact .readBlock hw hsz (fun h' => hk ⟨h', h⟩) h
        · exact .readMove hw hsz ‹_›

/-! ## Runs -/

/-- What happened so far, told by the number of the pipe, counted from 0 in order of opening. -/
structure PipeHistory where
  opened : Nat
  /-- The pipe an endpoint slot was last used for. -/
  owner : Nat → Nat
  /-- How many ends of a pipe have been closed, and how often its buffer was freed. -/
  closed : Nat → Nat
  freed : Nat → Nat
  /-- For each call that moved something, in the order of the first moves, its buffer: what the
  read has put at `buf[0 .. sz)`, what the write was given at `buf[0 .. size)`. -/
  reads : Nat → List (List Byte)
  writes : Nat → List (List Byte)
  /-- Where the read of a process stands in `reads`. -/
  entry : Pid → Nat

structure PipeSystem where
  pipes : Pipes
  calls : Pid → Option PipeCall
  hist : PipeHistory

inductive PipeLabel where
  | open (frame : Option Nat)
  | start (p : Pid) (c : PipeCall)
  | round (p : Pid)
  | flush (x : Nat)

/-- Endpoint `x` is open. -/
def Pipes.InUse (s : Pipes) (x : Nat) : Prop := x < maxEndpoints ∧ (s.endpoints x).klass ≠ .none

namespace PipeHistory

def open' (h : PipeHistory) (inp out : Nat) : PipeHistory :=
  { h with
    opened := h.opened + 1
    owner := Function.update (Function.update h.owner inp h.opened) out h.opened }

/-- The record of a transfer by process `p`: `c` is its call before and `c'` after. -/
def transfer (h : PipeHistory) (p : Pid) (c c' : PipeCall) : PipeHistory :=
  let k := h.owner c.self
  if c.writing then
    if c.sz = 0 then
      { h with writes := Function.update h.writes k (h.writes k ++ [c.bytes c.size]) }
    else h
  else if c.sz = 0 then
    { h with
      reads := Function.update h.reads k (h.reads k ++ [c'.bytes c'.sz])
      entry := Function.update h.entry p (h.reads k).length }
  else
    { h with reads := Function.update h.reads k ((h.reads k).set (h.entry p) (c'.bytes c'.sz)) }

def flush (h : PipeHistory) (x : Nat) (frees : Bool) : PipeHistory :=
  let k := h.owner x
  { h with
    closed := Function.update h.closed k (h.closed k + 1)
    freed := if frees then Function.update h.freed k (h.freed k + 1) else h.freed }

end PipeHistory

namespace PipeSystem

def open' (s : PipeSystem) (frame : Option Nat) : PipeSystem :=
  { s with
    pipes := (pipeOpen frame s.pipes).2
    hist := match freeSlots s.pipes, frame with
      | inp :: out :: _, some _ => s.hist.open' inp out
      | _, _ => s.hist }

def setCall (s : PipeSystem) (p : Pid) (c : Option PipeCall) : PipeSystem :=
  { s with calls := Function.update s.calls p c }

@[simp] theorem setCall_self {s : PipeSystem} {p : Pid} {c : Option PipeCall} :
    (s.setCall p c).calls p = c := Function.update_self ..

@[simp] theorem setCall_of_ne {s : PipeSystem} {p q : Pid} {c : Option PipeCall} (h : q ≠ p) :
    (s.setCall p c).calls q = s.calls q := Function.update_of_ne h ..

/-- `loader_enqueue(&x->queue)` by process `p`. -/
def enqueue (s : PipeSystem) (x : Nat) (p : Pid) : PipeSystem :=
  { s with pipes := s.pipes.modify x fun e => { e with queue := e.queue ++ [p] } }

/-- A round of process `p` that moved bytes: its call was `c` and is `c'`. -/
def move (s : PipeSystem) (p : Pid) (c c' : PipeCall) (pipes : Pipes) : PipeSystem :=
  { s with pipes, hist := s.hist.transfer p c c' }.setCall p (some c')

@[simp] theorem enqueue_calls {s : PipeSystem} {x : Nat} {p : Pid} :
    (s.enqueue x p).calls = s.calls := rfl

@[simp] theorem move_self {s : PipeSystem} {p : Pid} {c c' : PipeCall} {P : Pipes} :
    (s.move p c c' P).calls p = some c' := Function.update_self ..

@[simp] theorem move_of_ne {s : PipeSystem} {p q : Pid} {c c' : PipeCall} {P : Pipes}
    (h : q ≠ p) : (s.move p c c' P).calls q = s.calls q := Function.update_of_ne h ..

/-- A round of the call `c` of process `p`. -/
def round (s : PipeSystem) (p : Pid) (c : PipeCall) : PipeSystem :=
  match pipeRound s.pipes c with
  | (pipes, c', .again) => s.move p c c' pipes
  | (_, _, .block) => s.enqueue c.self p
  | (_, _, .done _) => s.setCall p none

def flush (s : PipeSystem) (x : Nat) : PipeSystem :=
  { s with
    pipes := pipeFlush x s.pipes
    hist := s.hist.flush x (((pipeFlush x s.pipes).pair x).klass = .none) }

end PipeSystem

/-- What a round does to the system, case by case. -/
theorem PipeSystem.round_cases (s : PipeSystem) (p : Pid) (c : PipeCall) :
    ((¬c.sz < c.size ∨ (s.pipes.pair c.self).klass = .none) ∧ s.round p c = s.setCall p none) ∨
    ((s.pipes.pair c.self).klass ≠ .none ∧ (s.pipes.endpoints c.self).bytesAvailable =
      (if c.writing then bufferSize else 0) ∧ s.round p c = s.enqueue c.self p) ∨
    (c.writing = false ∧ c.sz < c.size ∧ (s.pipes.endpoints c.self).bytesAvailable ≠ 0 ∧
      s.round p c = s.move p c (readCall s.pipes c) (readMove s.pipes c)) ∨
    (c.writing = true ∧ c.sz < c.size ∧ (s.pipes.pair c.self).klass ≠ .none ∧
      (s.pipes.endpoints c.self).bytesAvailable ≠ bufferSize ∧
      s.round p c = s.move p c (writeCall s.pipes c) (writeMove s.pipes c)) := by
  rw [round]
  generalize hr : pipeRound s.pipes c = r
  cases hr ▸ pipeRound_cases s.pipes c with
  | full h => exact .inl ⟨.inl h, rfl⟩
  | readEnd _ _ h | writeEnd _ _ h => exact .inl ⟨.inr h, rfl⟩
  | readBlock hw _ h h0 => exact .inr (.inl ⟨h, by simpa [hw] using h0, rfl⟩)
  | writeBlock hw _ h h0 => exact .inr (.inl ⟨h, by simpa [hw] using h0, rfl⟩)
  | readMove hw hsz h => exact .inr (.inr (.inl ⟨hw, hsz, h, rfl⟩))
  | writeMove hw hsz h h' => exact .inr (.inr (.inr ⟨hw, hsz, h, h', rfl⟩))

theorem PipeSystem.round_read {s : PipeSystem} {p : Pid} {c : PipeCall} (hw : c.writing = false)
    (hsz : c.sz < c.size) (h : (s.pipes.endpoints c.self).bytesAvailable ≠ 0) :
    s.round p c = s.move p c (readCall s.pipes c) (readMove s.pipes c) := by
  simp [round, pipeRound, hw, pipeReadRound, hsz, h]

theorem PipeSystem.round_write {s : PipeSystem} {p : Pid} {c : PipeCall} (hw : c.writing = true)
    (hsz : c.sz < c.size) (hk : (s.pipes.pair c.self).klass ≠ .none)
    (h : (s.pipes.endpoints c.self).bytesAvailable ≠ bufferSize) :
    s.round p c = s.move p c (writeCall s.pipes c) (writeMove s.pipes c) := by
  simp [round, pipeRound, hw, pipeWriteRound, hsz, hk, h]

theorem PipeSystem.round_full {s : PipeSystem} {p : Pid} {c : PipeCall} (hsz : ¬c.sz < c.size) :
    s.round p c = s.setCall p none := by
  simp [round, pipeRound, pipeReadRound, pipeWriteRound, hsz]

theorem PipeSystem.round_empty {s : PipeSystem} {p : Pid} {c : PipeCall} (hw : c.writing = false)
    (hsz : c.sz < c.size) (hk : (s.pipes.pair c.self).klass ≠ .none)
    (h : (s.pipes.endpoints c.self).bytesAvailable = 0) : s.round p c = s.enqueue c.self p := by
  simp [round, pipeRound, hw, pipeReadRound, hsz, hk, h]

inductive PipeStep : PipeSystem → PipeLabel → PipeSystem → Prop
  /-- `mm_mem_kalloc` returns a frame that is not in use. -/
  | open {s : PipeSystem} {frame} : (∀ f, frame = some f → s.pipes.held f = false) →
    PipeStep s (.open frame) (s.open' frame)
  | start {s : PipeSystem} {p c} : s.calls p = none → s.pipes.InUse c.self → c.sz = 0 →
    (if c.writing then (s.pipes.endpoints c.self).write else (s.pipes.endpoints c.self).read) →
    PipeStep s (.start p c) (s.setCall p (some c))
  | round {s : PipeSystem} {p c} : s.calls p = some c → p ∉ (s.pipes.endpoints c.self).queue →
    PipeStep s (.round p) (s.round p c)
  | flush {s : PipeSystem} {x} : s.pipes.InUse x → (∀ p c, s.calls p = some c → c.self ≠ x) →
    PipeStep s (.flush x) (s.flush x)

/-- After `pipe_init`. -/
structure PipeSystem.Initial (s : PipeSystem) : Prop where
  klass : ∀ x < maxEndpoints, (s.pipes.endpoints x).klass = .none
  calls : ∀ p, s.calls p = none
  opened : s.hist.opened = 0
  closed : ∀ k, s.hist.closed k = 0
  freed : ∀ k, s.hist.freed k = 0
  reads : ∀ k, s.hist.reads k = []
  writes : ∀ k, s.hist.writes k = []

def pipeSystem : Transition.System PipeSystem PipeLabel where
  init := PipeSystem.Initial
  step := PipeStep

end SpuriOS
