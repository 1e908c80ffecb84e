import SpuriOS.Serial
import SpuriOS.User
import SpuriOS.Lib.Circular

/-! # What a serial port receives (`kernel/serial.c`)

An open port with one reader. The interrupt handler appends to the buffer, also while the reader
waits and before it runs again, and `serial_read` takes from its front and empties it. -/

namespace SpuriOS

open Transition

/-- A call of `serial_read` with its arguments. -/
structure SerialCall where
  buf : Nat
  size : Nat
  user : UserMem

/-- `serial_read` behind its `loader_enqueue`: the result, the port, and the memory of the
reader. -/
def serialTake (c : SerialCall) (d : SerialPort) : Int × SerialPort × UserMem :=
  let bytesCopied := if c.size < d.ptrTo then c.size else d.ptrTo
  let user := (copy2user d.buffer c.buf bytesCopied c.user).2
  (bytesCopied, { d with ptrTo := 0, bufferFree := true }, user)

/-- The port, the read that waits, the bytes that came when fewer than `SERIAL_BUFFER_LENGTH` were
unread, and the bytes that the reads returned. -/
structure Reception where
  port : SerialPort
  call : Option SerialCall
  received : List Byte
  returned : List Byte

namespace Reception

/-- The bytes that a call puts at `buf`. -/
def taken (c : SerialCall) (d : SerialPort) : List Byte :=
  Circular.slice (serialTake c d).2.2.byte c.buf (serialTake c d).1.toNat

def take (c : SerialCall) (s : Reception) : Reception :=
  { s with
    port := (serialTake c s.port).2.1
    call := none
    returned := s.returned ++ taken c s.port }

def serialRead (reader : Pid) (c : SerialCall) (s : Reception) : Reception :=
  if 0 < c.size then
    if s.port.bufferFree then
      { s with
        port := { s.port with readQueue := s.port.readQueue ++ [reader] }
        call := some c }
    else s.take c
  else s

/-- `read_from_serial` when a byte has come. -/
def receive (data : Byte) (s : Reception) : Reception :=
  { s with
    port := s.port.readFromSerial data
    received := if s.received.length - s.returned.length < serialBufferLength then
        s.received ++ [data]
      else s.received }

end Reception

inductive ReceptionLabel where
  | byte (data : Byte)
  | read (c : SerialCall)
  | resume

inductive ReceptionStep (reader : Pid) : Reception → ReceptionLabel → Reception → Prop
  | byte {s : Reception} {data} : ReceptionStep reader s (.byte data) (s.receive data)
  | read {s : Reception} {c} : s.call = none → c.user.isUser c.buf = true →
    ReceptionStep reader s (.read c) (s.serialRead reader c)
  | resume {s : Reception} {c} : s.call = some c → reader ∉ s.port.readQueue →
    ReceptionStep reader s .resume (s.take c)

/-- The port was just opened. -/
def receptionSystem (reader : Pid) : System Reception ReceptionLabel where
  init s := (∃ flags d, SerialPort.serialOpen flags d = some s.port) ∧ s.call = none ∧
    s.received = [] ∧ s.returned = []
  step := ReceptionStep reader

namespace Reception

/-- A call that copies in the next step of the reader. -/
structure Copies (reader : Pid) (s : Reception) (c : SerialCall) : Prop where
  pos : 0 < c.size
  user : c.user.isUser c.buf = true
  ready : s.call = none ∧ s.port.bufferFree = false ∨ s.call = some c ∧ reader ∉ s.port.readQueue

/-- What was received and not returned yet. -/
def unread (s : Reception) : List Byte := s.received.drop s.returned.length

/-- Nothing that was received is lost. -/
structure Lossless (reader : Pid) (s : Reception) : Prop where
  delivered : s.returned <+: s.received
  kept : s.unread = Circular.slice s.port.buffer 0 s.port.ptrTo
  next : ∀ c, s.Copies reader c → taken c s.port = s.unread.take c.size
  some : ∀ c, s.Copies reader c → 1 ≤ (serialTake c s.port).1

/-- The read takes all that is in the buffer. -/
def Drains (s : Reception) : ReceptionLabel → Prop
  | .byte _ => True
  | .read c => s.port.bufferFree = true ∨ c.size = 0 ∨ s.port.ptrTo ≤ c.size
  | .resume => ∀ c, s.call = some c → s.port.ptrTo ≤ c.size

/-- The buffer holds what is unread, and a reader that was woken finds something. -/
structure Inv (reader : Pid) (s : Reception) : Prop where
  received : s.received = s.returned ++ Circular.slice s.port.buffer 0 s.port.ptrTo
  free : s.port.bufferFree = true ↔ s.port.ptrTo = 0
  idle : s.call = none → s.port.readQueue = []
  call : ∀ c, s.call = some c → 0 < c.size ∧ c.user.isUser c.buf = true ∧
    (s.port.readQueue = [reader] ∨ s.port.readQueue = [] ∧ 0 < s.port.ptrTo)

section
variable {reader : Pid} {s s' : Reception} {a : ReceptionLabel} {c : SerialCall} {d : SerialPort}

theorem bytesCopied_eq (c : SerialCall) (d : SerialPort) :
    (if c.size < d.ptrTo then c.size else d.ptrTo) = min c.size d.ptrTo := by
  rw [Nat.min_def]
  split <;> split <;> omega

theorem serialTake_fst (c : SerialCall) (d : SerialPort) :
    (serialTake c d).1 = (min c.size d.ptrTo : Nat) :=
  congrArg Int.ofNat (bytesCopied_eq c d)

/-- The bytes that go to the reader are the first ones of the buffer. -/
theorem taken_eq (h : c.user.isUser c.buf = true) :
    taken c d = Circular.slice d.buffer 0 (min c.size d.ptrTo) := by
  rw [taken, serialTake_fst, Int.toNat_natCast]
  have hbyte : (serialTake c d).2.2.byte =
      Memory.write c.user.byte c.buf (min c.size d.ptrTo) d.buffer := by
    rw [serialTake]
    dsimp only
    rw [copy2user_eq h, bytesCopied_eq]
  rw [hbyte]
  exact Circular.slice_congr fun i hi => by rw [Memory.write_add hi, Nat.zero_add]

theorem Inv.unread_eq (h : s.Inv reader) :
    s.unread = Circular.slice s.port.buffer 0 s.port.ptrTo := by
  rw [unread, h.received, List.drop_left]

theorem Inv.length (h : s.Inv reader) :
    s.received.length = s.returned.length + s.port.ptrTo := by
  rw [h.received, List.length_append, Circular.length_slice]

theorem Inv.copies (h : s.Inv reader) (hc : s.Copies reader c) : 0 < s.port.ptrTo := by
  rcases hc.ready with ⟨-, hfree⟩ | ⟨hcall, hq⟩
  · refine Nat.pos_of_ne_zero fun h0 => ?_
    rw [h.free.2 h0] at hfree
    cases hfree
  · rcases (h.call c hcall).2.2 with hwait | ⟨-, hpos⟩
    · exact absurd (hwait ▸ List.mem_singleton_self reader) hq
    · exact hpos

theorem slice_take {m : Nat → Byte} {n k : Nat} :
    (Circular.slice m 0 n).take k = Circular.slice m 0 (min k n) := by
  rw [Circular.slice, Circular.slice, ← List.map_take, List.take_range]

theorem Inv.lossless (h : s.Inv reader) : s.Lossless reader where
  delivered := ⟨_, h.received.symm⟩
  kept := h.unread_eq
  next c hc := by rw [taken_eq hc.user, h.unread_eq, slice_take]
  some c hc := by
    have := h.copies hc
    have := hc.pos
    rw [serialTake_fst]
    omega

/-! ## The steps -/

theorem Inv.receive (h : s.Inv reader) (data : Byte) : (s.receive data).Inv reader := by
  have hroom : s.received.length - s.returned.length = s.port.ptrTo := by
    rw [h.length]
    omega
  have hidle : s.call = none → s.port.readQueue.tail = [] := fun hc => by rw [h.idle hc]; rfl
  have hqueue : ∀ c, s.call = some c → s.port.readQueue.tail = [] := fun c hc => by
    rcases (h.call c hc).2.2 with hq | ⟨hq, -⟩ <;> rw [hq] <;> rfl
  by_cases hlt : s.port.ptrTo < serialBufferLength
  · have hbuffer : Circular.slice (Function.update s.port.buffer s.port.ptrTo data) 0
        (s.port.ptrTo + 1) = Circular.slice s.port.buffer 0 s.port.ptrTo ++ [data] := by
      rw [Circular.slice_add]
      refine congrArg₂ _ (Circular.slice_congr fun i hi => Function.update_of_ne (by omega) ..) ?_
      simp [Circular.slice]
    refine ⟨?_, ?_, ?_, fun c hc => ⟨(h.call c hc).1, (h.call c hc).2.1, .inr ⟨?_, ?_⟩⟩⟩ <;>
      simp only [Reception.receive, SerialPort.readFromSerial, hroom, if_pos hlt]
    · rw [hbuffer, h.received, List.append_assoc]
    · simp
    · exact hidle
    · exact hqueue c hc
    · omega
  · refine ⟨?_, ?_, ?_, fun c hc => ⟨(h.call c hc).1, (h.call c hc).2.1, .inr ⟨?_, ?_⟩⟩⟩ <;>
      simp only [Reception.receive, SerialPort.readFromSerial, hroom, if_neg hlt]
    · exact h.received
    · exact h.free
    · exact hidle
    · exact hqueue c hc
    · rw [serialBufferLength] at hlt
      omega

theorem Inv.take (h : s.Inv reader) (huser : c.user.isUser c.buf = true)
    (hq : s.port.readQueue = []) (hle : s.port.ptrTo ≤ c.size) : (s.take c).Inv reader where
  received := by
    simp only [Reception.take, taken_eq huser, Nat.min_eq_right hle, serialTake]
    rw [h.received]
    simp [Circular.slice]
  free := ⟨fun _ => rfl, fun _ => rfl⟩
  idle _ := hq
  call c hc := nomatch hc

/-- A reader that runs is not in the queue. -/
theorem Inv.queue_nil (h : s.Inv reader) (hc : s.call = some c) (hq : reader ∉ s.port.readQueue) :
    s.port.readQueue = [] := by
  rcases (h.call c hc).2.2 with hwait | ⟨hnil, -⟩
  · exact absurd (hwait ▸ List.mem_singleton_self reader) hq
  · exact hnil

theorem Inv.serialRead (h : s.Inv reader) (hcall : s.call = none)
    (huser : c.user.isUser c.buf = true) (hd : s.Drains (.read c)) :
    (s.serialRead reader c).Inv reader := by
  rw [Reception.serialRead]
  split
  next hpos =>
    split
    next hfree =>
      refine ⟨h.received, h.free, (fun hc => nomatch hc), fun c' hc => ?_⟩
      cases hc
      refine ⟨hpos, huser, .inl ?_⟩
      dsimp only
      rw [h.idle hcall, List.nil_append]
    next hbusy =>
      refine h.take huser (h.idle hcall) ?_
      rcases hd with hfree | h0 | hle
      · exact absurd hfree hbusy
      · omega
      · exact hle
  · exact h

theorem Inv.step (h : s.Inv reader) (hd : s.Drains a) (hs : ReceptionStep reader s a s') :
    s'.Inv reader := by
  cases hs with
  | byte => exact h.receive _
  | read hcall huser => exact h.serialRead hcall huser hd
  | @resume c hcall hq => exact h.take (h.call c hcall).2.1 (h.queue_nil hcall hq) (hd c hcall)

theorem inv_of_reach (h : Reach (receptionSystem reader) Drains s) : s.Inv reader := by
  refine h.invariant (I := Inv reader) (fun {s} hinit => ?_) fun hi hd hs => hi.step hd hs
  obtain ⟨⟨flags, d, hopen⟩, hcall, hreceived, hreturned⟩ := hinit
  rw [SerialPort.serialOpen] at hopen
  split at hopen
  · cases hopen
  · have hport := Option.some.inj hopen
    refine ⟨?_, ?_, fun _ => ?_, fun c hc => nomatch hcall.symm.trans hc⟩
    · rw [hreceived, hreturned, ← hport]
      rfl
    · rw [← hport]
      exact ⟨fun _ => rfl, fun _ => rfl⟩
    · rw [← hport]

/-- A read that leaves something in the buffer loses it. -/
theorem Inv.not_lossless (h : s.Inv reader) (huser : c.user.isUser c.buf = true)
    (hlt : c.size < s.port.ptrTo) : ¬(s.take c).Lossless reader := fun hl => by
  have hkept := congrArg List.length hl.kept
  rw [unread, List.length_drop, Circular.length_slice] at hkept
  have hlen : (s.take c).returned.length = s.returned.length + c.size := by
    rw [Reception.take, List.length_append, taken_eq huser, Circular.length_slice,
      Nat.min_eq_left (Nat.le_of_lt hlt)]
  have hrec : (s.take c).received.length = s.returned.length + s.port.ptrTo := h.length
  have hptr : (s.take c).port.ptrTo = 0 := rfl
  omega

/-- A step of a run that lost nothing loses something if and only if it is a read that leaves
something in the buffer. -/
theorem Inv.step_iff (h : s.Inv reader) (hs : ReceptionStep reader s a s') :
    s'.Lossless reader ↔ s.Drains a := by
  refine ⟨fun hl => ?_, fun hd => (h.step hd hs).lossless⟩
  cases hs with
  | byte => trivial
  | @read c hcall huser =>
    by_contra hd
    obtain ⟨hbusy, h0, hlt⟩ : ¬s.port.bufferFree = true ∧ c.size ≠ 0 ∧ c.size < s.port.ptrTo := by
      simpa only [Drains, not_or, Nat.not_le] using hd
    rw [Reception.serialRead, if_pos (Nat.pos_of_ne_zero h0), if_neg hbusy] at hl
    exact h.not_lossless huser hlt hl
  | @resume c hcall hq =>
    intro c' hc
    obtain rfl : c = c' := Option.some.inj (hcall.symm.trans hc)
    by_contra hlt
    exact h.not_lossless (h.call c hcall).2.1 (Nat.lt_of_not_le hlt) hl

end

end Reception

/-- In the runs whose reads take all that is in the buffer nothing is lost, and the first read
that does not loses what it leaves. -/
theorem serial_reception (reader : Pid) :
    (∀ s, Reach (receptionSystem reader) Reception.Drains s → s.Lossless reader) ∧
      ∀ s a s', Reach (receptionSystem reader) Reception.Drains s →
        ReceptionStep reader s a s' → (s'.Lossless reader ↔ s.Drains a) :=
  ⟨fun _ h => (Reception.inv_of_reach h).lossless,
    fun _ _ _ h hs => (Reception.inv_of_reach h).step_iff hs⟩

theorem reception_byte {ok : Reception → ReceptionLabel → Prop} {reader : Pid} {s : Reception}
    {data : Byte} (h : Reach (receptionSystem reader) ok s) (hok : ok s (.byte data)) :
    Reach (receptionSystem reader) ok (s.receive data) :=
  Reach.step (M := receptionSystem reader) h hok .byte

theorem reception_read {ok : Reception → ReceptionLabel → Prop} {reader : Pid} {s : Reception}
    {c : SerialCall} (h : Reach (receptionSystem reader) ok s) (hok : ok s (.read c))
    (hcall : s.call = none) (huser : c.user.isUser c.buf = true) :
    Reach (receptionSystem reader) ok (s.serialRead reader c) :=
  Reach.step (M := receptionSystem reader) h hok (.read hcall huser)

/-- Two bytes come and a read of four returns both, and then a third one comes. -/
theorem serial_reception_read : ∃ s : Reception, s.received = [1, 2, 3] ∧ s.returned = [1, 2] ∧
    s.Lossless 1 := by
  obtain ⟨d, hd⟩ : ∃ d, SerialPort.serialOpen ⟨true, false⟩ .init = some d := ⟨_, rfl⟩
  let call : SerialCall := ⟨0, 4, ⟨fun _ => 0, fun _ => true⟩⟩
  let s₁ := ((⟨d, none, [], []⟩ : Reception).receive 1).receive 2
  have hinit : Reach (receptionSystem 1) Reception.Drains ⟨d, none, [], []⟩ :=
    .init ⟨⟨⟨true, false⟩, .init, hd⟩, rfl, rfl, rfl⟩
  have h₁ : Reach (receptionSystem 1) Reception.Drains s₁ :=
    reception_byte (reception_byte hinit trivial) trivial
  have hdrains : s₁.Drains (.read call) := by
    cases hd
    exact .inr (.inr (by decide))
  have hrun := @reception_byte _ _ _ 3 (reception_read h₁ hdrains rfl rfl) trivial
  refine ⟨_, ?_, ?_, (serial_reception 1).1 _ hrun⟩
  · cases hd
    rfl
  · cases hd
    rfl

/-- Two bytes come and one is read, a third one comes and one is read: the first and the third are
returned. -/
theorem partial_read_loses : ∃ s : Reception, Reach (receptionSystem 1) anyStep s ∧
    s.received = [1, 2, 3] ∧ s.returned = [1, 3] ∧ ¬s.Lossless 1 := by
  obtain ⟨d, hd⟩ : ∃ d, SerialPort.serialOpen ⟨true, false⟩ .init = some d := ⟨_, rfl⟩
  let call : SerialCall := ⟨0, 1, ⟨fun _ => 0, fun _ => true⟩⟩
  let s₀ : Reception := ⟨d, none, [], []⟩
  let s₁ := (s₀.receive 1).receive 2
  let s₃ := (s₁.serialRead 1 call).receive 3
  have h₀ : Reach (receptionSystem 1) anyStep s₀ :=
    .init ⟨⟨⟨true, false⟩, .init, hd⟩, rfl, rfl, rfl⟩
  have h₁ : Reach (receptionSystem 1) anyStep s₁ :=
    reception_byte (reception_byte h₀ trivial) trivial
  have h₃ : Reach (receptionSystem 1) anyStep s₃ :=
    reception_byte (reception_read (c := call) h₁ trivial rfl rfl) trivial
  have hreturned : (s₃.serialRead 1 call).returned = [1, 3] := by
    cases hd
    rfl
  have hreceived : (s₃.serialRead 1 call).received = [1, 2, 3] := by
    cases hd
    rfl
  have hcall : s₃.call = none := by
    cases hd
    rfl
  refine ⟨_, reception_read (c := call) h₃ trivial hcall rfl, hreceived, hreturned, fun hl => ?_⟩
  have hprefix := hl.delivered
  rw [hreturned, hreceived] at hprefix
  exact absurd hprefix (by decide)

end SpuriOS
