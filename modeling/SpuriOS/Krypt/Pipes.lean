import SpuriOS.Krypt.Model

/-! # The pipes of krypt

Where a process is in its program says which descriptors it has and which call it is in. `Plumbing`
says that the two pipes are as the three processes have it, and each kind of step (a round, a close,
a `fork`, an open) keeps it by one lemma. -/

namespace SpuriOS

/-! ## What the next system call tells -/

namespace KryptReadPc

/-- How many descriptors of `pipe_read2enc[0]` the process has. -/
def in1 : KryptReadPc → Nat
  | .fork | .closeIn => 1
  | _ => 0

/-- How many descriptors of `pipe_read2enc[1]` the process has. -/
def out1 : KryptReadPc → Nat
  | .pipe | .noPipe | .done _ => 0
  | _ => 1

def isFork : KryptReadPc → Bool
  | .fork => true
  | _ => false

theorem isFork_iff {pc : KryptReadPc} : pc.isFork = true ↔ pc = .fork := by
  cases pc <;> simp [isFork]

def call : KryptReadPc → Option PipeCall
  | .write c => some c
  | _ => none

def shape (pc : KryptReadPc) : Nat × Nat × Bool := (pc.in1, pc.out1, pc.isFork)

end KryptReadPc

namespace KryptEncryptPc

def in1 : KryptEncryptPc → Nat
  | .absent | .noPipe | .done _ => 0
  | _ => 1

def out1 : KryptEncryptPc → Nat
  | .closeOut1 => 1
  | _ => 0

/-- How many descriptors of `pipe_enc2write[0]` the process has. -/
def in2 : KryptEncryptPc → Nat
  | .fork | .closeIn2 => 1
  | _ => 0

/-- How many descriptors of `pipe_enc2write[1]` the process has. -/
def out2 : KryptEncryptPc → Nat
  | .fork | .closeIn2 | .palloc | .start | .read _ | .crypt _ | .write _ | .closeOut2 _ => 1
  | _ => 0

/-- There is a `pipe_enc2write`. -/
def opened : KryptEncryptPc → Bool
  | .absent | .closeOut1 | .pipe | .exit | .noPipe => false
  | _ => true

def isAbsent : KryptEncryptPc → Bool
  | .absent => true
  | _ => false

theorem isAbsent_iff {pc : KryptEncryptPc} : pc.isAbsent = true ↔ pc = .absent := by
  cases pc <;> simp [isAbsent]

def isFork : KryptEncryptPc → Bool
  | .fork => true
  | _ => false

def inCall : KryptEncryptPc → Option PipeCall
  | .read c => some c
  | _ => none

def outCall : KryptEncryptPc → Option PipeCall
  | .write c => some c
  | _ => none

def shape (pc : KryptEncryptPc) : Nat × Nat × Nat × Nat × Bool × Bool × Bool :=
  (pc.in1, pc.out1, pc.in2, pc.out2, pc.opened, pc.isAbsent, pc.isFork)

end KryptEncryptPc

namespace KryptWritePc

def in1 : KryptWritePc → Nat
  | .closeIn1 => 1
  | _ => 0

def in2 : KryptWritePc → Nat
  | .absent | .done _ => 0
  | _ => 1

def out2 : KryptWritePc → Nat
  | .closeIn1 | .closeOut2 => 1
  | _ => 0

def isAbsent : KryptWritePc → Bool
  | .absent => true
  | _ => false

theorem isAbsent_iff {pc : KryptWritePc} : pc.isAbsent = true ↔ pc = .absent := by
  cases pc <;> simp [isAbsent]

def call : KryptWritePc → Option PipeCall
  | .read c => some c
  | _ => none

def shape (pc : KryptWritePc) : Nat × Nat × Nat × Bool := (pc.in1, pc.in2, pc.out2, pc.isAbsent)

end KryptWritePc

namespace Krypt

def in1 (s : Krypt) : Nat := s.read.pc.in1 + s.encrypt.pc.in1 + s.write.pc.in1

def out1 (s : Krypt) : Nat := s.read.pc.out1 + s.encrypt.pc.out1

def in2 (s : Krypt) : Nat := s.encrypt.pc.in2 + s.write.pc.in2

def out2 (s : Krypt) : Nat := s.encrypt.pc.out2 + s.write.pc.out2

/-- The pipes are as the processes have it, with `q₁` and `q₂` in them. `held` are the frames that
others use. -/
structure Plumbing (held : Nat → Bool) (s : Krypt) (q₁ q₂ : List Byte) (short₁ short₂ : Bool) :
    Prop where
  fds₁ : s.pipeRead2enc = (0, 1)
  refs₁ : s.refcount 0 = s.in1 ∧ s.refcount 1 = s.out1
  line₁ : Line s.pipes s.refcount 0 1 KryptRole.encrypt.pid KryptRole.read.pid
    s.encrypt.pc.inCall s.read.pc.call q₁ short₁
  fds₂ : s.encrypt.pc.opened = true → s.pipeEnc2write = (2, 3)
  refs₂ : s.encrypt.pc.opened = true → s.refcount 2 = s.in2 ∧ s.refcount 3 = s.out2
  line₂ : s.encrypt.pc.opened = true → Line s.pipes s.refcount 2 3 KryptRole.write.pid
    KryptRole.encrypt.pid s.write.pc.call s.encrypt.pc.outCall q₂ short₂
  frames : s.encrypt.pc.opened = true →
    (s.pipes.endpoints 2).buffer ≠ (s.pipes.endpoints 0).buffer
  unopened : s.encrypt.pc.opened = false → q₂ = [] ∧ short₂ = false
  free : ∀ x < maxEndpoints, 2 ≤ x → (s.encrypt.pc.opened = true → 4 ≤ x) →
    (s.pipes.endpoints x).klass = .none
  born₁ : s.encrypt.pc.isAbsent = s.read.pc.isFork
  born₂ : s.write.pc.isAbsent = (!s.encrypt.pc.opened || s.encrypt.pc.isFork)
  fresh₁ : held (s.pipes.endpoints 0).buffer = false
  fresh₂ : s.encrypt.pc.opened = true → held (s.pipes.endpoints 2).buffer = false
  kept : ∀ g, g ≠ (s.pipes.endpoints 0).buffer →
    (s.encrypt.pc.opened = true → g ≠ (s.pipes.endpoints 2).buffer) → s.pipes.held g = held g

/-! ## Rounds -/

section
variable {s s' : Krypt} {p : Pid} {c c' : PipeCall} {P : Pipes} {sz : Int}
  {goOn : PipeCall → Krypt → Krypt} {return' : Int → Krypt → Krypt}

theorem call_free (h : s.call p c goOn return' = some s') :
    p ∉ (s.pipes.endpoints c.self).queue := by
  intro hq
  rw [call, if_pos hq] at h
  cases h

theorem mem_of_call (h : s.call p c goOn return' = none) :
    p ∈ (s.pipes.endpoints c.self).queue := by
  refine Decidable.not_not.1 fun hq => ?_
  rw [call, if_neg hq] at h
  cases h

theorem call_again (hq : p ∉ (s.pipes.endpoints c.self).queue)
    (h : pipeRound s.pipes c = (P, c', .again)) :
    s.call p c goOn return' = some (goOn c' { s with pipes := P }) := by
  rw [call, if_neg hq, h]

theorem call_block (hq : p ∉ (s.pipes.endpoints c.self).queue)
    (h : pipeRound s.pipes c = (P, c', .block)) :
    s.call p c goOn return' = some { s with pipes := s.pipes.enqueue c.self p } := by
  rw [call, if_neg hq, h]

theorem call_done (hq : p ∉ (s.pipes.endpoints c.self).queue)
    (h : pipeRound s.pipes c = (P, c', .done sz)) :
    s.call p c goOn return' = some (return' sz s) := by
  rw [call, if_neg hq, h]

end

end Krypt

theorem Moved.refl (P : Pipes) (r w : Nat) : Moved P P r w :=
  ⟨⟨fun _ _ _ => rfl, fun _ => rfl, fun _ _ => rfl, fun _ _ => rfl⟩, fun _ => rfl, rfl⟩

theorem Krypt.openPipe_none {s : Krypt} : s.openPipe none = none := by
  rw [openPipe]
  rintro inp out rest f - h
  cases h

/-- The free slots, when those in use come first. -/
theorem freeSlots_from {P : Pipes} {k : Nat} (hk : k + 2 ≤ maxEndpoints)
    (hused : ∀ x < k, (P.endpoints x).klass ≠ .none)
    (hfree : ∀ x < maxEndpoints, k ≤ x → (P.endpoints x).klass = .none) :
    ∃ rest, freeSlots P = k :: (k + 1) :: rest := by
  obtain ⟨n, hn⟩ : ∃ n, maxEndpoints = k + (n + 2) := ⟨maxEndpoints - (k + 2), by omega⟩
  have hnone : (List.range k).filter (fun i => (P.endpoints i).klass = .none) = [] :=
    List.filter_eq_nil_iff.2 fun x hx => by
      rw [decide_eq_true_iff]
      exact hused x (List.mem_range.1 hx)
  have hall : ((List.range (n + 2)).map (k + ·)).filter
      (fun i => (P.endpoints i).klass = .none) = (List.range (n + 2)).map (k + ·) := by
    refine List.filter_eq_self.2 fun x hx => decide_eq_true ?_
    obtain ⟨i, hi, rfl⟩ := List.mem_map.1 hx
    have := List.mem_range.1 hi
    exact hfree _ (by omega) (by omega)
  refine ⟨((List.range n).map (· + 2)).map (k + ·), ?_⟩
  rw [freeSlots, hn, List.range_add, List.filter_append, hnone, hall, List.nil_append,
    Nat.add_comm n 2, List.range_add]
  simp only [List.map_append, List.map_map]
  refine congrArg (k :: (k + 1) :: ·) (List.map_congr_left fun i _ => ?_)
  simp only [Function.comp_apply]
  omega

/-- The state of the table after `pipe_open` gave the slots `inp` and `out` to a new pipe. -/
structure PipeOpened (P P' : Pipes) (f inp out : Nat) : Prop where
  readEnd : P'.endpoints inp = { initEndpoint with buffer := f, read := true, pair := out }
  writeEnd : P'.endpoints out = { initEndpoint with buffer := f, write := true, pair := inp }
  endpoints : ∀ x, x ≠ inp → x ≠ out → P'.endpoints x = P.endpoints x
  mem : P'.mem = P.mem
  held : P'.held = Function.update P.held f true

theorem pipeOpen_opened {P : Pipes} {f inp out : Nat} {rest : List Nat}
    (h : freeSlots P = inp :: out :: rest) :
    PipeOpened P (pipeOpen (some f) P).2 f inp out := by
  have hne := (freeSlots_spec h).2.2
  simp only [pipeOpen, h]
  refine ⟨?_, Pipes.modify_self _, fun x hx hx' => ?_, rfl, rfl⟩
  · rw [Pipes.modify_of_ne _ hne, Pipes.modify_self]
  · rw [Pipes.modify_of_ne _ hx', Pipes.modify_of_ne _ hx]

namespace Krypt.Plumbing

variable {held : Nat → Bool} {s : Krypt} {q₁ q₂ q : List Byte} {short₁ short₂ short : Bool}
  {P : Pipes} {r : KryptRead} {e : KryptEncrypt} {w : KryptWrite} {x : Nat}

/-- Neither the file nor the serial port is a pipe. -/
theorem io (h : s.Plumbing held q₁ q₂ short₁ short₂) (file : Session) (serial : List Byte) :
    Plumbing held { s with file, serial } q₁ q₂ short₁ short₂ :=
  { h with fds₁ := h.fds₁ }

/-- A step of the calls on `pipe_read2enc`. -/
theorem moved₁ (h : s.Plumbing held q₁ q₂ short₁ short₂) (hm : Moved s.pipes P 0 1)
    (hr : r.pc.shape = s.read.pc.shape) (he : e.pc.shape = s.encrypt.pc.shape)
    (hout : e.pc.outCall = s.encrypt.pc.outCall)
    (hl : Line P s.refcount 0 1 KryptRole.encrypt.pid KryptRole.read.pid e.pc.inCall r.pc.call q
      short) :
    Plumbing held { s with pipes := P, read := r, encrypt := e } q q₂ short short₂ := by
  simp only [KryptReadPc.shape, KryptEncryptPc.shape, Prod.mk.injEq] at hr he
  obtain ⟨hr₁, hr₂, hr₃⟩ := hr
  obtain ⟨he₁, he₂, he₃, he₄, he₅, he₆, he₇⟩ := he
  refine {
    fds₁ := h.fds₁, refs₁ := ?_, line₁ := hl, fds₂ := he₅ ▸ h.fds₂, refs₂ := ?_, line₂ := ?_
    frames := ?_, unopened := he₅ ▸ h.unopened, free := ?_, born₁ := ?_, born₂ := ?_, fresh₁ := ?_
    fresh₂ := ?_, kept := ?_ }
  · simp only [in1, out1, hr₁, hr₂, he₁, he₂]
    exact h.refs₁
  · simp only [in2, out2, he₃, he₄, he₅]
    exact h.refs₂
  · dsimp only
    rw [he₅, hout]
    exact fun ho => (h.line₂ ho).elsewhere hm.toElsewhere (by decide) (by decide) (h.frames ho)
      ⟨rfl, rfl⟩
  · dsimp only
    rw [he₅, hm.buffer, hm.buffer]
    exact h.frames
  · dsimp only
    intro x hx h2 ho
    rw [hm.klass]
    exact h.free x hx h2 (he₅ ▸ ho)
  · dsimp only
    rw [he₆, hr₃]
    exact h.born₁
  · dsimp only
    rw [he₅, he₇]
    exact h.born₂
  · dsimp only
    rw [hm.buffer]
    exact h.fresh₁
  · dsimp only
    rw [he₅, hm.buffer]
    exact h.fresh₂
  · dsimp only
    rw [he₅, hm.buffer, hm.buffer, hm.held_eq]
    exact h.kept

/-- A step of the calls on `pipe_enc2write`. -/
theorem moved₂ (h : s.Plumbing held q₁ q₂ short₁ short₂) (hm : Moved s.pipes P 2 3)
    (he : e.pc.shape = s.encrypt.pc.shape) (hw : w.pc.shape = s.write.pc.shape)
    (hin : e.pc.inCall = s.encrypt.pc.inCall) (ho : s.encrypt.pc.opened = true)
    (hl : Line P s.refcount 2 3 KryptRole.write.pid KryptRole.encrypt.pid w.pc.call e.pc.outCall q
      short) :
    Plumbing held { s with pipes := P, encrypt := e, write := w } q₁ q short₁ short := by
  simp only [KryptWritePc.shape, KryptEncryptPc.shape, Prod.mk.injEq] at hw he
  obtain ⟨hw₁, hw₂, hw₃, hw₄⟩ := hw
  obtain ⟨he₁, he₂, he₃, he₄, he₅, he₆, he₇⟩ := he
  refine {
    fds₁ := h.fds₁, refs₁ := ?_, line₁ := ?_, fds₂ := he₅ ▸ h.fds₂, refs₂ := ?_
    line₂ := fun _ => hl, frames := ?_, unopened := ?_, free := ?_, born₁ := ?_, born₂ := ?_
    fresh₁ := ?_, fresh₂ := ?_, kept := ?_ }
  · simp only [in1, out1, hw₁, he₁, he₂]
    exact h.refs₁
  · dsimp only
    rw [hin]
    exact h.line₁.elsewhere hm.toElsewhere (by decide) (by decide) (h.frames ho).symm ⟨rfl, rfl⟩
  · simp only [in2, out2, he₃, he₄, he₅, hw₂, hw₃]
    exact h.refs₂
  · dsimp only
    rw [he₅, hm.buffer, hm.buffer]
    exact h.frames
  · dsimp only
    rw [he₅, ho]
    exact fun hno => absurd hno.symm Bool.false_ne_true
  · dsimp only
    intro x hx h2 ho
    rw [hm.klass]
    exact h.free x hx h2 (he₅ ▸ ho)
  · dsimp only
    rw [he₆]
    exact h.born₁
  · dsimp only
    rw [hw₄, he₅, he₇]
    exact h.born₂
  · dsimp only
    rw [hm.buffer]
    exact h.fresh₁
  · dsimp only
    rw [he₅, hm.buffer]
    exact h.fresh₂
  · dsimp only
    rw [he₅, hm.buffer, hm.buffer, hm.held_eq]
    exact h.kept

/-! ## Descriptors -/

/-- A close of an end of `pipe_read2enc`. -/
theorem closed₁ (h : s.Plumbing held q₁ q₂ short₁ short₂)
    (hr : (r.pc.isFork, r.pc.call) = (s.read.pc.isFork, s.read.pc.call))
    (he : (e.pc.in2, e.pc.out2, e.pc.opened, e.pc.isAbsent, e.pc.isFork, e.pc.inCall,
      e.pc.outCall) = (s.encrypt.pc.in2, s.encrypt.pc.out2, s.encrypt.pc.opened,
      s.encrypt.pc.isAbsent, s.encrypt.pc.isFork, s.encrypt.pc.inCall, s.encrypt.pc.outCall))
    (hw : (w.pc.in2, w.pc.out2, w.pc.isAbsent, w.pc.call) =
      (s.write.pc.in2, s.write.pc.out2, s.write.pc.isAbsent, s.write.pc.call))
    (hx : (x = 0 ∧ r.pc.in1 + e.pc.in1 + w.pc.in1 + 1 = s.in1 ∧ r.pc.out1 + e.pc.out1 = s.out1 ∧
        (s.in1 = 1 → s.encrypt.pc.inCall = none)) ∨
      (x = 1 ∧ r.pc.in1 + e.pc.in1 + w.pc.in1 = s.in1 ∧ r.pc.out1 + e.pc.out1 + 1 = s.out1 ∧
        (s.out1 = 1 → s.read.pc.call = none))) :
    Plumbing held { s.close x with read := r, encrypt := e, write := w } q₁ q₂ short₁ short₂ := by
  simp only [Prod.mk.injEq] at hr he hw
  obtain ⟨hr₁, hr₂⟩ := hr
  obtain ⟨he₁, he₂, he₃, he₄, he₅, he₆, he₇⟩ := he
  obtain ⟨hw₁, hw₂, hw₃, hw₄⟩ := hw
  obtain ⟨href₀, href₁⟩ := h.refs₁
  have hclose : (x = 0 ∧ (s.refcount 0 = 1 → s.encrypt.pc.inCall = none)) ∨
      (x = 1 ∧ (s.refcount 1 = 1 → s.read.pc.call = none)) := by
    rw [href₀, href₁]
    exact hx.imp (fun h => ⟨h.1, h.2.2.2⟩) fun h => ⟨h.1, h.2.2.2⟩
  have hpositive : s.refcount x ≠ 0 := by
    obtain ⟨rfl, hin, -⟩ | ⟨rfl, -, hout, -⟩ := hx
    · rw [href₀]; omega
    · rw [href₁]; omega
  have hlt : x < 2 := by
    obtain ⟨rfl, -⟩ | ⟨rfl, -⟩ := hx <;> decide
  obtain ⟨hline, hm⟩ := h.line₁.close hclose hpositive
  have hends : ∀ y, 2 ≤ y →
      (s.pipes.closeEnd s.refcount x).endpoints y = s.pipes.endpoints y := fun y hy =>
    hm.endpoints y (by omega) (by omega)
  have hrefs : ∀ y, 2 ≤ y → dropRef s.refcount x y = s.refcount y := fun y hy =>
    dropRef_of_ne (by omega)
  refine {
    fds₁ := h.fds₁, refs₁ := ?_, line₁ := ?_, fds₂ := he₃ ▸ h.fds₂, refs₂ := ?_, line₂ := ?_
    frames := ?_, unopened := he₃ ▸ h.unopened, free := ?_, born₁ := ?_, born₂ := ?_, fresh₁ := ?_
    fresh₂ := ?_, kept := ?_ }
  · simp only [in1, out1, close]
    obtain ⟨rfl, hin, hout, -⟩ | ⟨rfl, hin, hout, -⟩ := hx
    · rw [dropRef_self, dropRef_of_ne (by decide), href₀, href₁]
      omega
    · rw [dropRef_self, dropRef_of_ne (by decide), href₀, href₁]
      omega
  · simp only [close, he₆, hr₂]
    exact hline
  · simp only [in2, out2, close, he₁, he₂, he₃, hw₁, hw₂, hrefs 2 (by decide),
      hrefs 3 (by decide)]
    exact h.refs₂
  · simp only [close, he₃, he₇, hw₄]
    exact fun ho => (h.line₂ ho).elsewhere hm (by decide) (by decide) (h.frames ho)
      ⟨hrefs 2 (by decide), hrefs 3 (by decide)⟩
  · simp only [close, he₃, hm.buffer]
    exact h.frames
  · intro y hy h2 ho
    simp only [close, hends y h2]
    exact h.free y hy h2 (he₃ ▸ ho)
  · simp only [he₄, hr₁]
    exact h.born₁
  · simp only [hw₃, he₃, he₅]
    exact h.born₂
  · simp only [close, hm.buffer]
    exact h.fresh₁
  · simp only [close, he₃, hm.buffer]
    exact h.fresh₂
  · simp only [close, he₃, hm.buffer]
    exact fun g hg hg' => (hm.held g hg).trans (h.kept g hg hg')

/-- A close of an end of `pipe_enc2write`. -/
theorem closed₂ (h : s.Plumbing held q₁ q₂ short₁ short₂) (ho : s.encrypt.pc.opened = true)
    (he : (e.pc.in1, e.pc.out1, e.pc.opened, e.pc.isAbsent, e.pc.isFork, e.pc.inCall,
      e.pc.outCall) = (s.encrypt.pc.in1, s.encrypt.pc.out1, s.encrypt.pc.opened,
      s.encrypt.pc.isAbsent, s.encrypt.pc.isFork, s.encrypt.pc.inCall, s.encrypt.pc.outCall))
    (hw : (w.pc.in1, w.pc.isAbsent, w.pc.call) =
      (s.write.pc.in1, s.write.pc.isAbsent, s.write.pc.call))
    (hx : (x = 2 ∧ e.pc.in2 + w.pc.in2 + 1 = s.in2 ∧ e.pc.out2 + w.pc.out2 = s.out2 ∧
        (s.in2 = 1 → s.write.pc.call = none)) ∨
      (x = 3 ∧ e.pc.in2 + w.pc.in2 = s.in2 ∧ e.pc.out2 + w.pc.out2 + 1 = s.out2 ∧
        (s.out2 = 1 → s.encrypt.pc.outCall = none))) :
    Plumbing held { s.close x with encrypt := e, write := w } q₁ q₂ short₁ short₂ := by
  simp only [Prod.mk.injEq] at he hw
  obtain ⟨he₁, he₂, he₃, he₄, he₅, he₆, he₇⟩ := he
  obtain ⟨hw₁, hw₂, hw₃⟩ := hw
  obtain ⟨href₂, href₃⟩ := h.refs₂ ho
  have hclose : (x = 2 ∧ (s.refcount 2 = 1 → s.write.pc.call = none)) ∨
      (x = 3 ∧ (s.refcount 3 = 1 → s.encrypt.pc.outCall = none)) := by
    rw [href₂, href₃]
    exact hx.imp (fun h => ⟨h.1, h.2.2.2⟩) fun h => ⟨h.1, h.2.2.2⟩
  have hpositive : s.refcount x ≠ 0 := by
    obtain ⟨rfl, hin, -⟩ | ⟨rfl, -, hout, -⟩ := hx
    · rw [href₂]; omega
    · rw [href₃]; omega
  have hends : x = 2 ∨ x = 3 := hx.imp And.left And.left
  obtain ⟨hline, hm⟩ := (h.line₂ ho).close hclose hpositive
  have hrefs : ∀ y, y < 2 → dropRef s.refcount x y = s.refcount y := fun y hy =>
    dropRef_of_ne (by omega)
  refine {
    fds₁ := h.fds₁, refs₁ := ?_, line₁ := ?_, fds₂ := he₃ ▸ h.fds₂, refs₂ := ?_, line₂ := ?_
    frames := ?_, unopened := ?_, free := ?_, born₁ := ?_, born₂ := ?_, fresh₁ := ?_
    fresh₂ := ?_, kept := ?_ }
  · simp only [in1, out1, close, he₁, he₂, hw₁, hrefs 0 (by decide), hrefs 1 (by decide)]
    exact h.refs₁
  · simp only [close, he₆]
    exact h.line₁.elsewhere hm (by decide) (by decide) (h.frames ho).symm
      ⟨hrefs 0 (by decide), hrefs 1 (by decide)⟩
  · intro _
    simp only [in2, out2, close]
    obtain ⟨rfl, hin, hout, -⟩ | ⟨rfl, hin, hout, -⟩ := hx
    · rw [dropRef_self, dropRef_of_ne (by decide), href₂, href₃]
      omega
    · rw [dropRef_self, dropRef_of_ne (by decide), href₂, href₃]
      omega
  · simp only [close, he₇, hw₃]
    exact fun _ => hline
  · simp only [close, he₃, hm.buffer]
    exact h.frames
  · dsimp only
    rw [he₃, ho]
    exact fun hno => absurd hno.symm Bool.false_ne_true
  · intro y hy h2 h4
    have h4 : 4 ≤ y := h4 (he₃.trans ho)
    simp only [close, hm.endpoints y (by omega) (by omega)]
    exact h.free y hy h2 fun _ => h4
  · simp only [he₄]
    exact h.born₁
  · simp only [hw₂, he₃, he₅]
    exact h.born₂
  · simp only [close, hm.buffer]
    exact h.fresh₁
  · simp only [close, he₃, hm.buffer]
    exact h.fresh₂
  · simp only [close, he₃, hm.buffer]
    intro g hg hg'
    exact (hm.held g (hg' ho)).trans (h.kept g hg hg')

/-- The first `fork`: the child has both ends of `pipe_read2enc` too. -/
theorem forked₁ (h : s.Plumbing held q₁ q₂ short₁ short₂) (hpc : s.read.pc = .fork)
    (hr : r.pc = .closeIn) (he : e.pc = .closeOut1) :
    Plumbing held { s.dup [0, 1] with read := r, encrypt := e } q₁ q₂ short₁ short₂ := by
  have habsent : s.encrypt.pc = .absent :=
    KryptEncryptPc.isAbsent_iff.1 (h.born₁.trans (KryptReadPc.isFork_iff.2 hpc))
  have hw : s.write.pc = .absent :=
    KryptWritePc.isAbsent_iff.1 (h.born₂.trans (by rw [habsent]; rfl))
  obtain ⟨href₀, href₁⟩ := h.refs₁
  simp only [in1, out1, hpc, habsent, hw] at href₀ href₁
  have hrefs : (s.dup [0, 1]).refcount 0 = s.refcount 0 + 1 ∧
      (s.dup [0, 1]).refcount 1 = s.refcount 1 + 1 := by
    simp [dup]
  have hline := h.line₁
  rw [habsent, hpc] at hline
  have hfree := h.free
  rw [habsent] at hfree
  have hkept := h.kept
  rw [habsent] at hkept
  refine {
    fds₁ := h.fds₁, refs₁ := ?_, line₁ := ?_, fds₂ := ?_, refs₂ := ?_, line₂ := ?_, frames := ?_
    unopened := fun _ => h.unopened (by rw [habsent]; rfl), free := ?_, born₁ := ?_, born₂ := ?_
    fresh₁ := h.fresh₁, fresh₂ := ?_, kept := ?_ }
  · simp only [in1, out1, hrefs, href₀, href₁, hr, he]
    rw [show (s.dup [0, 1]).write = s.write from rfl, hw]
    exact ⟨rfl, rfl⟩
  · simp only [hr, he]
    refine hline.refs_congr ?_ ?_
    · rw [hrefs.1, href₀]; decide
    · rw [hrefs.2, href₁]; decide
  all_goals simp only [hr, he]
  · exact fun hno => absurd hno Bool.false_ne_true
  · exact fun hno => absurd hno Bool.false_ne_true
  · exact fun hno => absurd hno Bool.false_ne_true
  · exact fun hno => absurd hno Bool.false_ne_true
  · exact fun x hx h2 _ => hfree x hx h2 fun hno => absurd hno Bool.false_ne_true
  · rfl
  · rw [show (s.dup [0, 1]).write = s.write from rfl, hw]
    rfl
  · exact fun hno => absurd hno Bool.false_ne_true
  · exact fun g hg _ => hkept g hg fun hno => absurd hno Bool.false_ne_true

/-- The second `fork`. -/
theorem forked₂ (h : s.Plumbing held q₁ q₂ short₁ short₂) (hpc : s.encrypt.pc = .fork)
    (he : e.pc = .closeIn2) (hw : w.pc = .closeIn1) :
    Plumbing held { s.dup [0, 2, 3] with encrypt := e, write := w } q₁ q₂ short₁ short₂ := by
  have ho : s.encrypt.pc.opened = true := by rw [hpc]; rfl
  have habsent : s.write.pc = .absent :=
    KryptWritePc.isAbsent_iff.1 (h.born₂.trans (by rw [hpc]; rfl))
  have hborn := h.born₁
  rw [hpc] at hborn
  obtain ⟨href₀, href₁⟩ := h.refs₁
  obtain ⟨href₂, href₃⟩ := h.refs₂ ho
  simp only [in1, out1, in2, out2, hpc, habsent] at href₀ href₁ href₂ href₃
  have hrefs : (s.dup [0, 2, 3]).refcount 0 = s.refcount 0 + 1 ∧
      (s.dup [0, 2, 3]).refcount 1 = s.refcount 1 ∧
      (s.dup [0, 2, 3]).refcount 2 = s.refcount 2 + 1 ∧
      (s.dup [0, 2, 3]).refcount 3 = s.refcount 3 + 1 := by
    simp [dup]
  have hline₁ := h.line₁
  have hline₂ := h.line₂ ho
  rw [hpc] at hline₁ hline₂
  rw [habsent] at hline₂
  refine {
    fds₁ := h.fds₁, refs₁ := ?_, line₁ := ?_, fds₂ := fun _ => h.fds₂ ho, refs₂ := fun _ => ?_
    line₂ := fun _ => ?_, frames := fun _ => h.frames ho, unopened := ?_, free := ?_, born₁ := ?_
    born₂ := ?_, fresh₁ := h.fresh₁, fresh₂ := fun _ => h.fresh₂ ho, kept := ?_ }
  · simp only [in1, out1, hrefs, href₀, href₁, he, hw]
    exact ⟨rfl, rfl⟩
  · simp only [he]
    refine hline₁.refs_congr ?_ ?_
    · rw [hrefs.1, href₀]
      simp only [KryptEncryptPc.in1]
      omega
    · rw [hrefs.2.1]
  · simp only [in2, out2, hrefs, href₂, href₃, he, hw]
    exact ⟨rfl, rfl⟩
  · simp only [he, hw]
    refine hline₂.refs_congr ?_ ?_
    · rw [hrefs.2.2.1, href₂]; decide
    · rw [hrefs.2.2.2, href₃]; decide
  all_goals simp only [he, hw]
  · exact fun hno => absurd hno.symm Bool.false_ne_true
  · exact fun x hx h2 h4 => h.free x hx h2 fun _ => h4 rfl
  · exact hborn
  · rfl
  · exact fun g hg hg' => h.kept g hg fun _ => hg' rfl

/-- The second pipe. Its slots are free, since both ends of the first one are in use. -/
theorem opened₂ (h : s.Plumbing held q₁ q₂ short₁ short₂) (hpc : s.encrypt.pc = .pipe)
    (hopen : (s.pipes.endpoints 1).klass ≠ .none) {f : Nat} (hf : s.pipes.held f = false)
    (he : e.pc = .fork) : ∃ s₁, s.openPipe (some f) = some ((2, 3), s₁) ∧
      Plumbing held { s₁ with pipeEnc2write := (2, 3), encrypt := e } q₁ q₂ short₁ short₂ ∧
      s₁.read = s.read ∧ s₁.write = s.write ∧ s₁.file = s.file ∧ s₁.serial = s.serial := by
  obtain ⟨rfl, rfl⟩ := h.unopened (by rw [hpc]; rfl)
  have hwrite : s.write.pc = .absent :=
    KryptWritePc.isAbsent_iff.1 (h.born₂.trans (by rw [hpc]; rfl))
  have hborn := h.born₁
  have hfree := h.free
  have hkept := h.kept
  have hline := h.line₁
  rw [hpc] at hborn hfree hkept hline
  obtain ⟨href₀, href₁⟩ := h.refs₁
  have hpositive : s.refcount 0 ≠ 0 := by
    rw [href₀, in1, hpc]
    simp only [KryptEncryptPc.in1]
    omega
  have hused : ∀ x < 2, (s.pipes.endpoints x).klass ≠ .none := by
    intro x hx
    obtain rfl | rfl : x = 0 ∨ x = 1 := by omega
    · exact fun hnone => hpositive (h.line₁.openRead.1 hnone)
    · exact hopen
  obtain ⟨rest, hslots⟩ := freeSlots_from (by decide) hused fun x hx h2 =>
    hfree x hx h2 fun hno => absurd hno Bool.false_ne_true
  have hP := pipeOpen_opened (f := f) hslots
  have hopen' : s.openPipe (some f) = some ((2, 3), { s with
      pipes := (pipeOpen (some f) s.pipes).2
      refcount := Function.update (Function.update s.refcount 2 1) 3 1 }) := by
    simp only [openPipe, hslots]
  generalize (pipeOpen (some f) s.pipes).2 = P at hP hopen'
  have hbuffer : f ≠ (s.pipes.endpoints 0).buffer := by
    rintro rfl
    rw [h.line₁.held.2 fun hzero => hpositive hzero.1] at hf
    cases hf
  have hends : ∀ x, x < 2 → P.endpoints x = s.pipes.endpoints x := fun x hx =>
    hP.endpoints x (by omega) (by omega)
  have hrefs : ∀ x, x < 2 →
      Function.update (Function.update s.refcount 2 1) 3 1 x = s.refcount x := fun x hx =>
    (Function.update_of_ne (by omega) ..).trans (Function.update_of_ne (by omega) ..)
  have hrefs₂ : Function.update (Function.update s.refcount 2 1) 3 1 2 = 1 ∧
      Function.update (Function.update s.refcount 2 1) 3 1 3 = 1 :=
    ⟨(Function.update_of_ne (by decide) ..).trans (Function.update_self ..),
      Function.update_self ..⟩
  have hheld : ∀ g, g ≠ f → P.held g = s.pipes.held g := fun g hg => by
    rw [hP.held, Function.update_of_ne hg]
  refine ⟨_, hopen', {
    fds₁ := h.fds₁, refs₁ := ?_, line₁ := ?_, fds₂ := fun _ => rfl, refs₂ := fun _ => ?_
    line₂ := fun _ => ?_, frames := fun _ => ?_, unopened := fun _ => ⟨rfl, rfl⟩, free := ?_
    born₁ := ?_, born₂ := ?_, fresh₁ := ?_, fresh₂ := fun _ => ?_, kept := ?_ }, rfl, rfl, rfl, rfl⟩
  · simp only [in1, out1, hrefs 0 (by decide), hrefs 1 (by decide), he]
    rw [href₀, href₁, in1, out1, hpc]
    exact ⟨rfl, rfl⟩
  · simp only [he]
    refine (Line.refs_congr ?_ (by rw [hrefs 0 (by decide)]) (by rw [hrefs 1 (by decide)]))
    have hpaged : Paged P 0 1 q₁ short₁ := hline.congr (by rw [hends 0 (by decide)])
      (by rw [hends 1 (by decide)]) (by rw [hP.mem])
    refine { hpaged with
      openRead := ?_, openWrite := ?_, held := ?_, reads := hline.reads, writes := hline.writes
      queueRead := ?_, queueWrite := ?_ }
    · rw [hends 0 (by decide)]; exact hline.openRead
    · rw [hends 1 (by decide)]; exact hline.openWrite
    · rw [hends 0 (by decide), hheld _ hbuffer.symm]; exact hline.held
    · rw [hends 0 (by decide)]; exact hline.queueRead
    · rw [hends 1 (by decide)]; exact hline.queueWrite
  · simp only [in2, out2, he]
    rw [hwrite]
    exact hrefs₂
  · simp only [he]
    rw [hwrite]
    exact Line.opened (by decide) hP.readEnd hP.writeEnd
      (by rw [hP.held]; exact Function.update_self ..) hrefs₂
  all_goals simp only [he]
  · rw [hP.readEnd, hends 0 (by decide)]
    exact hbuffer
  · intro x hx h2 h4
    have h4 : 4 ≤ x := h4 rfl
    rw [hP.endpoints x (by omega) (by omega)]
    exact hfree x hx h2 fun hno => absurd hno Bool.false_ne_true
  · exact hborn
  · rw [hwrite]
    rfl
  · rw [hends 0 (by decide)]
    exact h.fresh₁
  · rw [hP.readEnd]
    exact (hkept f hbuffer fun hno => absurd hno Bool.false_ne_true).symm.trans hf
  · intro g hg hg'
    rw [hends 0 (by decide)] at hg
    have hg' := hg' rfl
    rw [hP.readEnd] at hg'
    exact (hheld g hg').trans (hkept g hg fun hno => absurd hno Bool.false_ne_true)

end Krypt.Plumbing

/-- Before there is a pipe. -/
structure Krypt.Unopened (held : Nat → Bool) (s : Krypt) : Prop where
  klass : ∀ x < maxEndpoints, (s.pipes.endpoints x).klass = .none
  held : s.pipes.held = held
  encrypt : s.encrypt.pc = .absent
  write : s.write.pc = .absent

/-- The first pipe. -/
theorem Krypt.Unopened.opened₁ {held : Nat → Bool} {s : Krypt} {r : KryptRead}
    (h : s.Unopened held) {f : Nat} (hf : s.pipes.held f = false) (hr : r.pc = .fork) :
    ∃ s₁, s.openPipe (some f) = some ((0, 1), s₁) ∧
      Plumbing held { s₁ with pipeRead2enc := (0, 1), read := r } [] [] false false ∧
      s₁.encrypt = s.encrypt ∧ s₁.write = s.write ∧ s₁.file = s.file ∧ s₁.serial = s.serial := by
  obtain ⟨rest, hslots⟩ := freeSlots_from (P := s.pipes) (k := 0) (by decide)
    (fun x hx => absurd hx (Nat.not_lt_zero x)) fun x hx _ => h.klass x hx
  have hP := pipeOpen_opened (f := f) hslots
  have hopen : s.openPipe (some f) = some ((0, 1), { s with
      pipes := (pipeOpen (some f) s.pipes).2
      refcount := Function.update (Function.update s.refcount 0 1) 1 1 }) := by
    simp only [openPipe, hslots]
  generalize (pipeOpen (some f) s.pipes).2 = P at hP hopen
  have hrefs : Function.update (Function.update s.refcount 0 1) 1 1 0 = 1 ∧
      Function.update (Function.update s.refcount 0 1) 1 1 1 = 1 :=
    ⟨(Function.update_of_ne (by decide) ..).trans (Function.update_self ..),
      Function.update_self ..⟩
  have hheld : ∀ g, g ≠ f → P.held g = held g := fun g hg => by
    rw [hP.held, Function.update_of_ne hg, h.held]
  refine ⟨_, hopen, {
    fds₁ := rfl, refs₁ := ?_, line₁ := ?_, fds₂ := ?_, refs₂ := ?_, line₂ := ?_, frames := ?_
    unopened := fun _ => ⟨rfl, rfl⟩, free := ?_, born₁ := ?_, born₂ := ?_, fresh₁ := ?_
    fresh₂ := ?_, kept := ?_ }, rfl, rfl, rfl, rfl⟩
  · simp only [in1, out1, hr, h.encrypt, h.write]
    exact hrefs
  · simp only [hr, h.encrypt]
    exact Line.opened (by decide) hP.readEnd hP.writeEnd
      (by rw [hP.held]; exact Function.update_self ..) hrefs
  all_goals simp only [hr, h.encrypt, h.write]
  · exact fun hno => absurd hno Bool.false_ne_true
  · exact fun hno => absurd hno Bool.false_ne_true
  · exact fun hno => absurd hno Bool.false_ne_true
  · exact fun hno => absurd hno Bool.false_ne_true
  · intro x hx h2 _
    rw [hP.endpoints x (by omega) (by omega)]
    exact h.klass x hx
  · rfl
  · rfl
  · rw [hP.readEnd]
    exact (congrFun h.held f).symm.trans hf
  · exact fun hno => absurd hno Bool.false_ne_true
  · intro g hg _
    rw [hP.readEnd] at hg
    exact hheld g hg

end SpuriOS
