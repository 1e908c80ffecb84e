import SpuriOS.Pipe.Model
import Mathlib.Tactic.Common

/-! # Endpoints and their pairs

Whether the other end of a pipe is still there is read off the class of the slot `pair` points
to. That slot may have been given away by then: when one end is closed, the next `pipe_open` takes
its slot for another pipe, and the end that stays open takes the new endpoint for its own pair.
As long as no open takes the slot of a closed end whose other end is open, the endpoints are
linked as they should be. -/

namespace SpuriOS
open Transition

/-- What of an endpoint stays from `pipe_open` to `pipe_flush`. -/
def PipeDevice.link (e : PipeDevice) : PipeDevice :=
  { e with bytesAvailable := 0, pos := 0, queue := [] }

theorem PipeDevice.link_inj {e e' : PipeDevice} (h : e.link = e'.link) : e.klass = e'.klass ∧
    e.read = e'.read ∧ e.write = e'.write ∧ e.pair = e'.pair ∧ e.buffer = e'.buffer := by
  simp only [link, mk.injEq] at h
  exact ⟨h.1, h.2.1, h.2.2.1, h.2.2.2.1, h.2.2.2.2.1⟩

/-- `PAIR(x)` is open, belongs to the same pipe, has the same buffer and points back. -/
structure PipeSystem.Linked (s : PipeSystem) (x : Nat) : Prop where
  inUse : s.pipes.InUse (s.pipes.partner x)
  owner : s.hist.owner (s.pipes.partner x) = s.hist.owner x
  back : s.pipes.partner (s.pipes.partner x) = x
  buffer : (s.pipes.pair x).buffer = (s.pipes.endpoints x).buffer

/-- `PAIR(x)` was closed and `x` sees a broken pipe. -/
structure PipeSystem.Broken (s : PipeSystem) (x : Nat) : Prop where
  closed : s.hist.closed (s.hist.owner x) = 1
  write : ∀ c : PipeCall, c.self = x → c.writing = true → c.sz < c.size →
    pipeRound s.pipes c = (s.pipes, c, .done 0)
  read_some : ∀ c : PipeCall, c.self = x → c.writing = false → c.sz < c.size →
    (s.pipes.endpoints x).bytesAvailable ≠ 0 →
      (pipeRound s.pipes c).2.1.sz = c.sz + readSize s.pipes c ∧
        (pipeRound s.pipes c).2.2 = .again
  read_none : ∀ c : PipeCall, c.self = x → c.writing = false → c.sz < c.size →
    (s.pipes.endpoints x).bytesAvailable = 0 → pipeRound s.pipes c = (s.pipes, c, .done c.sz)

namespace PipeLabel

/-- The pipe a step is about. -/
def pipe (s : PipeSystem) : PipeLabel → Option Nat
  | .open _ => none
  | .start _ c => some (s.hist.owner c.self)
  | .round p => (s.calls p).map fun c => s.hist.owner c.self
  | .flush x => some (s.hist.owner x)

/-- An open that gets a frame takes no slot that an open endpoint has for its pair. -/
def SparesPairs (s : PipeSystem) : PipeLabel → Prop
  | .open (some _) => ∀ inp out rest, freeSlots s.pipes = inp :: out :: rest →
      ∀ x, s.pipes.InUse x → s.pipes.partner x ≠ inp ∧ s.pipes.partner x ≠ out
  | _ => True

end PipeLabel

/-- What is said of the endpoints in a state. -/
structure PipeSystem.Sound (s : PipeSystem) : Prop where
  linked : ∀ x, s.pipes.InUse x → s.Linked x ∨ s.Broken x
  /-- An endpoint with a broken pipe keeps it until it is closed itself. -/
  broken : ∀ x a s', s.pipes.InUse x → s.Broken x → a.SparesPairs s → PipeStep s a s' →
    a ≠ .flush x → s'.pipes.InUse x ∧ s'.Broken x
  isolated : ∀ x a s', s.pipes.InUse x → a.SparesPairs s → PipeStep s a s' →
    a.pipe s ≠ some (s.hist.owner x) → s'.pipes.endpoints x = s.pipes.endpoints x
  freed : ∀ k, s.hist.freed k = if s.hist.closed k = 2 then 1 else 0

/-! ## Effects of the steps -/

section
variable {s s' : PipeSystem} {P : Pipes} {c : PipeCall} {p x y : Nat} {a : PipeLabel}

theorem Pipes.modify_link (f : PipeDevice → PipeDevice) (h : ∀ e, (f e).link = e.link) :
    ((P.modify x f).endpoints y).link = (P.endpoints y).link := by
  by_cases hy : y = x
  · subst hy; rw [modify_self, h]
  · rw [modify_of_ne f hy]

theorem readMove_endpoints : ((readMove P c).endpoints y).link = (P.endpoints y).link ∧
    (y ≠ c.self → y ≠ P.partner c.self → (readMove P c).endpoints y = P.endpoints y) := by
  rw [readMove]
  constructor
  · rw [Pipes.modify_link, Pipes.modify_link] <;> exact fun _ => rfl
  · intro h h'
    rw [Pipes.modify_of_ne _ h', Pipes.modify_of_ne _ h]

theorem writeMove_endpoints : ((writeMove P c).endpoints y).link = (P.endpoints y).link ∧
    (y ≠ c.self → y ≠ P.partner c.self → (writeMove P c).endpoints y = P.endpoints y) := by
  rw [writeMove]
  constructor
  · rw [Pipes.modify_link, Pipes.modify_link] <;> exact fun _ => rfl
  · intro h h'
    rw [Pipes.modify_of_ne _ h', Pipes.modify_of_ne _ h]

/-- The state after a read that moved its chunk. -/
theorem readMove_flow (hne : P.partner c.self ≠ c.self) :
    (readMove P c).endpoints c.self = { P.endpoints c.self with
      pos := ((P.endpoints c.self).pos + readSize P c) % bufferSize
      bytesAvailable := (P.endpoints c.self).bytesAvailable - readSize P c } ∧
    (readMove P c).endpoints (P.partner c.self) = { P.pair c.self with
      bytesAvailable := Word32.sub (P.pair c.self).bytesAvailable (readSize P c)
      queue := [] } := by
  rw [readMove]
  constructor
  · rw [Pipes.modify_of_ne _ hne.symm, Pipes.modify_self]
  · rw [Pipes.modify_self, Pipes.modify_of_ne _ hne, Pipes.pair]

theorem writeMove_flow (hne : P.partner c.self ≠ c.self) :
    (writeMove P c).endpoints c.self = { P.endpoints c.self with
      pos := ((P.endpoints c.self).pos + writeSize P c) % bufferSize
      bytesAvailable := (P.endpoints c.self).bytesAvailable + writeSize P c } ∧
    (writeMove P c).endpoints (P.partner c.self) = { P.pair c.self with
      bytesAvailable := Word32.add (P.pair c.self).bytesAvailable (writeSize P c)
      queue := [] } := by
  rw [writeMove]
  constructor
  · rw [Pipes.modify_of_ne _ hne.symm, Pipes.modify_self]
  · rw [Pipes.modify_self, Pipes.modify_of_ne _ hne, Pipes.pair]

theorem pair_klass_of_link {P' : Pipes}
    (h : ∀ y, (P'.endpoints y).link = (P.endpoints y).link) :
    (P'.pair x).klass = (P.pair x).klass := by
  rw [Pipes.pair, (PipeDevice.link_inj (h _)).1, Pipes.partner, (PipeDevice.link_inj (h _)).2.2.2.1]
  rfl

/-- A round changes positions, counts and queues of the endpoint and its pair, and nothing else of
the table. -/
theorem round_endpoints : ((s.round p c).pipes.endpoints y).link = (s.pipes.endpoints y).link ∧
    (y ≠ c.self → y ≠ s.pipes.partner c.self →
      (s.round p c).pipes.endpoints y = s.pipes.endpoints y) := by
  obtain ⟨-, h⟩ | ⟨-, -, h⟩ | ⟨-, -, -, h⟩ | ⟨-, -, -, -, h⟩ := s.round_cases p c <;> rw [h]
  · exact ⟨rfl, fun _ _ => rfl⟩
  · constructor
    · rw [PipeSystem.enqueue, Pipes.modify_link]
      exact fun _ => rfl
    · intro h _
      rw [PipeSystem.enqueue, Pipes.modify_of_ne _ h]
  · exact readMove_endpoints
  · exact writeMove_endpoints

/-- Of its own call a round changes neither the endpoint nor the direction. -/
theorem round_call {q : Pid} {d : PipeCall} (hc : s.calls p = some c)
    (h : (s.round p c).calls q = some d) :
    ∃ d', s.calls q = some d' ∧ d.self = d'.self ∧ d.writing = d'.writing := by
  have hset : ∀ c', c'.self = c.self → c'.writing = c.writing →
      Function.update s.calls p (some c') q = some d →
      ∃ d', s.calls q = some d' ∧ d.self = d'.self ∧ d.writing = d'.writing := by
    intro c' hself hw h
    by_cases hq : q = p
    · subst hq
      rw [Function.update_self, Option.some.injEq] at h
      exact ⟨c, hc, h ▸ hself, h ▸ hw⟩
    · rw [Function.update_of_ne hq] at h
      exact ⟨d, h, rfl, rfl⟩
  obtain ⟨-, hr⟩ | ⟨-, -, hr⟩ | ⟨-, -, -, hr⟩ | ⟨-, -, -, -, hr⟩ := s.round_cases p c <;>
    rw [hr] at h
  · by_cases hq : q = p
    · subst hq
      rw [PipeSystem.setCall_self] at h
      cases h
    · rw [PipeSystem.setCall_of_ne hq] at h
      exact ⟨d, h, rfl, rfl⟩
  · exact ⟨d, h, rfl, rfl⟩
  · exact hset (readCall s.pipes c) rfl rfl h
  · exact hset (writeCall s.pipes c) rfl rfl h

theorem round_hist : (s.round p c).hist.owner = s.hist.owner ∧
    (s.round p c).hist.closed = s.hist.closed ∧ (s.round p c).hist.freed = s.hist.freed ∧
    (s.round p c).hist.opened = s.hist.opened := by
  have htransfer : ∀ c' pipes, let s' := s.move p c c' pipes
      s'.hist.owner = s.hist.owner ∧ s'.hist.closed = s.hist.closed ∧
        s'.hist.freed = s.hist.freed ∧ s'.hist.opened = s.hist.opened := by
    intro c' pipes
    simp only [PipeSystem.move, PipeSystem.setCall, PipeHistory.transfer]
    split <;> split <;> exact ⟨rfl, rfl, rfl, rfl⟩
  obtain ⟨-, h⟩ | ⟨-, -, h⟩ | ⟨-, -, -, h⟩ | ⟨-, -, -, -, h⟩ := s.round_cases p c <;> rw [h]
  · exact ⟨rfl, rfl, rfl, rfl⟩
  · exact ⟨rfl, rfl, rfl, rfl⟩
  · exact htransfer _ _
  · exact htransfer _ _

/-- What `pipe_open` finds: two different free slots. -/
theorem freeSlots_spec {inp out : Nat} {rest : List Nat} (h : freeSlots P = inp :: out :: rest) :
    (inp < maxEndpoints ∧ (P.endpoints inp).klass = .none) ∧
      (out < maxEndpoints ∧ (P.endpoints out).klass = .none) ∧ inp ≠ out := by
  have hmem : ∀ i ∈ freeSlots P, i < maxEndpoints ∧ (P.endpoints i).klass = .none := by
    intro i hi
    simpa [freeSlots] using hi
  have hnodup : (freeSlots P).Nodup := List.nodup_range.filter _
  rw [h] at hmem hnodup
  simp only [List.nodup_cons, List.mem_cons, not_or] at hnodup
  exact ⟨hmem inp (by simp), hmem out (by simp), hnodup.1.1⟩

/-- An open changes nothing, or sets up two free slots as the ends of a new pipe. -/
theorem open_cases (frame : Option Nat) : s.open' frame = s ∨
    ∃ f inp out rest, frame = some f ∧ freeSlots s.pipes = inp :: out :: rest ∧
      (s.open' frame).pipes.endpoints inp =
        { initEndpoint with buffer := f, read := true, pair := out } ∧
      (s.open' frame).pipes.endpoints out =
        { initEndpoint with buffer := f, write := true, pair := inp } ∧
      (∀ y, y ≠ inp → y ≠ out → (s.open' frame).pipes.endpoints y = s.pipes.endpoints y) ∧
      (s.open' frame).calls = s.calls ∧ (s.open' frame).hist = s.hist.open' inp out := by
  rcases hslots : freeSlots s.pipes with _ | ⟨inp, _ | ⟨out, rest⟩⟩
  · exact .inl (by simp [PipeSystem.open', pipeOpen, hslots])
  · exact .inl (by simp [PipeSystem.open', pipeOpen, hslots])
  rcases frame with _ | f
  · exact .inl (by simp [PipeSystem.open', pipeOpen, hslots])
  refine .inr ⟨f, inp, out, rest, rfl, rfl, ?_⟩
  have hne := (freeSlots_spec hslots).2.2
  simp only [PipeSystem.open', pipeOpen, hslots]
  refine ⟨?_, Pipes.modify_self _, fun y hy hy' => ?_, trivial, trivial⟩
  · rw [Pipes.modify_of_ne _ hne, Pipes.modify_self]
  · rw [Pipes.modify_of_ne _ hy', Pipes.modify_of_ne _ hy]

theorem pipeFlush_ends : (pipeFlush x P).endpoints =
    ((P.modify x fun e => { e with klass := .none }).modify (P.partner x)
      fun e => { e with queue := [] }).endpoints := by
  have hp : (P.modify x fun e => { e with klass := .none }).partner x = P.partner x := by
    rw [Pipes.partner, Pipes.modify_self]; rfl
  rw [pipeFlush, hp]
  split <;> rfl

/-- `pipe_flush` frees the slot and empties the queue of the pair. -/
theorem pipeFlush_endpoints (h : P.partner x ≠ x) :
    (pipeFlush x P).endpoints x = { P.endpoints x with klass := .none } ∧
    (∀ y, y ≠ x → ∃ q, (pipeFlush x P).endpoints y = { P.endpoints y with queue := q }) ∧
    (∀ y, y ≠ x → y ≠ P.partner x → (pipeFlush x P).endpoints y = P.endpoints y) := by
  rw [pipeFlush_ends]
  refine ⟨?_, fun y hy => ?_, fun y hy hy' => ?_⟩
  · rw [Pipes.modify_of_ne _ h.symm, Pipes.modify_self]
  · by_cases hp : y = P.partner x
    · rw [hp, Pipes.modify_self, Pipes.modify_of_ne _ h]
      exact ⟨_, rfl⟩
    · rw [Pipes.modify_of_ne _ hp, Pipes.modify_of_ne _ hy]
      exact ⟨_, rfl⟩
  · rw [Pipes.modify_of_ne _ hy', Pipes.modify_of_ne _ hy]

theorem pipeFlush_link (h : P.partner x ≠ x) (hy : y ≠ x) :
    ((pipeFlush x P).endpoints y).link = (P.endpoints y).link := by
  obtain ⟨q, hq⟩ := (pipeFlush_endpoints h).2.1 y hy
  rw [hq]; rfl

theorem pipeFlush_partner (h : P.partner x ≠ x) : (pipeFlush x P).endpoints (P.partner x) =
    { P.endpoints (P.partner x) with queue := [] } := by
  rw [pipeFlush_ends, Pipes.modify_self, Pipes.modify_of_ne _ h]

/-! ## The invariant -/

/-- How the slots, the pipes they were used for and the closes hang together. -/
structure PipeSystem.Inv (s : PipeSystem) : Prop where
  partner : ∀ x, s.pipes.InUse x → s.pipes.partner x ≠ x
  owner_lt : ∀ x, s.pipes.InUse x → s.hist.owner x < s.hist.opened
  linked : ∀ x, s.pipes.InUse x → (s.Linked x ∧ s.hist.closed (s.hist.owner x) = 0) ∨
    ((s.pipes.pair x).klass = .none ∧ s.hist.closed (s.hist.owner x) = 1)
  unique : ∀ x y, s.pipes.InUse x → s.pipes.InUse y → s.hist.owner y = s.hist.owner x →
    y = x ∨ y = s.pipes.partner x
  closed_new : ∀ k, s.hist.opened ≤ k → s.hist.closed k = 0
  freed : ∀ k, s.hist.freed k = if s.hist.closed k = 2 then 1 else 0
  calls : ∀ p c, s.calls p = some c → s.pipes.InUse c.self ∧
    (if c.writing then (s.pipes.endpoints c.self).write else (s.pipes.endpoints c.self).read) = true

/-- Steps that leave the links of the table and the record of opens and closes alone keep the
invariant. -/
theorem PipeSystem.Inv.of_link (h : s.Inv)
    (hlink : ∀ y, (s'.pipes.endpoints y).link = (s.pipes.endpoints y).link)
    (hhist : s'.hist.owner = s.hist.owner ∧ s'.hist.closed = s.hist.closed ∧
      s'.hist.freed = s.hist.freed ∧ s'.hist.opened = s.hist.opened)
    (hcalls : ∀ q d, s'.calls q = some d → s.pipes.InUse d.self ∧
      (if d.writing then (s.pipes.endpoints d.self).write else (s.pipes.endpoints d.self).read) =
        true) : s'.Inv := by
  obtain ⟨howner, hclosed, hfreed, hopened⟩ := hhist
  have hfields := fun y => PipeDevice.link_inj (hlink y)
  have hklass : ∀ y, (s'.pipes.endpoints y).klass = (s.pipes.endpoints y).klass := fun y =>
    (hfields y).1
  have huse : ∀ y, s'.pipes.InUse y ↔ s.pipes.InUse y := fun y => by
    rw [Pipes.InUse, Pipes.InUse, hklass]
  have hpartner : ∀ y, s'.pipes.partner y = s.pipes.partner y := fun y => (hfields y).2.2.2.1
  have hbuffer : ∀ y, (s'.pipes.endpoints y).buffer = (s.pipes.endpoints y).buffer := fun y =>
    (hfields y).2.2.2.2
  constructor
  · intro x hx
    rw [hpartner]; exact h.partner x ((huse x).1 hx)
  · intro x hx
    rw [howner, hopened]; exact h.owner_lt x ((huse x).1 hx)
  · intro x hx
    rw [howner, hclosed, Pipes.pair, hpartner, hklass]
    refine (h.linked x ((huse x).1 hx)).imp_left fun ⟨hl, hc⟩ => ⟨⟨?_, ?_, ?_, ?_⟩, hc⟩
    · rw [hpartner, huse]; exact hl.inUse
    · rw [howner, hpartner]; exact hl.owner
    · rw [hpartner, hpartner]; exact hl.back
    · rw [Pipes.pair, hpartner, hbuffer, hbuffer]; exact hl.buffer
  · intro x y hx hy
    rw [howner, hpartner]; exact h.unique x y ((huse x).1 hx) ((huse y).1 hy)
  · rw [hopened, hclosed]; exact h.closed_new
  · rw [hfreed, hclosed]; exact h.freed
  · intro q d hd
    rw [huse, (hfields _).2.1, (hfields _).2.2.1]
    exact hcalls q d hd

theorem PipeSystem.Initial.inv (h : s.Initial) : s.Inv := by
  have hno : ∀ x, ¬s.pipes.InUse x := fun x hx => hx.2 (h.klass x hx.1)
  refine ⟨fun x hx => (hno x hx).elim, fun x hx => (hno x hx).elim, fun x hx => (hno x hx).elim,
    fun x _ hx => (hno x hx).elim, fun k _ => h.closed k, fun k => ?_, fun p c hc => ?_⟩
  · rw [h.freed, h.closed]; rfl
  · rw [h.calls p] at hc; cases hc

theorem PipeSystem.Inv.start (h : s.Inv) (hself : s.pipes.InUse c.self)
    (hmode : if c.writing then (s.pipes.endpoints c.self).write
      else (s.pipes.endpoints c.self).read) : (s.setCall p (some c)).Inv := by
  refine h.of_link (fun _ => rfl) ⟨rfl, rfl, rfl, rfl⟩ fun q d hd => ?_
  by_cases hq : q = p
  · subst hq
    rw [setCall_self, Option.some.injEq] at hd
    subst hd
    exact ⟨hself, by simpa using hmode⟩
  · rw [setCall_of_ne hq] at hd
    exact h.calls q d hd

theorem PipeSystem.Inv.round (h : s.Inv) (hc : s.calls p = some c) : (s.round p c).Inv := by
  refine h.of_link (fun _ => round_endpoints.1) round_hist fun q d hd => ?_
  obtain ⟨d', hd', hself, hw⟩ := round_call hc hd
  rw [hself, hw]
  exact h.calls q d' hd'

theorem PipeSystem.Inv.open' (h : s.Inv) {frame : Option Nat}
    (hok : (PipeLabel.open frame).SparesPairs s) : (s.open' frame).Inv := by
  obtain heq | ⟨f, inp, out, rest, rfl, hslots, hinp, hout, hother, hcalls, hhist⟩ :=
    open_cases (s := s) frame
  · rw [heq]; exact h
  obtain ⟨⟨hilt, hik⟩, ⟨holt, hok'⟩, hne⟩ := freeSlots_spec hslots
  have hfree := hok inp out rest hslots
  have hold : ∀ y, s.pipes.InUse y → y ≠ inp ∧ y ≠ out := fun y hy =>
    ⟨fun e => hy.2 (e ▸ hik), fun e => hy.2 (e ▸ hok')⟩
  have huse : ∀ y, (s.open' (some f)).pipes.InUse y ↔ y = inp ∨ y = out ∨ s.pipes.InUse y := by
    intro y
    by_cases h1 : y = inp
    · subst h1; simp [Pipes.InUse, hinp, hilt, initEndpoint]
    by_cases h2 : y = out
    · subst h2; simp [Pipes.InUse, hout, holt, initEndpoint]
    simp [Pipes.InUse, hother y h1 h2, h1, h2]
  have hpartner : (s.open' (some f)).pipes.partner inp = out ∧
      (s.open' (some f)).pipes.partner out = inp ∧ ∀ y, s.pipes.InUse y →
        (s.open' (some f)).pipes.partner y = s.pipes.partner y :=
    ⟨by rw [Pipes.partner, hinp], by rw [Pipes.partner, hout], fun y hy => by
      rw [Pipes.partner, hother y (hold y hy).1 (hold y hy).2, Pipes.partner]⟩
  have howner : (s.open' (some f)).hist.owner inp = s.hist.opened ∧
      (s.open' (some f)).hist.owner out = s.hist.opened ∧ ∀ y, s.pipes.InUse y →
        (s.open' (some f)).hist.owner y = s.hist.owner y :=
    ⟨by simp [hhist, PipeHistory.open', hne], by simp [hhist, PipeHistory.open'], fun y hy => by
      simp [hhist, PipeHistory.open', (hold y hy).1, (hold y hy).2]⟩
  have hclosed : (s.open' (some f)).hist.closed = s.hist.closed := by rw [hhist]; rfl
  have hopened : (s.open' (some f)).hist.opened = s.hist.opened + 1 := by rw [hhist]; rfl
  have hold_lt : ∀ y, s.pipes.InUse y → s.hist.owner y ≠ s.hist.opened := fun y hy =>
    Nat.ne_of_lt (h.owner_lt y hy)
  have hnew := h.closed_new s.hist.opened (Nat.le_refl _)
  constructor
  · intro x hx
    obtain rfl | rfl | hx := (huse x).1 hx
    · rw [hpartner.1]; exact hne.symm
    · rw [hpartner.2.1]; exact hne
    · rw [hpartner.2.2 x hx]; exact h.partner x hx
  · intro x hx
    rw [hopened]
    obtain rfl | rfl | hx := (huse x).1 hx
    · rw [howner.1]; omega
    · rw [howner.2.1]; omega
    · rw [howner.2.2 x hx]; exact Nat.lt_succ_of_lt (h.owner_lt x hx)
  · intro x hx
    rw [hclosed]
    obtain rfl | rfl | hx := (huse x).1 hx
    · refine .inl ⟨⟨?_, ?_, ?_, ?_⟩, by rw [howner.1, hnew]⟩
      · rw [hpartner.1, huse]; exact .inr (.inl rfl)
      · rw [hpartner.1, howner.1, howner.2.1]
      · rw [hpartner.1, hpartner.2.1]
      · rw [Pipes.pair, hpartner.1, hinp, hout]
    · refine .inl ⟨⟨?_, ?_, ?_, ?_⟩, by rw [howner.2.1, hnew]⟩
      · rw [hpartner.2.1, huse]; exact .inl rfl
      · rw [hpartner.2.1, howner.1, howner.2.1]
      · rw [hpartner.2.1, hpartner.1]
      · rw [Pipes.pair, hpartner.2.1, hinp, hout]
    · rw [howner.2.2 x hx, Pipes.pair, hpartner.2.2 x hx,
        hother _ (hfree x hx).1 (hfree x hx).2]
      refine (h.linked x hx).imp_left fun ⟨hl, hc⟩ => ⟨⟨?_, ?_, ?_, ?_⟩, hc⟩
      · rw [hpartner.2.2 x hx, huse]; exact .inr (.inr hl.inUse)
      · rw [hpartner.2.2 x hx, howner.2.2 x hx, howner.2.2 _ hl.inUse]; exact hl.owner
      · rw [hpartner.2.2 x hx, hpartner.2.2 _ hl.inUse]; exact hl.back
      · rw [Pipes.pair, hpartner.2.2 x hx, hother _ (hfree x hx).1 (hfree x hx).2,
          hother _ (hold x hx).1 (hold x hx).2]
        exact hl.buffer
  · intro x y hx hy hxy
    obtain rfl | rfl | hx := (huse x).1 hx <;> obtain rfl | rfl | hy := (huse y).1 hy
    · exact .inl rfl
    · exact .inr hpartner.1.symm
    · rw [howner.1, howner.2.2 y hy] at hxy
      exact (hold_lt y hy hxy).elim
    · exact .inr hpartner.2.1.symm
    · exact .inl rfl
    · rw [howner.2.1, howner.2.2 y hy] at hxy
      exact (hold_lt y hy hxy).elim
    · rw [howner.1, howner.2.2 x hx] at hxy
      exact (hold_lt x hx hxy.symm).elim
    · rw [howner.2.1, howner.2.2 x hx] at hxy
      exact (hold_lt x hx hxy.symm).elim
    · rw [howner.2.2 x hx, howner.2.2 y hy] at hxy
      rw [hpartner.2.2 x hx]
      exact h.unique x y hx hy hxy
  · intro k hk
    rw [hclosed]
    exact h.closed_new k (by omega)
  · intro k
    rw [hclosed, hhist]
    exact h.freed k
  · intro q d hd
    rw [hcalls] at hd
    obtain ⟨hd, hmode⟩ := h.calls q d hd
    rw [huse, hother _ (hold _ hd).1 (hold _ hd).2]
    exact ⟨.inr (.inr hd), hmode⟩

theorem PipeSystem.Inv.flush (h : s.Inv) (hx : s.pipes.InUse x)
    (hno : ∀ p c, s.calls p = some c → c.self ≠ x) : (s.flush x).Inv := by
  obtain ⟨hself, -, hother⟩ := pipeFlush_endpoints (h.partner x hx)
  have hfields := fun y hy => PipeDevice.link_inj (@pipeFlush_link _ x y (h.partner x hx) hy)
  have huse : ∀ y, (s.flush x).pipes.InUse y ↔ y ≠ x ∧ s.pipes.InUse y := by
    intro y
    by_cases hy : y = x
    · subst hy
      simp [PipeSystem.flush, Pipes.InUse, hself]
    · simp only [PipeSystem.flush, Pipes.InUse, (hfields y hy).1, hy, ne_eq, not_false_eq_true,
        true_and]
  have hpartner : ∀ y, (s.flush x).pipes.partner y = s.pipes.partner y := by
    intro y
    by_cases hy : y = x
    · subst hy; rw [Pipes.partner, PipeSystem.flush, hself]; rfl
    · exact (hfields y hy).2.2.2.1
  have hbuffer : ∀ y, ((s.flush x).pipes.endpoints y).buffer = (s.pipes.endpoints y).buffer := by
    intro y
    by_cases hy : y = x
    · subst hy; rw [PipeSystem.flush, hself]
    · exact (hfields y hy).2.2.2.2
  have howner : (s.flush x).hist.owner = s.hist.owner := rfl
  have hopened : (s.flush x).hist.opened = s.hist.opened := rfl
  have hclosed : (s.flush x).hist.closed =
      Function.update s.hist.closed (s.hist.owner x) (s.hist.closed (s.hist.owner x) + 1) := rfl
  have hpair : ((s.flush x).pipes.pair x).klass = (s.pipes.pair x).klass := by
    rw [Pipes.pair, hpartner]
    exact (hfields _ (h.partner x hx)).1
  constructor
  · intro y hy
    rw [hpartner]; exact h.partner y ((huse y).1 hy).2
  · intro y hy
    exact h.owner_lt y ((huse y).1 hy).2
  · intro y hy
    obtain ⟨hyx, hy⟩ := (huse y).1 hy
    by_cases hyo : s.hist.owner y = s.hist.owner x
    · -- `y` is the other end of the pipe
      obtain rfl | hyp := h.unique x y hx hy hyo
      · exact (hyx rfl).elim
      obtain ⟨hl, hc⟩ | ⟨hk, -⟩ := h.linked x hx
      · refine .inr ⟨?_, ?_⟩
        · rw [Pipes.pair, hpartner, hyp, hl.back, PipeSystem.flush, hself]
        · rw [hclosed, howner, hyo, Function.update_self, hc]
      · exact (hy.2 (by rw [hyp]; exact hk)).elim
    · rw [hclosed, howner, Function.update_of_ne hyo, Pipes.pair, hpartner]
      have hpx : ∀ {z}, s.pipes.InUse z → s.hist.owner z = s.hist.owner y → z ≠ x := by
        rintro z - hz rfl
        exact hyo hz.symm
      obtain ⟨hl, hc⟩ | ⟨hk, hc⟩ := h.linked y hy
      · refine .inl ⟨⟨?_, ?_, ?_, ?_⟩, hc⟩
        · rw [hpartner, huse]; exact ⟨hpx hl.inUse hl.owner, hl.inUse⟩
        · rw [hpartner]; exact hl.owner
        · rw [hpartner, hpartner]; exact hl.back
        · rw [Pipes.pair, hpartner, hbuffer, hbuffer]; exact hl.buffer
      · refine .inr ⟨?_, hc⟩
        have hne : s.pipes.partner y ≠ x := by
          intro e
          exact hx.2 (by rw [← e]; exact hk)
        exact (hfields _ hne).1.trans hk
  · intro y z hy hz hyz
    rw [hpartner]
    exact h.unique y z ((huse y).1 hy).2 ((huse z).1 hz).2 hyz
  · intro k hk
    rw [hclosed, Function.update_of_ne (by have := h.owner_lt x hx; rw [hopened] at hk; omega)]
    exact h.closed_new k hk
  · intro k
    have hfreed : (s.flush x).hist.freed = if (s.pipes.pair x).klass = .none then
        Function.update s.hist.freed (s.hist.owner x) (s.hist.freed (s.hist.owner x) + 1)
        else s.hist.freed := by
      rw [← hpair]
      simp only [PipeSystem.flush, PipeHistory.flush, decide_eq_true_eq]
    rw [hfreed, hclosed]
    by_cases hk : k = s.hist.owner x
    · subst hk
      have hf := h.freed (s.hist.owner x)
      rw [Function.update_self]
      obtain ⟨hl, hc⟩ | ⟨hk, hc⟩ := h.linked x hx
      · rw [if_neg (show (s.pipes.pair x).klass ≠ .none from hl.inUse.2), hf, hc]
        rfl
      · rw [if_pos hk, Function.update_self, hf, hc]
        rfl
    · rw [Function.update_of_ne hk, ← h.freed k]
      split
      · exact Function.update_of_ne hk ..
      · rfl
  · intro q d hd
    obtain ⟨hduse, hmode⟩ := h.calls q d hd
    have hdx := hno q d hd
    rw [huse]
    refine ⟨⟨hdx, hduse⟩, ?_⟩
    rw [PipeSystem.flush, (hfields _ hdx).2.1, (hfields _ hdx).2.2.1]
    exact hmode

theorem PipeStep.inv (h : s.Inv) (hok : a.SparesPairs s) (hs : PipeStep s a s') : s'.Inv := by
  cases hs with
  | «open» _ => exact h.open' hok
  | start _ hself _ hmode => exact h.start hself hmode
  | round hc _ => exact h.round hc
  | flush hx hno => exact h.flush hx hno

theorem reach_inv (h : Reach pipeSystem (fun s a => a.SparesPairs s) s) : s.Inv :=
  Reach.invariant (M := pipeSystem) (I := PipeSystem.Inv) PipeSystem.Initial.inv
    (fun h hok hs => PipeStep.inv h hok hs) h

/-! ## Opens and closes of a sound table -/

/-- The table after `pipe_open` made `inp` and `out` the ends of a new pipe with buffer `f`. -/
structure PipeSystem.Opened (s : PipeSystem) (f inp out : Nat) (s' : PipeSystem) : Prop where
  slots : ∃ rest, freeSlots s.pipes = inp :: out :: rest
  readEnd : s'.pipes.endpoints inp = { initEndpoint with buffer := f, read := true, pair := out }
  writeEnd : s'.pipes.endpoints out =
    { initEndpoint with buffer := f, write := true, pair := inp }
  pairRead : s'.pipes.pair inp = s'.pipes.endpoints out
  pairWrite : s'.pipes.pair out = s'.pipes.endpoints inp
  owner : s'.hist.owner inp = s.hist.opened ∧ s'.hist.owner out = s.hist.opened
  opened : s'.hist.opened = s.hist.opened + 1
  reads : s'.hist.reads = s.hist.reads
  writes : s'.hist.writes = s.hist.writes
  calls : s'.calls = s.calls
  old : ∀ y, s'.pipes.InUse y → y = inp ∨ y = out ∨
    (s.pipes.InUse y ∧ s'.pipes.endpoints y = s.pipes.endpoints y ∧
      s'.pipes.pair y = s.pipes.pair y ∧ s'.hist.owner y = s.hist.owner y)

theorem open_opened {frame : Option Nat} (hok : (PipeLabel.open frame).SparesPairs s) :
    s.open' frame = s ∨ ∃ f inp out, frame = some f ∧ s.Opened f inp out (s.open' frame) := by
  obtain heq | ⟨f, inp, out, rest, rfl, hslots, hinp, hout, hother, hcalls, hhist⟩ :=
    open_cases (s := s) frame
  · exact .inl heq
  obtain ⟨-, -, hne⟩ := freeSlots_spec hslots
  have hfree := hok inp out rest hslots
  refine .inr ⟨f, inp, out, rfl, ⟨⟨rest, hslots⟩, hinp, hout, ?_, ?_, ⟨?_, ?_⟩, ?_, ?_, ?_,
    hcalls, ?_⟩⟩
  · rw [Pipes.pair, Pipes.partner, hinp]
  · rw [Pipes.pair, Pipes.partner, hout]
  · simp [hhist, PipeHistory.open', hne]
  · simp [hhist, PipeHistory.open']
  · rw [hhist]; rfl
  · rw [hhist]; rfl
  · rw [hhist]; rfl
  · intro y hy
    by_cases h1 : y = inp
    · exact .inl h1
    by_cases h2 : y = out
    · exact .inr (.inl h2)
    rw [Pipes.InUse, hother y h1 h2] at hy
    refine .inr (.inr ⟨hy, hother y h1 h2, ?_, ?_⟩)
    · rw [Pipes.pair, Pipes.partner, hother y h1 h2]
      exact hother _ (hfree y hy).1 (hfree y hy).2
    · simp [hhist, PipeHistory.open', h1, h2]

/-- The endpoints that stay open when `x` is closed: the other end of its pipe, and those of the
other pipes. -/
theorem PipeSystem.Inv.flush_cases (h : s.Inv) (hx : s.pipes.InUse x)
    (hy : (s.flush x).pipes.InUse y) : y ≠ x ∧ s.pipes.InUse y ∧
    ((s.flush x).pipes.endpoints y = { s.pipes.endpoints y with queue := [] } ∧
      ((s.flush x).pipes.pair y).klass = .none ∨
    (s.flush x).pipes.endpoints y = s.pipes.endpoints y ∧
      ((s.pipes.pair y).klass = .none ∧ ((s.flush x).pipes.pair y).klass = .none ∨
        (s.flush x).pipes.pair y = s.pipes.pair y)) := by
  have hp := h.partner x hx
  obtain ⟨hself, -, hother⟩ := pipeFlush_endpoints hp
  have hyx : y ≠ x := by
    rintro rfl
    exact hy.2 (by rw [PipeSystem.flush, hself])
  have hfields := PipeDevice.link_inj (pipeFlush_link hp hyx)
  have hy : s.pipes.InUse y := ⟨hy.1, hfields.1 ▸ hy.2⟩
  have hpartner : (s.flush x).pipes.partner y = s.pipes.partner y := hfields.2.2.2.1
  refine ⟨hyx, hy, ?_⟩
  rw [Pipes.pair, hpartner]
  by_cases hyp : y = s.pipes.partner x
  · obtain ⟨hl, -⟩ | ⟨hk, -⟩ := h.linked x hx
    · refine .inl ⟨?_, ?_⟩
      · rw [hyp]
        exact (pipeFlush_partner hp)
      · rw [hyp, hl.back, PipeSystem.flush, hself]
    · exact (hy.2 (hyp ▸ hk)).elim
  refine .inr ⟨hother y hyx hyp, ?_⟩
  obtain ⟨hl, -⟩ | ⟨hk, -⟩ := h.linked y hy
  · have hpx : s.pipes.partner y ≠ x := by
      intro e
      exact hyp (by rw [← e, hl.back])
    have hpp : s.pipes.partner y ≠ s.pipes.partner x := by
      intro e
      obtain ⟨hl', -⟩ | ⟨hk, -⟩ := h.linked x hx
      · exact hyx (by rw [← hl.back, e, hl'.back])
      · exact hl.inUse.2 (e ▸ hk)
    exact .inr (hother _ hpx hpp)
  · refine .inl ⟨hk, ?_⟩
    by_cases hpx : s.pipes.partner y = x
    · exact (hx.2 (hpx ▸ hk)).elim
    · exact (PipeDevice.link_inj (pipeFlush_link hp hpx)).1.trans hk

/-! ## Read ends and write ends -/

/-- One end of a pipe reads and the other writes. -/
structure PipeSystem.Modes (s : PipeSystem) : Prop where
  own : ∀ x, s.pipes.InUse x → (s.pipes.endpoints x).write = !(s.pipes.endpoints x).read
  pair : ∀ x, s.pipes.InUse x → (s.pipes.pair x).klass ≠ .none →
    (s.pipes.pair x).read = !(s.pipes.endpoints x).read

theorem PipeSystem.Modes.of_link (h : s.Modes)
    (hlink : ∀ y, (s'.pipes.endpoints y).link = (s.pipes.endpoints y).link) : s'.Modes := by
  have hfields := fun y => PipeDevice.link_inj (hlink y)
  have huse : ∀ y, s'.pipes.InUse y → s.pipes.InUse y := fun y hy => ⟨hy.1, (hfields y).1 ▸ hy.2⟩
  have hpartner : ∀ y, s'.pipes.partner y = s.pipes.partner y := fun y => (hfields y).2.2.2.1
  refine ⟨fun x hx => ?_, fun x hx hk => ?_⟩
  · rw [(hfields x).2.1, (hfields x).2.2.1]
    exact h.own x (huse x hx)
  · rw [Pipes.pair, hpartner, (hfields _).1] at hk
    rw [Pipes.pair, hpartner, (hfields _).2.1, (hfields x).2.1]
    exact h.pair x (huse x hx) hk

theorem PipeStep.modes (hi : s.Inv) (h : s.Modes) (hok : a.SparesPairs s) (hs : PipeStep s a s') :
    s'.Modes := by
  cases hs with
  | «open» _ =>
    obtain heq | ⟨f, inp, out, rfl, ho⟩ := open_opened hok
    · rw [heq]; exact h
    refine ⟨fun x hx => ?_, fun x hx hk => ?_⟩ <;>
      obtain rfl | rfl | ⟨hx, he, hp, -⟩ := ho.old x hx
    · rw [ho.readEnd]; rfl
    · rw [ho.writeEnd]; rfl
    · rw [he]; exact h.own x hx
    · rw [ho.pairRead, ho.readEnd, ho.writeEnd]; rfl
    · rw [ho.pairWrite, ho.readEnd, ho.writeEnd]; rfl
    · rw [hp] at hk ⊢
      rw [he]; exact h.pair x hx hk
  | start => exact h.of_link fun _ => rfl
  | round => exact h.of_link fun _ => round_endpoints.1
  | @flush x hx _ =>
    refine ⟨fun y hy => ?_, fun y hy hk => ?_⟩ <;>
      obtain ⟨-, hy, ⟨he, hnone⟩ | ⟨he, hp⟩⟩ := hi.flush_cases hx hy
    · rw [he]; exact h.own y hy
    · rw [he]; exact h.own y hy
    · exact (hk hnone).elim
    · obtain ⟨-, hnone⟩ | hp := hp
      · exact (hk hnone).elim
      · rw [hp] at hk ⊢
        rw [he]; exact h.pair y hy hk

/-- A read end of the pipe of a read call is the end of the call; of the pipe of a write call, it
is the pair. -/
theorem PipeSystem.Inv.reader (h : s.Inv) (hm : s.Modes) (hc : s.calls p = some c)
    (hx : s.pipes.InUse x) (hread : (s.pipes.endpoints x).read = true)
    (ho : s.hist.owner x = s.hist.owner c.self) :
    if c.writing then x = s.pipes.partner c.self else x = c.self := by
  obtain ⟨hself, hmode⟩ := h.calls p c hc
  have hw := hm.own _ hself
  cases hcw : c.writing with
  | true =>
    rw [hcw, if_pos rfl] at hmode
    obtain rfl | hp := h.unique c.self x hself hx ho
    · rw [hmode, hread] at hw; cases hw
    · exact hp
  | false =>
    rw [hcw] at hmode
    obtain hp | rfl := h.unique c.self x hself hx ho
    · exact hp
    · have := hm.pair _ hself hx.2
      rw [Pipes.pair, hread, show (s.pipes.endpoints c.self).read = true from hmode] at this
      cases this

/-! ## What follows -/

theorem PipeSystem.Inv.broken (h : s.Inv) (hx : s.pipes.InUse x)
    (hc : s.hist.closed (s.hist.owner x) = 1) : s.Broken x := by
  have hk : (s.pipes.pair x).klass = .none := by
    obtain ⟨-, h0⟩ | ⟨hk, -⟩ := h.linked x hx
    · rw [hc] at h0; cases h0
    · exact hk
  refine ⟨hc, ?_, ?_, ?_⟩
  · rintro c rfl hw hsz
    generalize hr : pipeRound s.pipes c = r
    cases hr ▸ pipeRound_cases s.pipes c with
    | full h => exact (h hsz).elim
    | writeEnd => rfl
    | writeBlock _ _ h | writeMove _ _ h => exact (h hk).elim
    | readEnd h | readBlock h | readMove h => rw [hw] at h; cases h
  · rintro c rfl hw hsz hne
    generalize hr : pipeRound s.pipes c = r
    cases hr ▸ pipeRound_cases s.pipes c with
    | full h => exact (h hsz).elim
    | writeEnd h | writeBlock h | writeMove h => rw [hw] at h; cases h
    | readEnd _ _ _ h | readBlock _ _ _ h => exact (hne h).elim
    | readMove => exact ⟨rfl, rfl⟩
  · rintro c rfl hw hsz h0
    generalize hr : pipeRound s.pipes c = r
    cases hr ▸ pipeRound_cases s.pipes c with
    | full | readEnd => rfl
    | writeEnd h | writeBlock h | writeMove h => rw [hw] at h; cases h
    | readBlock _ _ h => exact (h hk).elim
    | readMove _ _ h => exact (h h0).elim

/-- An open endpoint that is not one of pipe `k` is neither an open end `y` of it nor the pair of
one. -/
theorem PipeSystem.Inv.ne_of_owner (h : s.Inv) (hx : s.pipes.InUse x) (hy : s.pipes.InUse y)
    (hne : s.hist.owner y ≠ s.hist.owner x) : x ≠ y ∧ x ≠ s.pipes.partner y := by
  constructor
  · rintro rfl; exact hne rfl
  · rintro rfl
    obtain ⟨hl, -⟩ | ⟨hk, -⟩ := h.linked y hy
    · exact hne hl.owner.symm
    · exact hx.2 hk

theorem PipeSystem.Inv.linked_of (h : s.Inv) (hx : s.pipes.InUse x)
    (hk : (s.pipes.pair x).klass ≠ .none) : s.Linked x := by
  obtain ⟨hl, -⟩ | ⟨h0, -⟩ := h.linked x hx
  · exact hl
  · exact (hk h0).elim

/-- The pair of an open endpoint of another pipe is not one of the ends of the call, as long as it
is open. -/
theorem PipeSystem.Inv.partner_ne (h : s.Inv) (hx : s.pipes.InUse x) (hy : s.pipes.InUse y)
    (hne : s.hist.owner y ≠ s.hist.owner x) (hk : (s.pipes.pair x).klass ≠ .none) :
    s.pipes.partner x ≠ y ∧ s.pipes.partner x ≠ s.pipes.partner y := by
  have hl := h.linked_of hx hk
  exact h.ne_of_owner hl.inUse hy (by rw [hl.owner]; exact hne)

theorem PipeStep.isolated (h : s.Inv) (hs : PipeStep s a s') (hx : s.pipes.InUse x)
    (ha : a.pipe s ≠ some (s.hist.owner x)) : s'.pipes.endpoints x = s.pipes.endpoints x := by
  cases hs with
  | @«open» frame _ =>
    obtain heq | ⟨f, inp, out, rest, rfl, hslots, -, -, hother, -⟩ := open_cases (s := s) frame
    · rw [heq]
    · obtain ⟨⟨-, hik⟩, ⟨-, hok⟩, -⟩ := freeSlots_spec hslots
      exact hother x (fun e => hx.2 (e ▸ hik)) (fun e => hx.2 (e ▸ hok))
  | start => rfl
  | @round p c hc _ =>
    have hne : s.hist.owner c.self ≠ s.hist.owner x := fun e => ha (by simp [PipeLabel.pipe, hc, e])
    obtain ⟨h1, h2⟩ := h.ne_of_owner hx (h.calls p c hc).1 hne
    exact round_endpoints.2 h1 h2
  | @flush y hy _ =>
    obtain ⟨h1, h2⟩ := h.ne_of_owner hx hy fun e => ha (by simp [PipeLabel.pipe, e])
    exact (pipeFlush_endpoints (h.partner y hy)).2.2 x h1 h2

/-- An endpoint that is not the one closed stays open, for the same pipe, and the ends of its pipe
that were closed before are those closed after, if its pair is closed already. -/
theorem PipeStep.closed (h : s.Inv) (hs : PipeStep s a s') (hx : s.pipes.InUse x)
    (hc : s.hist.closed (s.hist.owner x) = 1) (ha : a ≠ .flush x) :
    s'.pipes.InUse x ∧ s'.hist.closed (s'.hist.owner x) = 1 := by
  cases hs with
  | @«open» frame _ =>
    obtain heq | ⟨f, inp, out, rest, rfl, hslots, -, -, hother, -, hhist⟩ :=
      open_cases (s := s) frame
    · rw [heq]; exact ⟨hx, hc⟩
    · obtain ⟨⟨-, hik⟩, ⟨-, hok⟩, -⟩ := freeSlots_spec hslots
      have hinp : x ≠ inp := fun e => hx.2 (e ▸ hik)
      have hout : x ≠ out := fun e => hx.2 (e ▸ hok)
      rw [Pipes.InUse, hother x hinp hout, hhist]
      exact ⟨hx, by simpa [PipeHistory.open', hinp, hout] using hc⟩
  | start => exact ⟨hx, hc⟩
  | round =>
    rw [round_hist.1, round_hist.2.1, Pipes.InUse, (PipeDevice.link_inj round_endpoints.1).1]
    exact ⟨hx, hc⟩
  | @flush y hy _ =>
    have hyx : x ≠ y := by rintro rfl; exact ha rfl
    have hne : s.hist.owner x ≠ s.hist.owner y := by
      intro e
      obtain rfl | rfl := h.unique x y hx hy e.symm
      · exact hyx rfl
      obtain ⟨-, h0⟩ | ⟨hk, -⟩ := h.linked x hx
      · rw [hc] at h0; cases h0
      · exact hy.2 hk
    have hend := pipeFlush_link (h.partner y hy) hyx
    refine ⟨⟨hx.1, ?_⟩, ?_⟩
    · rw [PipeSystem.flush, (PipeDevice.link_inj hend).1]; exact hx.2
    · rw [PipeSystem.flush, PipeHistory.flush]
      exact (Function.update_of_ne hne ..).trans hc

/-- In every run in which no open takes the slot of a closed end whose other end is open, the
endpoints of different pipes are kept apart and every buffer is freed once. -/
theorem pipe_endpoints_sound (hr : Reach pipeSystem (fun s a => a.SparesPairs s) s) :
    s.Sound := by
  have h := reach_inv hr
  refine ⟨fun x hx => ?_, fun x a s' hx hb hok hs ha => ?_, fun x a s' hx hok hs ha => ?_, h.freed⟩
  · exact (h.linked x hx).imp And.left fun hb => h.broken hx hb.2
  · obtain ⟨hx', hc⟩ := PipeStep.closed h hs hx hb.closed ha
    exact ⟨hx', (PipeStep.inv h hok hs).broken hx' hc⟩
  · exact PipeStep.isolated h hs hx ha

end

/-- After `pipe_init`, with no process in a call. -/
def idlePipes : PipeSystem where
  pipes := { endpoints := fun _ => { initEndpoint with klass := .none }
             mem := fun _ _ => 0
             held := fun _ => false }
  calls _ := none
  hist := { opened := 0, owner := fun _ => 0, closed := fun _ => 0, freed := fun _ => 0
            reads := fun _ => [], writes := fun _ => [], entry := fun _ => 0 }

theorem idlePipes_initial : idlePipes.Initial :=
  ⟨fun _ _ => rfl, fun _ => rfl, rfl, fun _ => rfl, fun _ => rfl, fun _ => rfl, fun _ => rfl⟩

theorem idlePipes_open (ok : PipeSystem → PipeLabel → Prop) (hok : ok idlePipes (.open (some 1))) :
    Reach pipeSystem ok (idlePipes.open' (some 1)) :=
  Reach.step (M := pipeSystem) (.init idlePipes_initial) hok (PipeStep.open fun _ _ => rfl)

theorem idlePipes_flush : PipeStep (idlePipes.open' (some 1)) (.flush 0)
    ((idlePipes.open' (some 1)).flush 0) :=
  .flush ⟨by decide, by decide +kernel⟩ fun p c hc => by cases hc

/-- A pipe whose read end was closed. -/
theorem pipe_endpoints_sound_flush : ((idlePipes.open' (some 1)).flush 0).Sound :=
  pipe_endpoints_sound (Reach.step (M := pipeSystem)
    (idlePipes_open _ fun _ _ _ _ _ hx => (hx.2 rfl).elim)
    (show PipeLabel.SparesPairs _ (.flush 0) from trivial) idlePipes_flush)

/-- The read end of pipe 0 is closed and its slot goes to pipe 1: the write end of pipe 0 has an
endpoint of pipe 1 for its pair, and a write to it succeeds. -/
theorem pipe_slot_reused : ∃ s, Reach pipeSystem anyStep s ∧ s.pipes.InUse 1 ∧
    s.hist.owner 1 ≠ s.hist.owner (s.pipes.partner 1) ∧ s.hist.closed (s.hist.owner 1) = 1 ∧
    ¬s.Sound := by
  refine ⟨((idlePipes.open' (some 1)).flush 0).open' (some 2), ?_, ⟨by decide, by decide +kernel⟩,
    by decide +kernel, by decide +kernel, fun h => ?_⟩
  · exact Reach.step (M := pipeSystem) (Reach.step (M := pipeSystem) (idlePipes_open _ trivial)
      trivial idlePipes_flush) trivial (PipeStep.open fun f hf => by cases hf; decide +kernel)
  · obtain hl | hb := h.linked 1 ⟨by decide, by decide +kernel⟩
    · exact absurd hl.owner (by decide +kernel)
    · have hw := hb.write ⟨true, 1, 0, 1, 0, fun _ => 0, fun _ => true⟩ rfl rfl (by decide)
      exact absurd (congrArg (fun r => r.2.1.sz) hw) (by decide +kernel)

end SpuriOS
