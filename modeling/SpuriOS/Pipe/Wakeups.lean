import SpuriOS.Pipe.Stream
import Mathlib.Data.Nat.ModEq

/-! # Who waits on a pipe has to wait

The state is extended by the bytes put into and taken out of every pipe. The two ends of an open
pipe agree on what is in the buffer. A process waits on an end only while the other end is open
and the buffer is empty, for a reader, or full, for a writer. -/

namespace SpuriOS
open Transition

structure PipeCount where
  sys : PipeSystem
  /-- The sum of the chunks that writers put into a pipe, and of those that readers took out. -/
  put : Nat → Nat
  taken : Nat → Nat

/-- The call and the size of the chunk of a step that moves bytes. -/
def PipeLabel.chunk (s : PipeSystem) : PipeLabel → Option (PipeCall × Nat)
  | .round p => (s.calls p).bind fun c =>
    match pipeRound s.pipes c with
    | (_, c', .again) => some (c, c'.sz - c.sz)
    | _ => none
  | _ => none

namespace PipeCount

/-- A round of a call has moved `n` bytes. -/
def count (s : PipeCount) (c : PipeCall) (n : Nat) (s' : PipeSystem) : PipeCount :=
  let k := s.sys.hist.owner c.self
  if c.writing then { s with sys := s', put := Function.update s.put k (s.put k + n) }
  else { s with sys := s', taken := Function.update s.taken k (s.taken k + n) }

def next (s : PipeCount) (a : PipeLabel) (s' : PipeSystem) : PipeCount :=
  match a.chunk s.sys with
  | some (c, n) => s.count c n s'
  | none => { s with sys := s' }

end PipeCount

inductive PipeCountStep : PipeCount → PipeLabel → PipeCount → Prop
  | step {s : PipeCount} {a s'} : PipeStep s.sys a s' → PipeCountStep s a (s.next a s')

structure PipeCount.Initial (s : PipeCount) : Prop where
  sys : s.sys.Initial
  put : ∀ k, s.put k = 0
  taken : ∀ k, s.taken k = 0

def pipeCountSystem : System PipeCount PipeLabel where
  init := PipeCount.Initial
  step := PipeCountStep

/-- The read end `e` and the write end `w` of a pipe agree. -/
structure Balanced (e w : PipeDevice) (put taken : Nat) : Prop where
  le : e.bytesAvailable ≤ bufferSize
  same : w.bytesAvailable = e.bytesAvailable
  pos : w.pos = (e.pos + e.bytesAvailable) % bufferSize
  moved : put = taken + e.bytesAvailable

/-- What is said of a state: the ends agree while both are open, and a process that waits on an
end would wait again. -/
structure PipeCount.Awake (s : PipeCount) : Prop where
  balanced : ∀ x, s.sys.pipes.InUse x → (s.sys.pipes.pair x).klass ≠ .none →
    (s.sys.pipes.endpoints x).read = true →
    Balanced (s.sys.pipes.endpoints x) (s.sys.pipes.pair x) (s.put (s.sys.hist.owner x))
      (s.taken (s.sys.hist.owner x))
  reader : ∀ x, s.sys.pipes.InUse x → (s.sys.pipes.endpoints x).read = true →
    (s.sys.pipes.endpoints x).queue ≠ [] →
    (s.sys.pipes.endpoints x).bytesAvailable = 0 ∧ (s.sys.pipes.pair x).klass ≠ .none
  writer : ∀ x, s.sys.pipes.InUse x → (s.sys.pipes.endpoints x).write = true →
    (s.sys.pipes.endpoints x).queue ≠ [] →
    (s.sys.pipes.endpoints x).bytesAvailable = bufferSize ∧ (s.sys.pipes.pair x).klass ≠ .none
  blocked : ∀ p c, s.sys.calls p = some c → p ∈ (s.sys.pipes.endpoints c.self).queue →
    pipeRound s.sys.pipes c = (s.sys.pipes, c, .block)

/-! ## The ends of a pipe -/

section
variable {e w : PipeDevice} {n i o : Nat}

theorem Balanced.take (h : Balanced e w i o) (hn : n ≤ e.bytesAvailable) :
    Balanced { e with pos := (e.pos + n) % bufferSize, bytesAvailable := e.bytesAvailable - n }
      { w with bytesAvailable := Word32.sub w.bytesAvailable n, queue := [] } i (o + n) := by
  have hle := h.le
  rw [bufferSize_eq] at hle
  refine ⟨Nat.le_trans (Nat.sub_le ..) h.le, ?_, ?_, ?_⟩
  · dsimp only
    rw [h.same, Word32.sub_of_le hn (by omega)]
  · dsimp only
    rw [h.pos, Nat.mod_add_mod, Nat.add_assoc, Nat.add_sub_cancel' hn]
  · dsimp only
    rw [h.moved, Nat.add_assoc, Nat.add_sub_cancel' hn]

theorem Balanced.fill (h : Balanced e w i o) (hn : w.bytesAvailable + n ≤ bufferSize) :
    Balanced { e with bytesAvailable := Word32.add e.bytesAvailable n, queue := [] }
      { w with pos := (w.pos + n) % bufferSize, bytesAvailable := w.bytesAvailable + n }
      (i + n) o := by
  rw [h.same] at hn
  have hadd : Word32.add e.bytesAvailable n = e.bytesAvailable + n :=
    Word32.add_of_lt (by rw [bufferSize_eq] at hn; omega)
  refine ⟨?_, ?_, ?_, ?_⟩ <;> dsimp only
  · rwa [hadd]
  · rw [hadd, h.same]
  · rw [hadd, h.pos, Nat.mod_add_mod, Nat.add_assoc]
  · rw [hadd, h.moved, Nat.add_assoc]

theorem Balanced.congr {e' w' : PipeDevice} (h : Balanced e w i o) (he : e'.pos = e.pos)
    (hea : e'.bytesAvailable = e.bytesAvailable) (hw : w'.pos = w.pos)
    (hwa : w'.bytesAvailable = w.bytesAvailable) : Balanced e' w' i o := by
  refine ⟨?_, ?_, ?_, ?_⟩
  · rw [hea]
    exact h.le
  · rw [hea, hwa]
    exact h.same
  · rw [he, hea, hw]
    exact h.pos
  · rw [hea]
    exact h.moved

end

/-! ## The invariant -/

/-- An end whose queue is not empty keeps the processes in it waiting. -/
structure PipeCount.Inv (s : PipeCount) : Prop extends s.sys.Inv where
  modes : s.sys.Modes
  balanced : ∀ x, s.sys.pipes.InUse x → (s.sys.pipes.pair x).klass ≠ .none →
    (s.sys.pipes.endpoints x).read = true →
    Balanced (s.sys.pipes.endpoints x) (s.sys.pipes.pair x) (s.put (s.sys.hist.owner x))
      (s.taken (s.sys.hist.owner x))
  queue : ∀ x, s.sys.pipes.InUse x → (s.sys.pipes.endpoints x).queue ≠ [] →
    (s.sys.pipes.pair x).klass ≠ .none ∧ (s.sys.pipes.endpoints x).bytesAvailable =
      if (s.sys.pipes.endpoints x).write then bufferSize else 0
  waiting : ∀ x, s.sys.pipes.InUse x → ∀ p ∈ (s.sys.pipes.endpoints x).queue,
    ∃ c, s.sys.calls p = some c ∧ c.self = x ∧ c.sz < c.size
  countNew : ∀ k, s.sys.hist.opened ≤ k → s.put k = 0 ∧ s.taken k = 0

section
variable {s s' : PipeCount} {t : PipeSystem} {c c' : PipeCall} {p x y : Nat} {a : PipeLabel}

theorem PipeCount.Initial.inv (h : s.Initial) : s.Inv := by
  have hno : ∀ x, ¬s.sys.pipes.InUse x := fun x hx => hx.2 (h.sys.klass x hx.1)
  exact { h.sys.inv with
    modes := ⟨fun x hx => (hno x hx).elim, fun x hx => (hno x hx).elim⟩
    balanced := fun x hx => (hno x hx).elim
    queue := fun x hx => (hno x hx).elim
    waiting := fun x hx => (hno x hx).elim
    countNew := fun k _ => ⟨h.put k, h.taken k⟩ }

namespace PipeCount.Inv

theorem write_iff (h : s.Inv) (hc : s.sys.calls p = some c) :
    (s.sys.pipes.endpoints c.self).write = c.writing := by
  obtain ⟨hself, hmode⟩ := h.calls p c hc
  have hw := h.modes.own _ hself
  cases hcw : c.writing with
  | true => rwa [hcw, if_pos rfl] at hmode
  | false =>
    rw [hcw] at hmode
    rw [hw, show (s.sys.pipes.endpoints c.self).read = true from hmode]
    rfl

theorem blocked (h : s.Inv) (hc : s.sys.calls p = some c)
    (hp : p ∈ (s.sys.pipes.endpoints c.self).queue) :
    pipeRound s.sys.pipes c = (s.sys.pipes, c, .block) := by
  have hself := (h.calls p c hc).1
  obtain ⟨c', hc', -, hsz⟩ := h.waiting _ hself p hp
  obtain rfl : c = c' := Option.some.inj (hc.symm.trans hc')
  obtain ⟨hk, havail⟩ := h.queue _ hself (List.ne_nil_of_mem hp)
  rw [h.write_iff hc] at havail
  generalize hr : pipeRound s.sys.pipes c = r
  cases hr ▸ pipeRound_cases s.sys.pipes c with
  | full hfull => exact absurd hsz hfull
  | readEnd _ _ hk' => exact absurd hk' hk
  | readBlock => rfl
  | readMove hw _ havail' => exact absurd (by rw [havail, hw]; rfl) havail'
  | writeEnd _ _ hk' => exact absurd hk' hk
  | writeBlock => rfl
  | writeMove hw _ _ havail' => exact absurd (by rw [havail, hw]; rfl) havail'

theorem awake (h : s.Inv) : s.Awake where
  balanced := h.balanced
  reader x hx hread hq := by
    obtain ⟨hk, havail⟩ := h.queue x hx hq
    rw [h.modes.own x hx, hread] at havail
    exact ⟨havail, hk⟩
  writer x hx hwrite hq := by
    obtain ⟨hk, havail⟩ := h.queue x hx hq
    rw [hwrite] at havail
    exact ⟨havail, hk⟩
  blocked p c hc hp := h.blocked hc hp

/-! ### Opens and closes -/

theorem opens (h : s.Inv) {frame : Option Nat} (hok : (PipeLabel.open frame).SparesPairs s.sys)
    (hs : PipeStep s.sys (.open frame) (s.sys.open' frame)) :
    PipeCount.Inv { s with sys := s.sys.open' frame } := by
  have hinv := PipeStep.inv h.toInv hok hs
  have hmodes := PipeStep.modes h.toInv h.modes hok hs
  obtain heq | ⟨f, inp, out, rfl, ho⟩ := open_opened hok
  · rw [heq]; exact h
  have hnew := h.countNew _ (Nat.le_refl s.sys.hist.opened)
  refine { hinv with modes := hmodes, balanced := fun x hx hk hread => ?_,
                     queue := fun x hx hq => ?_, waiting := fun x hx q hq => ?_,
                     countNew := fun k hk => ?_ }
  · dsimp only at hx hk hread ⊢
    obtain rfl | rfl | ⟨hx, he, hp, hown⟩ := ho.old x hx
    · rw [ho.pairRead, ho.readEnd, ho.writeEnd, ho.owner.1, hnew.1, hnew.2]
      exact ⟨Nat.zero_le _, rfl, rfl, rfl⟩
    · rw [ho.writeEnd] at hread
      cases hread
    · rw [hp] at hk ⊢
      rw [he] at hread ⊢
      rw [hown]
      exact h.balanced x hx hk hread
  · dsimp only at hx hq ⊢
    obtain rfl | rfl | ⟨hx, he, hp, -⟩ := ho.old x hx
    · rw [ho.readEnd] at hq
      exact (hq rfl).elim
    · rw [ho.writeEnd] at hq
      exact (hq rfl).elim
    · rw [he] at hq ⊢
      rw [hp]
      exact h.queue x hx hq
  · dsimp only at hx hq ⊢
    rw [ho.calls]
    obtain rfl | rfl | ⟨hx, he, -⟩ := ho.old x hx
    · rw [ho.readEnd] at hq
      cases hq
    · rw [ho.writeEnd] at hq
      cases hq
    · rw [he] at hq
      exact h.waiting x hx q hq
  · dsimp only at hk ⊢
    rw [ho.opened] at hk
    exact h.countNew k (Nat.le_of_succ_le hk)

theorem flush (h : s.Inv) (hx : s.sys.pipes.InUse x)
    (hno : ∀ p c, s.sys.calls p = some c → c.self ≠ x) :
    PipeCount.Inv { s with sys := s.sys.flush x } := by
  have hs : PipeStep s.sys (.flush x) (s.sys.flush x) := .flush hx hno
  have hok : PipeLabel.SparesPairs s.sys (.flush x) := trivial
  have hinv := PipeStep.inv h.toInv hok hs
  have hmodes := PipeStep.modes h.toInv h.modes hok hs
  refine { hinv with modes := hmodes, balanced := fun y hy hk hread => ?_,
                     queue := fun y hy hq => ?_, waiting := fun y hy q hq => ?_,
                     countNew := h.countNew } <;>
    dsimp only at * <;>
    obtain ⟨-, hy, ⟨he, hnone⟩ | ⟨he, hp⟩⟩ := h.flush_cases hx hy
  · exact (hk hnone).elim
  · obtain ⟨-, hnone⟩ | hp := hp
    · exact (hk hnone).elim
    rw [hp] at hk ⊢
    rw [he] at hread ⊢
    exact h.balanced y hy hk hread
  · rw [he] at hq
    exact (hq rfl).elim
  · rw [he] at hq ⊢
    obtain ⟨hnone, -⟩ | hp := hp
    · exact ((h.queue y hy hq).1 hnone).elim
    rw [hp]
    exact h.queue y hy hq
  · rw [he] at hq
    cases hq
  · rw [he] at hq
    exact h.waiting y hy q hq

/-! ### Calls -/

theorem start (h : s.Inv) (hp : s.sys.calls p = none) (hself : s.sys.pipes.InUse c.self)
    (hmode : if c.writing then (s.sys.pipes.endpoints c.self).write
      else (s.sys.pipes.endpoints c.self).read) :
    PipeCount.Inv { s with sys := s.sys.setCall p (some c) } := by
  have hinv : (s.sys.setCall p (some c)).Inv := h.toInv.start hself hmode
  refine { hinv with modes := h.modes.of_link fun _ => rfl, balanced := h.balanced,
                     queue := h.queue, waiting := fun x hx q hq => ?_, countNew := h.countNew }
  obtain ⟨d, hd, hrest⟩ := h.waiting x hx q hq
  have hqp : q ≠ p := by
    rintro rfl
    rw [hp] at hd
    cases hd
  exact ⟨d, by rw [PipeSystem.setCall_of_ne hqp, hd], hrest⟩

/-- A process that does not wait on the endpoint of its call waits on none. -/
theorem ne_of_waiting (h : s.Inv) (hc : s.sys.calls p = some c)
    (hp : p ∉ (s.sys.pipes.endpoints c.self).queue) (hx : s.sys.pipes.InUse x) {q : Pid}
    (hq : q ∈ (s.sys.pipes.endpoints x).queue) : q ≠ p := by
  rintro rfl
  obtain ⟨d, hd, rfl, -⟩ := h.waiting x hx q hq
  rw [hc, Option.some.injEq] at hd
  exact hp (hd ▸ hq)

theorem ended (h : s.Inv) (hc : s.sys.calls p = some c)
    (hp : p ∉ (s.sys.pipes.endpoints c.self).queue) (hinv : (s.sys.setCall p none).Inv) :
    PipeCount.Inv { s with sys := s.sys.setCall p none } := by
  refine { hinv with modes := h.modes.of_link fun _ => rfl, balanced := h.balanced,
                     queue := h.queue, waiting := fun x hx q hq => ?_, countNew := h.countNew }
  obtain ⟨d, hd, hrest⟩ := h.waiting x hx q hq
  exact ⟨d, by rw [PipeSystem.setCall_of_ne (h.ne_of_waiting hc hp hx hq), hd], hrest⟩

/-- A process enters the queue with a call it could not go on with. -/
theorem enqueued (h : s.Inv) (hc : s.sys.calls p = some c) (hsz : c.sz < c.size)
    (hk : (s.sys.pipes.pair c.self).klass ≠ .none)
    (havail : (s.sys.pipes.endpoints c.self).bytesAvailable = if c.writing then bufferSize else 0)
    (hinv : (s.sys.enqueue c.self p).Inv) :
    PipeCount.Inv { s with sys := s.sys.enqueue c.self p } := by
  have hends : ∀ x, ∃ q, (s.sys.enqueue c.self p).pipes.endpoints x =
      { s.sys.pipes.endpoints x with queue := q } ∧
      ∀ r ∈ q, r ∈ (s.sys.pipes.endpoints x).queue ∨ (r = p ∧ x = c.self) := by
    intro x
    by_cases hx : x = c.self
    · subst hx
      rw [PipeSystem.enqueue, Pipes.modify_self]
      exact ⟨_, rfl, fun r hr => by simpa using hr⟩
    · rw [PipeSystem.enqueue, Pipes.modify_of_ne _ hx]
      exact ⟨_, rfl, fun r hr => .inl hr⟩
  have hlink : ∀ x, ((s.sys.enqueue c.self p).pipes.endpoints x).link =
      (s.sys.pipes.endpoints x).link := by
    intro x
    obtain ⟨q, hq, -⟩ := hends x
    rw [hq]; rfl
  have hpair : ∀ x, ∃ q, (s.sys.enqueue c.self p).pipes.pair x =
      { s.sys.pipes.pair x with queue := q } := by
    intro x
    obtain ⟨q, hq, -⟩ := hends (s.sys.pipes.partner x)
    rw [Pipes.pair, Pipes.partner, (PipeDevice.link_inj (hlink x)).2.2.2.1]
    exact ⟨q, hq⟩
  have huse : ∀ x, (s.sys.enqueue c.self p).pipes.InUse x → s.sys.pipes.InUse x := fun x hx =>
    ⟨hx.1, (PipeDevice.link_inj (hlink x)).1 ▸ hx.2⟩
  refine { hinv with modes := h.modes.of_link hlink, balanced := fun x hx hk hread => ?_,
                     queue := fun x hx hq => ?_, waiting := fun x hx q hq => ?_,
                     countNew := h.countNew } <;>
    dsimp only at * <;>
    have hx := huse x hx <;>
    obtain ⟨q', he, hmem⟩ := hends x <;>
    obtain ⟨qp, hpe⟩ := hpair x
  · rw [hpe] at hk ⊢
    rw [he] at hread ⊢
    exact (h.balanced x hx hk hread).congr rfl rfl rfl rfl
  · rw [he] at hq ⊢
    rw [hpe]
    obtain ⟨r, hr⟩ := List.exists_mem_of_ne_nil _ hq
    obtain hr | ⟨-, rfl⟩ := hmem r hr
    · exact h.queue x hx (List.ne_nil_of_mem hr)
    · exact ⟨hk, by rw [← h.write_iff hc] at havail; exact havail⟩
  · rw [he] at hq
    obtain hq | ⟨rfl, rfl⟩ := hmem q hq
    · exact h.waiting x hx q hq
    · exact ⟨c, hc, rfl, hsz⟩

/-- A round that moves bytes leaves nobody waiting on the pipe. -/
theorem moved (h : s.Inv) (hc : s.sys.calls p = some c)
    (hp : p ∉ (s.sys.pipes.endpoints c.self).queue) {P : Pipes}
    (hsys : s'.sys = s.sys.move p c c' P) (hinv : s'.sys.Inv)
    (hends : ∀ y, (P.endpoints y).link = (s.sys.pipes.endpoints y).link ∧
      (y ≠ c.self → y ≠ s.sys.pipes.partner c.self →
        P.endpoints y = s.sys.pipes.endpoints y))
    (hqueue : (P.endpoints c.self).queue = [] ∧
      (P.endpoints (s.sys.pipes.partner c.self)).queue = [])
    (hcount : ∀ k, k ≠ s.sys.hist.owner c.self → s'.put k = s.put k ∧ s'.taken k = s.taken k)
    (hbal : ∀ x, s.sys.pipes.InUse x → (s.sys.pipes.pair x).klass ≠ .none →
      (s.sys.pipes.endpoints x).read = true → s.sys.hist.owner x = s.sys.hist.owner c.self →
      Balanced (P.endpoints x) (P.endpoints (s.sys.pipes.partner x))
        (s'.put (s.sys.hist.owner c.self)) (s'.taken (s.sys.hist.owner c.self))) : s'.Inv := by
  have hself := (h.calls p c hc).1
  have hpipes : s'.sys.pipes = P := by rw [hsys]; rfl
  have hfields := fun y => PipeDevice.link_inj (hends y).1
  have huse : ∀ x, P.InUse x → s.sys.pipes.InUse x := fun x hx => ⟨hx.1, (hfields x).1 ▸ hx.2⟩
  have hpartner : ∀ x, P.partner x = s.sys.pipes.partner x := fun x => (hfields x).2.2.2.1
  have howner : s'.sys.hist.owner = s.sys.hist.owner ∧
      s'.sys.hist.opened = s.sys.hist.opened := by
    rw [hsys, PipeSystem.move, PipeSystem.setCall, PipeHistory.transfer]
    dsimp only
    split <;> split <;> exact ⟨rfl, rfl⟩
  -- an open endpoint is one of the ends of the pipe, or another one that did not change
  have hcases : ∀ x, s.sys.pipes.InUse x →
      (s.sys.hist.owner x = s.sys.hist.owner c.self ∧ (P.endpoints x).queue = []) ∨
      (s.sys.hist.owner x ≠ s.sys.hist.owner c.self ∧
        P.endpoints x = s.sys.pipes.endpoints x) := by
    intro x hx
    by_cases ho : s.sys.hist.owner x = s.sys.hist.owner c.self
    · obtain rfl | rfl := h.unique _ _ hself hx ho
      · exact .inl ⟨ho, hqueue.1⟩
      · exact .inl ⟨ho, hqueue.2⟩
    · have hne := h.ne_of_owner hx hself fun e => ho e.symm
      exact .inr ⟨ho, (hends x).2 hne.1 hne.2⟩
  refine { hinv with modes := h.modes.of_link fun y => by rw [hpipes]; exact (hends y).1,
                     balanced := fun x hx hk hread => ?_, queue := fun x hx hq => ?_,
                     waiting := fun x hx q hq => ?_, countNew := fun k hk => ?_ }
  · rw [hpipes] at hx hk hread ⊢
    rw [Pipes.pair, hpartner] at hk ⊢
    rw [(hfields _).1] at hk
    rw [(hfields x).2.1] at hread
    rw [howner.1]
    have hx := huse x hx
    obtain ⟨ho, -⟩ | ⟨ho, he⟩ := hcases x hx
    · rw [ho]
      exact hbal x hx hk hread ho
    · obtain ⟨hpx, hpp⟩ := h.partner_ne hx hself (fun e => ho e.symm) hk
      rw [he, (hends _).2 hpx hpp, (hcount _ ho).1, (hcount _ ho).2]
      exact h.balanced x hx hk hread
  · rw [hpipes] at hx hq ⊢
    rw [Pipes.pair, hpartner, (hfields _).1]
    have hx := huse x hx
    obtain ⟨-, hnil⟩ | ⟨-, he⟩ := hcases x hx
    · exact (hq hnil).elim
    · rw [he] at hq ⊢
      exact h.queue x hx hq
  · rw [hpipes] at hx hq
    have hx := huse x hx
    obtain ⟨-, hnil⟩ | ⟨-, he⟩ := hcases x hx
    · rw [hnil] at hq
      cases hq
    · rw [he] at hq
      obtain ⟨d, hd, hrest⟩ := h.waiting x hx q hq
      exact ⟨d, by rw [hsys, PipeSystem.move_of_ne (h.ne_of_waiting hc hp hx hq), hd], hrest⟩
  · rw [howner.2] at hk
    have hlt := h.owner_lt _ hself
    obtain ⟨hput, htaken⟩ := hcount k (by omega)
    rw [hput, htaken]
    exact h.countNew k hk

/-- Nobody waits on an end that can be read from or written to. -/
theorem queue_nil (h : s.Inv) (hc : s.sys.calls p = some c)
    (havail : (s.sys.pipes.endpoints c.self).bytesAvailable ≠
      if c.writing then bufferSize else 0) : (s.sys.pipes.endpoints c.self).queue = [] := by
  by_contra hq
  have hfull := (h.queue _ (h.calls p c hc).1 hq).2
  rw [h.write_iff hc] at hfull
  exact havail hfull

theorem read (h : s.Inv) (hc : s.sys.calls p = some c)
    (hp : p ∉ (s.sys.pipes.endpoints c.self).queue) (hw : c.writing = false)
    (havail : (s.sys.pipes.endpoints c.self).bytesAvailable ≠ 0)
    (hinv : (s.sys.move p c (readCall s.sys.pipes c) (readMove s.sys.pipes c)).Inv) :
    (s.count c (readSize s.sys.pipes c)
      (s.sys.move p c (readCall s.sys.pipes c) (readMove s.sys.pipes c))).Inv := by
  have hself := (h.calls p c hc).1
  obtain ⟨heself, hepair⟩ := readMove_flow (h.partner _ hself)
  have hnil := h.queue_nil hc (by rwa [hw, if_neg (by simp)])
  rw [count, if_neg (by simp [hw])]
  refine h.moved hc hp rfl hinv (fun _ => readMove_endpoints)
    ⟨by rw [heself]; exact hnil, by rw [hepair]⟩
    (fun k hk => ⟨rfl, Function.update_of_ne hk ..⟩) fun x hx hk hread ho => ?_
  have hx' := h.reader h.modes hc hx hread ho
  rw [hw, if_neg (by simp)] at hx'
  subst hx'
  dsimp only
  rw [heself, hepair, Function.update_self]
  exact (h.balanced _ hx hk hread).take (Nat.min_le_left ..)

theorem write (h : s.Inv) (hc : s.sys.calls p = some c)
    (hp : p ∉ (s.sys.pipes.endpoints c.self).queue) (hw : c.writing = true)
    (havail : (s.sys.pipes.endpoints c.self).bytesAvailable ≠ bufferSize)
    (hinv : (s.sys.move p c (writeCall s.sys.pipes c) (writeMove s.sys.pipes c)).Inv) :
    (s.count c (writeSize s.sys.pipes c)
      (s.sys.move p c (writeCall s.sys.pipes c) (writeMove s.sys.pipes c))).Inv := by
  have hself := (h.calls p c hc).1
  obtain ⟨heself, hepair⟩ := writeMove_flow (h.partner _ hself)
  have hnil := h.queue_nil hc (by rwa [hw, if_pos rfl])
  rw [count, if_pos hw]
  refine h.moved hc hp rfl hinv (fun _ => writeMove_endpoints)
    ⟨by rw [heself]; exact hnil, by rw [hepair]⟩
    (fun k hk => ⟨Function.update_of_ne hk .., rfl⟩) fun x hx hk hread ho => ?_
  have hx' := h.reader h.modes hc hx hread ho
  rw [hw, if_pos rfl] at hx'
  subst hx'
  have hl := h.linked_of hself hx.2
  have hbal := h.balanced _ hx hk hread
  rw [ho, Pipes.pair, hl.back] at hbal
  have hle := hbal.le
  have hsame := hbal.same
  have hroom : writeSize s.sys.pipes c ≤
      bufferSize - (s.sys.pipes.endpoints c.self).bytesAvailable := by
    rw [writeSize, Word32.sub_of_le (by omega) (by decide)]
    exact Nat.min_le_left ..
  dsimp only
  rw [hl.back, heself, hepair, Function.update_self]
  exact hbal.fill (by omega)

end PipeCount.Inv

theorem PipeLabel.chunk_round (hc : t.calls p = some c) :
    (PipeLabel.round p).chunk t = match pipeRound t.pipes c with
      | (_, c', .again) => some (c, c'.sz - c.sz)
      | _ => none := by
  rw [chunk, hc]
  rfl

theorem PipeCount.Inv.round (h : s.Inv) (hc : s.sys.calls p = some c)
    (hp : p ∉ (s.sys.pipes.endpoints c.self).queue) :
    (s.next (.round p) (s.sys.round p c)).Inv := by
  have hinv := h.toInv.round hc
  rw [PipeSystem.round] at hinv ⊢
  rw [next, PipeLabel.chunk_round hc]
  generalize hr : pipeRound s.sys.pipes c = r at hinv ⊢
  cases hr ▸ pipeRound_cases s.sys.pipes c with
  | full | readEnd | writeEnd => exact h.ended hc hp hinv
  | readBlock hw hsz hk havail => exact h.enqueued hc hsz hk (by rw [hw]; exact havail) hinv
  | writeBlock hw hsz hk havail => exact h.enqueued hc hsz hk (by rw [hw]; exact havail) hinv
  | readMove hw _ havail =>
    have hn : (readCall s.sys.pipes c).sz - c.sz = readSize s.sys.pipes c :=
      Nat.add_sub_cancel_left ..
    dsimp only
    rw [hn]
    exact h.read hc hp hw havail hinv
  | writeMove hw _ _ havail =>
    have hn : (writeCall s.sys.pipes c).sz - c.sz = writeSize s.sys.pipes c :=
      Nat.add_sub_cancel_left ..
    dsimp only
    rw [hn]
    exact h.write hc hp hw havail hinv

theorem PipeCountStep.inv (h : s.Inv) (hok : a.SparesPairs s.sys) (hs : PipeCountStep s a s') :
    s'.Inv := by
  obtain ⟨hs⟩ := hs
  cases hs with
  | «open» hframe => exact h.opens hok (.open hframe)
  | start hp hself _ hmode => exact h.start hp hself hmode
  | round hc hp => exact h.round hc hp
  | flush hx hno => exact h.flush hx hno

/-- In every run in which no open takes the slot of a closed end whose other end is open (so in
those in which no pipe is opened while another one is), no process waits on a pipe that could go
on. -/
theorem pipe_awake (h : Reach pipeCountSystem (fun s a => a.SparesPairs s.sys) s) : s.Awake :=
  (Reach.invariant (M := pipeCountSystem) (I := PipeCount.Inv) PipeCount.Initial.inv
    (fun h hok hs => PipeCountStep.inv h hok hs) h).awake

/-- The counts can be kept next to any run. -/
theorem Reach.counted {ok : PipeSystem → PipeLabel → Prop} (h : Reach pipeSystem ok t) :
    ∃ s : PipeCount, s.sys = t ∧ Reach pipeCountSystem (fun s a => ok s.sys a) s := by
  induction h with
  | init h => exact ⟨⟨_, fun _ => 0, fun _ => 0⟩, rfl, .init ⟨h, fun _ => rfl, fun _ => rfl⟩⟩
  | @step t a t' _ hok hs ih =>
    obtain ⟨s, rfl, hreach⟩ := ih
    have hsys : (s.next a t').sys = t' := by
      rw [PipeCount.next]
      split
      · rw [PipeCount.count]
        split <;> rfl
      · rfl
    exact ⟨_, hsys, hreach.step hok (.step hs)⟩

end

/-- Process 2 reads from an empty pipe and waits. Process 1 writes a byte, which wakes it. It takes
the byte, of the two that it wants, and waits again. -/
theorem pipe_awake_blocked : ∃ s₁ s₂ s₃ : PipeCount, s₁.Awake ∧ s₂.Awake ∧ s₃.Awake ∧
    s₁.sys = reading.enqueue 0 2 ∧ (s₁.sys.pipes.endpoints 0).queue = [2] ∧
    s₂.sys = written ∧ (s₂.sys.pipes.endpoints 0).queue = [] ∧ s₂.put 0 = s₂.taken 0 + 1 ∧
    s₃.sys = rereading ∧ (s₃.sys.pipes.endpoints 0).queue = [2] ∧ s₃.put 0 = s₃.taken 0 := by
  let ok : PipeSystem → PipeLabel → Prop := fun t a => a.SparesPairs t
  have hopen : ok idlePipes (.open (some 1)) := fun _ _ _ _ _ hx => (hx.2 rfl).elim
  have hreading : Reach pipeSystem ok reading := reading_reach ok hopen trivial
  have hwritten := written_reach ok hreading trivial trivial trivial
  obtain ⟨s₁, h₁, hs₁⟩ := Reach.counted (reading_blocks ok hreading trivial)
  obtain ⟨s₂, h₂, hs₂⟩ := Reach.counted hwritten
  obtain ⟨s₃, h₃, hs₃⟩ := Reach.counted (rereading_reach ok hwritten fun _ _ => trivial)
  have ha₂ := pipe_awake hs₂
  have ha₃ := pipe_awake hs₃
  refine ⟨s₁, s₂, s₃, pipe_awake hs₁, ha₂, ha₃, h₁, by rw [h₁]; decide +kernel, h₂,
    by rw [h₂]; decide +kernel, ?_, h₃, by rw [h₃]; decide +kernel, ?_⟩
  · have hbal := (ha₂.balanced 0 (by rw [h₂]; exact ⟨by decide, by decide +kernel⟩)
      (by rw [h₂]; decide +kernel) (by rw [h₂]; decide +kernel)).moved
    rw [h₂] at hbal
    exact hbal
  · have hbal := (ha₃.balanced 0 (by rw [h₃]; exact ⟨by decide, by decide +kernel⟩)
      (by rw [h₃]; decide +kernel) (by rw [h₃]; decide +kernel)).moved
    rw [h₃] at hbal
    exact hbal

end SpuriOS
