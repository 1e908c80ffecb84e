import SpuriOS.Pipe.Endpoints

/-! # Pipes as byte streams

A pipe is a queue of bytes: what the readers got, followed by the window of the circular buffer
that starts at the position of the reader, is what the writers put in. `pipe_read` and
`pipe_write` take every chunk of a call to or from the start of the caller's buffer, so this holds
of the bytes the callers see for as long as each call moves one chunk and the chunk does not pass
the end of the buffer. -/

namespace SpuriOS
open Transition

/-- No call on endpoint `x` is half done. -/
def PipeSystem.Settled (s : PipeSystem) (x : Nat) : Prop :=
  ∀ q d, s.calls q = some d → d.self = x → ¬(0 < d.sz ∧ d.sz < d.size)

namespace PipeLabel

/-- The reads have every destination at user level. -/
def Valid : PipeLabel → Prop
  | .start _ c => c.writing = false → ∀ j < c.size, c.user.isUser (c.buf + j) = true
  | _ => True

/-- A round that moves bytes is the first one of its call to do so and does not pass the end of
the buffer; a write finds no other write on its endpoint half done. -/
def Straight (s : PipeSystem) : PipeLabel → Prop
  | .round p => ∀ c, s.calls p = some c → c.sz < c.size →
    (c.writing = false → (s.pipes.endpoints c.self).bytesAvailable ≠ 0 →
      c.sz = 0 ∧ (s.pipes.endpoints c.self).pos + readSize s.pipes c ≤ bufferSize) ∧
    (c.writing = true → (s.pipes.pair c.self).klass ≠ .none →
      (s.pipes.endpoints c.self).bytesAvailable ≠ bufferSize →
      c.sz = 0 ∧ (s.pipes.endpoints c.self).pos + writeSize s.pipes c ≤ bufferSize ∧
        s.Settled c.self)
  | _ => True

end PipeLabel

/-! ## The queue of bytes -/

section
open Circular
variable {e w : PipeDevice} {m : Nat → Byte} {settled settled' : Prop} {rd wr : List Byte}

/-- The read end `e`, with `w` for its pair and the buffer `m`, between the bytes `rd` the readers
got and the bytes `wr` the writers gave. `settled` says that no write is half done. -/
structure Flow (e w : PipeDevice) (m : Nat → Byte) (settled : Prop) (rd wr : List Byte) :
    Prop where
  avail_le : e.bytesAvailable ≤ bufferSize
  sync : w.klass ≠ .none → w.bytesAvailable = e.bytesAvailable ∧
    w.pos = (e.pos + e.bytesAvailable) % bufferSize
  stream : rd ++ window m bufferSize e.pos e.bytesAvailable <+: wr
  settled : w.klass ≠ .none → settled →
    rd ++ window m bufferSize e.pos e.bytesAvailable = wr

/-- Taking the first `n` bytes of the window. -/
theorem Flow.take (h : Flow e w m settled rd wr) {n : Nat} (hn : n ≤ e.bytesAvailable) :
    Flow { e with pos := (e.pos + n) % bufferSize, bytesAvailable := e.bytesAvailable - n }
      { w with bytesAvailable := Word32.sub w.bytesAvailable n, queue := [] } m settled
      (rd ++ window m bufferSize e.pos n) wr := by
  have hsplit : window m bufferSize e.pos e.bytesAvailable = window m bufferSize e.pos n ++
      window m bufferSize ((e.pos + n) % bufferSize) (e.bytesAvailable - n) := by
    rw [← window_add, Nat.add_sub_cancel' hn]
  have hle := h.avail_le
  rw [bufferSize_eq] at hle
  constructor
  · exact Nat.le_trans (Nat.sub_le _ _) h.avail_le
  · intro hk
    obtain ⟨ha, hp⟩ := h.sync hk
    refine ⟨?_, ?_⟩
    · dsimp only
      rw [ha, Word32.sub_of_le hn (by omega)]
    · dsimp only
      rw [hp, Nat.mod_add_mod]
      congr 1; omega
  · dsimp only
    rw [List.append_assoc, ← hsplit]
    exact h.stream
  · intro hk hs
    dsimp only
    rw [List.append_assoc, ← hsplit]
    exact h.settled hk hs

/-- Putting `n` bytes after the window, the first of the bytes `D` of a write. -/
theorem Flow.put (h : Flow e w m settled rd wr) (hk : w.klass ≠ .none) (hs : settled) {n : Nat}
    {data : Nat → Byte} {D : List Byte} (hn : w.bytesAvailable + n ≤ bufferSize)
    (hend : w.pos + n ≤ bufferSize) (hD : slice data 0 n <+: D)
    (hfull : settled' → slice data 0 n = D) :
    Flow { e with bytesAvailable := Word32.add e.bytesAvailable n, queue := [] }
      { w with pos := (w.pos + n) % bufferSize, bytesAvailable := w.bytesAvailable + n }
      (Memory.write m w.pos n data) settled' rd (wr ++ D) := by
  obtain ⟨ha, hp⟩ := h.sync hk
  have hwr := h.settled hk hs
  rw [ha] at hn
  rw [hp] at hend
  have hadd : Word32.add e.bytesAvailable n = e.bytesAvailable + n :=
    Word32.add_of_lt (by rw [bufferSize_eq] at hn; omega)
  have hwin : window (Memory.write m w.pos n data) bufferSize e.pos (e.bytesAvailable + n) =
      window m bufferSize e.pos e.bytesAvailable ++ slice data 0 n := by
    rw [hp]
    exact window_write hn hend
  constructor
  · dsimp only
    rw [hadd]; exact hn
  · intro _
    dsimp only
    rw [hadd, ha, hp, Nat.mod_add_mod, Nat.add_assoc]
    exact ⟨rfl, rfl⟩
  · dsimp only
    rw [hadd, hwin, ← List.append_assoc, hwr]
    exact List.prefix_append_right_inj wr |>.2 hD
  · intro _ hs'
    dsimp only
    rw [hadd, hwin, ← List.append_assoc, hwr, hfull hs']

/-- What the flow depends on. -/
theorem Flow.congr {e' w' : PipeDevice} (h : Flow e w m settled rd wr) (hpos : e'.pos = e.pos)
    (havail : e'.bytesAvailable = e.bytesAvailable)
    (hw : w'.klass ≠ .none → w.klass ≠ .none ∧ w'.bytesAvailable = w.bytesAvailable ∧
      w'.pos = w.pos ∧ (settled' → settled)) : Flow e' w' m settled' rd wr := by
  constructor
  · rw [havail]; exact h.avail_le
  · intro hk
    obtain ⟨hk, ha, hp, -⟩ := hw hk
    rw [ha, hp, hpos, havail]
    exact h.sync hk
  · rw [hpos, havail]; exact h.stream
  · intro hk hs
    obtain ⟨hk, -, -, hst⟩ := hw hk
    rw [hpos, havail]
    exact h.settled hk (hst hs)

end

/-! ## The invariant -/

/-- Every open pipe is a queue of bytes. -/
structure PipeSystem.Streams (s : PipeSystem) : Prop extends s.Inv where
  mode : ∀ x, s.pipes.InUse x → (s.pipes.endpoints x).write = !(s.pipes.endpoints x).read
  pair_mode : ∀ x, s.pipes.InUse x → (s.pipes.pair x).klass ≠ .none →
    (s.pipes.pair x).read = !(s.pipes.endpoints x).read
  buffer : ∀ x y, s.pipes.InUse x → s.pipes.InUse y →
    (s.pipes.endpoints y).buffer = (s.pipes.endpoints x).buffer → s.hist.owner y = s.hist.owner x
  held : ∀ x, s.pipes.InUse x → s.pipes.held (s.pipes.endpoints x).buffer = true
  flow : ∀ r, s.pipes.InUse r → (s.pipes.endpoints r).read = true →
    Flow (s.pipes.endpoints r) (s.pipes.pair r) (s.pipes.mem (s.pipes.endpoints r).buffer)
      (s.Settled (s.pipes.partner r)) (s.hist.reads (s.hist.owner r)).flatten
      (s.hist.writes (s.hist.owner r)).flatten
  fifo : ∀ k, (s.hist.reads k).flatten <+: (s.hist.writes k).flatten
  logs_new : ∀ k, s.hist.opened ≤ k → s.hist.reads k = [] ∧ s.hist.writes k = []
  user : ∀ p c, s.calls p = some c → c.writing = false →
    ∀ j < c.size, c.user.isUser (c.buf + j) = true

section
variable {s s' : PipeSystem} {P : Pipes} {c : PipeCall} {p r x y : Nat} {a : PipeLabel}

theorem PipeSystem.Streams.modes (h : s.Streams) : s.Modes := ⟨h.mode, h.pair_mode⟩

/-- A round that moves nothing keeps the streams. -/
theorem PipeSystem.Streams.of_idle (h : s.Streams) (hinv : s'.Inv)
    (hends : ∀ y, (s'.pipes.endpoints y).link = (s.pipes.endpoints y).link ∧
      (s'.pipes.endpoints y).pos = (s.pipes.endpoints y).pos ∧
      (s'.pipes.endpoints y).bytesAvailable = (s.pipes.endpoints y).bytesAvailable)
    (hmem : s'.pipes.mem = s.pipes.mem) (hheld : s'.pipes.held = s.pipes.held)
    (hhist : s'.hist = s.hist)
    (hsettled : ∀ r, s.pipes.InUse r → (s.pipes.pair r).klass ≠ .none →
      s'.Settled (s.pipes.partner r) → s.Settled (s.pipes.partner r))
    (huser : ∀ p c, s'.calls p = some c → c.writing = false →
      ∀ j < c.size, c.user.isUser (c.buf + j) = true) : s'.Streams := by
  have hfields := fun y => PipeDevice.link_inj (hends y).1
  have huse : ∀ y, s'.pipes.InUse y ↔ s.pipes.InUse y := fun y => by
    rw [Pipes.InUse, Pipes.InUse, (hfields y).1]
  have hpartner : ∀ y, s'.pipes.partner y = s.pipes.partner y := fun y => (hfields y).2.2.2.1
  have hmodes : s'.Modes := h.modes.of_link fun y => (hends y).1
  refine { toInv := hinv, mode := hmodes.own, pair_mode := hmodes.pair,
           buffer := fun x y hx hy hb => ?_, held := fun x hx => ?_, flow := fun r hr hread => ?_,
           fifo := hhist ▸ h.fifo, logs_new := hhist ▸ h.logs_new, user := huser }
  · rw [(hfields x).2.2.2.2, (hfields y).2.2.2.2] at hb
    rw [hhist]
    exact h.buffer x y ((huse x).1 hx) ((huse y).1 hy) hb
  · rw [hheld, (hfields x).2.2.2.2]; exact h.held x ((huse x).1 hx)
  · rw [(hfields r).2.1] at hread
    have hflow := h.flow r ((huse r).1 hr) hread
    rw [hhist, hmem, (hfields r).2.2.2.2, Pipes.pair, hpartner]
    refine hflow.congr (hends r).2.1 (hends r).2.2 fun hk => ?_
    rw [(hfields _).1] at hk
    exact ⟨hk, (hends _).2.2, (hends _).2.1, hsettled r ((huse r).1 hr) hk⟩

theorem PipeSystem.Streams.start (h : s.Streams) (hp : s.calls p = none)
    (hself : s.pipes.InUse c.self) (hmode : if c.writing then (s.pipes.endpoints c.self).write
      else (s.pipes.endpoints c.self).read)
    (hv : c.writing = false → ∀ j < c.size, c.user.isUser (c.buf + j) = true) :
    (s.setCall p (some c)).Streams := by
  refine h.of_idle (h.toInv.start hself hmode) (fun _ => ⟨rfl, rfl, rfl⟩) rfl rfl rfl
    (fun r _ _ hs q d hd => hs q d ?_) fun q d hd => ?_
  · have hq : q ≠ p := by rintro rfl; rw [hp] at hd; cases hd
    rw [PipeSystem.setCall_of_ne hq]
    exact hd
  · by_cases hq : q = p
    · subst hq
      rw [PipeSystem.setCall_self, Option.some.injEq] at hd
      exact hd ▸ hv
    · rw [PipeSystem.setCall_of_ne hq] at hd
      exact h.user q d hd

theorem PipeSystem.Streams.ended (h : s.Streams) (hinv : (s.setCall p none).Inv)
    (hc : s.calls p = some c) (hend : ¬c.sz < c.size ∨ (s.pipes.pair c.self).klass = .none) :
    (s.setCall p none).Streams := by
  refine h.of_idle hinv (fun _ => ⟨rfl, rfl, rfl⟩) rfl rfl rfl (fun r hr hk hs q d hd hself => ?_)
    fun q d hd => ?_
  · by_cases hq : q = p
    · subst hq
      rw [hc, Option.some.injEq] at hd
      subst hd
      obtain hsz | hnone := hend
      · exact fun hpend => hsz hpend.2
      · rw [hself, Pipes.pair, (h.linked_of hr hk).back] at hnone
        exact (hr.2 hnone).elim
    · exact hs q d (by rw [PipeSystem.setCall_of_ne hq]; exact hd) hself
  · by_cases hq : q = p
    · subst hq
      rw [PipeSystem.setCall_self] at hd
      cases hd
    · rw [PipeSystem.setCall_of_ne hq] at hd
      exact h.user q d hd

theorem PipeSystem.Streams.blocked (h : s.Streams) (hinv : (s.enqueue x p).Inv) :
    (s.enqueue x p).Streams := by
  refine h.of_idle hinv (fun y => ?_) rfl rfl rfl (fun _ _ _ hs => hs) h.user
  by_cases hy : y = x
  · subst hy
    rw [PipeSystem.enqueue, Pipes.modify_self]
    exact ⟨rfl, rfl, rfl⟩
  · rw [PipeSystem.enqueue, Pipes.modify_of_ne _ hy]
    exact ⟨rfl, rfl, rfl⟩

/-! ### Rounds that move bytes -/

theorem readCopy_straight (hend : (P.endpoints c.self).pos + readSize P c ≤ bufferSize)
    (huser : c.user.isUser c.buf = true) :
    let src := fun i => P.mem (P.endpoints c.self).buffer ((P.endpoints c.self).pos + i)
    readCopy P c (readSize P c) =
      { c.user with byte := Memory.write c.user.byte c.buf (readSize P c) src } := by
  rw [readCopy, if_neg (by omega), copy2user_eq huser]

theorem readCall_bytes (hend : (P.endpoints c.self).pos + readSize P c ≤ bufferSize)
    (huser : c.user.isUser c.buf = true) (h0 : c.sz = 0) :
    (readCall P c).bytes (readCall P c).sz = Circular.window (P.mem (P.endpoints c.self).buffer)
      bufferSize (P.endpoints c.self).pos (readSize P c) := by
  rw [Circular.window_eq_slice hend, PipeCall.bytes, readCall, h0, Nat.zero_add,
    readCopy_straight hend huser]
  refine Circular.slice_congr fun i hi => ?_
  dsimp only
  exact Memory.write_add hi

/-- The chunk of a round is appended to the log of the pipe when it is the first of its call. -/
theorem transfer_read (h0 : c.sz = 0) (hw : c.writing = false) (c' : PipeCall) (h : PipeHistory) :
    (h.transfer p c c').reads = Function.update h.reads (h.owner c.self)
      (h.reads (h.owner c.self) ++ [c'.bytes c'.sz]) ∧ (h.transfer p c c').writes = h.writes := by
  simp [PipeHistory.transfer, h0, hw]

theorem transfer_write (h0 : c.sz = 0) (hw : c.writing = true) (c' : PipeCall)
    (h : PipeHistory) :
    (h.transfer p c c').writes = Function.update h.writes (h.owner c.self)
      (h.writes (h.owner c.self) ++ [c.bytes c.size]) ∧ (h.transfer p c c').reads = h.reads := by
  simp [PipeHistory.transfer, h0, hw]

theorem transfer_owner (c' : PipeCall) (h : PipeHistory) :
    (h.transfer p c c').owner = h.owner ∧ (h.transfer p c c').opened = h.opened := by
  simp only [PipeHistory.transfer]
  split <;> split <;> exact ⟨rfl, rfl⟩

/-- A step that concerns the pipe of endpoint `x` and the calls on `x` keeps the streams, as far as
it keeps that of this pipe. -/
theorem PipeSystem.Streams.of_pipe (h : s.Streams) (hinv : s'.Inv) (hx : s.pipes.InUse x)
    (hends : ∀ y, (s'.pipes.endpoints y).link = (s.pipes.endpoints y).link ∧
      (y ≠ x → y ≠ s.pipes.partner x → s'.pipes.endpoints y = s.pipes.endpoints y))
    (hmem : ∀ f, f ≠ (s.pipes.endpoints x).buffer → s'.pipes.mem f = s.pipes.mem f)
    (hheld : s'.pipes.held = s.pipes.held)
    (hhist : s'.hist.owner = s.hist.owner ∧ s'.hist.opened = s.hist.opened)
    (hlogs : ∀ k, k ≠ s.hist.owner x →
      s'.hist.reads k = s.hist.reads k ∧ s'.hist.writes k = s.hist.writes k)
    (hcalls : ∀ q d, s.calls q = some d → d.self ≠ x → s'.calls q = some d)
    (huser : ∀ q d, s'.calls q = some d → d.writing = false →
      ∀ j < d.size, d.user.isUser (d.buf + j) = true)
    (hflow : ∀ r, s.pipes.InUse r → (s.pipes.endpoints r).read = true →
      s.hist.owner r = s.hist.owner x →
      Flow (s'.pipes.endpoints r) (s'.pipes.endpoints (s.pipes.partner r))
        (s'.pipes.mem (s.pipes.endpoints r).buffer) (s'.Settled (s.pipes.partner r))
        (s'.hist.reads (s.hist.owner x)).flatten (s'.hist.writes (s.hist.owner x)).flatten)
    (hfifo : (s'.hist.reads (s.hist.owner x)).flatten <+:
      (s'.hist.writes (s.hist.owner x)).flatten) : s'.Streams := by
  have hfields := fun y => PipeDevice.link_inj (hends y).1
  have huse : ∀ y, s'.pipes.InUse y ↔ s.pipes.InUse y := fun y => by
    rw [Pipes.InUse, Pipes.InUse, (hfields y).1]
  have hpartner : ∀ y, s'.pipes.partner y = s.pipes.partner y := fun y => (hfields y).2.2.2.1
  have hmodes : s'.Modes := h.modes.of_link fun y => (hends y).1
  refine { toInv := hinv, mode := hmodes.own, pair_mode := hmodes.pair,
           buffer := fun y z hy hz hb => ?_, held := fun y hy => ?_, flow := fun r hr hread => ?_,
           fifo := fun k => ?_, logs_new := fun k hk => ?_, user := huser }
  · rw [(hfields y).2.2.2.2, (hfields z).2.2.2.2] at hb
    rw [hhist.1]
    exact h.buffer y z ((huse y).1 hy) ((huse z).1 hz) hb
  · rw [hheld, (hfields y).2.2.2.2]; exact h.held y ((huse y).1 hy)
  · have hr := (huse r).1 hr
    rw [(hfields r).2.1] at hread
    rw [hhist.1, (hfields r).2.2.2.2, Pipes.pair, hpartner]
    by_cases ho : s.hist.owner r = s.hist.owner x
    · rw [ho]; exact hflow r hr hread ho
    · have hne := h.ne_of_owner hr hx fun e => ho e.symm
      have hbuf : (s.pipes.endpoints r).buffer ≠ (s.pipes.endpoints x).buffer := fun e =>
        ho (h.buffer x r hx hr e)
      rw [(hlogs _ ho).1, (hlogs _ ho).2, hmem _ hbuf, (hends r).2 hne.1 hne.2]
      refine (h.flow r hr hread).congr rfl rfl fun hk => ?_
      rw [(hfields _).1] at hk
      obtain ⟨hpx, hpp⟩ := h.partner_ne hr hx (fun e => ho e.symm) hk
      rw [(hends _).2 hpx hpp]
      exact ⟨hk, rfl, rfl, fun hs q d hd hself => hs q d (hcalls q d hd (hself ▸ hpx)) hself⟩
  · by_cases hk : k = s.hist.owner x
    · exact hk ▸ hfifo
    · rw [(hlogs k hk).1, (hlogs k hk).2]; exact h.fifo k
  · rw [hhist.2] at hk
    have hne : k ≠ s.hist.owner x := by
      have := h.owner_lt _ hx
      omega
    rw [(hlogs k hne).1, (hlogs k hne).2]
    exact h.logs_new k hk

theorem PipeSystem.move_calls {c' : PipeCall} {q : Pid} {d : PipeCall} (hc : s.calls p = some c)
    (hd : s.calls q = some d) (hself : d.self ≠ c.self) : (s.move p c c' P).calls q = some d := by
  have hq : q ≠ p := by
    rintro rfl
    rw [hc, Option.some.injEq] at hd
    exact hself (hd ▸ rfl)
  rw [move, setCall_of_ne hq]
  exact hd

theorem PipeSystem.Streams.move_user (h : s.Streams) {c' : PipeCall} {q : Pid} {d : PipeCall}
    (hc' : c'.writing = false → ∀ j < c'.size, c'.user.isUser (c'.buf + j) = true)
    (hd : (s.move p c c' P).calls q = some d) (hw : d.writing = false) :
    ∀ j < d.size, d.user.isUser (d.buf + j) = true := by
  by_cases hq : q = p
  · subst hq
    rw [move, setCall_self, Option.some.injEq] at hd
    exact hd ▸ hc' (hd ▸ hw)
  · rw [move, setCall_of_ne hq] at hd
    exact h.user q d hd hw

theorem PipeSystem.Streams.read (h : s.Streams) (hc : s.calls p = some c) (hw : c.writing = false)
    (hsz : c.sz < c.size) (h0 : c.sz = 0)
    (hend : (s.pipes.endpoints c.self).pos + readSize s.pipes c ≤ bufferSize)
    (hinv : (s.move p c (readCall s.pipes c) (readMove s.pipes c)).Inv) :
    (s.move p c (readCall s.pipes c) (readMove s.pipes c)).Streams := by
  obtain ⟨hself, hmode⟩ := h.calls p c hc
  rw [hw] at hmode
  have huser := h.user p c hc hw
  have huser0 : c.user.isUser c.buf = true := huser 0 (by omega)
  have hlogs := transfer_read (p := p) h0 hw (readCall s.pipes c) s.hist
  have hne := h.partner _ hself
  have hflow : Flow ((readMove s.pipes c).endpoints c.self)
      ((readMove s.pipes c).endpoints (s.pipes.partner c.self))
      (s.pipes.mem (s.pipes.endpoints c.self).buffer)
      ((s.move p c (readCall s.pipes c) (readMove s.pipes c)).Settled (s.pipes.partner c.self))
      ((s.hist.transfer p c (readCall s.pipes c)).reads (s.hist.owner c.self)).flatten
      ((s.hist.transfer p c (readCall s.pipes c)).writes (s.hist.owner c.self)).flatten := by
    rw [hlogs.1, hlogs.2, Function.update_self, List.flatten_append, List.flatten_singleton,
      readCall_bytes hend huser0 h0, (readMove_flow hne).1, (readMove_flow hne).2]
    refine ((h.flow c.self hself hmode).take (Nat.min_le_left _ _)).congr rfl rfl fun hk =>
      ⟨hk, rfl, rfl, fun hs q d hd hd' => hs q d (move_calls hc hd fun e => hne ?_) hd'⟩
    rw [← hd', e]
  refine h.of_pipe hinv hself (fun _ => readMove_endpoints) (fun _ _ => rfl) rfl
    (transfer_owner _ _) (fun k hk => ?_) (fun q d => move_calls hc) (fun q d => h.move_user ?_)
    (fun r hr hread ho => ?_) ((List.prefix_append _ _).trans hflow.stream)
  · rw [show (s.move p c _ _).hist = s.hist.transfer p c (readCall s.pipes c) from rfl, hlogs.1,
      hlogs.2, Function.update_of_ne hk]
    exact ⟨rfl, rfl⟩
  · intro _ j hj
    rw [readCall, readCopy_straight hend huser0]
    exact huser j hj
  · have hr := h.toInv.reader h.modes hc hr hread ho
    rw [hw, if_neg (by simp)] at hr
    exact hr ▸ hflow

theorem writeMove_mem : (writeMove P c).mem =
    Function.update P.mem (P.endpoints c.self).buffer (writeCopy P c (writeSize P c)) := rfl

theorem writeCopy_straight (hend : (P.endpoints c.self).pos + writeSize P c ≤ bufferSize) :
    writeCopy P c (writeSize P c) = Memory.write (P.mem (P.endpoints c.self).buffer)
      (P.endpoints c.self).pos (writeSize P c) fun i => c.user.byte (c.buf + i) := by
  rw [writeCopy, if_neg (by omega)]

theorem PipeSystem.Streams.write (h : s.Streams) (hc : s.calls p = some c) (hw : c.writing = true)
    (hsz : c.sz < c.size) (hk : (s.pipes.pair c.self).klass ≠ .none)
    (hroom : (s.pipes.endpoints c.self).bytesAvailable ≠ bufferSize) (h0 : c.sz = 0)
    (hend : (s.pipes.endpoints c.self).pos + writeSize s.pipes c ≤ bufferSize)
    (hs : s.Settled c.self)
    (hinv : (s.move p c (writeCall s.pipes c) (writeMove s.pipes c)).Inv) :
    (s.move p c (writeCall s.pipes c) (writeMove s.pipes c)).Streams := by
  obtain ⟨hself, hmode⟩ := h.calls p c hc
  rw [hw, if_pos rfl] at hmode
  have hl := h.linked_of hself hk
  have hlogs := transfer_write (p := p) h0 hw (writeCall s.pipes c) s.hist
  have hne := h.partner _ hself
  have hread : (s.pipes.pair c.self).read = true := by
    have := h.mode _ hself
    rw [hmode] at this
    rw [h.pair_mode _ hself hk, ← this]
  have hold := h.flow _ hl.inUse hread
  rw [hl.owner, Pipes.pair, hl.back, show (s.pipes.endpoints (s.pipes.partner c.self)).buffer = _
    from hl.buffer] at hold
  obtain ⟨havail, -⟩ := hold.sync hself.2
  have hle := hold.avail_le
  have hsub : Word32.sub bufferSize (s.pipes.endpoints c.self).bytesAvailable =
      bufferSize - (s.pipes.endpoints c.self).bytesAvailable :=
    Word32.sub_of_le (by omega) (by decide)
  have hn : writeSize s.pipes c =
      min (bufferSize - (s.pipes.endpoints c.self).bytesAvailable) c.size := by
    rw [writeSize, hsub, h0, Nat.sub_zero]
  have hdata : Circular.slice (fun i => c.user.byte (c.buf + i)) 0 (writeSize s.pipes c) =
      Circular.slice c.user.byte c.buf (writeSize s.pipes c) :=
    Circular.slice_congr fun i _ => by rw [Nat.zero_add]
  have hflow : Flow ((writeMove s.pipes c).endpoints (s.pipes.partner c.self))
      ((writeMove s.pipes c).endpoints c.self)
      ((writeMove s.pipes c).mem (s.pipes.endpoints c.self).buffer)
      ((s.move p c (writeCall s.pipes c) (writeMove s.pipes c)).Settled c.self)
      ((s.hist.transfer p c (writeCall s.pipes c)).reads (s.hist.owner c.self)).flatten
      ((s.hist.transfer p c (writeCall s.pipes c)).writes (s.hist.owner c.self)).flatten := by
    rw [hlogs.1, hlogs.2, Function.update_self, List.flatten_append, List.flatten_singleton,
      (writeMove_flow hne).1, (writeMove_flow hne).2, writeMove_mem, Function.update_self,
      writeCopy_straight hend]
    refine hold.put hself.2 hs (by omega) hend ?_ fun hs' => ?_
    · rw [hdata, PipeCall.bytes, ← Nat.add_sub_cancel' (show writeSize s.pipes c ≤ c.size by omega),
        Circular.slice_add]
      exact List.prefix_append _ _
    · -- the call is not left half done, so its chunk was all of it
      have hdone := hs' p (writeCall s.pipes c) (by rw [PipeSystem.move, setCall_self]) rfl
      have hsz' : (writeCall s.pipes c).sz = writeSize s.pipes c := by
        rw [writeCall, h0]; exact Nat.zero_add _
      rw [hsz', show (writeCall s.pipes c).size = c.size from rfl] at hdone
      rw [hdata, PipeCall.bytes, show writeSize s.pipes c = c.size by omega]
  refine h.of_pipe hinv hself (fun _ => writeMove_endpoints)
    (fun f hf => Function.update_of_ne hf ..) rfl (transfer_owner _ _) (fun k hk => ?_)
    (fun q d => move_calls hc) (fun q d => h.move_user fun hw' => ?_) (fun r hr hread ho => ?_)
    ((List.prefix_append _ _).trans hflow.stream)
  · rw [show (s.move p c _ _).hist = s.hist.transfer p c (writeCall s.pipes c) from rfl, hlogs.1,
      hlogs.2, Function.update_of_ne hk]
    exact ⟨rfl, rfl⟩
  · rw [show (writeCall s.pipes c).writing = c.writing from rfl, hw] at hw'
    cases hw'
  · have hr := h.toInv.reader h.modes hc hr hread ho
    rw [hw, if_pos rfl] at hr
    rw [hr, hl.back, show (s.pipes.endpoints (s.pipes.partner c.self)).buffer = _ from hl.buffer]
    exact hflow

/-! ### Opens and closes -/

theorem open_frames (frame : Option Nat) : (s.open' frame).pipes.mem = s.pipes.mem ∧
    ∀ g, s.pipes.held g = true → (s.open' frame).pipes.held g = true := by
  simp only [PipeSystem.open', pipeOpen]
  split
  · split
    · exact ⟨rfl, fun _ h => h⟩
    next f =>
      refine ⟨rfl, fun g hg => ?_⟩
      rw [Pipes.modify_held, Pipes.modify_held]
      by_cases hf : g = f
      · exact hf ▸ Function.update_self ..
      · exact (Function.update_of_ne hf ..).trans hg
  · exact ⟨rfl, fun _ h => h⟩

theorem open_held {f inp out : Nat} {rest : List Nat}
    (hslots : freeSlots s.pipes = inp :: out :: rest) :
    (s.open' (some f)).pipes.held f = true := by
  simp only [PipeSystem.open', pipeOpen, hslots, Pipes.modify_held, Function.update_self]

/-- A fresh pipe is an empty queue. -/
theorem Flow.empty {f inp out : Nat} {m : Nat → Byte} {settled : Prop} :
    Flow { initEndpoint with buffer := f, read := true, pair := out }
      { initEndpoint with buffer := f, write := true, pair := inp } m settled [] [] :=
  ⟨Nat.zero_le _, fun _ => ⟨rfl, rfl⟩, List.prefix_refl _, fun _ _ => rfl⟩

theorem PipeSystem.Streams.open' (h : s.Streams) {frame : Option Nat}
    (hok : (PipeLabel.open frame).SparesPairs s)
    (hframe : ∀ f, frame = some f → s.pipes.held f = false) : (s.open' frame).Streams := by
  have hinv := h.toInv.open' hok
  have hmodes := PipeStep.modes h.toInv h.modes hok (.open hframe)
  obtain heq | ⟨f, inp, out, rfl, ho⟩ := open_opened hok
  · rw [heq]; exact h
  obtain ⟨rest, hslots⟩ := ho.slots
  have hf := hframe f rfl
  have hmem := (open_frames (s := s) (some f)).1
  have hnotf : ∀ y, s.pipes.InUse y → (s.pipes.endpoints y).buffer ≠ f := by
    intro y hy e
    have := h.held y hy
    rw [e, hf] at this
    cases this
  refine { toInv := hinv, mode := hmodes.own, pair_mode := hmodes.pair,
           buffer := fun y z hy hz hb => ?_, held := fun y hy => ?_, flow := fun r hr hread => ?_,
           fifo := by rw [ho.reads, ho.writes]; exact h.fifo, logs_new := fun k hk => ?_,
           user := by rw [ho.calls]; exact h.user }
  · obtain rfl | rfl | ⟨hy, hey, -, hoy⟩ := ho.old y hy <;>
      obtain rfl | rfl | ⟨hz, hez, -, hoz⟩ := ho.old z hz
    · rfl
    · rw [ho.owner.1, ho.owner.2]
    · rw [ho.readEnd, hez] at hb
      exact (hnotf z hz hb).elim
    · rw [ho.owner.1, ho.owner.2]
    · rfl
    · rw [ho.writeEnd, hez] at hb
      exact (hnotf z hz hb).elim
    · rw [ho.readEnd, hey] at hb
      exact (hnotf y hy hb.symm).elim
    · rw [ho.writeEnd, hey] at hb
      exact (hnotf y hy hb.symm).elim
    · rw [hey, hez] at hb
      rw [hoy, hoz]
      exact h.buffer y z hy hz hb
  · obtain rfl | rfl | ⟨hy, hey, -⟩ := ho.old y hy
    · rw [ho.readEnd]; exact open_held hslots
    · rw [ho.writeEnd]; exact open_held hslots
    · rw [hey]
      exact (open_frames (some f)).2 _ (h.held y hy)
  · rw [ho.reads, ho.writes, hmem]
    obtain rfl | rfl | ⟨hr, her, hpr, hor⟩ := ho.old r hr
    · have hnew := h.logs_new _ (Nat.le_refl s.hist.opened)
      rw [ho.pairRead, ho.readEnd, ho.writeEnd, ho.owner.1, hnew.1, hnew.2]
      exact Flow.empty
    · rw [ho.writeEnd] at hread
      cases hread
    · rw [her] at hread
      rw [hpr, hor, Pipes.partner, her]
      refine (h.flow r hr hread).congr rfl rfl fun hk => ⟨hk, rfl, rfl, fun hs => ?_⟩
      rw [PipeSystem.Settled, ho.calls] at hs
      exact hs
  · rw [ho.reads, ho.writes]
    rw [ho.opened] at hk
    exact h.logs_new k (Nat.le_of_succ_le hk)

theorem pipeFlush_frames (h : P.partner x ≠ x) : (pipeFlush x P).mem = P.mem ∧
    (pipeFlush x P).held = if (P.pair x).klass = .none then
      Function.update P.held (P.endpoints x).buffer false else P.held := by
  have hpartner : (P.modify x fun e => { e with klass := .none }).partner x = P.partner x := by
    rw [Pipes.partner, Pipes.modify_self]; rfl
  generalize hQ : (P.modify x fun e => { e with klass := .none }).modify (P.partner x)
    (fun e => { e with queue := [] }) = Q
  have hself : Q.endpoints x = { P.endpoints x with klass := .none } := by
    rw [← hQ, Pipes.modify_of_ne _ h.symm, Pipes.modify_self]
  have hpair : (Q.pair x).klass = (P.pair x).klass := by
    rw [Pipes.pair, Pipes.partner, hself]
    show (Q.endpoints (P.partner x)).klass = _
    rw [← hQ, Pipes.modify_self, Pipes.modify_of_ne _ h, Pipes.pair]
  have hmem : Q.mem = P.mem ∧ Q.held = P.held := by rw [← hQ]; exact ⟨rfl, rfl⟩
  rw [pipeFlush, hpartner, hQ, hpair, hself]
  split
  · exact ⟨hmem.1, by rw [hmem.2]⟩
  · exact hmem

theorem PipeSystem.Streams.flush (h : s.Streams) (hx : s.pipes.InUse x)
    (hno : ∀ p c, s.calls p = some c → c.self ≠ x) : (s.flush x).Streams := by
  have hp := h.partner x hx
  have hok : (PipeLabel.flush x).SparesPairs s := trivial
  have hmodes := PipeStep.modes h.toInv h.modes hok (.flush hx hno)
  obtain ⟨hmem, hheld⟩ := pipeFlush_frames hp
  have hlink : ∀ y, y ≠ x → ((s.flush x).pipes.endpoints y).link = (s.pipes.endpoints y).link :=
    fun y hy => pipeFlush_link hp hy
  refine { toInv := h.toInv.flush hx hno, mode := hmodes.own, pair_mode := hmodes.pair,
           buffer := fun y z hy hz hb => ?_, held := fun y hy => ?_, flow := fun r hr hread => ?_,
           fifo := h.fifo, logs_new := h.logs_new, user := h.user }
  · obtain ⟨hyx, hy, -⟩ := h.flush_cases hx hy
    obtain ⟨hzx, hz, -⟩ := h.flush_cases hx hz
    rw [(PipeDevice.link_inj (hlink y hyx)).2.2.2.2,
      (PipeDevice.link_inj (hlink z hzx)).2.2.2.2] at hb
    exact h.buffer y z hy hz hb
  · obtain ⟨hyx, hy, -⟩ := h.flush_cases hx hy
    rw [(PipeDevice.link_inj (hlink y hyx)).2.2.2.2, PipeSystem.flush, hheld]
    split
    next hnone =>
      have hne : (s.pipes.endpoints y).buffer ≠ (s.pipes.endpoints x).buffer := by
        intro e
        obtain rfl | rfl := h.unique x y hx hy (h.buffer x y hx hy e)
        · exact hyx rfl
        · exact hy.2 hnone
      rw [Function.update_of_ne hne]
      exact h.held y hy
    · exact h.held y hy
  · obtain ⟨hrx, hr, hends⟩ := h.flush_cases hx hr
    have hpartner : (s.flush x).pipes.partner r = s.pipes.partner r :=
      (PipeDevice.link_inj (hlink r hrx)).2.2.2.1
    rw [(PipeDevice.link_inj (hlink r hrx)).2.1] at hread
    have hflow := h.flow r hr hread
    rw [show (s.flush x).pipes.mem = s.pipes.mem from hmem, hpartner]
    obtain ⟨he, hnone⟩ | ⟨he, ⟨-, hnone⟩ | hpair⟩ := hends
    · rw [he]
      exact hflow.congr rfl rfl fun hk => (hk hnone).elim
    · rw [he]
      exact hflow.congr rfl rfl fun hk => (hk hnone).elim
    · rw [he, hpair]
      exact hflow.congr rfl rfl fun hk => ⟨hk, rfl, rfl, id⟩

/-! ## Runs -/

theorem PipeSystem.Initial.streams (h : s.Initial) : s.Streams := by
  have hno : ∀ x, ¬s.pipes.InUse x := fun x hx => hx.2 (h.klass x hx.1)
  refine { toInv := h.inv, mode := fun x hx => (hno x hx).elim,
           pair_mode := fun x hx => (hno x hx).elim, buffer := fun x _ hx => (hno x hx).elim,
           held := fun x hx => (hno x hx).elim, flow := fun x hx => (hno x hx).elim,
           fifo := fun k => ?_, logs_new := fun k _ => ⟨h.reads k, h.writes k⟩,
           user := fun p c hc => ?_ }
  · rw [h.reads]; exact List.nil_prefix
  · rw [h.calls] at hc; cases hc

theorem PipeStep.streams (h : s.Streams) (hv : a.Valid) (hok : a.SparesPairs s)
    (hst : a.Straight s) (hs : PipeStep s a s') : s'.Streams := by
  cases hs with
  | «open» hframe => exact h.open' hok hframe
  | start hp hself _ hmode => exact h.start hp hself hmode hv
  | @round p c hc _ =>
    have hinv := h.toInv.round hc
    obtain ⟨hend, hr⟩ | ⟨-, -, hr⟩ | ⟨hw, hsz, hne, hr⟩ | ⟨hw, hsz, hk, hroom, hr⟩ :=
      s.round_cases p c <;> rw [hr] at hinv ⊢
    · exact h.ended hinv hc hend
    · exact h.blocked hinv
    · obtain ⟨h0, hend⟩ := (hst c hc hsz).1 hw hne
      exact h.read hc hw hsz h0 hend hinv
    · obtain ⟨h0, hend, hset⟩ := (hst c hc hsz).2 hw hk hroom
      exact h.write hc hw hsz hk hroom h0 hend hset hinv
  | flush hx hno => exact h.flush hx hno

/-- In every run in which calls move their bytes in one straight chunk, what the readers of a pipe
have in their buffers is a prefix of what its writers were given. -/
theorem pipe_fifo (h : Reach pipeSystem
    (fun s a => a.Valid ∧ a.SparesPairs s ∧ a.Straight s) s) (k : Nat) :
    (s.hist.reads k).flatten <+: (s.hist.writes k).flatten :=
  (Reach.invariant (M := pipeSystem) (I := PipeSystem.Streams) PipeSystem.Initial.streams
    (fun h hok hs => PipeStep.streams h hok.1 hok.2.1 hok.2.2 hs) h).fifo k

end

section
variable {s : PipeSystem} {p : Pid} {c : PipeCall} {ok : PipeSystem → PipeLabel → Prop}

/-! A step for each kind of round that moves bytes, for the runs below. -/

theorem reach_read (h : Reach pipeSystem ok s) (hok : ok s (.round p)) (hc : s.calls p = some c)
    (hq : p ∉ (s.pipes.endpoints c.self).queue) (hw : c.writing = false) (hsz : c.sz < c.size)
    (ha : (s.pipes.endpoints c.self).bytesAvailable ≠ 0) :
    Reach pipeSystem ok (s.move p c (readCall s.pipes c) (readMove s.pipes c)) :=
  PipeSystem.round_read (p := p) hw hsz ha ▸ Reach.step (M := pipeSystem) h hok (.round hc hq)

theorem reach_write (h : Reach pipeSystem ok s) (hok : ok s (.round p)) (hc : s.calls p = some c)
    (hq : p ∉ (s.pipes.endpoints c.self).queue) (hw : c.writing = true) (hsz : c.sz < c.size)
    (hk : (s.pipes.pair c.self).klass ≠ .none)
    (ha : (s.pipes.endpoints c.self).bytesAvailable ≠ bufferSize) :
    Reach pipeSystem ok (s.move p c (writeCall s.pipes c) (writeMove s.pipes c)) :=
  PipeSystem.round_write (p := p) hw hsz hk ha ▸ Reach.step (M := pipeSystem) h hok (.round hc hq)

end

/-- A write of one byte of value `b` to endpoint 1, and a read of two bytes from endpoint 0. -/
def writeByte (b : Byte) : PipeCall := ⟨true, 1, 0, 1, 0, fun _ => b, fun _ => true⟩

def readTwo : PipeCall := ⟨false, 0, 0, 2, 0, fun _ => 0, fun _ => true⟩

/-- A pipe with ends 0 and 1, and process 2 in a read. -/
def reading : PipeSystem := (idlePipes.open' (some 1)).setCall 2 (some readTwo)

theorem reading_reach (ok : PipeSystem → PipeLabel → Prop) (hopen : ok idlePipes (.open (some 1)))
    (hstart : ok (idlePipes.open' (some 1)) (.start 2 readTwo)) : Reach pipeSystem ok reading :=
  Reach.step (M := pipeSystem) (idlePipes_open ok hopen) hstart
    (.start rfl ⟨by decide, by decide +kernel⟩ rfl (by decide +kernel))

/-- The read blocks and process 1 writes a byte. -/
def writing : PipeSystem := (reading.enqueue 0 2).setCall 1 (some (writeByte 1))

def written : PipeSystem :=
  writing.move 1 (writeByte 1) (writeCall writing.pipes (writeByte 1))
    (writeMove writing.pipes (writeByte 1))

theorem reading_blocks (ok : PipeSystem → PipeLabel → Prop) (h : Reach pipeSystem ok reading)
    (hblock : ok reading (.round 2)) : Reach pipeSystem ok (reading.enqueue 0 2) := by
  have hr : reading.round 2 readTwo = reading.enqueue 0 2 :=
    PipeSystem.round_empty rfl (by decide) (by decide +kernel) (by decide +kernel)
  exact hr ▸ Reach.step (M := pipeSystem) h hblock (.round rfl (by decide +kernel))

theorem written_reach (ok : PipeSystem → PipeLabel → Prop) (h : Reach pipeSystem ok reading)
    (hblock : ok reading (.round 2)) (hstart : ok (reading.enqueue 0 2) (.start 1 (writeByte 1)))
    (hwrite : ok writing (.round 1)) :
    Reach pipeSystem ok written := by
  have h2 : Reach pipeSystem ok writing := Reach.step (M := pipeSystem)
    (reading_blocks ok h hblock) hstart (.start rfl ⟨by decide, by decide +kernel⟩ rfl (by decide +kernel))
  exact reach_write h2 hwrite rfl (by decide +kernel) rfl (by decide) (by decide +kernel)
    (by decide +kernel)

/-- A blocked read and a write of one byte. -/
theorem pipe_fifo_written :
    (written.hist.reads 0).flatten <+: (written.hist.writes 0).flatten := by
  refine pipe_fifo (written_reach _ (reading_reach _ ?_ ?_) ?_ ?_ ?_) 0
  · exact ⟨trivial, fun _ _ _ _ _ hx => (hx.2 rfl).elim, trivial⟩
  · exact ⟨fun _ _ _ => rfl, trivial, trivial⟩
  · refine ⟨trivial, trivial, fun c hc _ => ?_⟩
    rw [reading, PipeSystem.setCall_self, Option.some.injEq] at hc
    subst hc
    exact ⟨fun _ h => absurd h (by decide +kernel), fun h => (by cases h)⟩
  · exact ⟨fun h => (by cases h), trivial, trivial⟩
  · refine ⟨trivial, trivial, fun c hc _ => ?_⟩
    rw [writing, PipeSystem.setCall_self, Option.some.injEq] at hc
    subst hc
    refine ⟨fun h => (by cases h), fun _ _ _ =>
      ⟨rfl, by decide +kernel, fun q d hd hself => ?_⟩⟩
    by_cases hq : q = 1
    · rw [hq, writing, PipeSystem.setCall_self, Option.some.injEq] at hd
      subst hd
      exact fun h => absurd h.1 (by decide)
    · rw [writing, PipeSystem.setCall_of_ne hq] at hd
      by_cases hq2 : q = 2
      · rw [hq2, show (reading.enqueue 0 2).calls 2 = some readTwo from rfl,
          Option.some.injEq] at hd
        subst hd
        exact absurd hself (by decide)
      · rw [show (reading.enqueue 0 2).calls q = none from
          PipeSystem.setCall_of_ne (s := idlePipes.open' (some 1)) hq2] at hd
        cases hd

/-- The read takes the byte and blocks again, and process 1 is done and writes another byte. -/
def rereading : PipeSystem :=
  (written.move 2 readTwo (readCall written.pipes readTwo)
    (readMove written.pipes readTwo)).enqueue 0 2

def rewriting : PipeSystem := (rereading.setCall 1 none).setCall 1 (some (writeByte 2))

def rewritten : PipeSystem :=
  rewriting.move 1 (writeByte 2) (writeCall rewriting.pipes (writeByte 2))
    (writeMove rewriting.pipes (writeByte 2))

theorem written_calls : written.calls 2 = some readTwo := by
  rw [written, PipeSystem.move_of_ne (by decide), writing, PipeSystem.setCall_of_ne (by decide),
    PipeSystem.enqueue_calls, reading, PipeSystem.setCall_self]

theorem rereading_calls : rereading.calls 2 = some (readCall written.pipes readTwo) := by
  rw [rereading, PipeSystem.enqueue_calls, PipeSystem.move_self]

theorem rewriting_calls : rewriting.calls 2 = some (readCall written.pipes readTwo) := by
  rw [rewriting, PipeSystem.setCall_of_ne (by decide), PipeSystem.setCall_of_ne (by decide),
    rereading_calls]

theorem rewritten_calls : rewritten.calls 2 = some (readCall written.pipes readTwo) := by
  rw [rewritten, PipeSystem.move_of_ne (by decide), rewriting_calls]

theorem rereading_reach (ok : PipeSystem → PipeLabel → Prop) (h : Reach pipeSystem ok written)
    (hround : ∀ s p, ok s (.round p)) : Reach pipeSystem ok rereading := by
  have h1 := reach_read h (hround _ 2) written_calls (by decide +kernel) rfl (by decide)
    (by decide +kernel)
  have hk : ((readMove written.pipes readTwo).pair 0).klass ≠ .none := by
    rw [pair_klass_of_link fun _ => readMove_endpoints.1]; decide +kernel
  have hr : (written.move 2 readTwo (readCall written.pipes readTwo)
      (readMove written.pipes readTwo)).round 2 (readCall written.pipes readTwo) = rereading :=
    PipeSystem.round_empty rfl (by decide +kernel) hk (by decide +kernel)
  rw [← hr]
  exact Reach.step (M := pipeSystem) h1 (hround _ 2)
    (.round PipeSystem.move_self (by decide +kernel))

theorem rewritten_reach (ok : PipeSystem → PipeLabel → Prop) (h : Reach pipeSystem ok written)
    (hround : ∀ s p, ok s (.round p)) (hstart : ∀ s, ok s (.start 1 (writeByte 2))) :
    Reach pipeSystem ok rewritten := by
  have h2 := rereading_reach ok h hround
  have h3 : Reach pipeSystem ok (rereading.setCall 1 none) := by
    have hc : rereading.calls 1 = some (writeCall writing.pipes (writeByte 1)) := by
      rw [rereading, PipeSystem.enqueue_calls, PipeSystem.move_of_ne (by decide), written,
        PipeSystem.move_self]
    rw [← PipeSystem.round_full (c := writeCall writing.pipes (writeByte 1)) (by decide +kernel)]
    exact Reach.step (M := pipeSystem) h2 (hround _ 1) (.round hc (by decide +kernel))
  have h4 : Reach pipeSystem ok rewriting := Reach.step (M := pipeSystem) h3 (hstart _)
    (.start PipeSystem.setCall_self ⟨by decide, by decide +kernel⟩ rfl (by decide +kernel))
  have hlink : ∀ y, (rewriting.pipes.endpoints y).link = (written.pipes.endpoints y).link := by
    intro y
    rw [rewriting, PipeSystem.setCall, PipeSystem.setCall, rereading, PipeSystem.enqueue,
      Pipes.modify_link]
    · exact readMove_endpoints.1
    · exact fun _ => rfl
  have hk : (rewriting.pipes.pair 1).klass ≠ .none := by
    rw [pair_klass_of_link hlink]; decide +kernel
  exact reach_write h4 (hround _ 1) PipeSystem.setCall_self (by decide +kernel) rfl (by decide) hk
    (by decide +kernel)

/-- A read of two bytes that gets them one at a time: both go to the first byte of its buffer. -/
theorem read_in_two_rounds : ∃ s, Reach pipeSystem (fun s a => a.Valid ∧ a.SparesPairs s) s ∧
    (s.hist.reads 0).flatten = [2, 0] ∧ (s.hist.writes 0).flatten = [1, 2] ∧
    ¬(s.hist.reads 0).flatten <+: (s.hist.writes 0).flatten := by
  have hwritten : Reach pipeSystem (fun s a => a.Valid ∧ a.SparesPairs s) written :=
    written_reach _ (reading_reach _ ⟨trivial, fun _ _ _ _ _ hx => (hx.2 rfl).elim⟩
      ⟨fun _ _ _ => rfl, trivial⟩) ⟨trivial, trivial⟩ ⟨fun h => (by cases h), trivial⟩
      ⟨trivial, trivial⟩
  have h := rewritten_reach _ hwritten (fun _ _ => ⟨trivial, trivial⟩)
    (fun _ => ⟨fun h => (by cases h), trivial⟩)
  have h' := reach_read h ⟨trivial, trivial⟩ rewritten_calls (by decide +kernel) rfl
    (by decide +kernel) (by decide +kernel)
  exact ⟨_, h', by decide +kernel, by decide +kernel, by decide +kernel⟩

end SpuriOS
