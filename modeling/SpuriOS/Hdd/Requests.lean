import SpuriOS.Hdd.Model

/-! # Concurrent disk reads

What a process gets from the disk is right as long as the requests do not meet: the command of
the last request stands in the controller until its data is taken. The run theorem assumes that
no command is written between an interrupt and the transfer it announces, and that bit 24 of the
sector number agrees with the drive, which is the bit that `hdd_primary_handler` looks at. -/

namespace SpuriOS

open Transition

section
variable {c : Controller} {slave : Bool} {pos : Nat}

theorem driveRegister_eq : driveRegister slave pos = channel slave ||| (pos / 2 ^ 24 % 2 ^ 4) := by
  rw [driveRegister, Nat.shiftRight_eq_div_pow]
  exact congrArg _ (Nat.and_two_pow_sub_one_eq_mod _ 4)

theorem channel_or (slave : Bool) (n : Nat) (hn : n < 2 ^ 4) :
    (channel slave ||| n).testBit 4 = slave ∧ (channel slave ||| n) % 2 ^ 4 = n ∧
    ((channel slave ||| n) &&& 1 ≠ 0 ↔ n.testBit 0 = true) := by
  cases slave <;> decide +revert

/-- The registers hold all of a sector number below `2 ^ 28`. -/
theorem Controller.issue_last (h : pos < 2 ^ 28) : (c.issue slave pos).last = (slave, pos) := by
  obtain ⟨hslave, hhigh, -⟩ := channel_or slave (pos / 2 ^ 24 % 2 ^ 4)
    (Nat.mod_lt _ (by decide))
  simp only [issue, outb, if_true, selected, driveRegister_eq, hslave, hhigh,
    Nat.shiftRight_eq_div_pow]
  congr 1
  omega

theorem Controller.issue_deviceFor :
    (c.issue slave pos).deviceFor = pos.testBit 24 := by
  obtain ⟨-, -, hbit⟩ := channel_or slave (pos / 2 ^ 24 % 2 ^ 4)
    (Nat.mod_lt _ (by decide))
  have hdrive : (c.issue slave pos).drive = driveRegister slave pos := by
    simp [issue, outb]
  rw [Bool.eq_iff_iff, deviceFor, decide_eq_true_iff, hdrive, driveRegister_eq, hbit,
    Nat.testBit_mod_two_pow, Nat.testBit_div_two_pow]
  simp

end

/-! ## The rounds of `hdd_enhanced_read` -/

def disk (sector : Bool → Nat → Nat → Byte) (slave : Bool) : BlockDev where
  size := sectorSize
  sector := sector slave

/-- The part of the request before `bufPtr` is in the buffer, and the blocks left cover the rest. -/
structure EnhancedRead.Progress (dev : BlockDev) (startingByte byteCount : Nat) (l : EnhancedRead)
    (buf : Nat → Byte) : Prop where
  count : l.bufPtr + l.byteCount = byteCount
  small : byteCount < 2 ^ 32
  span : l.readSpan < sectorSize
  cover : l.readSpan + l.byteCount ≤ l.blockCount * sectorSize
  pos : l.pos + l.blockCount ≤ 2 ^ 24
  here : l.byteCount ≠ 0 → l.pos * sectorSize + l.readSpan = startingByte + l.bufPtr
  read : ∀ i < l.bufPtr, buf i = dev.byte (startingByte + i)

section
variable {dev : BlockDev} {startingByte byteCount : Nat} {l : EnhancedRead}
  {buf buffer : Nat → Byte}

theorem EnhancedRead.Progress.enter (hs : startingByte < 2 ^ 32)
    (hreal : startingByte % sectorSize + byteCount < 2 ^ 32) :
    Progress dev startingByte byteCount (.enter startingByte byteCount) buf := by
  have hk := @blockCount_bounds sectorSize (startingByte % sectorSize + byteCount) (by decide)
  have hdiv := Nat.div_add_mod startingByte sectorSize
  simp only [EnhancedRead.enter, Word32.add_of_lt hreal]
  dsimp only at hk
  generalize (if (startingByte % sectorSize + byteCount) % sectorSize ≠ 0 then _ else _) = k
    at hk ⊢
  rw [sectorSize_eq] at *
  exact ⟨Nat.zero_add _, by omega, Nat.mod_lt _ (by decide), hk.1, by dsimp only; omega,
    fun _ => show startingByte / 512 * 512 + startingByte % 512 = startingByte + 0 by omega,
    fun i hi => absurd hi (Nat.not_lt_zero _)⟩

theorem EnhancedRead.Progress.next (hd : dev.size = sectorSize)
    (h : Progress dev startingByte byteCount l buf) (hl : l.blockCount ≠ 0)
    (hbuf : ∀ i < sectorSize, buffer i = dev.sector l.pos i) :
    Progress dev startingByte byteCount l.next
      (Memory.write buf l.bufPtr l.copiedBytes fun i => buffer (l.readSpan + i)) := by
  obtain ⟨hcount, hsmall, hspan, hcover, hpos, hhere, hread⟩ := h
  have hsub : Word32.sub sectorSize l.readSpan = sectorSize - l.readSpan :=
    Word32.sub_of_le (by omega) (by decide)
  have hcopied : l.copiedBytes = min (sectorSize - l.readSpan) l.byteCount := by
    rw [copiedBytes, hsub, Nat.min_def]
    split <;> split <;> omega
  have hmul : l.blockCount * sectorSize = (l.blockCount - 1) * sectorSize + sectorSize := by
    rw [← Nat.succ_mul, Nat.succ_eq_add_one, Nat.sub_add_cancel (by omega)]
  have hnext : l.next = ⟨l.blockCount - 1, l.pos + 1, 0, l.byteCount - l.copiedBytes,
      l.bufPtr + l.copiedBytes⟩ := by
    rw [EnhancedRead.next, Word32.add_of_lt (by omega),
      Word32.sub_self (Nat.lt_trans hspan (by decide)), Word32.sub_of_le (by omega) (by omega),
      Word32.add_of_lt (by omega)]
  rw [hnext]
  refine ⟨by dsimp only; omega, hsmall, show 0 < 512 by decide, by dsimp only; omega,
    by dsimp only; omega, fun hne => ?_, fun i hi => ?_⟩
  · dsimp only at hne ⊢
    have := hhere (by omega)
    rw [Nat.succ_mul]
    omega
  · dsimp only at hi
    by_cases hold : i < l.bufPtr
    · rw [Memory.write_of_not (by omega), hread i hold]
    · obtain ⟨j, rfl⟩ := Nat.exists_eq_add_of_le (Nat.le_of_not_lt hold)
      have hj : l.readSpan + j < sectorSize := by omega
      rw [Memory.write_add (by omega), hbuf _ hj, ← BlockDev.byte_add (hd ▸ hj), hd,
        ← Nat.add_assoc, hhere (by omega), Nat.add_assoc]

end

/-! ## Commands, queues and wakeups -/

/-- Process `p` was woken and has yet to take the data of its command. -/
def Woken (readQueue : Bool → List Pid) (calls : Pid → Option HddCall) (p : Pid) (c : HddCall) :
    Prop :=
  calls p = some c ∧ c.issued = true ∧ p ∉ readQueue c.slave

/-- A process waits for each disk at most, and whoever is woken issued the last command. -/
structure Waiting (ctl : Controller) (readQueue : Bool → List Pid) (calls : Pid → Option HddCall) :
    Prop where
  queued : ∀ {b p}, p ∈ readQueue b → readQueue b = [p] ∧ ∃ c, calls p = some c ∧ c.issued = true ∧
    c.slave = b ∧ (ctl.last.1 = b → c.request = some ctl.last.2)
  woken : ∀ {p c}, Woken readQueue calls p c → ctl.last.1 = c.slave ∧ c.request = some ctl.last.2
  alone : ∀ {p c q d}, Woken readQueue calls p c → Woken readQueue calls q d → p = q
  idle : ∀ {p c}, Woken readQueue calls p c → readQueue c.slave = []
  deviceFor : ctl.irqs ≠ 0 → ctl.deviceFor = ctl.last.1

namespace Waiting
variable {ctl : Controller} {readQueue : Bool → List Pid} {calls : Pid → Option HddCall} {p : Pid}
  {c : HddCall}

/-- A process whose call has not issued its command is in no queue. -/
theorem not_queued (h : Waiting ctl readQueue calls)
    (hc : ∀ c, calls p = some c → c.issued = true → p ∉ readQueue c.slave) (b : Bool) :
    p ∉ readQueue b := by
  intro hp
  obtain ⟨-, c, hc', hi, rfl, -⟩ := h.queued hp
  exact hc c hc' hi hp

/-- The call of a process that is in no queue may change to one without a command. -/
theorem update (h : Waiting ctl readQueue calls) (hp : ∀ b, p ∉ readQueue b) {x : Option HddCall}
    (hx : ∀ d, x = some d → d.issued = false) :
    Waiting ctl readQueue (Function.update calls p x) := by
  have hw : ∀ {q d}, Woken readQueue (Function.update calls p x) q d →
      Woken readQueue calls q d := by
    rintro q d ⟨hd, hi, hq⟩
    obtain rfl | hne := eq_or_ne q p
    · rw [Function.update_self] at hd
      rw [hx d hd] at hi
      cases hi
    · rw [Function.update_of_ne hne] at hd
      exact ⟨hd, hi, hq⟩
  refine ⟨fun {b q} hq => ?_, fun h' => h.woken (hw h'), fun h₁ h₂ => h.alone (hw h₁) (hw h₂),
    fun h' => h.idle (hw h'), h.deviceFor⟩
  have hne : q ≠ p := fun e => hp b (e ▸ hq)
  rw [Function.update_of_ne hne]
  exact h.queued hq

/-- A process issues a command: its disk was free and nobody has yet to take data. -/
theorem issue (h : Waiting ctl readQueue calls) (hc : calls p = some c) (hi : c.issued = false)
    (hfree : readQueue c.slave = []) (halone : ∀ q d, ¬Woken readQueue calls q d) {pos : Nat}
    (hreq : c.request = some pos) (hpos : pos < 2 ^ 28) (hbit : pos.testBit 24 = c.slave) :
    Waiting (ctl.issue c.slave pos)
      (Function.update readQueue c.slave (readQueue c.slave ++ [p]))
      (Function.update calls p (some { c with issued := true })) := by
  have hp := h.not_queued fun d hd hd' => by
    rw [hc] at hd
    cases hd
    rw [hi] at hd'
    cases hd'
  have hw : ∀ q d, ¬Woken (Function.update readQueue c.slave (readQueue c.slave ++ [p]))
      (Function.update calls p (some { c with issued := true })) q d := by
    rintro q d ⟨hd, hd', hq⟩
    obtain rfl | hne := eq_or_ne q p
    · rw [Function.update_self] at hd
      cases hd
      rw [Function.update_self] at hq
      exact hq (List.mem_append_right _ (List.mem_singleton_self _))
    · rw [Function.update_of_ne hne] at hd
      refine halone q d ⟨hd, hd', fun hq' => hq ?_⟩
      obtain heq | hs := eq_or_ne d.slave c.slave
      · rw [heq, Function.update_self]
        exact List.mem_append_left _ (heq ▸ hq')
      · rwa [Function.update_of_ne hs]
  refine ⟨fun {b q} hq => ?_, fun h' => absurd h' (hw _ _), fun h' => absurd h' (hw _ _),
    fun h' => absurd h' (hw _ _), fun _ => ?_⟩
  · rw [Controller.issue_last hpos]
    obtain rfl | hb := eq_or_ne b c.slave
    · rw [Function.update_self, hfree, List.nil_append] at hq ⊢
      obtain rfl := List.mem_singleton.1 hq
      exact ⟨rfl, _, Function.update_self .., rfl, rfl, fun _ => hreq⟩
    · rw [Function.update_of_ne hb] at hq ⊢
      have hne : q ≠ p := fun e => hp b (e ▸ hq)
      obtain ⟨hq', d, hd, hd', hs, -⟩ := h.queued hq
      exact ⟨hq', d, by rwa [Function.update_of_ne hne], hd', hs, fun e => absurd e.symm hb⟩
  · rw [Controller.issue_deviceFor, Controller.issue_last hpos, hbit]

/-- The interrupt wakes the process that waits for the drive of the last command. -/
theorem irq (h : Waiting ctl readQueue calls) (hirqs : ctl.irqs ≠ 0) :
    Waiting { ctl with irqs := ctl.irqs - 1 }
      (Function.update readQueue ctl.deviceFor (readQueue ctl.deviceFor).tail) calls := by
  have hdev := h.deviceFor hirqs
  rcases hq : readQueue ctl.deviceFor with _ | ⟨p, t⟩
  · rw [List.tail_nil, ← hq, Function.update_eq_self]
    exact ⟨h.queued, h.woken, h.alone, h.idle, fun _ => hdev⟩
  · have hp : p ∈ readQueue ctl.deviceFor := hq ▸ List.mem_cons_self
    obtain ⟨hone, c, hc, hi, hs, hreq⟩ := h.queued hp
    obtain rfl : t = [] := by
      rw [hq] at hone
      exact (List.cons.inj hone).2
    -- a woken process would leave no queue on the drive of the last command
    have hnone : ∀ q d, ¬Woken readQueue calls q d := fun q d hw => by
      have := h.idle hw
      rw [← (h.woken hw).1, ← hdev, hq] at this
      cases this
    have hw : ∀ {q d}, Woken (Function.update readQueue ctl.deviceFor []) calls q d →
        q = p ∧ d = c := by
      rintro q d ⟨hd, hd', hq'⟩
      have hmem : q ∈ readQueue d.slave := by
        by_contra hn
        exact hnone q d ⟨hd, hd', hn⟩
      obtain heq | hne := eq_or_ne d.slave ctl.deviceFor
      · rw [heq, hq] at hmem
        obtain rfl := List.mem_singleton.1 hmem
        exact ⟨rfl, Option.some.inj (hd.symm.trans hc)⟩
      · rw [Function.update_of_ne hne] at hq'
        exact absurd hmem hq'
    rw [List.tail_cons]
    refine ⟨fun {b q} hq' => ?_, fun h' => ?_, fun h₁ h₂ => (hw h₁).1.trans (hw h₂).1.symm,
      fun h' => ?_, fun _ => hdev⟩
    · obtain rfl | hb := eq_or_ne b ctl.deviceFor
      · rw [Function.update_self] at hq'
        cases hq'
      · rw [Function.update_of_ne hb] at hq' ⊢
        exact h.queued hq'
    · obtain ⟨rfl, rfl⟩ := hw h'
      exact ⟨hdev.symm.trans hs.symm, hreq hdev.symm⟩
    · obtain ⟨rfl, rfl⟩ := hw h'
      rw [hs, Function.update_self]

end Waiting

/-! ## Runs -/

/-- What a call that came back promised. -/
def HddReturn.Correct (sector : Bool → Nat → Nat → Byte) (r : HddReturn) : Prop :=
  match r.call.op with
  | .blockRead pos size =>
    r.value = some (size : Int) → ∀ i < size, r.call.buf i = sector r.call.slave pos i
  | .enhancedRead startingByte byteCount _ =>
    ∀ i < byteCount, r.call.buf i = (disk sector r.call.slave).byte (startingByte + i)

structure HddCorrect (sector : Bool → Nat → Nat → Byte) (s : HddSystem) : Prop where
  returned : ∀ r ∈ s.returned, r.Correct sector
  interrupts : ∀ i ∈ s.interrupts, i.woken = i.awaited

/-- A status that lets `hdd_block_read` transfer its data. -/
def Ready (status : Nat) : Prop :=
  status &&& stErr = 0 ∧ status &&& stDf = 0 ∧ status &&& stBsy = 0 ∧ status &&& stRdy ≠ 0 ∧
    status &&& stDrq ≠ 0

instance (status : Nat) : Decidable (Ready status) := by
  unfold Ready; infer_instance

/-- The requests do not meet. -/
structure RunOk (s : HddSystem) (c : HddCall) (status : Nat) : Prop where
  /-- A command is written when no woken process has yet to take its data, and bit 24 of the
  sector number is the drive. -/
  issue : ∀ pos, c.issued = false → c.request = some pos → s.hdd.readQueue c.slave = [] →
    (∀ q d, ¬Woken s.hdd.readQueue s.calls q d) ∧ pos.testBit 24 = c.slave
  /-- `hdd_enhanced_read` finds its disk free. -/
  free : c.isEnhanced = true → c.issued = false → c.request ≠ none →
    s.hdd.readQueue c.slave = []
  /-- `hdd_enhanced_read` finds its data ready. -/
  ready : c.isEnhanced = true → c.issued = true → Ready status

def HddOk (s : HddSystem) : HddLabel → Prop
  | .start _ c => ∀ startingByte byteCount l, c.op = .enhancedRead startingByte byteCount l →
    startingByte % sectorSize + byteCount < 2 ^ 32
  | .run p status => ∀ c, s.calls p = some c → RunOk s c status
  | .irq => True

def HddCall.Progress (sector : Bool → Nat → Nat → Byte) (c : HddCall) : Prop :=
  match c.op with
  | .blockRead pos _ => pos < 2 ^ 28
  | .enhancedRead startingByte byteCount l =>
    l.Progress (disk sector c.slave) startingByte byteCount c.buf

structure HddInv (sector : Bool → Nat → Nat → Byte) (s : HddSystem) : Prop where
  correct : HddCorrect sector s
  waiting : Waiting s.hdd.ctl s.hdd.readQueue s.calls
  progress : ∀ {p c}, s.calls p = some c → c.Progress sector

section
variable {sector : Bool → Nat → Nat → Byte} {s : HddSystem} {p : Pid} {c : HddCall}

theorem HddCall.Progress.request_lt (h : c.Progress sector) {pos : Nat}
    (hreq : c.request = some pos) : pos < 2 ^ 28 := by
  unfold Progress at h
  unfold request at hreq
  split at hreq
  next pos' size hop =>
    simp only [hop] at h
    split at hreq <;> cases hreq
    exact h
  next startingByte byteCount l hop =>
    simp only [hop] at h
    split at hreq <;> cases hreq
    have := h.pos
    omega

theorem HddCall.Fresh.progress (h : c.Fresh)
    (hreal : ∀ startingByte byteCount l, c.op = .enhancedRead startingByte byteCount l →
      startingByte % sectorSize + byteCount < 2 ^ 32) : c.Progress sector := by
  cases h with
  | blockRead hpos => exact hpos
  | enhancedRead hs _ => exact .enter hs (hreal _ _ _ rfl)

theorem HddCall.Fresh.issued (h : c.Fresh) : c.issued = false := by cases h <;> rfl

theorem hddBlockReadFinish_cases (sector : Bool → Nat → Nat → Byte) (status : Nat) (r : Hdd)
    (buf : Nat → Byte) :
    hddBlockReadFinish sector status r buf = (-1, buf) ∨
    hddBlockReadFinish sector status r buf =
      ((sectorSize : Int), Memory.write buf 0 sectorSize (sector r.ctl.last.1 r.ctl.last.2)) := by
  unfold hddBlockReadFinish
  split
  · exact .inl rfl
  split
  · exact .inl rfl
  split
  · exact .inl rfl
  split
  · exact .inl rfl
  · exact .inr rfl

theorem hddBlockReadFinish_ready {status : Nat} (h : Ready status) (r : Hdd) (buf : Nat → Byte) :
    hddBlockReadFinish sector status r buf =
      ((sectorSize : Int), Memory.write buf 0 sectorSize (sector r.ctl.last.1 r.ctl.last.2)) := by
  obtain ⟨herr, hdf, hbsy, hrdy, hdrq⟩ := h
  rw [hddBlockReadFinish, if_neg (by rwa [Decidable.not_not]), if_neg (by rwa [Decidable.not_not]),
    if_neg (by simp [hbsy, hrdy]), if_neg hdrq]
  rfl

theorem hddBlockReadStart_eq {slave : Bool} {pos size : Nat} {r : Hdd} (hsize : size = sectorSize)
    (hfree : r.readQueue slave = []) :
    hddBlockReadStart p slave pos size r = some { r with
      ctl := r.ctl.issue slave pos
      readQueue := Function.update r.readQueue slave (r.readQueue slave ++ [p]) } := by
  rw [hddBlockReadStart, if_neg (by simp [hsize]), if_neg (by simp [hfree])]

theorem hddBlockReadStart_some {slave : Bool} {pos size : Nat} {r r' : Hdd}
    (h : hddBlockReadStart p slave pos size r = some r') :
    size = sectorSize ∧ r.readQueue slave = [] := by
  rw [hddBlockReadStart] at h
  split at h
  next => cases h
  next hsize =>
  split at h
  next => cases h
  next hfree => exact ⟨(Decidable.not_not.1 hsize).symm, Decidable.not_not.1 hfree⟩

/-- A call comes back. -/
theorem HddInv.return' (h : HddInv sector s) (hp : ∀ b, p ∉ s.hdd.readQueue b) {c : HddCall}
    {value : Option Int} (hr : HddReturn.Correct sector ⟨c, value⟩) :
    HddInv sector (s.return' p c value) where
  correct := by
    refine ⟨fun r hr' => ?_, h.correct.interrupts⟩
    rcases List.mem_append.1 hr' with hr' | hr'
    · exact h.correct.returned r hr'
    · rwa [List.mem_singleton.1 hr']
  waiting := h.waiting.update hp fun d hd => nomatch hd
  progress {q d} hd := by
    obtain rfl | hne := eq_or_ne q p
    · rw [HddSystem.return', HddSystem.setCall_self] at hd
      cases hd
    · rw [HddSystem.return', HddSystem.setCall_of_ne hne] at hd
      exact h.progress hd

/-- The next command of a call is written, and the call waits. -/
theorem HddInv.wait (h : HddInv sector s) (hc : s.calls p = some c) (hi : c.issued = false)
    {pos : Nat} (hreq : c.request = some pos) (hfree : s.hdd.readQueue c.slave = [])
    (halone : ∀ q d, ¬Woken s.hdd.readQueue s.calls q d) (hbit : pos.testBit 24 = c.slave) :
    HddInv sector (s.wait p c { s.hdd with
      ctl := s.hdd.ctl.issue c.slave pos
      readQueue := Function.update s.hdd.readQueue c.slave (s.hdd.readQueue c.slave ++ [p]) }) where
  correct := ⟨h.correct.returned, h.correct.interrupts⟩
  waiting := h.waiting.issue hc hi hfree halone hreq ((h.progress hc).request_lt hreq) hbit
  progress {q d} hd := by
    obtain rfl | hne := eq_or_ne q p
    · rw [HddSystem.wait, HddSystem.setCall_self] at hd
      cases hd
      have := h.progress hc
      exact this
    · rw [HddSystem.wait, HddSystem.setCall_of_ne hne] at hd
      exact h.progress hd

/-- A round of `hdd_enhanced_read` gets its sector. -/
theorem HddInv.copy (h : HddInv sector s) (hp : ∀ b, p ∉ s.hdd.readQueue b)
    (hc : s.calls p = some c) {startingByte byteCount : Nat} {l : EnhancedRead}
    (hop : c.op = .enhancedRead startingByte byteCount l) (hl : l.blockCount ≠ 0)
    {buffer : Nat → Byte} (hbuf : ∀ i < sectorSize, buffer i = sector c.slave l.pos i) :
    HddInv sector (s.copy p c startingByte byteCount l buffer) where
  correct := ⟨h.correct.returned, h.correct.interrupts⟩
  waiting := h.waiting.update hp fun d hd => by cases hd; rfl
  progress {q d} hd := by
    obtain rfl | hne := eq_or_ne q p
    · rw [HddSystem.copy, HddSystem.setCall_self] at hd
      cases hd
      have := h.progress hc
      rw [HddCall.Progress] at this
      simp only [hop] at this
      exact this.next rfl hl hbuf
    · rw [HddSystem.copy, HddSystem.setCall_of_ne hne] at hd
      exact h.progress hd

/-- A process that is not queued on the disk of its call is in no queue. -/
theorem HddInv.not_queued (h : HddInv sector s) (hc : s.calls p = some c)
    (hq : p ∉ s.hdd.readQueue c.slave) : ∀ b, p ∉ s.hdd.readQueue b :=
  h.waiting.not_queued fun d hd _ => by
    rw [hc] at hd
    cases hd
    exact hq

theorem HddInv.blockRead (h : HddInv sector s) (hc : s.calls p = some c)
    (hq : p ∉ s.hdd.readQueue c.slave) {status : Nat} (ho : RunOk s c status) {pos size : Nat}
    (hop : c.op = .blockRead pos size) : HddInv sector (s.run sector p c status) := by
  have hp := h.not_queued hc hq
  simp only [HddSystem.run, hop]
  cases hi : c.issued with
  | true =>
    rw [if_pos rfl]
    refine h.return' hp ?_
    obtain ⟨hslave, hreq⟩ := h.waiting.woken ⟨hc, hi, hq⟩
    simp only [HddReturn.Correct]
    rcases hddBlockReadFinish_cases sector status s.hdd c.buf with hf | hf <;> rw [hf]
    · intro hv
      exact absurd (Option.some.inj hv) (by omega)
    · intro hv i hlt
      obtain rfl : sectorSize = size := Int.ofNat.inj (Option.some.inj hv)
      rw [HddCall.request] at hreq
      simp only [hop, if_true, Option.some.injEq] at hreq
      rw [hreq, ← hslave]
      simpa using Memory.write_add (a := 0) hlt
  | false =>
    rw [if_neg (by simp)]
    rcases hs : hddBlockReadStart p c.slave pos size s.hdd with _ | hdd
    · refine h.return' hp ?_
      simp only [HddReturn.Correct, hop]
      intro hv
      exact absurd (Option.some.inj hv) (by omega)
    · obtain ⟨hsize, hfree⟩ := hddBlockReadStart_some hs
      rw [hddBlockReadStart_eq hsize hfree] at hs
      cases hs
      have hreq : c.request = some pos := by
        rw [HddCall.request]
        simp only [hop, hsize, if_true]
      obtain ⟨halone, hbit⟩ := ho.issue pos hi hreq hfree
      exact h.wait hc hi hreq hfree halone hbit

theorem HddInv.enhancedRead (h : HddInv sector s) (hc : s.calls p = some c)
    (hq : p ∉ s.hdd.readQueue c.slave) {status : Nat} (ho : RunOk s c status)
    {startingByte byteCount : Nat} {l : EnhancedRead}
    (hop : c.op = .enhancedRead startingByte byteCount l) :
    HddInv sector (s.run sector p c status) := by
  have hp := h.not_queued hc hq
  have he : c.isEnhanced = true := by
    rw [HddCall.isEnhanced]
    simp only [hop]
  simp only [HddSystem.run, hop]
  cases hi : c.issued with
  | true =>
    rw [if_pos rfl]
    obtain ⟨hslave, hreq⟩ := h.waiting.woken ⟨hc, hi, hq⟩
    rw [HddCall.request] at hreq
    simp only [hop] at hreq
    split at hreq
    next => cases hreq
    next hl =>
      rw [hddBlockReadFinish_ready (ho.ready he hi)]
      refine h.copy hp hc hop hl fun i hlt => ?_
      rw [hslave, ← Option.some.inj hreq]
      simpa using Memory.write_add (a := 0) hlt
  | false =>
    rw [if_neg (by simp)]
    split
    next hl =>
      refine h.return' hp ?_
      simp only [HddReturn.Correct, hop]
      have hpr := h.progress hc
      rw [HddCall.Progress] at hpr
      simp only [hop] at hpr
      -- no block is left, so no byte is
      have hcover := hpr.cover
      have hcount := hpr.count
      rw [hl, Nat.zero_mul] at hcover
      exact fun i hlt => hpr.read i (by omega)
    next hl =>
      have hreq : c.request = some l.pos := by
        rw [HddCall.request]
        simp only [hop, if_neg hl]
      have hfree := ho.free he hi (by simp [hreq])
      rw [hddBlockReadStart_eq rfl hfree]
      obtain ⟨halone, hbit⟩ := ho.issue l.pos hi hreq hfree
      exact h.wait hc hi hreq hfree halone hbit

theorem HddSystem.Initial.inv (h : s.Initial) : HddInv sector s where
  correct := by
    refine ⟨fun r hr => ?_, fun i hi => ?_⟩
    · rw [h.returned] at hr
      cases hr
    · rw [h.interrupts] at hi
      cases hi
  waiting := by
    have hw : ∀ {p c}, ¬Woken s.hdd.readQueue s.calls p c := fun hw => by
      have := hw.1
      rw [h.calls] at this
      cases this
    refine ⟨fun {b p} hp => ?_, fun h' => absurd h' hw, fun h' => absurd h' hw,
      fun h' => absurd h' hw, fun h' => absurd h.irqs h'⟩
    rw [h.queue b] at hp
    cases hp
  progress {p c} hc := by
    rw [h.calls] at hc
    cases hc

theorem HddInv.step (h : HddInv sector s) {a : HddLabel} {s' : HddSystem} (ho : HddOk s a)
    (hs : HddStep sector s a s') : HddInv sector s' := by
  cases hs with
  | @start p c hnone hfresh =>
    have hp := h.waiting.not_queued (p := p) fun d hd _ => by
      rw [hnone] at hd
      cases hd
    refine ⟨⟨h.correct.returned, h.correct.interrupts⟩,
      h.waiting.update hp fun d hd => by cases hd; exact hfresh.issued, fun {q d} hd => ?_⟩
    obtain rfl | hne := eq_or_ne q p
    · rw [HddSystem.setCall_self] at hd
      cases hd
      exact hfresh.progress ho
    · rw [HddSystem.setCall_of_ne hne] at hd
      exact h.progress hd
  | @run p c status hc hq =>
    cases hop : c.op with
    | blockRead pos size => exact h.blockRead hc hq (ho c hc) hop
    | enhancedRead startingByte byteCount l => exact h.enhancedRead hc hq (ho c hc) hop
  | irq hirqs =>
    refine ⟨⟨h.correct.returned, fun i hi => ?_⟩, h.waiting.irq hirqs, h.progress⟩
    rcases List.mem_append.1 hi with hi | hi
    · exact h.correct.interrupts i hi
    · rw [List.mem_singleton.1 hi, h.waiting.deviceFor hirqs]

end

/-! ## A lone request -/

section
variable {sector : Bool → Nat → Nat → Byte} {slave : Bool} {pos : Nat}

def idleHdd : HddSystem where
  hdd.ctl := ⟨0, 0, 0, 0, 0, (false, 0), 0⟩
  hdd.readQueue _ := []
  hdd.hddEnhancedBuffer _ := 0
  calls _ := none
  returned := []
  interrupts := []

/-- Process 1 reads a sector. -/
def sectorRead (slave : Bool) (pos : Nat) : HddCall where
  slave
  op := .blockRead pos sectorSize
  buf _ := 0
  issued := false

def readStarted (slave : Bool) (pos : Nat) : HddSystem :=
  idleHdd.setCall 1 (some (sectorRead slave pos))

def readWaits (slave : Bool) (pos : Nat) : HddSystem :=
  (readStarted slave pos).wait 1 (sectorRead slave pos)
    { idleHdd.hdd with
      ctl := idleHdd.hdd.ctl.issue slave pos
      readQueue := Function.update idleHdd.hdd.readQueue slave [1] }

theorem readStarted_run (status : Nat) :
    (readStarted slave pos).run sector 1 (sectorRead slave pos) status = readWaits slave pos :=
  rfl

theorem readWaits_reach {ok : HddSystem → HddLabel → Prop} (hpos : pos < 2 ^ 28)
    (h₀ : ok idleHdd (.start 1 (sectorRead slave pos)))
    (h₁ : ok (readStarted slave pos) (.run 1 0)) :
    Reach (hddSystem sector) ok (readWaits slave pos) := by
  have hinit : Reach (hddSystem sector) ok idleHdd :=
    .init ⟨fun _ => rfl, rfl, fun _ => rfl, rfl, rfl⟩
  have hstart : Reach (hddSystem sector) ok (readStarted slave pos) :=
    .step hinit h₀ (.start rfl (.blockRead hpos))
  refine .step hstart h₁ ?_
  rw [← @readStarted_run sector slave pos 0]
  exact .run HddSystem.setCall_self (List.not_mem_nil)

end

/-- In the runs whose requests do not meet, every read gets what it asked for and every interrupt
wakes the process that waits for the drive of the last command. -/
theorem hdd_reads_correct {sector : Bool → Nat → Nat → Byte} {s : HddSystem}
    (h : Reach (hddSystem sector) HddOk s) : HddCorrect sector s :=
  (h.invariant (I := HddInv sector) (fun hi => HddSystem.Initial.inv hi)
    fun hi ho hs => hi.step ho hs).correct

/-- The sectors of two small disks. -/
def countingSectors (slave : Bool) (lba i : Nat) : Byte :=
  UInt8.ofNat (lba + i + if slave then 1 else 0)

theorem hdd_run_step {sector : Bool → Nat → Nat → Byte} {s u : HddSystem} {a : HddLabel}
    (h : Reach (hddSystem sector) HddOk s) (hok : HddOk s a) (hs : HddStep sector s a u) :
    Reach (hddSystem sector) HddOk u := .step h hok hs

/-- A call of `hdd_block_read` that writes no command. -/
theorem runOk_of_no_command {s : HddSystem} {c : HddCall} {status : Nat}
    (hplain : c.isEnhanced = false) (h : c.issued = true ∨ s.hdd.readQueue c.slave ≠ []) :
    RunOk s c status where
  issue _ hi _ hq := (h.elim (fun hi' => Bool.false_ne_true (hi.symm.trans hi')) (· hq)).elim
  free he := absurd (hplain.symm.trans he) Bool.false_ne_true
  ready he := absurd (hplain.symm.trans he) Bool.false_ne_true

/-- While a process waits for its sector, another one comes for the same disk and is sent away. -/
theorem hdd_reads_correct_two : ∃ s : HddSystem,
    s.returned.map (·.value) = [some (-1), some 512] ∧ HddCorrect countingSectors s := by
  have hnone : ∀ q d,
      ¬Woken (readStarted false 5).hdd.readQueue (readStarted false 5).calls q d := by
    rintro q d ⟨hd, hi, -⟩
    obtain rfl | hne := eq_or_ne q 1
    · rw [readStarted, HddSystem.setCall_self] at hd
      cases hd
      cases hi
    · rw [readStarted, HddSystem.setCall_of_ne hne] at hd
      cases hd
  have hwaits : Reach (hddSystem countingSectors) HddOk (readWaits false 5) := by
    refine readWaits_reach (by decide) (fun _ _ _ h => nomatch h) fun c hc => ?_
    rw [readStarted, HddSystem.setCall_self] at hc
    cases hc
    refine ⟨fun pos _ hreq _ => ⟨hnone, ?_⟩, (nomatch ·), (nomatch ·)⟩
    cases hreq
    decide
  have hstart := hdd_run_step (a := .start 2 (sectorRead false 7)) hwaits
    (fun _ _ _ h => nomatch h) (.start rfl (.blockRead (by decide)))
  have hcall : ((readWaits false 5).setCall 2 (some (sectorRead false 7))).calls 2 =
      some (sectorRead false 7) := HddSystem.setCall_self
  have haway := hdd_run_step (a := .run 2 0) hstart
    (fun c hc => by
      cases Option.some.inj (hcall.symm.trans hc)
      exact runOk_of_no_command rfl (.inr (by decide)))
    (.run hcall (by decide))
  have hirq := hdd_run_step (a := .irq) haway trivial (.irq Nat.one_ne_zero)
  have hwoken : (((readWaits false 5).setCall 2 (some (sectorRead false 7))).run countingSectors 2
      (sectorRead false 7) 0).irq.calls 1 = some { sectorRead false 5 with issued := true } := rfl
  have hrun := hdd_run_step (a := .run 1 0x48) hirq
    (fun c hc => by
      cases Option.some.inj (hwoken.symm.trans hc)
      exact runOk_of_no_command rfl (.inl rfl))
    (.run hwoken (by decide))
  exact ⟨_, rfl, hdd_reads_correct hrun⟩

/-- The interrupt for a sector of the slave is taken for the master, and the reader sleeps on. -/
theorem slave_irq_lost : ∃ s, Reach (hddSystem countingSectors) anyStep s ∧
    ¬HddCorrect countingSectors s := by
  have hwaits : Reach (hddSystem countingSectors) anyStep (readWaits true 0) :=
    readWaits_reach (by decide) trivial trivial
  refine ⟨_, .step hwaits trivial (.irq Nat.one_ne_zero), fun h => ?_⟩
  have := h.interrupts _ (List.mem_singleton_self _)
  cases this

end SpuriOS
