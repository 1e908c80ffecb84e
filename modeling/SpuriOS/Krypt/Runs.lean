import SpuriOS.Krypt.Stages

/-! # The runs of krypt

As long as the second `pipe` does not come upon a slot of the first one, every interleaving ends,
nobody waits forever, and what is left is what was there before. -/

namespace SpuriOS

open Transition

def KryptReadPc.over : KryptReadPc → Bool
  | .noPipe | .done _ => true
  | _ => false

def KryptEncryptPc.over : KryptEncryptPc → Bool
  | .absent | .noPipe | .done _ => true
  | _ => false

def KryptWritePc.over : KryptWritePc → Bool
  | .absent | .done _ => true
  | _ => false

def KryptEncryptPc.isPipe : KryptEncryptPc → Bool
  | .pipe => true
  | _ => false

theorem KryptEncryptPc.isPipe_iff {pc : KryptEncryptPc} : pc.isPipe = true ↔ pc = .pipe := by
  cases pc <;> simp [isPipe]

instance (pc : KryptEncryptPc) : Decidable (pc = .pipe) :=
  decidable_of_iff (pc.isPipe = true) KryptEncryptPc.isPipe_iff

namespace Krypt

/-- The second `pipe` finds both ends of the first one in use. -/
def NoReuse (s : Krypt) (t : KryptTurn) : Prop :=
  t.role = .encrypt → s.encrypt.pc = .pipe →
    (s.pipes.endpoints s.pipeRead2enc.2).klass ≠ .none

/-- The kernel has a frame for `pipe`, and a page or a file for whoever asks. -/
structure NoFailure (s : Krypt) (t : KryptTurn) : Prop where
  answer : t.answer.isSome = true
  pipe₁ : t.role = .read → s.read.pc = .pipe → t.frame.isSome = true
  pipe₂ : t.role = .encrypt → s.encrypt.pc = .pipe → t.frame.isSome = true

instance (s : Krypt) (t : KryptTurn) : Decidable (s.NoReuse t) :=
  inferInstanceAs (Decidable (_ → _ → _))

/-- Every process has come to its end. -/
structure Finished (s : Krypt) : Prop where
  read : s.read.pc.over = true
  encrypt : s.encrypt.pc.over = true
  write : s.write.pc.over = true

variable {f : Ext2File} {held : Nat → Bool} {s s' : Krypt} {t : KryptTurn} {n : Nat}
  {frame answer : Option Nat}

/-! ## Steps -/

theorem Inv.boot (h : s.Boot f) : s.Inv f s.pipes.held (14 * f.fileSize + 31) := by
  have hinv := Session.Inv.init h.file h.stream
  have hpos : s.file.stream.pos = 0 := by rw [h.stream]; rfl
  have hweight : s.weight f [] [] = 14 * f.fileSize + 31 := by
    simp only [weight, hpos, KryptRead.load, KryptEncrypt.load, KryptWrite.load, h.read, h.encrypt,
      h.write, KryptReadPc.rank, KryptReadPc.hand, KryptEncryptPc.rank, KryptEncrypt.hand,
      KryptWritePc.rank, KryptWrite.hand, List.length_nil]
    omega
  exact hweight ▸ .unopened ⟨h.klass, rfl, h.encrypt, h.write⟩ (.inl h.read) hinv hpos h.serial

/-- The first `pipe`. -/
theorem Unopened.pipe (h : s.Unopened held) (hfile : s.file.Inv f)
    (hpos : s.file.stream.pos = 0) (hserial : s.serial = [])
    (hframe : frame.any s.pipes.held = false) (hpc : s.read.pc = .pipe)
    (hs : s.kryptRead frame answer = some s') :
    ∃ n, s'.Inv f held n ∧ n < s.weight f [] [] := by
  obtain ⟨pipes, refs, fds₁, fds₂, file, serial, ⟨pc, user, buffer⟩, e, w⟩ := s
  obtain rfl : pc = .pipe := hpc
  cases frame with
  | none =>
    simp only [kryptRead, openPipe_none, Option.some.injEq] at hs
    subst hs
    exact ⟨_, .unopened ⟨h.klass, h.held, h.encrypt, h.write⟩ (.inr rfl) hfile hpos hserial,
      weight_read rfl le_rfl (show 0 < 9 by decide)⟩
  | some frame =>
    obtain ⟨s₁, hopen, hp, he, hw, hfile', hserial'⟩ :=
      h.opened₁ hframe (r := ⟨.fork, user, buffer⟩) rfl
    simp only [kryptRead, hopen, Option.some.injEq] at hs
    subst hs
    obtain ⟨pipes₁, refs₁, fds₃, fds₄, file₁, serial₁, r₁, e₁, w₁⟩ := s₁
    dsimp only at he hw hfile' hserial'
    subst he hw hfile' hserial'
    obtain ⟨epc, euser, ebuffer, ebytes⟩ := e₁
    obtain rfl : epc = .absent := h.encrypt
    obtain ⟨wpc, wuser, wbuffer⟩ := w₁
    obtain rfl : wpc = .absent := h.write
    obtain rfl : serial₁ = [] := hserial
    refine ⟨_, .running [] [] [] false false hp ?_,
      weight_read rfl le_rfl (show 8 < 9 by decide)⟩
    exact {
      begun := rfl
      file := hfile
      readPage := fun h => absurd h Bool.false_ne_true
      readCall := fun c hc => absurd hc.symm (Option.some_ne_none c)
      readShort := fun h => absurd h Bool.false_ne_true
      readEnd := fun h => h.elim
      sent₁ := fun _ => by
        rw [show Stream.pos _ = 0 from hpos]
        rfl
      part₁ := List.nil_prefix
      early := fun _ => rfl
      encryptPage := fun h => absurd h Bool.false_ne_true
      encryptIn := fun c hc => absurd hc.symm (Option.some_ne_none c)
      encryptRaw := fun sz hsz => absurd hsz.symm (Option.some_ne_none sz)
      encryptOut := fun c hc => absurd hc.symm (Option.some_ne_none c)
      encryptCount := fun h => absurd h Bool.false_ne_true
      drained := fun h => h.elim False.elim fun h => absurd h Bool.false_ne_true
      encryptEnd := fun h => h.elim
      sent₂ := fun _ => rfl
      part₂ := List.nil_prefix
      unborn := fun _ => rfl
      writePage := fun h => absurd h Bool.false_ne_true
      writeIn := fun c hc => absurd hc.symm (Option.some_ne_none c)
      writeSerial := fun sz hsz => absurd hsz.symm (Option.some_ne_none sz)
      writeEnd := fun h => h.elim }

/-- What every step does. -/
theorem Inv.turn (hf : f.Fresh) (hb : f.SmallBlocks) (h : s.Inv f held n) (hok : s.NoReuse t)
    (hs : s.turn t = some s') :
    ∃ n', s'.Inv f held n' ∧ (n' < n ∨ (n' = n ∧ s'.awake < s.awake)) := by
  rw [Krypt.turn] at hs
  split at hs
  · cases hs
  next hframe =>
  have hframe : t.frame.any s.pipes.held = false := Bool.eq_false_iff.2 hframe
  cases h with
  | unopened hun hpc hfile hpos hserial =>
    cases hrole : t.role with
    | read =>
      rw [hrole] at hs
      obtain hpc | hpc := hpc
      · obtain ⟨n', hinv, hlt⟩ := hun.pipe hfile hpos hserial hframe hpc hs
        exact ⟨n', hinv, .inl hlt⟩
      · simp only [kryptRead, hpc] at hs
        cases hs
    | encrypt =>
      simp only [hrole, kryptEncrypt, hun.encrypt] at hs
      cases hs
    | write =>
      simp only [hrole, kryptWrite, hun.write] at hs
      cases hs
  | running q₁ q₂ t' short₁ short₂ hp hd =>
    have hfalls : s.Falls f held (s.weight f q₁ q₂) s' := by
      cases hrole : t.role with
      | read =>
        rw [hrole] at hs
        exact hd.read hf hb hp hs
      | encrypt =>
        rw [hrole] at hs
        have hspare := hok hrole
        rw [hp.fds₁] at hspare
        exact hd.encrypt hf hp hframe hspare hs
      | write =>
        rw [hrole] at hs
        exact hd.write hp hs
    cases hfalls with
    | moved q₁' q₂' t'' short₁' short₂' hp' hlt hd' =>
      exact ⟨_, .running q₁' q₂' t'' short₁' short₂' hp' hd', .inl hlt⟩
    | waits q₁' q₂' t'' short₁' short₂' hp' heq hd' =>
      exact ⟨_, .running q₁' q₂' t'' short₁' short₂' hp' hd', .inr heq⟩

/-- The process of a step does not wait. -/
theorem waits_of_turn (hs : s.turn t = some s') : s.waits t.role = false := by
  rw [Krypt.turn] at hs
  split at hs
  · cases hs
  cases hrole : t.role with
  | read =>
    rw [hrole] at hs
    cases hpc : s.read.pc with
    | write c =>
      simp only [kryptRead, hpc] at hs
      simp only [waits, pending, hpc, KryptReadPc.call, Option.any_some]
      exact decide_eq_false (call_free hs)
    | _ => simp only [waits, pending, hpc, KryptReadPc.call, Option.any_none]
  | encrypt =>
    rw [hrole] at hs
    cases hpc : s.encrypt.pc with
    | read c | write c =>
      simp only [kryptEncrypt, hpc] at hs
      simp only [waits, pending, hpc, KryptEncryptPc.call, Option.any_some]
      exact decide_eq_false (call_free hs)
    | _ => simp only [waits, pending, hpc, KryptEncryptPc.call, Option.any_none]
  | write =>
    rw [hrole] at hs
    cases hpc : s.write.pc with
    | read c =>
      simp only [kryptWrite, hpc] at hs
      simp only [waits, pending, hpc, KryptWritePc.call, Option.any_some]
      exact decide_eq_false (call_free hs)
    | _ => simp only [waits, pending, hpc, KryptWritePc.call, Option.any_none]

/-- A run of krypt and how long it can be. -/
theorem Inv.run (hf : f.Fresh) (hb : f.SmallBlocks) {ts : List KryptTurn}
    (h : s.Inv f held n) (hrun : Run (kryptSystem f) NoReuse s ts s') :
    ∃ n', s'.Inv f held n' ∧ ts.length + (3 * n' + s'.awake) ≤ 3 * n + s.awake := by
  induction hrun with
  | nil => exact ⟨n, h, (Nat.zero_add _).le⟩
  | @snoc ts s₁ t s' _ hok hs ih =>
    obtain ⟨n₁, hinv, hle⟩ := ih
    obtain ⟨n', hinv', hfalls⟩ := hinv.turn hf hb hok hs
    have hpos : 0 < s₁.awake := awake_pos (waits_of_turn hs)
    have hmax : s'.awake ≤ 3 := awake_le
    refine ⟨n', hinv', ?_⟩
    rw [List.length_append, List.length_singleton]
    omega

/-! ## What is left -/

theorem Inv.serial (h : s.Inv f held n) : s.serial <+: xorFrom 0 f.bytes := by
  cases h with
  | unopened _ _ _ _ hserial =>
    rw [hserial]
    exact List.nil_prefix
  | running _ _ _ _ _ _ hd => exact (List.prefix_append _ _).trans hd.part₂

/-- After the end there are no descriptors. -/
theorem Finished.closed (h : s.Finished) : s.in1 = 0 ∧ s.out1 = 0 ∧ s.in2 = 0 ∧ s.out2 = 0 := by
  obtain ⟨hread, hencrypt, hwrite⟩ := h
  have hr : s.read.pc.in1 = 0 ∧ s.read.pc.out1 = 0 := by
    revert hread
    cases s.read.pc <;> simp [KryptReadPc.over, KryptReadPc.in1, KryptReadPc.out1]
  have he : s.encrypt.pc.in1 = 0 ∧ s.encrypt.pc.out1 = 0 ∧ s.encrypt.pc.in2 = 0 ∧
      s.encrypt.pc.out2 = 0 := by
    revert hencrypt
    cases s.encrypt.pc <;> simp [KryptEncryptPc.over, KryptEncryptPc.in1, KryptEncryptPc.out1,
      KryptEncryptPc.in2, KryptEncryptPc.out2]
  have hw : s.write.pc.in1 = 0 ∧ s.write.pc.in2 = 0 ∧ s.write.pc.out2 = 0 := by
    revert hwrite
    cases s.write.pc <;> simp [KryptWritePc.over, KryptWritePc.in1, KryptWritePc.in2,
      KryptWritePc.out2]
  simp only [in1, out1, in2, out2, hr, he, hw]
  decide

theorem Plumbing.gone {q₁ q₂ : List Byte} {short₁ short₂ : Bool}
    (h : s.Plumbing held q₁ q₂ short₁ short₂) (hfin : s.Finished) :
    (∀ x < maxEndpoints, (s.pipes.endpoints x).klass = .none) ∧ s.pipes.held = held := by
  obtain ⟨hin1, hout1, hin2, hout2⟩ := hfin.closed
  have h₁ := h.line₁.gone (h.refs₁.1.trans hin1) (h.refs₁.2.trans hout1)
  have h₂ : s.encrypt.pc.opened = true → _ := fun ho =>
    (h.line₂ ho).gone ((h.refs₂ ho).1.trans hin2) ((h.refs₂ ho).2.trans hout2)
  refine ⟨fun x hx => ?_, funext fun g => ?_⟩
  · by_cases h2 : x < 2
    · obtain rfl | rfl : x = 0 ∨ x = 1 := by omega
      · exact h₁.1
      · exact h₁.2.1
    by_cases h4 : s.encrypt.pc.opened = true ∧ x < 4
    · obtain rfl | rfl : x = 2 ∨ x = 3 := by omega
      · exact (h₂ h4.1).1
      · exact (h₂ h4.1).2.1
    · exact h.free x hx (Nat.not_lt.1 h2) fun ho => Nat.not_lt.1 fun hlt => h4 ⟨ho, hlt⟩
  · by_cases hg : g = (s.pipes.endpoints 0).buffer
    · rw [hg, h₁.2.2, h.fresh₁]
    by_cases hg' : s.encrypt.pc.opened = true ∧ g = (s.pipes.endpoints 2).buffer
    · rw [hg'.2, (h₂ hg'.1).2.2, h.fresh₂ hg'.1]
    · exact h.kept g hg fun ho heq => hg' ⟨ho, heq⟩

/-- After the end no endpoint is open and no frame is in use that was not before. -/
theorem Inv.finished (h : s.Inv f held n) (hfin : s.Finished) :
    (∀ x < maxEndpoints, (s.pipes.endpoints x).klass = .none) ∧ s.pipes.held = held ∧
      (s.read.pc = .done 0 → s.encrypt.pc = .done 0 → s.write.pc = .done 0 →
        s.serial = xorFrom 0 f.bytes) := by
  cases h with
  | unopened hun _ _ _ _ =>
    refine ⟨hun.klass, hun.held, fun _ hpc _ => ?_⟩
    rw [hun.encrypt] at hpc
    cases hpc
  | running q₁ q₂ t short₁ short₂ hp hd =>
    obtain ⟨hklass, hheld⟩ := hp.gone hfin
    refine ⟨hklass, hheld, fun hread hencrypt hwrite => ?_⟩
    obtain ⟨-, ht⟩ := hd.encryptEnd (by rw [hencrypt]; rfl)
    obtain ⟨-, hserial⟩ := hd.writeEnd (by rw [hwrite]; rfl)
    rw [hserial, ht (by rw [hread]; rfl)]

/-! ## Nobody waits forever -/

/-- `krypt_read` goes on unless it is over or waits for room. -/
theorem Data.readGoesOn (hf : f.Fresh) {q₁ q₂ t' : List Byte} {short₁ short₂ : Bool}
    (hd : s.Data f q₁ q₂ t' short₁ short₂) (hs : s.kryptRead frame answer = none) :
    s.read.pc.over = true ∨
      ∃ c, s.read.pc.call = some c ∧ KryptRole.read.pid ∈ (s.pipes.endpoints c.self).queue := by
  cases hpc : s.read.pc with
  | pipe =>
    have hbegun := hd.begun
    rw [hpc] at hbegun
    cases hbegun
  | fork | closeIn | closeOut =>
    simp only [kryptRead, hpc] at hs
    cases hs
  | openFile | palloc =>
    simp only [kryptRead, hpc] at hs
    split at hs <;> cases hs
  | noPipe | done => exact .inl rfl
  | read =>
    have hpage : s.read.user.Page s.read.buffer := hd.readPage (by rw [hpc]; rfl)
    have hpos := hd.file.pos_le
    have hv : (FileOp.read s.read.buffer pageSize (s.read.user.clear s.read.buffer)).Valid
        s.file := ⟨by have := hf.fileSize; rw [show pageSize = 4096 from rfl]; omega, hpage⟩
    obtain ⟨g, r', hread, -, -⟩ := hd.file.read hf hv
    simp only [kryptRead, hpc, hread, Option.map_some] at hs
    cases hs
  | write c =>
    simp only [kryptRead, hpc] at hs
    exact .inr ⟨c, rfl, mem_of_call hs⟩

theorem encryptGoesOn (hs : s.kryptEncrypt frame answer = none) :
    s.encrypt.pc.over = true ∨ ∃ c, s.encrypt.pc.call = some c ∧
      KryptRole.encrypt.pid ∈ (s.pipes.endpoints c.self).queue := by
  cases hpc : s.encrypt.pc with
  | absent | noPipe | done => exact .inl rfl
  | read c | write c =>
    simp only [kryptEncrypt, hpc] at hs
    exact .inr ⟨c, rfl, mem_of_call hs⟩
  | pipe | palloc =>
    simp only [kryptEncrypt, hpc] at hs
    split at hs <;> cases hs
  | _ =>
    simp only [kryptEncrypt, hpc] at hs
    cases hs

theorem writeGoesOn (hs : s.kryptWrite answer = none) :
    s.write.pc.over = true ∨ ∃ c, s.write.pc.call = some c ∧
      KryptRole.write.pid ∈ (s.pipes.endpoints c.self).queue := by
  cases hpc : s.write.pc with
  | absent | done => exact .inl rfl
  | read c =>
    simp only [kryptWrite, hpc] at hs
    exact .inr ⟨c, rfl, mem_of_call hs⟩
  | openSerial | palloc | serial =>
    simp only [kryptWrite, hpc] at hs
    split at hs <;> cases hs
  | _ =>
    simp only [kryptWrite, hpc] at hs
    cases hs

/-- Neither process of a pipe waits for the other one, and the middle one for no one. -/
theorem Plumbing.noWait {q₁ q₂ : List Byte} {short₁ short₂ : Bool}
    (hp : s.Plumbing held q₁ q₂ short₁ short₂)
    (hread : s.read.pc.over = true ∨ ∃ c, s.read.pc.call = some c ∧
      KryptRole.read.pid ∈ (s.pipes.endpoints c.self).queue)
    (hencrypt : s.encrypt.pc.over = true ∨ ∃ c, s.encrypt.pc.call = some c ∧
      KryptRole.encrypt.pid ∈ (s.pipes.endpoints c.self).queue)
    (hwrite : s.write.pc.over = true ∨ ∃ c, s.write.pc.call = some c ∧
      KryptRole.write.pid ∈ (s.pipes.endpoints c.self).queue) : s.Finished := by
  have hr : (s.read.pc.over = true ∧ s.read.pc.out1 = 0) ∨
      (s.read.pc.in1 = 0 ∧ q₁.length = bufferSize ∧ s.in1 ≠ 0) := by
    obtain hover | ⟨c, hc, hq⟩ := hread
    · refine .inl ⟨hover, ?_⟩
      revert hover
      cases s.read.pc <;> simp [KryptReadPc.over, KryptReadPc.out1]
    · rw [(hp.line₁.writes c hc).self] at hq
      obtain ⟨hfull, hin⟩ := hp.line₁.writerWaits hq
      refine .inr ⟨?_, hfull, hp.refs₁.1 ▸ hin⟩
      revert hc
      cases s.read.pc <;> simp [KryptReadPc.call, KryptReadPc.in1]
  have he : (s.encrypt.pc.over = true ∧ s.encrypt.pc.in1 = 0 ∧ s.encrypt.pc.out2 = 0) ∨
      (s.encrypt.pc.out1 = 0 ∧ q₁ = [] ∧ s.out1 ≠ 0) ∨
      (s.encrypt.pc.in2 = 0 ∧ q₂.length = bufferSize ∧ s.in2 ≠ 0) := by
    obtain hover | ⟨c, hc, hq⟩ := hencrypt
    · refine .inl ⟨hover, ?_⟩
      revert hover
      cases s.encrypt.pc <;> simp [KryptEncryptPc.over, KryptEncryptPc.in1, KryptEncryptPc.out2]
    cases hpc : s.encrypt.pc with
    | read d =>
      rw [hpc] at hc
      obtain rfl := Option.some.inj hc
      rw [(hp.line₁.reads d (by rw [hpc]; rfl)).self] at hq
      obtain ⟨hempty, hout⟩ := hp.line₁.readerWaits hq
      exact .inr (.inl ⟨rfl, hempty, hp.refs₁.2 ▸ hout⟩)
    | write d =>
      have ho : s.encrypt.pc.opened = true := by rw [hpc]; rfl
      rw [hpc] at hc
      obtain rfl := Option.some.inj hc
      rw [((hp.line₂ ho).writes d (by rw [hpc]; rfl)).self] at hq
      obtain ⟨hfull, hin⟩ := (hp.line₂ ho).writerWaits hq
      exact .inr (.inr ⟨rfl, hfull, (hp.refs₂ ho).1 ▸ hin⟩)
    | _ =>
      rw [hpc] at hc
      cases hc
  have hw : (s.write.pc.over = true ∧ s.write.pc.in1 = 0 ∧ s.write.pc.in2 = 0) ∨
      (s.write.pc.in1 = 0 ∧ s.write.pc.out2 = 0 ∧ q₂ = [] ∧ s.out2 ≠ 0) := by
    obtain hover | ⟨c, hc, hq⟩ := hwrite
    · refine .inl ⟨hover, ?_⟩
      revert hover
      cases s.write.pc <;> simp [KryptWritePc.over, KryptWritePc.in1, KryptWritePc.in2]
    have hpc : s.write.pc.isAbsent = false ∧ s.write.pc.in1 = 0 ∧ s.write.pc.out2 = 0 := by
      revert hc
      cases s.write.pc <;>
        simp [KryptWritePc.call, KryptWritePc.isAbsent, KryptWritePc.in1, KryptWritePc.out2]
    have ho : s.encrypt.pc.opened = true := by
      have hborn := hp.born₂
      rw [hpc.1, eq_comm, Bool.or_eq_false_iff, Bool.not_eq_false'] at hborn
      exact hborn.1
    rw [((hp.line₂ ho).reads c hc).self] at hq
    obtain ⟨hempty, hout⟩ := (hp.line₂ ho).readerWaits hq
    exact .inr ⟨hpc.2.1, hpc.2.2, hempty, (hp.refs₂ ho).2 ▸ hout⟩
  have hpage : bufferSize ≠ 0 := by decide
  -- the child waits for neither neighbour, since that one would have to wait for it
  have he : s.encrypt.pc.over = true ∧ s.encrypt.pc.in1 = 0 ∧ s.encrypt.pc.out2 = 0 := by
    obtain he | ⟨ho, rfl, hout⟩ | ⟨hi, hfull, hin⟩ := he
    · exact he
    · obtain ⟨-, hr⟩ | ⟨-, hr, -⟩ := hr
      · exact absurd (by rw [out1, hr, ho]) hout
      · exact absurd hr.symm hpage
    · obtain ⟨-, -, hw⟩ | ⟨-, -, rfl, -⟩ := hw
      · exact absurd (by rw [in2, hi, hw]) hin
      · exact absurd hfull.symm hpage
  refine ⟨?_, he.1, ?_⟩
  · obtain hr | ⟨hi, -, hin⟩ := hr
    · exact hr.1
    · refine absurd ?_ hin
      rw [in1, hi, he.2.1]
      obtain ⟨-, hw, -⟩ | ⟨hw, -⟩ := hw <;> rw [hw]
  · obtain hw | ⟨-, ho, -, hout⟩ := hw
    · exact hw.1
    · exact absurd (by rw [out2, ho, he.2.2]) hout

theorem Finished.stuck (h : s.Finished) (t : KryptTurn) : s.turn t = none := by
  obtain ⟨hread, hencrypt, hwrite⟩ := h
  have hr : s.kryptRead t.frame t.answer = none := by
    cases hpc : s.read.pc with
    | noPipe | done => simp only [kryptRead, hpc]
    | _ => rw [hpc] at hread; cases hread
  have he : s.kryptEncrypt t.frame t.answer = none := by
    cases hpc : s.encrypt.pc with
    | absent | noPipe | done => simp only [kryptEncrypt, hpc]
    | _ => rw [hpc] at hencrypt; cases hencrypt
  have hw : s.kryptWrite t.answer = none := by
    cases hpc : s.write.pc with
    | absent | done => simp only [kryptWrite, hpc]
    | _ => rw [hpc] at hwrite; cases hwrite
  rw [Krypt.turn, hr, he, hw]
  split
  · rfl
  · cases t.role <;> rfl

/-- Where nobody can go on, everybody has come to the end. -/
theorem Inv.stuck (hf : f.Fresh) (h : s.Inv f held n) (hs : ∀ t, s.turn t = none) :
    s.Finished := by
  have hread : s.kryptRead none none = none := hs ⟨.read, none, none⟩
  have hencrypt : s.kryptEncrypt none none = none := hs ⟨.encrypt, none, none⟩
  have hwrite : s.kryptWrite none = none := hs ⟨.write, none, none⟩
  cases h with
  | unopened hun hpc _ _ _ =>
    refine ⟨?_, by rw [hun.encrypt]; rfl, by rw [hun.write]; rfl⟩
    obtain hpc | hpc := hpc
    · simp only [kryptRead, hpc, openPipe_none] at hread
      cases hread
    · rw [hpc]; rfl
  | running q₁ q₂ t short₁ short₂ hp hd =>
    exact hp.noWait (hd.readGoesOn hf hread) (encryptGoesOn hencrypt) (writeGoesOn hwrite)

end Krypt

section
variable {f : Ext2File} {s s' : Krypt} {ts : List KryptTurn}

/-- Every interleaving of krypt sends a beginning of the encrypted file, ends after a number of
steps that the size of the file bounds, and leaves no process waiting and nothing open; where no
call failed, it has sent the whole file. -/
theorem krypt_pipeline (hf : f.Fresh) (hb : f.SmallBlocks) (hboot : s.Boot f)
    (hrun : Run (kryptSystem f) Krypt.NoReuse s ts s') :
    s'.serial <+: xorFrom 0 f.bytes ∧ ts.length ≤ 42 * f.fileSize + 96 ∧
      ((∀ t, s'.turn t = none) → s'.Finished ∧
        (∀ x < maxEndpoints, (s'.pipes.endpoints x).klass = .none) ∧
        s'.pipes.held = s.pipes.held ∧
        (s'.read.pc = .done 0 → s'.encrypt.pc = .done 0 → s'.write.pc = .done 0 →
          s'.serial = xorFrom 0 f.bytes)) := by
  obtain ⟨n, hinv, hlen⟩ := (Krypt.Inv.boot hboot).run hf hb hrun
  have hawake : s.awake ≤ 3 := Krypt.awake_le
  refine ⟨hinv.serial, by omega, fun hstuck => ?_⟩
  have hfin := hinv.stuck hf hstuck
  exact ⟨hfin, hinv.finished hfin⟩

/-- A file of one byte. -/
def oneByte : Ext2File := { twoPages with fileSize := 1 }

theorem oneByte_fresh : oneByte.Fresh where
  devSize := by decide
  blockSize := by decide
  bufLen := rfl
  buffer := by decide
  fileSize := by decide
  blockList_null _ _ _ := rfl
  blockList_page h := absurd h (by decide)
  streamPos := rfl
  bufPos := rfl
  bufferEmpty := rfl

theorem oneByte_smallBlocks : oneByte.SmallBlocks := by
  intro b hb
  obtain rfl : b = 0 := by simp only [oneByte] at hb; omega
  decide

/-- `main` on a system without pipes, about to run. -/
def oneByteBoot : Krypt where
  pipes := ⟨fun _ => { initEndpoint with klass := .none }, fun _ _ => 0, fun _ => false⟩
  refcount _ := 0
  pipeRead2enc := (0, 0)
  pipeEnc2write := (0, 0)
  file := ⟨oneByte, zeroRam, oneByte.toStream⟩
  serial := []
  read := ⟨.pipe, userPages, 0⟩
  encrypt := ⟨.absent, userPages, 0, 0⟩
  write := ⟨.absent, userPages, 0⟩

/-- The child opens its pipe before the parent goes on. -/
def oneByteTurns : List KryptTurn :=
  let turn role frame : KryptTurn := ⟨role, frame, some 0x1000⟩
  [turn .read (some 1), turn .read none, turn .encrypt none, turn .encrypt (some 2),
    turn .encrypt none] ++
  List.replicate 8 (turn .read none) ++ List.replicate 12 (turn .encrypt none) ++
  List.replicate 12 (turn .write none)

theorem krypt_pipeline_oneByte : ∃ s' : Krypt, s'.Finished ∧ s'.serial = [0x53] ∧
    oneByteTurns.length ≤ 42 * oneByte.fileSize + 96 ∧ s'.pipes.held = oneByteBoot.pipes.held := by
  have hrun : (runList (fun s t => if Krypt.NoReuse s t then s.turn t else none) oneByteBoot
      oneByteTurns).map (fun s => (s.serial, s.read.pc.over, s.encrypt.pc.over, s.write.pc.over)) =
      some ([0x53], true, true, true) := by decide +kernel
  obtain ⟨s', hs', heq⟩ := Option.map_eq_some_iff.1 hrun
  simp only [Prod.mk.injEq] at heq
  have hfin : s'.Finished := ⟨heq.2.1, heq.2.2.1, heq.2.2.2⟩
  have hboot : oneByteBoot.Boot oneByte := ⟨fun _ _ => rfl, rfl, rfl, rfl, rfl, rfl, rfl⟩
  obtain ⟨-, hlen, hstuck⟩ := krypt_pipeline oneByte_fresh oneByte_smallBlocks hboot
    (Run.of_runList hs')
  exact ⟨s', hfin, heq.1, hlen, (hstuck hfin.stuck).2.2.1⟩

end

end SpuriOS
