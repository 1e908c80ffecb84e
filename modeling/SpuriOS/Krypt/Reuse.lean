import SpuriOS.Krypt.Runs

/-! # A slot of the first pipe used again

If `krypt_read` is done before its child opens the second pipe, the read end of that one comes into
the slot of the closed write end of the first one. The read end of the first pipe then takes it for
its partner, and a read never finds the end of the file. -/

namespace SpuriOS

open Transition

theorem KryptReadPc.done_of_out1 {pc : KryptReadPc} (hbegun : pc.begun = true) (h : pc.out1 = 0) :
    ∃ res, pc = .done res := by
  cases pc with
  | done res => exact ⟨res, rfl⟩
  | pipe | noPipe => cases hbegun
  | _ => cases h

namespace KryptEncryptPc

/-- After `pipe`, up to the loop and in it. -/
def busy : KryptEncryptPc → Bool
  | .fork | .closeIn2 | .palloc | .start | .read _ | .crypt _ | .write _ => true
  | _ => false

end KryptEncryptPc

namespace KryptWritePc

/-- Not born, or up to the loop and in it. -/
def busy : KryptWritePc → Bool
  | .closeIn2 _ | .done _ => false
  | _ => true

end KryptWritePc

theorem KryptWritePc.in2_of_busy {pc : KryptWritePc} (h : pc.busy = true)
    (h' : pc.isAbsent = false) : pc.in2 = 1 := by
  cases pc with
  | absent => cases h'
  | closeIn2 | done => cases h
  | _ => rfl

theorem KryptEncryptPc.ends_of_busy {pc : KryptEncryptPc} (h : pc.busy = true) :
    pc.in1 = 1 ∧ pc.out2 = 1 := by
  cases pc with
  | fork | closeIn2 | palloc | start | read | crypt | write => exact ⟨rfl, rfl⟩
  | _ => cases h

/-- A call that reads a page from the end `r`, if no reading was ever cut short. -/
structure PipeCall.Takes (c : PipeCall) (r : Nat) : Prop where
  writing : c.writing = false
  self : c.self = r
  size : c.size = bufferSize

theorem pipeRound_kept {P P' : Pipes} {c c' : PipeCall} {progress : Progress}
    (h : pipeRound P c = (P', c', progress)) :
    (∀ x, (P'.endpoints x).link = (P.endpoints x).link) ∧
      (∀ {r}, c.Takes r → c'.Takes r) := by
  have hcases := pipeRound_cases P c
  rw [h] at hcases
  cases hcases with
  | readMove => exact ⟨fun x => readMove_endpoints.1, fun hc => ⟨hc.writing, hc.self, hc.size⟩⟩
  | writeMove => exact ⟨fun x => writeMove_endpoints.1, fun hc => ⟨hc.writing, hc.self, hc.size⟩⟩
  | _ => exact ⟨fun _ => rfl, id⟩

/-- A read from a pipe that can still be written to does not return 0. -/
theorem PipeCall.Takes.done {P P' : Pipes} {c c' : PipeCall} {r : Nat} {sz : Int}
    (hc : c.Takes r) (hpair : (P.pair r).klass ≠ .none)
    (h : pipeRound P c = (P', c', .done sz)) : sz ≠ 0 := by
  have hcases := pipeRound_cases P c
  rw [h] at hcases
  cases hcases with
  | full hfull =>
    have := hc.size
    rw [bufferSize_eq] at this
    omega
  | readEnd _ _ hnone => exact absurd hnone (by rw [hc.self]; exact hpair)
  | writeEnd hw => exact absurd (hw.symm.trans hc.writing) (Bool.false_ne_true ∘ Eq.symm)

namespace Krypt

variable {f : Ext2File} {held : Nat → Bool} {s s' : Krypt} {t : KryptTurn} {n m : Nat}
  {frame answer : Option Nat}

/-- What a call can do. -/
theorem call_cases {p : Pid} {c : PipeCall} {goOn : PipeCall → Krypt → Krypt}
    {return' : Int → Krypt → Krypt} (h : s.call p c goOn return' = some s') :
    (∃ P c', pipeRound s.pipes c = (P, c', .again) ∧ s' = goOn c' { s with pipes := P }) ∨
      s' = { s with pipes := s.pipes.enqueue c.self p } ∨
      ∃ P c' sz, pipeRound s.pipes c = (P, c', .done sz) ∧ s' = return' sz s := by
  rw [call] at h
  split at h
  · cases h
  rcases hround : pipeRound s.pipes c with ⟨P, c', _ | _ | sz⟩ <;> rw [hround] at h <;>
    obtain rfl := Option.some.inj h
  · exact .inl ⟨P, c', rfl, rfl⟩
  · exact .inr (.inl rfl)
  · exact .inr (.inr ⟨P, c', sz, rfl, rfl⟩)

theorem openPipe_same {fds : Nat × Nat} {s₁ : Krypt} (h : s.openPipe frame = some (fds, s₁)) :
    s₁.read = s.read ∧ s₁.encrypt = s.encrypt ∧ s₁.write = s.write := by
  unfold openPipe at h
  split at h
  · simp only [Option.some.injEq, Prod.mk.injEq] at h
    obtain ⟨-, rfl⟩ := h
    exact ⟨rfl, rfl, rfl⟩
  · cases h

/-- What the invariant and a measure of what is left say together. -/
def Left (f : Ext2File) (held : Nat → Bool) (s : Krypt) (m : Nat) : Prop :=
  ∃ n, s.Inv f held n ∧ m = 3 * n + s.awake

theorem Left.turn (hf : f.Fresh) (hb : f.SmallBlocks) (h : s.Left f held m)
    (hok : s.NoReuse t) (hs : s.turn t = some s') : ∃ m', s'.Left f held m' ∧ m' < m := by
  obtain ⟨n, hinv, rfl⟩ := h
  obtain ⟨n', hinv', hfalls⟩ := hinv.turn hf hb hok hs
  have hpos : 0 < s.awake := awake_pos (waits_of_turn hs)
  have hmax : s'.awake ≤ 3 := awake_le
  exact ⟨_, ⟨n', hinv', rfl⟩, by omega⟩

/-! ## `krypt_read` alone -/

theorem kryptRead_encrypt (hpc : s.read.pc ≠ .pipe) (hpc' : s.read.pc ≠ .fork)
    (hs : s.kryptRead frame answer = some s') : s'.encrypt = s.encrypt := by
  cases hr : s.read.pc with
  | pipe => exact absurd hr hpc
  | fork => exact absurd hr hpc'
  | noPipe | done =>
    simp only [kryptRead, hr] at hs
    cases hs
  | closeIn | closeOut =>
    simp only [kryptRead, hr, Option.some.injEq] at hs
    subst hs
    rfl
  | openFile | palloc =>
    simp only [kryptRead, hr] at hs
    split at hs <;> obtain rfl := Option.some.inj hs <;> rfl
  | read =>
    simp only [kryptRead, hr, Option.map_eq_some_iff] at hs
    obtain ⟨⟨sz, file, ram, user⟩, -, rfl⟩ := hs
    dsimp only
    split <;> rfl
  | write c =>
    simp only [kryptRead, hr] at hs
    obtain ⟨P, c', -, rfl⟩ | rfl | ⟨P, c', sz, -, rfl⟩ := call_cases hs <;> rfl

/-- A file that fits into the pipe is read without a wait. -/
theorem Left.readAlone (hf : f.Fresh) (hb : f.SmallBlocks) (hsmall : f.fileSize ≤ pageSize)
    (h : s.Left f held m) (hpc : s.encrypt.pc = .pipe) :
    ∃ ts s' m', Run (kryptSystem f) NoFailure s ts s' ∧
      (s'.Left f held m' ∧ s'.encrypt.pc = .pipe) ∧ s'.read.pc.over = true := by
  refine Run.reaches (fun {s m} hI hover => ?_) ⟨h, hpc⟩
  clear h hpc
  obtain ⟨hleft, hpc⟩ := hI
  obtain ⟨n, hinv, -⟩ := id hleft
  cases hinv with
  | unopened hun _ _ _ _ =>
    rw [hun.encrypt] at hpc
    cases hpc
  | running q₁ q₂ t' short₁ short₂ hp hd =>
    have hbegun := hd.begun
    have hpipe : s.read.pc ≠ .pipe := fun hr => by
      rw [hr] at hbegun
      cases hbegun
    have hfork : s.read.pc ≠ .fork := fun hr => by
      have hborn := hp.born₁
      rw [hr, hpc] at hborn
      cases hborn
    cases hs : s.kryptRead none (some 0) with
    | some s' =>
      have hturn : s.turn ⟨.read, none, some 0⟩ = some s' := hs
      obtain ⟨m', hleft', hlt⟩ := hleft.turn hf hb (fun hrole => KryptRole.noConfusion hrole) hturn
      refine ⟨_, s', m', ⟨rfl, fun _ hr => absurd hr hpipe, fun hrole => ?_⟩, hturn,
        ⟨hleft', ?_⟩, hlt⟩
      · exact KryptRole.noConfusion hrole
      · rw [kryptRead_encrypt hpipe hfork hs, hpc]
    | none =>
      obtain hr | ⟨c, hc, hq⟩ := hd.readGoesOn hf hs
      · exact absurd hr hover
      have hcall := hp.line₁.writes c hc
      rw [hcall.self] at hq
      obtain ⟨hfull, hsz⟩ : q₁.length = bufferSize ∧ c.sz = 0 := by
        obtain hnil | ⟨-, hfull, -, d, hd', hsz⟩ := hp.line₁.queueWrite
        · rw [hnil] at hq
          cases hq
        · obtain rfl := Option.some.inj (hc.symm.trans hd')
          exact ⟨hfull, hsz⟩
      have hin : s.in1 ≠ 0 := by
        rw [in1, hpc]
        simp only [KryptEncryptPc.in1]
        omega
      have hlen := congrArg List.length (hd.sent₁ hin)
      rw [hd.early (by rw [hpc]; rfl), List.nil_append, List.length_append, List.length_take,
        f.length_bytes, hfull] at hlen
      have hhand : s.read.pc.hand.length = c.size := by
        cases hr : s.read.pc with
        | write d =>
          rw [hr] at hc
          obtain rfl := Option.some.inj hc
          rw [KryptReadPc.hand, if_pos hsz]
          exact Circular.length_slice
        | _ => rw [hr] at hc; cases hc
      have hpos := hcall.pos
      rw [show pageSize = bufferSize from rfl] at hsmall
      omega

/-- `main` comes to the second `pipe`, whatever the file. -/
theorem Boot.toPipe (hf : f.Fresh) (hb : f.SmallBlocks) (h : s.Boot f) {g : Nat}
    (hg : s.pipes.held g = false) :
    ∃ ts s' m', Run (kryptSystem f) NoFailure s ts s' ∧ s'.Left f s.pipes.held m' ∧
      s'.encrypt.pc = .pipe := by
  obtain ⟨s₁, hturn₁, hpc₁⟩ : ∃ s₁, s.turn ⟨.read, some g, some 0⟩ = some s₁ ∧
      s₁.read.pc = .fork := by
    obtain ⟨s₁, hopen, -⟩ := Unopened.opened₁ ⟨h.klass, rfl, h.encrypt, h.write⟩ hg
      (r := ⟨.fork, s.read.user, s.read.buffer⟩) rfl
    refine ⟨{ s₁ with pipeRead2enc := (0, 1), read := ⟨.fork, s.read.user, s.read.buffer⟩ }, ?_, rfl⟩
    simp only [Krypt.turn, Option.any_some, hg, Bool.false_eq_true, if_false, kryptRead, h.read,
      hopen]
  obtain ⟨s₂, hturn₂, hpc₂⟩ : ∃ s₂, s₁.turn ⟨.read, none, some 0⟩ = some s₂ ∧
      s₂.encrypt.pc = .closeOut1 := by
    simp only [Krypt.turn, Option.any_none, Bool.false_eq_true, if_false, kryptRead, hpc₁]
    exact ⟨_, rfl, rfl⟩
  obtain ⟨s₃, hturn₃, hpc₃⟩ : ∃ s₃, s₂.turn ⟨.encrypt, none, some 0⟩ = some s₃ ∧
      s₃.encrypt.pc = .pipe := by
    simp only [Krypt.turn, Option.any_none, Bool.false_eq_true, if_false, kryptEncrypt, hpc₂]
    exact ⟨_, rfl, rfl⟩
  obtain ⟨m₁, hleft₁, -⟩ := Left.turn hf hb ⟨_, Inv.boot h, rfl⟩
    (fun hrole => KryptRole.noConfusion hrole) hturn₁
  obtain ⟨m₂, hleft₂, -⟩ := hleft₁.turn hf hb (fun hrole => KryptRole.noConfusion hrole) hturn₂
  obtain ⟨m₃, hleft₃, -⟩ := hleft₂.turn hf hb
    (fun _ hpc => KryptEncryptPc.noConfusion (hpc₂.symm.trans hpc)) hturn₃
  refine ⟨_, s₃, m₃, ((Run.single ?_ hturn₁).snoc ?_ hturn₂).snoc ?_ hturn₃, hleft₃, hpc₃⟩
  · exact ⟨rfl, fun _ _ => rfl, fun hrole => KryptRole.noConfusion hrole⟩
  · exact ⟨rfl, fun _ hpc => KryptReadPc.noConfusion (hpc₁.symm.trans hpc),
      fun hrole => KryptRole.noConfusion hrole⟩
  · exact ⟨rfl, fun hrole => KryptRole.noConfusion hrole,
      fun _ hpc => KryptEncryptPc.noConfusion (hpc₂.symm.trans hpc)⟩

/-! ## The second pipe in the slots 1 and 2 -/

/-- The write end of the first pipe is the read end of the second one. -/
structure Reused (s : Krypt) : Prop where
  fds₁ : s.pipeRead2enc = (0, 1)
  fds₂ : s.pipeEnc2write = (1, 2)
  partner : s.pipes.partner 0 = 1 ∧ s.pipes.partner 1 = 2
  klass : ∀ x < 3, (s.pipes.endpoints x).klass ≠ .none
  refs : s.refcount 0 = s.encrypt.pc.in1 + s.write.pc.in1 ∧ s.refcount 1 = s.in2 ∧
    s.refcount 2 = s.out2
  read : s.read.pc.over = true
  encrypt : s.encrypt.pc.busy = true
  write : s.write.pc.busy = true
  born : s.write.pc.isAbsent = s.encrypt.pc.isFork
  encryptIn : ∀ c, s.encrypt.pc.inCall = some c → c.Takes 0
  writeIn : ∀ c, s.write.pc.call = some c → c.Takes 1

theorem Plumbing.reused {q₁ q₂ : List Byte} {short₁ short₂ : Bool} {g : Nat}
    (hp : s.Plumbing held q₁ q₂ short₁ short₂) (hbegun : s.read.pc.begun = true)
    (hover : s.read.pc.over = true) (hpc : s.encrypt.pc = .pipe) (hg : s.pipes.held g = false) :
    ∃ s', s.turn ⟨.encrypt, some g, some 0⟩ = some s' ∧ s'.Reused := by
  obtain ⟨res, hread⟩ : ∃ res, s.read.pc = .done res := by
    cases hr : s.read.pc with
    | done res => exact ⟨res, rfl⟩
    | noPipe => rw [hr] at hbegun; cases hbegun
    | _ => rw [hr] at hover; cases hover
  have hwrite : s.write.pc = .absent :=
    KryptWritePc.isAbsent_iff.1 (hp.born₂.trans (by rw [hpc]; rfl))
  obtain ⟨href₀, href₁⟩ := hp.refs₁
  simp only [in1, out1, hread, hpc, hwrite] at href₀ href₁
  have hused : (s.pipes.endpoints 0).klass ≠ .none := fun hnone => by
    have := hp.line₁.openRead.1 hnone
    rw [href₀] at this
    cases this
  obtain ⟨rest, hslots⟩ := freeSlots_from (P := s.pipes) (k := 1) (by decide)
    (fun x hx => by
      obtain rfl : x = 0 := by omega
      exact hused) fun x hx h1 => by
      obtain rfl | h2 := Nat.eq_or_lt_of_le h1
      · exact hp.line₁.openWrite.2 href₁
      · exact hp.free x hx h2 fun ho => absurd ho (by rw [hpc]; exact Bool.false_ne_true)
  have hP := pipeOpen_opened (f := g) hslots
  refine ⟨{ s with
    pipes := (pipeOpen (some g) s.pipes).2
    refcount := Function.update (Function.update s.refcount 1 1) 2 1
    pipeEnc2write := (1, 2)
    encrypt := { s.encrypt with pc := .fork } }, ?_, ?_⟩
  · simp only [Krypt.turn, Option.any_some, hg, Bool.false_eq_true, if_false, kryptEncrypt, hpc,
      openPipe, hslots]
  generalize (pipeOpen (some g) s.pipes).2 = P at hP
  have h0 : P.endpoints 0 = s.pipes.endpoints 0 := hP.endpoints 0 (by decide) (by decide)
  have hrefs : Function.update (Function.update s.refcount 1 1) 2 1 1 = 1 ∧
      Function.update (Function.update s.refcount 1 1) 2 1 2 = 1 ∧
      Function.update (Function.update s.refcount 1 1) 2 1 0 = 1 :=
    ⟨(Function.update_of_ne (by decide) ..).trans (Function.update_self ..),
      Function.update_self ..,
      (Function.update_of_ne (by decide) ..).trans
        ((Function.update_of_ne (by decide) ..).trans href₀)⟩
  exact {
    fds₁ := hp.fds₁
    fds₂ := rfl
    partner := ⟨by rw [Pipes.partner, h0]; exact hp.line₁.pairRead, by
      rw [Pipes.partner, hP.readEnd]⟩
    klass := fun x hx => by
      obtain rfl | rfl | rfl : x = 0 ∨ x = 1 ∨ x = 2 := by omega
      · dsimp only
        rw [h0]
        exact hused
      · dsimp only
        rw [hP.readEnd]
        exact show ¬Klass.pipe = Klass.none by decide
      · dsimp only
        rw [hP.writeEnd]
        exact show ¬Klass.pipe = Klass.none by decide
    refs := by
      simp only [in2, out2, hwrite]
      exact ⟨hrefs.2.2, hrefs.1, hrefs.2.1⟩
    read := hover
    encrypt := rfl
    write := by dsimp only; rw [hwrite]; rfl
    born := by dsimp only; rw [hwrite]; rfl
    encryptIn := fun c hc => absurd hc.symm (Option.some_ne_none c)
    writeIn := fun c hc => by
      dsimp only at hc
      rw [hwrite] at hc
      cases hc }

/-- A close of a descriptor that is not the last one. -/
theorem close_pipes {x : Nat} (h : 1 < s.refcount x) : (s.close x).pipes = s.pipes := by
  rw [close, Pipes.closeEnd, if_neg (Nat.ne_of_gt h)]

/-- A step that leaves the table of endpoints as it is. -/
theorem Reused.keep (h : s.Reused) {P : Pipes} {refs : Nat → Nat} {e : KryptEncrypt}
    {w : KryptWrite} {serial : List Byte}
    (hlink : ∀ x, (P.endpoints x).link = (s.pipes.endpoints x).link)
    (hrefs : refs 0 = e.pc.in1 + w.pc.in1 ∧ refs 1 = e.pc.in2 + w.pc.in2 ∧
      refs 2 = e.pc.out2 + w.pc.out2)
    (he : e.pc.busy = true) (hw : w.pc.busy = true) (hborn : w.pc.isAbsent = e.pc.isFork)
    (hin : ∀ c, e.pc.inCall = some c → c.Takes 0) (hin' : ∀ c, w.pc.call = some c → c.Takes 1) :
    Reused { s with pipes := P, refcount := refs, serial, encrypt := e, write := w } where
  fds₁ := h.fds₁
  fds₂ := h.fds₂
  partner := by
    simp only [Pipes.partner, (PipeDevice.link_inj (hlink _)).2.2.2.1]
    exact h.partner
  klass x hx := by
    rw [show (P.endpoints x).klass = _ from (PipeDevice.link_inj (hlink x)).1]
    exact h.klass x hx
  refs := hrefs
  read := h.read
  encrypt := he
  write := hw
  born := hborn
  encryptIn := hin
  writeIn := hin'

/-- The process that encrypts does not come to its end. -/
theorem Reused.kryptEncrypt (h : s.Reused) (hanswer : answer.isSome = true)
    (hs : s.kryptEncrypt frame answer = some s') : s'.Reused := by
  obtain ⟨pipes, refs, fds₁, fds₂, file, serial, r, ⟨pc, user, buffer, bytes⟩, w⟩ := s
  obtain rfl : fds₁ = (0, 1) := h.fds₁
  obtain rfl : fds₂ = (1, 2) := h.fds₂
  obtain ⟨a, rfl⟩ := Option.isSome_iff_exists.1 hanswer
  have hrefs := h.refs
  have hborn : w.pc.isAbsent = pc.isFork := h.born
  have hbusy : pc.busy = true := h.encrypt
  simp only [in2, out2] at hrefs
  have hnone : ∀ c : PipeCall, none = some c → c.Takes 0 := fun c hc =>
    absurd hc.symm (Option.some_ne_none c)
  cases pc with
  | fork =>
    have hw : w.pc = .absent := KryptWritePc.isAbsent_iff.1 hborn
    rw [hw] at hrefs
    cases hs
    refine h.keep (e := ⟨.closeIn2, user, buffer, bytes⟩) (w := ⟨.closeIn1, user, w.buffer⟩)
      (fun _ => rfl) ?_ rfl rfl rfl hnone fun c hc => absurd hc.symm (Option.some_ne_none c)
    simp [dup, hrefs, KryptEncryptPc.in1, KryptEncryptPc.in2, KryptEncryptPc.out2,
      KryptWritePc.in1, KryptWritePc.in2, KryptWritePc.out2]
  | closeIn2 =>
    have hin2 : w.pc.in2 = 1 := KryptWritePc.in2_of_busy h.write hborn
    rw [hin2] at hrefs
    have hlt : 1 < refs 1 := by rw [hrefs.2.1]; decide
    cases hs
    refine h.keep (e := ⟨.palloc, user, buffer, bytes⟩) (fun x => ?_) ?_ rfl h.write hborn hnone
      h.writeIn
    · rw [close_pipes (by exact hlt)]
    · simp only [close]
      rw [dropRef_self, dropRef_of_ne (by decide), dropRef_of_ne (by decide), hrefs.1, hrefs.2.1,
        hrefs.2.2, hin2]
      exact ⟨rfl, rfl, rfl⟩
  | palloc =>
    cases hs
    exact h.keep (fun _ => rfl) hrefs rfl h.write hborn hnone h.writeIn
  | start =>
    cases hs
    exact h.keep (fun _ => rfl) hrefs rfl h.write hborn (fun c hc => by
      obtain rfl := Option.some.inj hc
      exact ⟨rfl, rfl, rfl⟩) h.writeIn
  | crypt sz =>
    cases hs
    exact h.keep (fun _ => rfl) hrefs rfl h.write hborn hnone h.writeIn
  | read c =>
    have hc := h.encryptIn c rfl
    dsimp only [Krypt.kryptEncrypt] at hs
    obtain ⟨P, c', hround, rfl⟩ | rfl | ⟨P, c', sz, hround, rfl⟩ := call_cases hs
    · obtain ⟨hlink, htakes⟩ := pipeRound_kept hround
      refine h.keep hlink hrefs rfl h.write hborn (fun d hd => ?_) h.writeIn
      obtain rfl := Option.some.inj hd
      exact htakes hc
    · exact h.keep (fun x => Pipes.modify_link _ fun _ => rfl) hrefs rfl h.write hborn
        h.encryptIn h.writeIn
    · have hpair : (pipes.pair 0).klass ≠ .none := by
        rw [Pipes.pair, show pipes.partner 0 = 1 from h.partner.1]
        exact h.klass 1 (by decide)
      rw [if_neg (hc.done hpair hround)]
      exact h.keep (fun _ => rfl) hrefs rfl h.write hborn hnone h.writeIn
  | write c =>
    dsimp only [Krypt.kryptEncrypt] at hs
    obtain ⟨P, c', hround, rfl⟩ | rfl | ⟨P, c', sz, -, rfl⟩ := call_cases hs
    · exact h.keep (pipeRound_kept hround).1 hrefs rfl h.write hborn hnone h.writeIn
    · exact h.keep (fun x => Pipes.modify_link _ fun _ => rfl) hrefs rfl h.write hborn hnone
        h.writeIn
    · exact h.keep (fun _ => rfl) hrefs rfl h.write hborn hnone h.writeIn
  | _ => cases hbusy

/-- Neither does the process that writes. -/
theorem Reused.kryptWrite (h : s.Reused) (hanswer : answer.isSome = true)
    (hs : s.kryptWrite answer = some s') : s'.Reused := by
  obtain ⟨pipes, refs, fds₁, fds₂, file, serial, r, e, ⟨pc, user, buffer⟩⟩ := s
  obtain rfl : fds₁ = (0, 1) := h.fds₁
  obtain rfl : fds₂ = (1, 2) := h.fds₂
  obtain ⟨a, rfl⟩ := Option.isSome_iff_exists.1 hanswer
  have hrefs := h.refs
  have hborn : pc.isAbsent = e.pc.isFork := h.born
  have hbusy : pc.busy = true := h.write
  simp only [in2, out2] at hrefs
  have hnone : ∀ c : PipeCall, none = some c → c.Takes 1 := fun c hc =>
    absurd hc.symm (Option.some_ne_none c)
  have hend : e.pc.in1 = 1 ∧ e.pc.out2 = 1 := KryptEncryptPc.ends_of_busy h.encrypt
  cases pc with
  | absent => cases hs
  | closeIn1 =>
    have hlt : 1 < refs 0 := by rw [hrefs.1, hend.1]; decide
    cases hs
    refine h.keep (w := ⟨.closeOut2, user, buffer⟩) (fun x => ?_) ?_ h.encrypt rfl hborn
      h.encryptIn hnone
    · rw [close_pipes (by exact hlt)]
    · simp only [close]
      rw [dropRef_self, dropRef_of_ne (by decide), dropRef_of_ne (by decide), hrefs.1, hrefs.2.1,
        hrefs.2.2]
      exact ⟨rfl, rfl, rfl⟩
  | closeOut2 =>
    have hlt : 1 < refs 2 := by rw [hrefs.2.2, hend.2]; decide
    cases hs
    refine h.keep (w := ⟨.openSerial, user, buffer⟩) (fun x => ?_) ?_ h.encrypt rfl hborn
      h.encryptIn hnone
    · rw [close_pipes (by exact hlt)]
    · simp only [close]
      rw [dropRef_self, dropRef_of_ne (by decide), dropRef_of_ne (by decide), hrefs.1, hrefs.2.1,
        hrefs.2.2]
      exact ⟨rfl, rfl, rfl⟩
  | openSerial | palloc =>
    cases hs
    exact h.keep (fun _ => rfl) hrefs h.encrypt rfl hborn h.encryptIn hnone
  | start =>
    cases hs
    exact h.keep (fun _ => rfl) hrefs h.encrypt rfl hborn h.encryptIn fun c hc => by
      obtain rfl := Option.some.inj hc
      exact ⟨rfl, rfl, rfl⟩
  | read c =>
    have hc := h.writeIn c rfl
    dsimp only [Krypt.kryptWrite] at hs
    obtain ⟨P, c', hround, rfl⟩ | rfl | ⟨P, c', sz, hround, rfl⟩ := call_cases hs
    · obtain ⟨hlink, htakes⟩ := pipeRound_kept hround
      refine h.keep hlink hrefs h.encrypt rfl hborn h.encryptIn fun d hd => ?_
      obtain rfl := Option.some.inj hd
      exact htakes hc
    · exact h.keep (fun x => Pipes.modify_link _ fun _ => rfl) hrefs h.encrypt rfl hborn
        h.encryptIn h.writeIn
    · have hpair : (pipes.pair 1).klass ≠ .none := by
        rw [Pipes.pair, show pipes.partner 1 = 2 from h.partner.2]
        exact h.klass 2 (by decide)
      rw [if_neg (hc.done hpair hround)]
      exact h.keep (fun _ => rfl) hrefs h.encrypt rfl hborn h.encryptIn hnone
  | serial i sz =>
    dsimp only [Krypt.kryptWrite] at hs
    split at hs <;> cases hs <;>
      exact h.keep (fun _ => rfl) hrefs h.encrypt rfl hborn h.encryptIn hnone
  | _ => cases hbusy

/-- Once the slot is used again, krypt does not come to its end. -/
theorem Reused.run {ts : List KryptTurn} (h : s.Reused)
    (hrun : Run (kryptSystem f) NoFailure s ts s') : ¬s'.Finished := by
  have hinv : s'.Reused := by
    induction hrun with
    | nil => exact h
    | @snoc ts s₁ t s' _ hok hs ih =>
      have hs : s₁.turn t = some s' := hs
      rw [Krypt.turn] at hs
      split at hs
      · cases hs
      cases hrole : t.role with
      | read =>
        rw [hrole] at hs
        have hover := ih.read
        cases hr : s₁.read.pc with
        | noPipe | done =>
          simp only [kryptRead, hr] at hs
          cases hs
        | _ => rw [hr] at hover; cases hover
      | encrypt =>
        rw [hrole] at hs
        exact ih.kryptEncrypt hok.answer hs
      | write =>
        rw [hrole] at hs
        exact ih.kryptWrite hok.answer hs
  intro hfin
  have hopen := (KryptEncryptPc.ends_of_busy hinv.encrypt).1
  have hclosed := hfin.closed.1
  rw [in1, hopen] at hclosed
  omega

end Krypt

end SpuriOS
