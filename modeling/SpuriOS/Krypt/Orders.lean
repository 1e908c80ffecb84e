import SpuriOS.Krypt.Reuse

/-! # When krypt works in every order

If `krypt_read` is done before its child opens the second pipe, the read end of that one comes into
the slot of the closed write end of the first one. Then the child never reads the end of the file.
A file that does not fit into the pipe keeps `krypt_read` from being done so early. -/

namespace SpuriOS

open Transition

namespace KryptReadPc

/-- A call failed. -/
def failed : KryptReadPc → Bool
  | .noPipe => true
  | .closeOut res | .done res => res ≠ 0
  | _ => false

end KryptReadPc

namespace KryptEncryptPc

def failed : KryptEncryptPc → Bool
  | .exit | .noPipe => true
  | .closeOut2 res | .closeIn1 res | .done res => res ≠ 0
  | _ => false

end KryptEncryptPc

namespace KryptWritePc

def failed : KryptWritePc → Bool
  | .closeIn2 res | .done res => res ≠ 0
  | _ => false

end KryptWritePc

namespace Krypt

/-- No call failed so far. -/
structure Fine (s : Krypt) : Prop where
  read : s.read.pc.failed = false
  encrypt : s.encrypt.pc.failed = false
  write : s.write.pc.failed = false

variable {f : Ext2File} {held : Nat → Bool} {s s' : Krypt} {t : KryptTurn} {n : Nat}
  {frame answer : Option Nat}

/-! ## A file of more than a page -/

/-- A file and a page are never refused. -/
theorem Fine.kryptRead (h : s.Fine) (hanswer : answer.isSome = true)
    (hpipe : s.read.pc = .pipe → (s.openPipe frame).isSome = true)
    (hs : s.kryptRead frame answer = some s') : s'.Fine := by
  obtain ⟨a, rfl⟩ := Option.isSome_iff_exists.1 hanswer
  obtain ⟨hr, he, hw⟩ := h
  cases hpc : s.read.pc with
  | pipe =>
    obtain ⟨⟨fds, s₁⟩, hopen⟩ := Option.isSome_iff_exists.1 (hpipe hpc)
    obtain ⟨hread, hencrypt, hwrite⟩ := openPipe_same hopen
    simp only [Krypt.kryptRead, hpc, hopen, Option.some.injEq] at hs
    subst hs
    exact ⟨rfl, by rw [hencrypt]; exact he, by rw [hwrite]; exact hw⟩
  | noPipe | done =>
    simp only [Krypt.kryptRead, hpc] at hs
    cases hs
  | fork =>
    simp only [Krypt.kryptRead, hpc, Option.some.injEq] at hs
    subst hs
    exact ⟨rfl, rfl, hw⟩
  | closeIn | openFile | palloc =>
    simp only [Krypt.kryptRead, hpc, Option.some.injEq] at hs
    subst hs
    exact ⟨rfl, he, hw⟩
  | closeOut res =>
    rw [hpc] at hr
    simp only [Krypt.kryptRead, hpc, Option.some.injEq] at hs
    subst hs
    exact ⟨hr, he, hw⟩
  | read =>
    simp only [Krypt.kryptRead, hpc, Option.map_eq_some_iff] at hs
    obtain ⟨⟨sz, file, ram, user⟩, -, rfl⟩ := hs
    dsimp only
    split <;> exact ⟨rfl, he, hw⟩
  | write c =>
    simp only [Krypt.kryptRead, hpc] at hs
    obtain ⟨P, c', -, rfl⟩ | rfl | ⟨P, c', sz, -, rfl⟩ := call_cases hs
    · exact ⟨rfl, he, hw⟩
    · exact ⟨hr, he, hw⟩
    · exact ⟨rfl, he, hw⟩

theorem Fine.kryptEncrypt (h : s.Fine) (hanswer : answer.isSome = true)
    (hpipe : s.encrypt.pc = .pipe → (s.openPipe frame).isSome = true)
    (hs : s.kryptEncrypt frame answer = some s') : s'.Fine := by
  obtain ⟨a, rfl⟩ := Option.isSome_iff_exists.1 hanswer
  obtain ⟨hr, he, hw⟩ := h
  cases hpc : s.encrypt.pc with
  | pipe =>
    obtain ⟨⟨fds, s₁⟩, hopen⟩ := Option.isSome_iff_exists.1 (hpipe hpc)
    obtain ⟨hread, hencrypt, hwrite⟩ := openPipe_same hopen
    simp only [Krypt.kryptEncrypt, hpc, hopen, Option.some.injEq] at hs
    subst hs
    exact ⟨by rw [hread]; exact hr, rfl, by rw [hwrite]; exact hw⟩
  | absent | noPipe | done =>
    simp only [Krypt.kryptEncrypt, hpc] at hs
    cases hs
  | exit =>
    rw [hpc] at he
    cases he
  | fork =>
    simp only [Krypt.kryptEncrypt, hpc, Option.some.injEq] at hs
    subst hs
    exact ⟨hr, rfl, rfl⟩
  | closeOut1 | closeIn2 | palloc | start | crypt =>
    simp only [Krypt.kryptEncrypt, hpc, Option.some.injEq] at hs
    subst hs
    exact ⟨hr, rfl, hw⟩
  | closeOut2 | closeIn1 =>
    rw [hpc] at he
    simp only [Krypt.kryptEncrypt, hpc, Option.some.injEq] at hs
    subst hs
    exact ⟨hr, he, hw⟩
  | read c =>
    simp only [Krypt.kryptEncrypt, hpc] at hs
    obtain ⟨P, c', -, rfl⟩ | rfl | ⟨P, c', sz, -, rfl⟩ := call_cases hs
    · exact ⟨hr, rfl, hw⟩
    · exact ⟨hr, he, hw⟩
    · split <;> exact ⟨hr, rfl, hw⟩
  | write c =>
    simp only [Krypt.kryptEncrypt, hpc] at hs
    obtain ⟨P, c', -, rfl⟩ | rfl | ⟨P, c', sz, -, rfl⟩ := call_cases hs
    · exact ⟨hr, rfl, hw⟩
    · exact ⟨hr, he, hw⟩
    · exact ⟨hr, rfl, hw⟩

theorem Fine.kryptWrite (h : s.Fine) (hanswer : answer.isSome = true)
    (hs : s.kryptWrite answer = some s') : s'.Fine := by
  obtain ⟨a, rfl⟩ := Option.isSome_iff_exists.1 hanswer
  obtain ⟨hr, he, hw⟩ := h
  cases hpc : s.write.pc with
  | absent | done =>
    simp only [Krypt.kryptWrite, hpc] at hs
    cases hs
  | closeIn1 | closeOut2 | openSerial | palloc | start =>
    simp only [Krypt.kryptWrite, hpc, Option.some.injEq] at hs
    subst hs
    exact ⟨hr, he, rfl⟩
  | closeIn2 =>
    rw [hpc] at hw
    simp only [Krypt.kryptWrite, hpc, Option.some.injEq] at hs
    subst hs
    exact ⟨hr, he, hw⟩
  | serial =>
    simp only [Krypt.kryptWrite, hpc] at hs
    split at hs <;> obtain rfl := Option.some.inj hs <;> exact ⟨hr, he, rfl⟩
  | read c =>
    simp only [Krypt.kryptWrite, hpc] at hs
    obtain ⟨P, c', -, rfl⟩ | rfl | ⟨P, c', sz, -, rfl⟩ := call_cases hs
    · exact ⟨hr, he, rfl⟩
    · exact ⟨hr, he, hw⟩
    · split <;> exact ⟨hr, he, rfl⟩

/-- A file that does not fit into the pipe is not all read before the second `pipe`. -/
theorem Inv.noReuse (hbig : pageSize < f.fileSize) (h : s.Inv f held n) (hfine : s.Fine) :
    s.NoReuse t := by
  intro _ hpc
  cases h with
  | unopened hun _ _ _ _ =>
    rw [hun.encrypt] at hpc
    cases hpc
  | running q₁ q₂ t short₁ short₂ hp hd =>
    intro hnone
    rw [hp.fds₁] at hnone
    have hout : s.out1 = 0 := hp.refs₁.2.symm.trans (hp.line₁.openWrite.1 hnone)
    have hin : s.in1 ≠ 0 := by
      rw [in1, hpc]
      simp only [KryptEncryptPc.in1]
      omega
    have hsent := hd.sent₁ hin
    have hread := hfine.read
    obtain ⟨res, hpc'⟩ := KryptReadPc.done_of_out1 hd.begun (Nat.eq_zero_of_add_eq_zero_right hout)
    rw [hpc'] at hread hsent
    have hres : res = 0 := Decidable.not_not.1 (of_decide_eq_false hread)
    rw [hd.early (by rw [hpc]; rfl), hd.readEnd (by rw [hpc']; exact hres),
      List.take_of_length_le f.length_bytes.le] at hsent
    have hlen : q₁.length = f.fileSize := by
      rw [← f.length_bytes, ← hsent]
      exact congrArg List.length (List.append_nil q₁).symm
    exact absurd hbig (by rw [← hlen]; exact Nat.not_lt.2 hp.line₁.page)

/-- A `pipe` gets its two slots and its frame. -/
theorem Inv.turn_fine (hbig : pageSize < f.fileSize) (h : s.Inv f held n) (hfine : s.Fine)
    (hok : s.NoFailure t) (hs : s.turn t = some s') : s'.Fine := by
  have hreuse : s.NoReuse t := h.noReuse hbig hfine
  rw [Krypt.turn] at hs
  split at hs
  · cases hs
  next hframe =>
  have hframe : t.frame.any s.pipes.held = false := Bool.eq_false_iff.2 hframe
  cases hrole : t.role with
  | read =>
    rw [hrole] at hs
    refine hfine.kryptRead hok.answer (fun hpc => ?_) hs
    obtain ⟨g, hg⟩ := Option.isSome_iff_exists.1 (hok.pipe₁ hrole hpc)
    rw [hg] at hframe ⊢
    cases h with
    | unopened hun _ _ _ _ =>
      obtain ⟨s₁, hopen, -⟩ := hun.opened₁ hframe (r := ⟨.fork, s.read.user, s.read.buffer⟩) rfl
      rw [hopen]
      rfl
    | running _ _ _ _ _ _ hd =>
      have hbegun := hd.begun
      rw [hpc] at hbegun
      cases hbegun
  | encrypt =>
    rw [hrole] at hs
    refine hfine.kryptEncrypt hok.answer (fun hpc => ?_) hs
    obtain ⟨g, hg⟩ := Option.isSome_iff_exists.1 (hok.pipe₂ hrole hpc)
    rw [hg] at hframe ⊢
    cases h with
    | unopened hun _ _ _ _ =>
      rw [hun.encrypt] at hpc
      cases hpc
    | running _ _ _ _ _ hp _ =>
      have hopen := hreuse hrole hpc
      rw [hp.fds₁] at hopen
      obtain ⟨s₁, hopen, -⟩ := hp.opened₂ hpc hopen hframe
        (e := ⟨.fork, s.encrypt.user, s.encrypt.buffer, s.encrypt.bytes⟩) rfl
      rw [hopen]
      rfl
  | write =>
    rw [hrole] at hs
    exact hfine.kryptWrite hok.answer hs

/-- There is a frame for whoever asks, if there were two at first. -/
theorem Inv.freeFrame (h : s.Inv f held n)
    (hframes : ∃ g g', g ≠ g' ∧ held g = false ∧ held g' = false) :
    ∃ frame : Option Nat, frame.any s.pipes.held = false ∧
      (s.read.pc = .pipe ∨ s.encrypt.pc = .pipe → frame.isSome = true) := by
  obtain ⟨g, g', hne, hg, hg'⟩ := hframes
  cases h with
  | unopened hun _ _ _ _ => exact ⟨some g, by rw [hun.held]; exact hg, fun _ => rfl⟩
  | running _ _ _ _ _ hp hd =>
    by_cases hpc : s.encrypt.pc = .pipe
    · have hheld : ∀ x, x ≠ (s.pipes.endpoints 0).buffer → s.pipes.held x = held x := fun x hx =>
        hp.kept x hx fun ho => absurd ho (by rw [hpc]; exact Bool.false_ne_true)
      by_cases hx : g = (s.pipes.endpoints 0).buffer
      · exact ⟨some g', (hheld g' fun h => hne (hx.trans h.symm)).trans hg', fun _ => rfl⟩
      · exact ⟨some g, (hheld g hx).trans hg, fun _ => rfl⟩
    · refine ⟨none, rfl, fun h => ?_⟩
      obtain hpc' | hpc' := h
      · have hbegun := hd.begun
        rw [hpc'] at hbegun
        cases hbegun
      · exact absurd hpc' hpc

/-- Somebody goes on, as long as not everybody has come to the end. -/
theorem Inv.goesOn (hf : f.Fresh) (h : s.Inv f held n)
    (hframes : ∃ g g', g ≠ g' ∧ held g = false ∧ held g' = false) (hfin : ¬s.Finished) :
    ∃ t s', s.NoFailure t ∧ s.turn t = some s' := by
  obtain ⟨frame, hframe, hsome⟩ := h.freeFrame hframes
  have hok : ∀ role, s.NoFailure ⟨role, frame, some 0⟩ := fun role =>
    ⟨rfl, fun _ hpc => hsome (.inl hpc), fun _ hpc => hsome (.inr hpc)⟩
  by_contra hno
  have hs : ∀ role, s.turn ⟨role, frame, some 0⟩ = none := fun role =>
    Option.eq_none_iff_forall_not_mem.2 fun s' hs' => hno ⟨_, s', hok role, hs'⟩
  have hread := hs .read
  have hencrypt := hs .encrypt
  have hwrite := hs .write
  simp only [Krypt.turn, hframe, Bool.false_eq_true, if_false] at hread hencrypt hwrite
  cases h with
  | unopened hun hpc _ _ _ =>
    refine hfin ⟨?_, by rw [hun.encrypt]; rfl, by rw [hun.write]; rfl⟩
    obtain hpc | hpc := hpc
    · simp only [kryptRead, hpc] at hread
      split at hread <;> cases hread
    · rw [hpc]
      rfl
  | running _ _ _ _ _ hp hd =>
    exact hfin (hp.noWait (hd.readGoesOn hf hread) (encryptGoesOn hencrypt) (writeGoesOn hwrite))

/-- From wherever krypt is, it can come to its end. -/
theorem Inv.finishes (hf : f.Fresh) (hb : f.SmallBlocks) (hbig : pageSize < f.fileSize)
    (h : s.Inv f held n) (hfine : s.Fine)
    (hframes : ∃ g g', g ≠ g' ∧ held g = false ∧ held g' = false) :
    ∃ ts s' n', Run (kryptSystem f) NoFailure s ts s' ∧ s'.Inv f held n' ∧ s'.Fine ∧
      s'.Finished := by
  have hreach : ∃ ts s' m, Run (kryptSystem f) NoFailure s ts s' ∧
      (s'.Left f held m ∧ s'.Fine) ∧ s'.Finished := by
    refine Run.reaches (fun {s m} hI hfin => ?_) ⟨⟨n, h, rfl⟩, hfine⟩
    obtain ⟨hleft, hfine⟩ := hI
    obtain ⟨n, hinv, -⟩ := id hleft
    obtain ⟨t, s', hok, hs⟩ := hinv.goesOn hf hframes hfin
    obtain ⟨m', hleft', hlt⟩ := hleft.turn hf hb (hinv.noReuse hbig hfine) hs
    exact ⟨t, s', m', hok, hs, ⟨hleft', hinv.turn_fine hbig hfine hok hs⟩, hlt⟩
  obtain ⟨ts, s', -, hrun, ⟨⟨n', hinv, -⟩, hfine'⟩, hfin⟩ := hreach
  exact ⟨ts, s', n', hrun, hinv, hfine', hfin⟩

/-- The end without a failure. -/
theorem Inv.cipher (h : s.Inv f held n) (hfine : s.Fine) (hfin : s.Finished) :
    s.serial = xorFrom 0 f.bytes := by
  obtain ⟨-, -, hserial⟩ := h.finished hfin
  obtain ⟨hread, hencrypt, hwrite⟩ := hfin
  obtain ⟨hread', hencrypt', hwrite'⟩ := hfine
  have hzero : ∀ {res : Int}, decide (res ≠ 0) = false → res = 0 := fun h =>
    Decidable.not_not.1 (of_decide_eq_false h)
  cases h with
  | unopened _ hpc _ _ _ =>
    obtain hpc | hpc := hpc
    · rw [hpc] at hread
      cases hread
    · rw [hpc] at hread'
      cases hread'
  | running _ _ _ _ _ hp hd =>
    have hbegun := hd.begun
    have hborn₁ := hp.born₁
    have hborn₂ := hp.born₂
    cases hr : s.read.pc with
    | done res =>
      rw [hr] at hread' hborn₁
      obtain rfl := hzero hread'
      cases he : s.encrypt.pc with
      | done res =>
        rw [he] at hencrypt' hborn₂
        obtain rfl := hzero hencrypt'
        cases hw : s.write.pc with
        | done res =>
          rw [hw] at hwrite'
          obtain rfl := hzero hwrite'
          exact hserial hr he hw
        | absent =>
          rw [hw] at hborn₂
          cases hborn₂
        | _ => rw [hw] at hwrite; cases hwrite
      | absent =>
        rw [he] at hborn₁
        cases hborn₁
      | noPipe =>
        rw [he] at hencrypt'
        cases hencrypt'
      | _ => rw [he] at hencrypt; cases hencrypt
    | noPipe =>
      rw [hr] at hbegun
      cases hbegun
    | _ => rw [hr] at hread; cases hread

/-- A file that fits into the pipe can be read before the second `pipe`, and then krypt hangs. -/
theorem Boot.hangs (hf : f.Fresh) (hb : f.SmallBlocks) (hsmall : f.fileSize ≤ pageSize)
    (h : s.Boot f) (hframes : ∃ g g', g ≠ g' ∧ s.pipes.held g = false ∧ s.pipes.held g' = false) :
    ∃ ts s', Run (kryptSystem f) NoFailure s ts s' ∧
      ∀ ts' s'', Run (kryptSystem f) NoFailure s' ts' s'' → ¬s''.Finished := by
  obtain ⟨g, g', hne, hg, hg'⟩ := id hframes
  obtain ⟨ts₁, s₁, m₁, hrun₁, hleft₁, hpc₁⟩ := h.toPipe hf hb hg
  obtain ⟨ts₂, s₂, m₂, hrun₂, ⟨⟨n, hinv, -⟩, hpc₂⟩, hover⟩ := hleft₁.readAlone hf hb hsmall hpc₁
  obtain ⟨frame, hframe, hsome⟩ := hinv.freeFrame hframes
  obtain ⟨g, rfl⟩ := Option.isSome_iff_exists.1 (hsome (.inr hpc₂))
  cases hinv with
  | unopened hun _ _ _ _ =>
    rw [hun.encrypt] at hpc₂
    cases hpc₂
  | running q₁ q₂ t short₁ short₂ hp hd =>
    obtain ⟨s₃, hturn, hreused⟩ := hp.reused hd.begun hover hpc₂ hframe
    refine ⟨_, s₃, (hrun₁.trans hrun₂).snoc ?_ hturn, fun ts' s'' hrun => hreused.run hrun⟩
    exact ⟨rfl, fun hrole => KryptRole.noConfusion hrole, fun _ _ => rfl⟩

end Krypt

section
variable {f : Ext2File} {s : Krypt}

/-- Where nothing fails, krypt can always still send the whole file and come to its end, whatever
it did so far, if and only if the file does not fit into a pipe. -/
theorem krypt_pipeline_iff (hf : f.Fresh) (hb : f.SmallBlocks) (hboot : s.Boot f)
    (hframes : ∃ g g', g ≠ g' ∧ s.pipes.held g = false ∧ s.pipes.held g' = false) :
    (∀ ts s', Run (kryptSystem f) Krypt.NoFailure s ts s' →
      ∃ ts' s'', Run (kryptSystem f) Krypt.NoFailure s' ts' s'' ∧ s''.Finished ∧
        s''.serial = xorFrom 0 f.bytes) ↔ pageSize < f.fileSize := by
  constructor
  · intro h
    by_contra hsmall
    obtain ⟨ts, s', hrun, hhangs⟩ := hboot.hangs hf hb (Nat.not_lt.1 hsmall) hframes
    obtain ⟨ts', s'', hrun', hfin, -⟩ := h ts s' hrun
    exact hhangs ts' s'' hrun' hfin
  · intro hbig ts s' hrun
    have hfine : s.Fine := ⟨by rw [hboot.read]; rfl, by rw [hboot.encrypt]; rfl,
      by rw [hboot.write]; rfl⟩
    obtain ⟨n, hinv, hfine'⟩ : ∃ n, s'.Inv f s.pipes.held n ∧ s'.Fine := by
      induction hrun with
      | nil => exact ⟨_, .boot hboot, hfine⟩
      | snoc _ hok hs ih =>
        obtain ⟨n, hinv, hfine⟩ := ih
        obtain ⟨n', hinv', -⟩ := hinv.turn hf hb (hinv.noReuse hbig hfine) hs
        exact ⟨n', hinv', hinv.turn_fine hbig hfine hok hs⟩
    obtain ⟨ts', s'', n', hrun', hinv', hfine'', hfin⟩ :=
      hinv.finishes hf hb hbig hfine' hframes
    exact ⟨ts', s'', hrun', hfin, hinv'.cipher hfine'' hfin⟩

end

/-- One byte is too little. -/
theorem krypt_pipeline_iff_oneByte : ¬∀ ts s',
    Run (kryptSystem oneByte) Krypt.NoFailure oneByteBoot ts s' →
      ∃ ts' s'', Run (kryptSystem oneByte) Krypt.NoFailure s' ts' s'' ∧ s''.Finished ∧
        s''.serial = xorFrom 0 oneByte.bytes :=
  mt (krypt_pipeline_iff oneByte_fresh oneByte_smallBlocks
    ⟨fun _ _ => rfl, rfl, rfl, rfl, rfl, rfl, rfl⟩ ⟨0, 1, by decide, rfl, rfl⟩).1 (by decide)

end SpuriOS
