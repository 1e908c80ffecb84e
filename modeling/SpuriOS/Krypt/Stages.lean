import SpuriOS.Krypt.Data

/-! # The steps of krypt

Every step of a process keeps the plumbing and the data, and comes closer to the end. -/

namespace SpuriOS

open Circular

namespace Krypt

variable {f : Ext2File} {held : Nat → Bool} {s s' : Krypt} {frame answer : Option Nat}

/-! ## The process that reads -/

theorem Data.read (hf : f.Fresh) (hb : f.SmallBlocks) {q₁ q₂ t : List Byte} {short₁ short₂ : Bool}
    (hp : s.Plumbing held q₁ q₂ short₁ short₂) (hd : s.Data f q₁ q₂ t short₁ short₂)
    (hs : s.kryptRead frame answer = some s') : s.Falls f held (s.weight f q₁ q₂) s' := by
  obtain ⟨pipes, refs, fds₁, fds₂, file, serial, ⟨pc, user, buffer⟩, e, w⟩ := s
  obtain rfl : fds₁ = (0, 1) := hp.fds₁
  have hout : pc.out1 = 1 → out1 ⟨pipes, refs, (0, 1), fds₂, file, serial, ⟨pc, user, buffer⟩, e,
      w⟩ ≠ 0 := by
    intro hpc
    simp only [out1, hpc]
    omega
  cases pc with
  | pipe | noPipe => exact absurd hd.begun Bool.false_ne_true
  | fork =>
    cases hs
    obtain ⟨epc, euser, ebuffer, ebytes⟩ := e
    obtain rfl : epc = .absent := KryptEncryptPc.isAbsent_iff.1 hp.born₁
    obtain ⟨wpc, wuser, wbuffer⟩ := w
    obtain rfl : wpc = .absent := KryptWritePc.isAbsent_iff.1 hp.born₂
    refine .moved q₁ q₂ t short₁ short₂ (hp.forked₁ rfl rfl rfl) ?_ ?_
    · simp only [weight, KryptRead.load, KryptReadPc.rank, KryptReadPc.hand,
        KryptEncrypt.load, KryptEncryptPc.rank, KryptEncrypt.hand, dup]
      omega
    exact { hd with
      sent₁ := fun _ => hd.sent₁ Nat.one_ne_zero
      encryptPage := fun h => absurd h Bool.false_ne_true
      encryptIn := fun c hc => absurd hc.symm (Option.some_ne_none c)
      encryptRaw := fun sz hsz => absurd hsz.symm (Option.some_ne_none sz)
      encryptOut := fun c hc => absurd hc.symm (Option.some_ne_none c)
      encryptCount := fun h => absurd h Bool.false_ne_true
      drained := fun h => h.elim False.elim fun h =>
        absurd ((hp.unopened rfl).2.symm.trans h) Bool.false_ne_true
      encryptEnd := fun h => h.elim
      writeEnd := fun h => h.elim }
  | closeIn =>
    cases hs
    refine .moved q₁ q₂ t short₁ short₂ (hp.closed₁ rfl rfl rfl (.inl ⟨rfl, ?_, rfl, ?_⟩)) ?_ ?_
    · simp only [in1, KryptReadPc.in1, close]
      omega
    · simp only [in1, KryptReadPc.in1]
      exact fun hone => KryptEncryptPc.inCall_of_in1 (by omega)
    · exact weight_read rfl le_rfl (show 6 < 7 by decide)
    · exact { hd with
        sent₁ := fun h => hd.sent₁ (by simp only [in1, KryptReadPc.in1, close] at h ⊢; omega) }
  | openFile =>
    cases answer with
    | none =>
      cases hs
      refine .moved q₁ q₂ t short₁ short₂ (hp.moved₁ (.refl _ _ _) rfl rfl rfl hp.line₁) ?_ ?_
      · exact weight_read rfl le_rfl (show 1 < 6 by decide)
      exact { hd with
        readPage := fun h => absurd h Bool.false_ne_true
        readEnd := fun h => absurd (show (-1 : Int) = 0 from h) (by decide) }
    | some a =>
      cases hs
      refine .moved q₁ q₂ t short₁ short₂ (hp.moved₁ (.refl _ _ _) rfl rfl rfl hp.line₁) ?_ ?_
      · exact weight_read rfl le_rfl (show 5 < 6 by decide)
      exact { hd with begun := rfl }
  | palloc =>
    cases answer with
    | none =>
      cases hs
      refine .moved q₁ q₂ t short₁ short₂ (hp.moved₁ (.refl _ _ _) rfl rfl rfl hp.line₁) ?_ ?_
      · exact weight_read rfl le_rfl (show 1 < 5 by decide)
      exact { hd with
        readPage := fun h => absurd h Bool.false_ne_true
        readEnd := fun h => absurd (show (-2 : Int) = 0 from h) (by decide) }
    | some addr =>
      cases hs
      refine .moved q₁ q₂ t short₁ short₂ (hp.moved₁ (.refl _ _ _) rfl rfl rfl hp.line₁) ?_ ?_
      · exact weight_read rfl le_rfl (show 2 < 5 by decide)
      exact { hd with
        readPage := fun _ => user.palloc_page addr
        readCall := fun c hc => absurd hc.symm (Option.some_ne_none c) }
  | read =>
    have hpage : user.Page buffer := hd.readPage rfl
    have hpos : file.stream.pos ≤ f.fileSize := hd.file.pos_le
    have hv : (FileOp.read buffer pageSize (user.clear buffer)).Valid file :=
      ⟨by have := hf.fileSize; rw [show pageSize = 4096 from rfl]; omega, hpage⟩
    obtain ⟨g, r', hread, -, hinv⟩ := hd.file.read hf hv
    have hcount : file.stream.count pageSize = min bufferSize (f.fileSize - file.stream.pos) :=
      hd.file.count pageSize
    simp only [kryptRead, hread, Option.map_some, Option.some.injEq] at hs
    generalize hn : file.stream.count pageSize = n at hs hcount
    have hnext : (file.stream.read pageSize).pos = file.stream.pos + n := by
      rw [Stream.read, hn]
    have hread : slice (Memory.write (user.clear buffer).byte buffer n fun i =>
        f.byteAt (file.stream.pos + i)) buffer n = slice f.content file.stream.pos n := by
      refine slice_congr fun i hi => ?_
      rw [Memory.write_add hi, Ext2File.byteAt_eq_content hb (by omega)]
    have htake : f.bytes.take (file.stream.pos + n) =
        f.bytes.take file.stream.pos ++ slice f.content file.stream.pos n :=
      f.take_bytes (by omega)
    split at hs
    next h0 =>
      have h0 : n = 0 := by omega
      subst hs
      have hpos' : (file.stream.read pageSize).pos = file.stream.pos := by omega
      refine .moved q₁ q₂ t short₁ short₂
        ((hp.io _ serial).moved₁ (.refl _ _ _) rfl rfl rfl hp.line₁) ?_ ?_
      · simp only [weight, hpos', KryptRead.load, KryptReadPc.rank, KryptReadPc.hand]
        omega
      exact { hd with
        file := hinv
        readPage := fun h => absurd h Bool.false_ne_true
        readCall := fun c hc => absurd hc.symm (Option.some_ne_none c)
        readShort := fun h => hpos'.trans (hd.readShort h)
        readEnd := fun _ => hpos'.trans (by rw [bufferSize_eq] at hcount; omega)
        sent₁ := fun h => by rw [hpos']; exact hd.sent₁ h }
    next h0 =>
      subst hs
      have hsize : uintOf (n : Int) = n := uintOf_natCast (by omega)
      have hnil : (pipes.endpoints 1).queue = [] := hp.line₁.idleWrite
      refine .moved q₁ q₂ t short₁ short₂ ((hp.io _ serial).moved₁ (.refl _ _ _) rfl rfl rfl
        (hp.line₁.recall hp.line₁.reads (fun c hc => ?_) (.inl rfl) (.inr ?_))) ?_ ?_
      · obtain rfl := Option.some.inj hc
        refine ⟨rfl, rfl, by dsimp only; omega, by dsimp only; omega, .inr ⟨rfl, ?_⟩⟩
        refine Bool.eq_false_iff.2 fun h => h0 ?_
        have := hd.readShort h
        dsimp only at this
        omega
      · rw [hnil]
        exact List.not_mem_nil
      · simp only [weight, hnext, hsize, KryptRead.load, KryptReadPc.rank, KryptReadPc.hand,
          PipeCall.bytes, length_slice, if_pos, List.length_nil]
        omega
      exact { hd with
        file := hinv
        readPage := fun _ => hpage
        readCall := fun c hc => by
          obtain rfl := Option.some.inj hc
          refine ⟨rfl, fun h => ?_⟩
          dsimp only at h ⊢
          omega
        readShort := fun h => by
          have := hd.readShort h
          dsimp only at this ⊢
          omega
        readEnd := fun h => h.elim
        sent₁ := fun h => by
          have hsent := hd.sent₁ h
          simp only [KryptReadPc.hand, List.append_nil, if_pos, PipeCall.bytes] at hsent ⊢
          rw [hsize, hread, hnext, htake, hsent] }
  | write c =>
    have hc := hd.readCall c rfl
    have hcall := hp.line₁.writes c rfl
    have hcpos := hcall.pos
    dsimp only [kryptRead] at hs
    have hq := call_free hs
    have hq' : KryptRole.read.pid ∉ (pipes.endpoints 1).queue := hcall.self ▸ hq
    obtain ⟨P, hround, hsz, rfl, rfl, hr, hm, hqr, hqw, hl⟩ | ⟨hround, hsz, hlen, hr⟩ |
      ⟨n, hround, hn⟩ := hp.line₁.write hq'
    · rw [call_again hq hround] at hs
      cases hs
      refine .moved _ q₂ t _ short₂ (hp.moved₁ hm rfl rfl rfl hl) ?_ ?_
      · simp only [weight, KryptRead.load, KryptReadPc.rank, KryptReadPc.hand, PipeCall.bytes, hsz,
          length_slice, if_pos, List.length_nil]
        rw [if_neg (by omega), if_neg (by omega), List.length_nil]
        omega
      have hout := hout rfl
      exact { hd with
        readCall := fun d hd => by
          obtain rfl := Option.some.inj hd
          exact hc
        readShort := fun h => hc.2 (of_decide_eq_true h)
        sent₁ := fun h => by
          have hsent := hd.sent₁ h
          simp only [KryptReadPc.hand] at hsent ⊢
          rw [if_pos hsz, List.append_nil] at hsent
          rw [if_neg (by omega), List.append_nil, hsent]
        drained := fun h => absurd (hd.drained h).1 hout }
    · rw [call_block hq hround, hcall.self] at hs
      cases hs
      refine .waits q₁ q₂ t short₁ short₂ (hp.moved₁ (Pipes.enqueue_moved _ (.inr rfl)) rfl rfl
        rfl (hp.line₁.waitWrite hq' hsz hlen hr)) ?_ ?_
      · exact ⟨rfl, awake_enqueue (r := KryptRole.read) rfl hcall.self hq'⟩
      exact { hd with begun := rfl }
    · rw [call_done hq hround] at hs
      cases hs
      refine .moved q₁ q₂ t short₁ short₂ (hp.moved₁ (.refl _ _ _) rfl rfl rfl
        (hp.line₁.recall hp.line₁.reads (fun d hd => absurd hd.symm (Option.some_ne_none d))
          (.inl rfl) (.inr hq'))) ?_ ?_
      · exact weight_read rfl (Nat.zero_le _) (by simp only [KryptReadPc.rank]; split <;> decide)
      exact { hd with
        readPage := by
          rw [hc.1]
          exact hd.readPage
        readCall := fun d hd => absurd hd.symm (Option.some_ne_none d)
        sent₁ := fun h => by
          have hsent := hd.sent₁ h
          have hsz : c.sz ≠ 0 := by
            obtain hsz | hr := hn
            · omega
            · exact absurd (hp.refs₁.1.symm.trans hr) h
          simp only [KryptReadPc.hand] at hsent ⊢
          rwa [if_neg hsz] at hsent }
  | closeOut res =>
    cases hs
    refine .moved q₁ q₂ t short₁ short₂ (hp.closed₁ rfl rfl rfl
      (.inr ⟨rfl, rfl, ?_, fun _ => rfl⟩)) ?_ ?_
    · simp only [out1, KryptReadPc.out1, close]
      omega
    · exact weight_read rfl le_rfl (show 0 < 1 by decide)
    have hout := hout rfl
    exact { hd with
      drained := fun h => absurd (hd.drained h).1 hout
      encryptEnd := fun h => absurd (hd.encryptEnd h).1 hout }
  | done res => cases hs

/-! ## The process that encrypts -/

theorem Data.encrypt (hf : f.Fresh) {q₁ q₂ t : List Byte} {short₁ short₂ : Bool}
    (hp : s.Plumbing held q₁ q₂ short₁ short₂) (hd : s.Data f q₁ q₂ t short₁ short₂)
    (hframe : frame.any s.pipes.held = false)
    (hspare : s.encrypt.pc = .pipe → (s.pipes.endpoints 1).klass ≠ .none)
    (hs : s.kryptEncrypt frame answer = some s') : s.Falls f held (s.weight f q₁ q₂) s' := by
  obtain ⟨pipes, refs, fds₁, fds₂, file, serial, r, ⟨pc, user, buffer, bytes⟩, w⟩ := s
  obtain rfl : fds₁ = (0, 1) := hp.fds₁
  have hopened : pc.opened = true → fds₂ = (2, 3) := hp.fds₂
  cases pc with
  | absent | noPipe | done => cases hs
  | closeOut1 =>
    cases hs
    refine .moved q₁ q₂ t short₁ short₂ (hp.closed₁ rfl rfl rfl
      (.inr ⟨rfl, rfl, rfl, fun hone => KryptReadPc.call_of_out1 (Nat.succ.inj hone)⟩)) ?_ ?_
    · exact weight_encrypt rfl le_rfl (show 12 < 13 by decide)
    exact { hd with
      encryptEnd := fun h => h.elim
      drained := fun h => h.elim False.elim fun h =>
        absurd ((hp.unopened rfl).2.symm.trans h) Bool.false_ne_true }
  | pipe =>
    cases frame with
    | none =>
      simp only [kryptEncrypt, openPipe_none, Option.some.injEq] at hs
      subst hs
      refine .moved q₁ q₂ t short₁ short₂ (hp.moved₁ (.refl _ _ _) rfl rfl rfl hp.line₁) ?_ ?_
      · exact weight_encrypt rfl le_rfl (show 1 < 12 by decide)
      exact { hd with begun := hd.begun }
    | some frame =>
      obtain ⟨s₁, hopen, hp₁, hr, hw, hfile, hserial⟩ :=
        hp.opened₂ rfl (hspare rfl) hframe (e := ⟨.fork, user, buffer, bytes⟩) rfl
      simp only [kryptEncrypt, hopen, Option.some.injEq] at hs
      subst hs
      obtain ⟨pipes₁, refs₁, fds₁, fds₂, file₁, serial₁, r₁, e₁, w₁⟩ := s₁
      dsimp only at hr hw hfile hserial
      subst hr hw hfile hserial
      obtain ⟨rfl, rfl⟩ := hp.unopened rfl
      obtain rfl := hd.early rfl
      obtain ⟨wpc, wuser, wbuffer⟩ := w₁
      obtain rfl : wpc = .absent := KryptWritePc.isAbsent_iff.1 hp.born₂
      obtain rfl := hd.unborn rfl
      refine .moved q₁ [] [] short₁ false hp₁ ?_ ?_
      · exact weight_encrypt rfl le_rfl (show 11 < 12 by decide)
      exact { hd with
        sent₁ := fun _ => hd.sent₁ (by simp only [in1, KryptEncryptPc.in1]; omega)
        sent₂ := fun _ => rfl
        writeEnd := fun h => h.elim }
  | exit =>
    cases hs
    refine .moved q₁ q₂ t short₁ short₂ (hp.closed₁ rfl rfl rfl (.inl ⟨rfl, ?_, rfl, ?_⟩)) ?_ ?_
    · simp only [in1, KryptEncryptPc.in1, close]
      omega
    · exact fun _ => rfl
    · exact weight_encrypt rfl le_rfl (show 0 < 1 by decide)
    · exact { hd with
        sent₁ := fun h => hd.sent₁ (by simp only [in1, KryptEncryptPc.in1, close] at h ⊢; omega) }
  | fork =>
    obtain rfl := hopened rfl
    cases hs
    obtain ⟨wpc, wuser, wbuffer⟩ := w
    obtain rfl : wpc = .absent := KryptWritePc.isAbsent_iff.1 hp.born₂
    refine .moved q₁ q₂ t short₁ short₂ (hp.forked₂ rfl rfl rfl) ?_ ?_
    · simp only [weight, KryptEncrypt.load, KryptEncryptPc.rank, KryptEncrypt.hand,
        KryptWrite.load, KryptWritePc.rank, KryptWrite.hand, dup]
      omega
    exact { hd with
      sent₁ := fun _ => hd.sent₁ (by simp only [in1, KryptEncryptPc.in1]; omega)
      sent₂ := fun _ => hd.sent₂ (by simp only [in2, KryptEncryptPc.in2]; omega)
      unborn := fun h => absurd h Bool.false_ne_true
      writePage := fun h => absurd h Bool.false_ne_true
      writeIn := fun c hc => absurd hc.symm (Option.some_ne_none c)
      writeSerial := fun sz hsz => absurd hsz.symm (Option.some_ne_none sz)
      writeEnd := fun h => h.elim }
  | closeIn2 =>
    obtain rfl := hopened rfl
    cases hs
    refine .moved q₁ q₂ t short₁ short₂ (hp.closed₂ rfl rfl rfl
      (.inl ⟨rfl, ?_, rfl, fun hone => ?_⟩)) ?_ ?_
    · simp only [in2, KryptEncryptPc.in2, close]
      omega
    · simp only [in2, KryptEncryptPc.in2] at hone
      exact KryptWritePc.call_of_in2 (show w.pc.in2 = 0 by omega)
    · exact weight_encrypt rfl le_rfl (show 9 < 10 by decide)
    · exact { hd with
        sent₂ := fun h => hd.sent₂ (by simp only [in2, KryptEncryptPc.in2, close] at h ⊢; omega) }
  | palloc =>
    cases answer with
    | none =>
      cases hs
      refine .moved q₁ q₂ t short₁ short₂ (hp.moved₁ (.refl _ _ _) rfl rfl rfl hp.line₁) ?_ ?_
      · exact weight_encrypt rfl le_rfl (show 2 < 9 by decide)
      exact { hd with
        early := fun h => absurd h Bool.false_ne_true
        encryptEnd := fun h => absurd (show (-2 : Int) = 0 from h) (by decide) }
    | some addr =>
      cases hs
      refine .moved q₁ q₂ t short₁ short₂ (hp.moved₁ (.refl _ _ _) rfl rfl rfl hp.line₁) ?_ ?_
      · exact weight_encrypt rfl le_rfl (show 4 < 9 by decide)
      exact { hd with
        early := fun h => absurd h Bool.false_ne_true
        encryptPage := fun _ => user.palloc_page addr
        encryptIn := fun c hc => absurd hc.symm (Option.some_ne_none c)
        encryptOut := fun c hc => absurd hc.symm (Option.some_ne_none c)
        encryptCount := fun _ => by rw [hd.early rfl]; rfl }
  | start =>
    obtain rfl := hopened rfl
    have hpage : user.Page buffer := hd.encryptPage rfl
    cases hs
    have hnil : (pipes.endpoints 0).queue = [] := hp.line₁.idleRead
    refine .moved q₁ q₂ t short₁ short₂ (hp.moved₁ (.refl _ _ _) rfl rfl rfl
      (hp.line₁.recall (fun c hc => ?_) hp.line₁.writes (.inr ?_) (.inl rfl))) ?_ ?_
    · obtain rfl := Option.some.inj hc
      exact ⟨rfl, rfl, rfl, hpage.base, .inl rfl⟩
    · rw [hnil]
      exact List.not_mem_nil
    · exact weight_encrypt rfl le_rfl (show 3 < 4 by decide)
    exact { hd with
      encryptPage := fun _ => hpage
      encryptIn := fun c hc => by
        obtain rfl := Option.some.inj hc
        exact ⟨rfl, rfl, fun h => absurd h (Nat.lt_irrefl 0)⟩ }
  | read c =>
    obtain rfl := hopened rfl
    obtain ⟨huser, hbuf, hshort⟩ := hd.encryptIn c rfl
    have hcall := hp.line₁.reads c rfl
    have hsize := hcall.size
    dsimp only [kryptEncrypt] at hs
    have hq := call_free hs
    have hq' : KryptRole.encrypt.pid ∉ (pipes.endpoints 0).queue := hcall.self ▸ hq
    have hcount : bytes + c.sz = t.length := hd.encryptCount rfl
    have hsent := hd.sent₁ (by simp only [in1, KryptEncryptPc.in1]; omega)
    have hout : out2 ⟨pipes, refs, (0, 1), (2, 3), file, serial, r,
        ⟨.read c, user, buffer, bytes⟩, w⟩ ≠ 0 := by
      simp only [out2, KryptEncryptPc.out2]
      omega
    obtain ⟨P, u, hround, hsz, hne, hu, hbytes, hm, hqr, hqw, hl⟩ | ⟨hround, hlt, rfl, hw⟩ |
      ⟨hround, hend⟩ := hp.line₁.read hq'
    · rw [call_again hq hround] at hs
      cases hs
      refine .moved _ q₂ (t ++ q₁) short₁ short₂ (hp.moved₁ hm rfl rfl rfl hl) ?_ ?_
      · simp only [weight, KryptEncrypt.load, KryptEncryptPc.rank, KryptEncrypt.hand, PipeCall.bytes,
          length_xorFrom, length_slice, hsz, if_pos, List.length_nil]
        rw [if_neg (by have := List.length_pos_iff.2 hne; omega)]
        have := List.length_pos_iff.2 hne
        omega
      have hpart : t ++ q₁ <+: f.bytes :=
        (List.prefix_append _ r.pc.hand).trans (hsent ▸ List.take_prefix ..)
      exact { hd with
        sent₁ := fun _ => by rw [List.append_nil]; exact hsent
        part₁ := hpart
        early := fun h => absurd h Bool.false_ne_true
        encryptIn := fun d hd' => by
          obtain rfl := Option.some.inj hd'
          refine ⟨hu.trans huser, hbuf, fun _ => Bool.eq_false_iff.2 fun h => hne ?_⟩
          exact (hd.drained (.inr h)).2
        encryptCount := fun _ => by
          rw [List.length_append, ← hcount, hsz]
          rfl
        drained := fun h => ⟨(hd.drained (.inr (h.resolve_left id))).1, rfl⟩
        encryptEnd := fun h => h.elim
        sent₂ := fun h => by
          have hsent := hd.sent₂ h
          simp only [KryptEncrypt.hand, PipeCall.bytes] at hsent ⊢
          rw [hbytes, xorFrom_append, Nat.zero_add, ← hcount, hsz, ← hsent, hsz]
          simp only [slice, List.range_zero, List.map_nil, xorFrom_nil, List.append_nil,
            Nat.add_zero]
        writeEnd := fun h => absurd (hd.writeEnd h).1 hout }
    · rw [call_block hq hround, hcall.self] at hs
      cases hs
      refine .waits [] q₂ t short₁ short₂ (hp.moved₁ (Pipes.enqueue_moved _ (.inl rfl)) rfl rfl
        rfl (hp.line₁.waitRead hq' hlt hw)) ?_ ?_
      · exact ⟨rfl, awake_enqueue (r := KryptRole.encrypt) rfl hcall.self hq'⟩
      exact { hd with begun := hd.begun }
    · rw [call_done hq hround] at hs
      have hl := hp.line₁.recall (fun d hd => absurd hd.symm (Option.some_ne_none d))
        hp.line₁.writes (.inr hq') (.inl rfl)
      split at hs
      next h0 =>
        have hsz : c.sz = 0 := by omega
        cases hs
        refine .moved q₁ q₂ t short₁ short₂ (hp.moved₁ (.refl _ _ _) rfl rfl rfl hl) ?_ ?_
        · exact weight_encrypt rfl (Nat.zero_le _)
            (by simp only [KryptEncryptPc.rank]; split <;> decide)
        obtain ⟨-, rfl, hw⟩ := hend.resolve_left fun h =>
          absurd (hsz.symm.trans h) (by decide)
        exact { hd with
          encryptPage := fun h => absurd h Bool.false_ne_true
          encryptIn := fun d hd => absurd hd.symm (Option.some_ne_none d)
          encryptOut := fun d hd => absurd hd.symm (Option.some_ne_none d)
          encryptCount := fun h => absurd h Bool.false_ne_true
          encryptEnd := fun _ => ⟨hp.refs₁.2.symm.trans hw, fun h => by
            obtain ⟨rpc, ruser, rbuffer⟩ := r
            cases rpc with
            | done res =>
              have hpos := hd.readEnd h
              simp only [KryptReadPc.hand, List.append_nil] at hsent
              rw [hsent, hpos, List.take_of_length_le f.length_bytes.le]
            | _ => exact h.elim⟩
          sent₂ := fun h => by
            have hsent := hd.sent₂ h
            simp only [KryptEncrypt.hand, hsz] at hsent ⊢
            exact hsent }
      next h0 =>
        cases hs
        refine .moved q₁ q₂ t short₁ short₂ (hp.moved₁ (.refl _ _ _) rfl rfl rfl hl) ?_ ?_
        · refine weight_encrypt rfl ?_ ?_
          · simp only [KryptEncrypt.hand, PipeCall.bytes, length_xorFrom, length_slice]
            exact (Int.toNat_natCast _).le
          · simp only [KryptEncryptPc.rank]
            rw [if_neg (by omega)]
            decide
        have hpage : user.Page buffer := hd.encryptPage rfl
        have hpositive : 0 < c.sz := by omega
        exact { hd with
          encryptPage := fun _ => by
            intro j hj
            dsimp only
            rw [huser]
            exact hpage j hj
          encryptIn := fun d hd => absurd hd.symm (Option.some_ne_none d)
          encryptOut := fun d hd => absurd hd.symm (Option.some_ne_none d)
          encryptRaw := fun sz hsz => by
            obtain rfl := Option.some.inj hsz
            exact ⟨c.sz, rfl, hpositive, by omega, hshort hpositive⟩
          encryptCount := fun _ => by
            simpa only [KryptEncryptPc.raw, Int.toNat_natCast] using hcount
          drained := fun h => by
            obtain h | h := h
            · simp only [KryptEncryptPc.short, Int.toNat_natCast] at h
              obtain ⟨-, rfl, hw⟩ := hend.resolve_left h.ne
              exact ⟨hp.refs₁.2.symm.trans hw, rfl⟩
            · exact hd.drained (.inr h)
          sent₂ := fun h => by
            have hsent := hd.sent₂ h
            simp only [KryptEncrypt.hand, PipeCall.bytes, Int.toNat_natCast] at hsent ⊢
            rwa [← show c.buf = buffer from hbuf] }
  | crypt sz =>
    obtain rfl := hopened rfl
    obtain ⟨n, rfl, h0, hle, rfl⟩ := hd.encryptRaw sz rfl
    have hpage : user.Page buffer := hd.encryptPage rfl
    have hcount : bytes + n = t.length := hd.encryptCount rfl
    have hsize := uintOf_natCast hle
    have hlen : t.length ≤ f.fileSize := f.length_bytes ▸ hd.part₁.length_le
    have hloop : xorLoop n buffer user.byte bytes = (fun j => if buffer ≤ j ∧ j < buffer + n then
        user.byte j ^^^ keyByte (bytes + (j - buffer)) else user.byte j, bytes + n) :=
      xorLoop_eq (by have := hf.fileSize; omega)
    simp only [kryptEncrypt, Int.toNat_natCast, hloop, hsize, Option.some.injEq] at hs
    subst hs
    have hnil : (pipes.endpoints 3).queue = [] := (hp.line₂ rfl).idleWrite
    refine .moved q₁ q₂ t short₁ false (hp.moved₂ (.refl _ _ _) rfl rfl rfl rfl
      ((hp.line₂ rfl).recall (hp.line₂ rfl).reads (fun c hc => ?_) (.inl rfl) (.inr ?_))) ?_ ?_
    · obtain rfl := Option.some.inj hc
      exact ⟨rfl, rfl, h0, hle, .inr ⟨rfl, rfl⟩⟩
    · rw [hnil]
      exact List.not_mem_nil
    · refine weight_encrypt rfl ?_ (show 6 < 7 by decide)
      simp only [KryptEncrypt.hand, PipeCall.bytes, length_xorFrom, length_slice, if_pos]
      exact (Int.toNat_natCast _).ge
    exact { hd with
      encryptPage := fun _ => hpage
      encryptIn := fun d hd => absurd hd.symm (Option.some_ne_none d)
      encryptRaw := fun d hd => absurd hd.symm (Option.some_ne_none d)
      encryptOut := fun d hd' => by
        obtain rfl := Option.some.inj hd'
        rfl
      encryptCount := fun _ => hcount
      drained := fun h => by
        refine hd.drained (h.imp_left fun h => ?_)
        simpa only [KryptEncryptPc.short, Int.toNat_natCast] using h
      sent₂ := fun h => by
        have hsent := hd.sent₂ h
        simp only [KryptEncrypt.hand, PipeCall.bytes, Int.toNat_natCast, if_pos] at hsent ⊢
        rw [← hsent, xorFrom_slice] }
  | write c =>
    obtain rfl := hopened rfl
    have huser := hd.encryptOut c rfl
    have hcall := (hp.line₂ rfl).writes c rfl
    have hcpos := hcall.pos
    dsimp only [kryptEncrypt] at hs
    have hq := call_free hs
    have hq' : KryptRole.encrypt.pid ∉ (pipes.endpoints 3).queue := hcall.self ▸ hq
    obtain ⟨P, hround, hsz, rfl, rfl, hr, hm, hqr, hqw, hl⟩ | ⟨hround, hsz, hlen, hr⟩ |
      ⟨n, hround, hn⟩ := (hp.line₂ rfl).write hq'
    · rw [call_again hq hround] at hs
      cases hs
      refine .moved q₁ _ t short₁ _ (hp.moved₂ hm rfl rfl rfl rfl hl) ?_ ?_
      · simp only [weight, KryptEncrypt.load, KryptEncryptPc.rank, KryptEncrypt.hand, PipeCall.bytes, hsz,
          length_slice, if_pos, List.length_nil]
        rw [if_neg (by omega), if_neg (by omega), List.length_nil]
        omega
      exact { hd with
        encryptIn := fun d hd => absurd hd.symm (Option.some_ne_none d)
        encryptRaw := fun d hd => absurd hd.symm (Option.some_ne_none d)
        encryptOut := fun d hd' => by
          obtain rfl := Option.some.inj hd'
          exact huser
        drained := fun h => hd.drained (.inl (h.elim id of_decide_eq_true))
        sent₂ := fun h => by
          have hsent := hd.sent₂ h
          simp only [KryptEncrypt.hand] at hsent ⊢
          rw [if_pos hsz, List.append_nil] at hsent
          rw [if_neg (by omega), List.append_nil, hsent] }
    · rw [call_block hq hround, hcall.self] at hs
      cases hs
      refine .waits q₁ q₂ t short₁ short₂ (hp.moved₂ (Pipes.enqueue_moved _ (.inr rfl)) rfl rfl
        rfl rfl ((hp.line₂ rfl).waitWrite hq' hsz hlen hr)) ?_ ?_
      · exact ⟨rfl, awake_enqueue (r := KryptRole.encrypt) rfl hcall.self hq'⟩
      exact { hd with begun := hd.begun }
    · rw [call_done hq hround] at hs
      cases hs
      refine .moved q₁ q₂ t short₁ short₂ (hp.moved₂ (.refl _ _ _) rfl rfl rfl rfl
        ((hp.line₂ rfl).recall (hp.line₂ rfl).reads
          (fun d hd => absurd hd.symm (Option.some_ne_none d)) (.inl rfl) (.inr hq'))) ?_ ?_
      · exact weight_encrypt rfl (Nat.zero_le _)
          (by simp only [KryptEncryptPc.rank]; split <;> decide)
      have hpage : user.Page buffer := hd.encryptPage rfl
      exact { hd with
        encryptPage := fun _ => by
          intro j hj
          dsimp only
          rw [huser]
          exact hpage j hj
        encryptIn := fun d hd => absurd hd.symm (Option.some_ne_none d)
        encryptRaw := fun d hd => absurd hd.symm (Option.some_ne_none d)
        encryptOut := fun d hd => absurd hd.symm (Option.some_ne_none d)
        drained := fun h => hd.drained (.inr (h.resolve_left id))
        sent₂ := fun h => by
          have hsent := hd.sent₂ h
          have hsz : c.sz ≠ 0 := by
            obtain hsz | hr := hn
            · omega
            · exact absurd ((hp.refs₂ rfl).1.symm.trans hr) h
          simp only [KryptEncrypt.hand] at hsent ⊢
          rwa [if_neg hsz] at hsent }
  | closeOut2 res =>
    obtain rfl := hopened rfl
    cases hs
    refine .moved q₁ q₂ t short₁ short₂ (hp.closed₂ rfl rfl rfl
      (.inr ⟨rfl, rfl, ?_, fun _ => rfl⟩)) ?_ ?_
    · simp only [out2, KryptEncryptPc.out2, close]
      omega
    · exact weight_encrypt rfl le_rfl (show 1 < 2 by decide)
    · exact { hd with
        writeEnd := fun h => absurd (hd.writeEnd h).1 (by
          simp only [out2, KryptEncryptPc.out2]
          omega) }
  | closeIn1 res =>
    cases hs
    refine .moved q₁ q₂ t short₁ short₂ (hp.closed₁ rfl rfl rfl (.inl ⟨rfl, ?_, rfl, ?_⟩)) ?_ ?_
    · simp only [in1, KryptEncryptPc.in1, close]
      omega
    · exact fun _ => rfl
    · exact weight_encrypt rfl le_rfl (show 0 < 1 by decide)
    · exact { hd with
        sent₁ := fun h => hd.sent₁ (by simp only [in1, KryptEncryptPc.in1, close] at h ⊢; omega) }

/-! ## The process that writes -/

theorem Data.write {q₁ q₂ t : List Byte} {short₁ short₂ : Bool}
    (hp : s.Plumbing held q₁ q₂ short₁ short₂) (hd : s.Data f q₁ q₂ t short₁ short₂)
    (hs : s.kryptWrite answer = some s') : s.Falls f held (s.weight f q₁ q₂) s' := by
  obtain ⟨pipes, refs, fds₁, fds₂, file, serial, r, e, ⟨pc, user, buffer⟩⟩ := s
  obtain rfl : fds₁ = (0, 1) := hp.fds₁
  have hborn : pc.isAbsent = false → e.pc.opened = true := by
    intro h
    have hborn := hp.born₂
    dsimp only at hborn
    rw [h, eq_comm, Bool.or_eq_false_iff, Bool.not_eq_false'] at hborn
    exact hborn.1
  cases pc with
  | absent | done => cases hs
  | closeIn1 =>
    cases hs
    refine .moved q₁ q₂ t short₁ short₂ (hp.closed₁ rfl rfl rfl
      (.inl ⟨rfl, rfl, rfl, fun hone => ?_⟩)) ?_ ?_
    · simp only [in1, KryptWritePc.in1] at hone
      exact KryptEncryptPc.inCall_of_in1 (show e.pc.in1 = 0 by omega)
    · exact weight_write rfl le_rfl (show 8 < 9 by decide)
    · exact { hd with
        sent₁ := fun h => hd.sent₁ (by simp only [in1, KryptWritePc.in1, close] at h ⊢; omega) }
  | closeOut2 =>
    have ho := hborn rfl
    obtain rfl : fds₂ = (2, 3) := hp.fds₂ ho
    cases hs
    refine .moved q₁ q₂ t short₁ short₂ (hp.closed₂ ho rfl rfl (.inr ⟨rfl, rfl, rfl,
      fun hone => KryptEncryptPc.outCall_of_out2 (Nat.succ.inj hone)⟩)) ?_ ?_
    · exact weight_write rfl le_rfl (show 7 < 8 by decide)
    exact { hd with writeEnd := fun h => h.elim }
  | openSerial =>
    have ho := hborn rfl
    cases answer with
    | none =>
      cases hs
      refine .moved q₁ q₂ t short₁ short₂
        (hp.moved₂ (.refl _ _ _) rfl rfl rfl ho (hp.line₂ ho)) ?_ ?_
      · exact weight_write rfl le_rfl (show 1 < 7 by decide)
      exact { hd with writeEnd := fun h => absurd (show (-1 : Int) = 0 from h) (by decide) }
    | some a =>
      cases hs
      refine .moved q₁ q₂ t short₁ short₂
        (hp.moved₂ (.refl _ _ _) rfl rfl rfl ho (hp.line₂ ho)) ?_ ?_
      · exact weight_write rfl le_rfl (show 6 < 7 by decide)
      exact { hd with begun := hd.begun }
  | palloc =>
    have ho := hborn rfl
    cases answer with
    | none =>
      cases hs
      refine .moved q₁ q₂ t short₁ short₂
        (hp.moved₂ (.refl _ _ _) rfl rfl rfl ho (hp.line₂ ho)) ?_ ?_
      · exact weight_write rfl le_rfl (show 1 < 6 by decide)
      exact { hd with writeEnd := fun h => absurd (show (-2 : Int) = 0 from h) (by decide) }
    | some addr =>
      cases hs
      refine .moved q₁ q₂ t short₁ short₂
        (hp.moved₂ (.refl _ _ _) rfl rfl rfl ho (hp.line₂ ho)) ?_ ?_
      · exact weight_write rfl le_rfl (show 3 < 6 by decide)
      exact { hd with
        writePage := fun _ => user.palloc_page addr
        writeIn := fun c hc => absurd hc.symm (Option.some_ne_none c) }
  | start =>
    have ho := hborn rfl
    obtain rfl : fds₂ = (2, 3) := hp.fds₂ ho
    have hpage : user.Page buffer := hd.writePage rfl
    cases hs
    have hnil : (pipes.endpoints 2).queue = [] := (hp.line₂ ho).idleRead
    refine .moved q₁ q₂ t short₁ short₂ (hp.moved₂ (.refl _ _ _) rfl rfl rfl ho
      ((hp.line₂ ho).recall (fun c hc => ?_) (hp.line₂ ho).writes (.inr ?_) (.inl rfl))) ?_ ?_
    · obtain rfl := Option.some.inj hc
      exact ⟨rfl, rfl, rfl, hpage.base, .inl rfl⟩
    · rw [hnil]
      exact List.not_mem_nil
    · exact weight_write rfl le_rfl (show 2 < 3 by decide)
    exact { hd with
      writePage := fun _ => hpage
      writeIn := fun c hc => by
        obtain rfl := Option.some.inj hc
        exact ⟨rfl, rfl⟩ }
  | read c =>
    have ho := hborn rfl
    obtain rfl : fds₂ = (2, 3) := hp.fds₂ ho
    obtain ⟨huser, hbuf⟩ := hd.writeIn c rfl
    have hcall := (hp.line₂ ho).reads c rfl
    have hsize := hcall.size
    dsimp only [kryptWrite] at hs
    have hq := call_free hs
    have hq' : KryptRole.write.pid ∉ (pipes.endpoints 2).queue := hcall.self ▸ hq
    have hsent := hd.sent₂ (by simp only [in2, KryptWritePc.in2]; omega)
    obtain ⟨P, u, hround, hsz, hne, hu, hbytes, hm, hqr, hqw, hl⟩ | ⟨hround, hlt, rfl, hw⟩ |
      ⟨hround, hend⟩ := (hp.line₂ ho).read hq'
    · rw [call_again hq hround] at hs
      cases hs
      refine .moved q₁ [] t short₁ short₂ (hp.moved₂ hm rfl rfl rfl ho hl) ?_ ?_
      · simp only [weight, KryptWrite.load, KryptWritePc.rank, KryptWrite.hand, PipeCall.bytes,
          length_slice, hsz, if_pos, List.length_nil]
        rw [if_neg (by have := List.length_pos_iff.2 hne; omega)]
        have := List.length_pos_iff.2 hne
        omega
      have hhand : KryptWrite.hand ⟨.read c, user, buffer⟩ = [] := by
        simp only [KryptWrite.hand, hsz]
        rfl
      have hhand' : KryptWrite.hand ⟨.read { c with sz := q₂.length, user := u }, user, buffer⟩ =
          q₂ := hbytes
      rw [hhand, List.append_nil] at hsent
      have hpart : serial ++ q₂ <+: xorFrom 0 f.bytes :=
        ((List.prefix_append _ e.hand).trans (hsent ▸ List.prefix_rfl)).trans
          (xorFrom_mono hd.part₁)
      exact { hd with
        encryptIn := fun d hd' => by
          obtain ⟨h₁, h₂, h₃⟩ := hd.encryptIn d hd'
          exact ⟨h₁, h₂, h₃⟩
        sent₂ := fun _ => by
          dsimp only
          rw [hhand', List.append_nil]
          exact hsent
        part₂ := by
          dsimp only
          rw [hhand']
          exact hpart
        writeIn := fun d hd' => by
          obtain rfl := Option.some.inj hd'
          exact ⟨hu.trans huser, hbuf⟩ }
    · rw [call_block hq hround, hcall.self] at hs
      cases hs
      refine .waits q₁ [] t short₁ short₂ (hp.moved₂ (Pipes.enqueue_moved _ (.inl rfl)) rfl rfl
        rfl ho ((hp.line₂ ho).waitRead hq' hlt hw)) ?_ ?_
      · exact ⟨rfl, awake_enqueue (r := KryptRole.write) rfl hcall.self hq'⟩
      exact { hd with begun := hd.begun }
    · rw [call_done hq hround] at hs
      have hl := (hp.line₂ ho).recall (fun d hd => absurd hd.symm (Option.some_ne_none d))
        (hp.line₂ ho).writes (.inr hq') (.inl rfl)
      split at hs
      next h0 =>
        have hsz : c.sz = 0 := by omega
        cases hs
        refine .moved q₁ q₂ t short₁ short₂ (hp.moved₂ (.refl _ _ _) rfl rfl rfl ho hl) ?_ ?_
        · exact weight_write rfl (Nat.zero_le _)
            (by simp only [KryptWritePc.rank]; split <;> decide)
        obtain ⟨-, rfl, hw⟩ := hend.resolve_left fun h =>
          absurd (hsz.symm.trans h) (by decide)
        have hout : e.pc.out2 = 0 := (hp.refs₂ ho).2.symm.trans hw
        have hhand : KryptWrite.hand ⟨.read c, user, buffer⟩ = [] := by
          simp only [KryptWrite.hand, hsz]
          rfl
        have hpart := hd.part₂
        dsimp only at hsent hpart
        rw [hhand, List.append_nil] at hsent hpart
        exact { hd with
          sent₂ := fun _ => by
            rw [← hsent]
            simp only [KryptWrite.hand, List.append_nil]
          part₂ := by
            simp only [KryptWrite.hand, List.append_nil]
            exact hpart
          writePage := fun h => absurd h Bool.false_ne_true
          writeIn := fun d hd => absurd hd.symm (Option.some_ne_none d)
          writeEnd := fun _ => ⟨hout, by
            rwa [KryptEncrypt.hand_of_out2 hout, List.append_nil, List.append_nil] at hsent⟩ }
      next h0 =>
        have hle : c.sz ≤ bufferSize := by omega
        cases hs
        refine .moved q₁ q₂ t short₁ short₂ (hp.moved₂ (.refl _ _ _) rfl rfl rfl ho hl) ?_ ?_
        · refine weight_write rfl ?_ ?_
          · simp only [KryptWrite.hand, PipeCall.bytes, length_slice, uintOf_natCast hle]
            exact Nat.sub_le _ _
          · simp only [KryptWritePc.rank]
            rw [if_neg (by omega)]
            decide
        have hpage : user.Page buffer := hd.writePage rfl
        have hhand : KryptWrite.hand ⟨.serial 0 c.sz, c.user, buffer⟩ =
            KryptWrite.hand ⟨.read c, user, buffer⟩ := by
          simp only [KryptWrite.hand, PipeCall.bytes, uintOf_natCast hle, Nat.add_zero,
            Nat.sub_zero]
          rw [show c.buf = buffer from hbuf]
        exact { hd with
          sent₂ := fun _ => by
            dsimp only
            rw [hhand]
            exact hsent
          part₂ := by
            dsimp only
            rw [hhand]
            exact hd.part₂
          writePage := fun _ => by
            intro j hj
            dsimp only
            rw [huser]
            exact hpage j hj
          writeIn := fun d hd => absurd hd.symm (Option.some_ne_none d)
          writeSerial := fun sz hsz => by
            obtain rfl := Option.some.inj hsz
            exact ⟨c.sz, rfl, hle⟩ }
  | serial i sz =>
    have ho := hborn rfl
    obtain ⟨n, rfl, hle⟩ := hd.writeSerial sz rfl
    have hsize := uintOf_natCast hle
    have hsent := hd.sent₂ (by simp only [in2, KryptWritePc.in2]; omega)
    have hpart := hd.part₂
    simp only [kryptWrite, hsize] at hs
    simp only [KryptWrite.hand, hsize] at hsent hpart
    split at hs
    next hi =>
      cases hs
      refine .moved q₁ q₂ t short₁ short₂
        ((hp.io file _).moved₂ (.refl _ _ _) rfl rfl rfl ho (hp.line₂ ho)) ?_ ?_
      · simp only [weight, KryptWrite.load, KryptWritePc.rank, KryptWrite.hand, length_slice, hsize]
        omega
      have hnext : slice user.byte (buffer + i) (n - i) =
          user.byte (buffer + i) :: slice user.byte (buffer + (i + 1)) (n - (i + 1)) := by
        rw [show n - i = 1 + (n - (i + 1)) by omega, slice_add]
        rfl
      rw [hnext] at hsent hpart
      exact { hd with
        sent₂ := fun _ => by
          simpa only [KryptWrite.hand, hsize, List.append_assoc, List.cons_append, List.nil_append]
            using hsent
        part₂ := by
          simpa only [KryptWrite.hand, hsize, List.append_assoc, List.cons_append, List.nil_append]
            using hpart
        unborn := fun h => absurd h Bool.false_ne_true
        writeEnd := fun h => h.elim }
    next hi =>
      cases hs
      refine .moved q₁ q₂ t short₁ short₂
        (hp.moved₂ (.refl _ _ _) rfl rfl rfl ho (hp.line₂ ho)) ?_ ?_
      · exact weight_write rfl (Nat.zero_le _) (show 3 < 4 by decide)
      rw [Nat.sub_eq_zero_of_le (Nat.not_lt.1 hi)] at hsent hpart
      exact { hd with
        sent₂ := fun _ => hsent
        part₂ := hpart
        writeIn := fun d hd => absurd hd.symm (Option.some_ne_none d)
        writeSerial := fun d hd => absurd hd.symm (Option.some_ne_none d) }
  | closeIn2 res =>
    have ho := hborn rfl
    obtain rfl : fds₂ = (2, 3) := hp.fds₂ ho
    cases hs
    refine .moved q₁ q₂ t short₁ short₂ (hp.closed₂ ho rfl rfl
      (.inl ⟨rfl, rfl, rfl, fun _ => rfl⟩)) ?_ ?_
    · exact weight_write rfl le_rfl (show 0 < 1 by decide)
    exact { hd with
      sent₂ := fun h => hd.sent₂ (by simp only [in2, KryptWritePc.in2, close] at h ⊢; omega) }

end Krypt

end SpuriOS
