import SpuriOS.Memkrypt.Pipeline

/-! # The ciphers of a stream (`tasks/krypt.c`, `tasks/unkrypt.c`, `tasks/memkrypt.c`)

The three programs read a stream by pieces, and take the position of the key from one piece to the
next. -/

namespace SpuriOS

open Transition

/-- `buffer[i] ^= CIPHER_KEY[bytes % CIPHER_KEY_SIZE]` for `n` indices from `i` on. -/
def xorLoop : (n i : Nat) → (Nat → Byte) → (bytes : Nat) → (Nat → Byte) × Nat
  | 0, _, buffer, bytes => (buffer, bytes)
  | n + 1, i, buffer, bytes =>
    xorLoop n (i + 1) (Function.update buffer i (buffer i ^^^ keyByte bytes))
      (Word32.wrap (bytes + 1))

/-- The loop of `krypt_encrypt` and of `unkrypt`: what they write, and `bytes` at the end. The list
is what `read` puts into the buffer; behind it, `read` answers 0. -/
def cryptLoop : (reads : List (List Byte)) → (Nat → Byte) → (bytes : Nat) → List Byte × Nat
  | [], _, bytes => ([], bytes)
  | chunk :: reads, buffer, bytes =>
    let buffer := Memory.write buffer 0 pageSize fun _ => 0
    let buffer := Memory.write buffer 0 chunk.length fun j => chunk.getD j 0
    let sz := chunk.length
    if sz = 0 then ([], bytes)
    else
      let r := xorLoop sz 0 buffer bytes
      let rest := cryptLoop reads r.1 r.2
      ((List.range sz).map r.1 ++ rest.1, rest.2)

/-- What `krypt_encrypt` writes to `pipe_enc2write`. -/
def kryptEncrypt (buffer : Nat → Byte) (reads : List (List Byte)) : List Byte :=
  (cryptLoop reads buffer 0).1

/-- What `unkrypt` writes to the console, and the total that it prints. -/
def unkrypt (buffer : Nat → Byte) (reads : List (List Byte)) : List Byte × Nat :=
  cryptLoop reads buffer 0

/-- The reads of a stream. -/
structure Splits (bytes : List Byte) (reads : List (List Byte)) : Prop where
  joined : reads.flatten = bytes
  sizes : ∀ chunk ∈ reads, 1 ≤ chunk.length ∧ chunk.length ≤ pageSize

/-- The bytes from number `n` on, XORed with the repeated key. -/
def xorFrom (n : Nat) (bytes : List Byte) : List Byte :=
  bytes.mapIdx fun k b => b ^^^ keyByte (n + k)

theorem xorFrom_append {n : Nat} (bytes bytes' : List Byte) :
    xorFrom n (bytes ++ bytes') = xorFrom n bytes ++ xorFrom (n + bytes.length) bytes' := by
  simp only [xorFrom, List.mapIdx_append, Nat.add_assoc, Nat.add_comm bytes.length]

@[simp] theorem length_xorFrom {n : Nat} {bytes : List Byte} :
    (xorFrom n bytes).length = bytes.length := List.length_mapIdx

theorem xorFrom_xorFrom {n : Nat} {bytes : List Byte} : xorFrom n (xorFrom n bytes) = bytes := by
  refine List.ext_getElem (by rw [length_xorFrom, length_xorFrom]) fun k hk hk' => ?_
  simp only [xorFrom, List.getElem_mapIdx, UInt8.xor_assoc, UInt8.xor_self, UInt8.xor_zero]

/-! ## One piece -/

theorem xorLoop_eq {n i bytes : Nat} {buffer : Nat → Byte} (h : bytes + n < 2 ^ 32) :
    xorLoop n i buffer bytes =
      (fun j => if i ≤ j ∧ j < i + n then buffer j ^^^ keyByte (bytes + (j - i)) else buffer j,
        bytes + n) := by
  induction n generalizing i buffer bytes with
  | zero =>
    rw [xorLoop, Prod.mk.injEq]
    refine ⟨funext fun j => ?_, rfl⟩
    rw [if_neg (by omega)]
  | succ n ih =>
    rw [xorLoop, Word32.wrap_of_lt (by omega), ih (by omega), Prod.mk.injEq]
    refine ⟨funext fun j => ?_, by omega⟩
    obtain rfl | hj := eq_or_ne j i
    · rw [if_neg (by omega), if_pos (by omega), Function.update_self, Nat.sub_self, Nat.add_zero]
    rw [Function.update_of_ne hj]
    by_cases hin : i + 1 ≤ j ∧ j < i + 1 + n
    · rw [if_pos hin, if_pos (by omega),
        show bytes + 1 + (j - (i + 1)) = bytes + (j - i) by omega]
    · rw [if_neg hin, if_neg (by omega)]

/-- What is written after a read. -/
theorem map_xorLoop {bytes : Nat} {buffer : Nat → Byte} {chunk : List Byte}
    (h : bytes + chunk.length < 2 ^ 32) :
    (List.range chunk.length).map
        (xorLoop chunk.length 0
          (Memory.write buffer 0 chunk.length fun j => chunk.getD j 0) bytes).1 =
      xorFrom bytes chunk := by
  rw [xorLoop_eq h]
  refine List.ext_getElem (by simp) fun j hj hj' => ?_
  rw [length_xorFrom] at hj'
  have hwrite : Memory.write buffer 0 chunk.length (fun j => chunk.getD j 0) j = chunk[j] := by
    rw [Memory.write_apply, if_pos (by omega)]
    simp [hj']
  simp only [List.getElem_map, List.getElem_range, xorFrom, List.getElem_mapIdx]
  rw [if_pos (by omega), hwrite, Nat.sub_zero]

theorem Splits.lengths {bytes : List Byte} {reads : List (List Byte)} (h : Splits bytes reads) :
    ∀ n ∈ reads.map List.length, 1 ≤ n ∧ n ≤ pageSize :=
  List.forall_mem_map.2 h.sizes

theorem Splits.sum_lengths {bytes : List Byte} {reads : List (List Byte)} (h : Splits bytes reads) :
    ([] : List Nat).sum + (reads.map List.length).sum = bytes.length := by
  rw [← h.joined, List.length_flatten, List.sum_nil, Nat.zero_add]

/-! ## The loop -/

theorem cryptLoop_eq {reads : List (List Byte)} {buffer : Nat → Byte} {bytes : Nat}
    (hreads : ∀ chunk ∈ reads, 1 ≤ chunk.length)
    (h : bytes + reads.flatten.length < 2 ^ 32) :
    cryptLoop reads buffer bytes =
      (xorFrom bytes reads.flatten, bytes + reads.flatten.length) := by
  induction reads generalizing buffer bytes with
  | nil => rfl
  | cons chunk reads ih =>
    rw [List.forall_mem_cons] at hreads
    rw [List.flatten_cons, List.length_append] at h ⊢
    have hloop := @xorLoop_eq chunk.length 0 bytes
    rw [cryptLoop]
    dsimp only
    rw [if_neg (by omega), map_xorLoop (by omega), hloop (by omega), ih hreads.2 (by omega),
      xorFrom_append, Nat.add_assoc]

theorem Splits.cryptLoop {bytes : List Byte} {reads : List (List Byte)} (h : Splits bytes reads)
    (hlen : bytes.length < 2 ^ 31) (buffer : Nat → Byte) :
    cryptLoop reads buffer 0 = (xorFrom 0 bytes, bytes.length) := by
  obtain ⟨rfl, hsizes⟩ := h
  rw [cryptLoop_eq (fun chunk hc => (hsizes chunk hc).1) (by omega), Nat.zero_add]

/-! ## The stages of `memkrypt`

Among the runs of the three stages there is one for every splitting: each piece goes through all of
them before the next one is read. -/

def PageEvent.answer : PageEvent → Option Nat
  | filled _ sz => some sz
  | encrypted .. | written .. => none

/-- What `read` has answered, in order. -/
def Memkrypt.reads (s : Memkrypt) : List Nat := s.log.filterMap PageEvent.answer

/-- A stage that is through with a piece. -/
def Stage.passed (st : Stage) (n : Nat) : Stage :=
  if n = 0 then ⟨.done, st.i, n, n⟩ else ⟨.wait, (st.i + 1) % bufferPages, n, n⟩

def Reader.passed (r : Reader) (n : Nat) : Reader :=
  if n = 0 then ⟨.done, r.i, n, r.pos + n⟩ else ⟨.wait, (r.i + 1) % bufferPages, n, r.pos + n⟩

namespace Memkrypt

/-! ### A stage that takes one piece -/

/-- The reader has put `n` bytes into its page. -/
def filled (s : Memkrypt) (n : Nat) (buffer : Nat → Nat → Byte) : Memkrypt :=
  { s with
    semRead := s.semRead - 1
    semEncrypt := s.semEncrypt + 1
    buffer := buffer
    lastSizePerPage := Function.update s.lastSizePerPage s.reader.i n
    reader := s.reader.passed n
    log := s.log ++ [.filled s.reader.i n] }

/-- The `n` bytes of the next page are encrypted. -/
def encrypted (s : Memkrypt) (n : Nat) (buffer : Nat → Nat → Byte) (bytes : Nat) : Memkrypt :=
  { s with
    semEncrypt := s.semEncrypt - 1
    semWrite := s.semWrite + 1
    buffer := buffer
    bytes := bytes
    encrypter := s.encrypter.passed n
    log := s.log ++ [.encrypted s.encrypter.i n] }

/-- The `n` bytes of the next page are sent. -/
def written (s : Memkrypt) (n : Nat) (serial : List Byte) : Memkrypt :=
  { s with
    semWrite := s.semWrite - 1
    semRead := s.semRead + 1
    serial := serial
    writer := s.writer.passed n
    log := s.log ++ [.written s.writer.i n] }

/-- Some turns of the stages lead from one state to the other. -/
def Runs (file : DiskFile) (s s' : Memkrypt) : Prop :=
  ∃ turns, runList (turn file) s turns = some s'

variable {file : DiskFile} {s s' s'' : Memkrypt} {sizes : List Nat} {n : Nat}

theorem Runs.trans (h : Runs file s s') (h' : Runs file s' s'') : Runs file s s'' := by
  obtain ⟨turns, h⟩ := h
  obtain ⟨turns', h'⟩ := h'
  exact ⟨turns ++ turns', by rw [runList_append, h]; exact h'⟩

theorem Runs.turn {t : Turn} (h : s.turn file t = some s') : Runs file s s' :=
  ⟨[t], by rw [runList, h]; rfl⟩

theorem turn_read (hpc : s.reader.pc = .read) (hn : file.Chunk s.reader.pos n) :
    s.turn file (.read n) = some { s with
      buffer := s.fillPage s.reader.i n fun j => file.bytes.getD (s.reader.pos + j) 0
      reader := { s.reader with pc := .lock, sz := n, pos := s.reader.pos + n } } := by
  rw [turn, memkryptRead, hpc]
  exact if_pos hn

theorem readPass (hpc : s.reader.pc = .wait) (hsem : s.semRead = bufferPages) (hmutex : s.mutex = 1)
    (hn : file.Chunk s.reader.pos n) : ∃ buffer, Runs file s (s.filled n buffer) := by
  obtain ⟨semRead, semEncrypt, semWrite, mutex, buffer, lastSize, serial, ⟨pc, i, sz, pos⟩,
    encrypter, bytes, writer, log⟩ := s
  dsimp only at hpc hsem hmutex hn ⊢
  subst hpc hsem hmutex
  let cleared := Function.update buffer i (Memory.write (buffer i) 0 pageSize fun _ => 0)
  have hread := @turn_read file ⟨bufferPages - 1, semEncrypt, semWrite, 1, cleared, lastSize,
    serial, ⟨.read, i, sz, pos⟩, encrypter, bytes, writer, log⟩ n rfl hn
  exact ⟨_, .trans ⟨List.replicate 2 (.read n), rfl⟩
    (.trans (.turn hread) ⟨List.replicate 4 (.read n), rfl⟩)⟩

theorem turn_encrypt {i sz j : Nat} (hj : j < sz) :
    ({ s with encrypter := ⟨.work, i, sz, j⟩ } : Memkrypt).turn file .encrypt = some { s with
      buffer := Function.update s.buffer i
        (Function.update (s.buffer i) j (s.buffer i j ^^^ keyByte s.bytes))
      encrypter := ⟨.work, i, sz, j + 1⟩
      bytes := (s.bytes + 1) % 2 ^ 32 } := if_pos hj

theorem encryptLoop {i sz j k : Nat} (hk : j + k = sz) :
    ∃ buffer bytes, Runs file { s with encrypter := ⟨.work, i, sz, j⟩ }
      { s with buffer := buffer, bytes := bytes, encrypter := ⟨.work, i, sz, sz⟩ } := by
  induction k generalizing s j with
  | zero => exact ⟨s.buffer, s.bytes, [], by rw [← hk]; rfl⟩
  | succ k ih =>
    have hs := @turn_encrypt file s i sz j (by omega)
    obtain ⟨buffer, bytes, hrun⟩ := @ih { s with
      buffer := Function.update s.buffer i
        (Function.update (s.buffer i) j (s.buffer i j ^^^ keyByte s.bytes))
      bytes := (s.bytes + 1) % 2 ^ 32 } (j + 1) (by omega)
    exact ⟨buffer, bytes, .trans (.turn hs) hrun⟩

theorem turn_encrypted {i sz : Nat} :
    ({ s with encrypter := ⟨.work, i, sz, sz⟩ } : Memkrypt).turn file .encrypt = some { s with
      encrypter := ⟨.signal, i, sz, sz⟩
      log := s.log ++ [.encrypted i sz] } := if_neg (Nat.lt_irrefl sz)

theorem encryptPass (hpc : s.encrypter.pc = .wait) (hsem : s.semEncrypt = 1)
    (hmutex : s.mutex = 1) (hn : s.lastSizePerPage s.encrypter.i = n) :
    ∃ buffer bytes, Runs file s (s.encrypted n buffer bytes) := by
  obtain ⟨semRead, semEncrypt, semWrite, mutex, buffer, lastSize, serial, reader,
    ⟨pc, i, sz, j⟩, bytes, writer, log⟩ := s
  dsimp only at hpc hsem hmutex hn ⊢
  subst hpc hsem hmutex hn
  let s₀ : Memkrypt := ⟨semRead, 0, semWrite, 1, buffer, lastSize, serial, reader,
    ⟨.wait, i, sz, j⟩, bytes, writer, log⟩
  obtain ⟨buffer', bytes', hloop⟩ := @encryptLoop file s₀ i (lastSize i) 0 _ (Nat.zero_add _)
  have hend := @turn_encrypted file { s₀ with buffer := buffer', bytes := bytes' } i (lastSize i)
  exact ⟨buffer', bytes', .trans ⟨List.replicate 4 .encrypt, rfl⟩
    (hloop.trans (.trans (.turn hend) ⟨[.encrypt], rfl⟩))⟩

theorem turn_write {i sz j : Nat} (hj : j < sz) :
    ({ s with writer := ⟨.work, i, sz, j⟩ } : Memkrypt).turn file .write = some { s with
      serial := s.serial ++ [s.buffer i j]
      writer := ⟨.work, i, sz, j + 1⟩ } := if_pos hj

theorem writeLoop {i sz j k : Nat} (hk : j + k = sz) :
    ∃ serial, Runs file { s with writer := ⟨.work, i, sz, j⟩ }
      { s with serial := serial, writer := ⟨.work, i, sz, sz⟩ } := by
  induction k generalizing s j with
  | zero => exact ⟨s.serial, [], by rw [← hk]; rfl⟩
  | succ k ih =>
    have hs := @turn_write file s i sz j (by omega)
    obtain ⟨serial, hrun⟩ := @ih { s with serial := s.serial ++ [s.buffer i j] } (j + 1) (by omega)
    exact ⟨serial, .trans (.turn hs) hrun⟩

theorem turn_written {i sz : Nat} :
    ({ s with writer := ⟨.work, i, sz, sz⟩ } : Memkrypt).turn file .write = some { s with
      writer := ⟨.signal, i, sz, sz⟩
      log := s.log ++ [.written i sz] } := if_neg (Nat.lt_irrefl sz)

theorem writePass (hpc : s.writer.pc = .wait) (hsem : s.semWrite = 1)
    (hmutex : s.mutex = 1) (hn : s.lastSizePerPage s.writer.i = n) :
    ∃ serial, Runs file s (s.written n serial) := by
  obtain ⟨semRead, semEncrypt, semWrite, mutex, buffer, lastSize, serial, reader, encrypter, bytes,
    ⟨pc, i, sz, j⟩, log⟩ := s
  dsimp only at hpc hsem hmutex hn ⊢
  subst hpc hsem hmutex hn
  let s₀ : Memkrypt := ⟨semRead, semEncrypt, 0, 1, buffer, lastSize, serial, reader, encrypter,
    bytes, ⟨.wait, i, sz, j⟩, log⟩
  obtain ⟨serial', hloop⟩ := @writeLoop file s₀ i (lastSize i) 0 _ (Nat.zero_add _)
  have hend := @turn_written file { s₀ with serial := serial' } i (lastSize i)
  exact ⟨serial', .trans ⟨List.replicate 4 .write, rfl⟩
    (hloop.trans (.trans (.turn hend) ⟨[.write], rfl⟩))⟩

/-- Between two pieces. -/
structure Idle (s : Memkrypt) (sizes : List Nat) : Prop where
  reader : s.reader.pc = .wait
  encrypter : s.encrypter.pc = .wait
  writer : s.writer.pc = .wait
  semRead : s.semRead = bufferPages
  semEncrypt : s.semEncrypt = 0
  semWrite : s.semWrite = 0
  mutex : s.mutex = 1
  encrypterPage : s.encrypter.i = s.reader.i
  writerPage : s.writer.i = s.reader.i
  reads : s.reads = sizes
  pos : s.reader.pos = sizes.sum

/-- One piece goes through the three stages. -/
theorem Idle.pass (h : s.Idle sizes) (hn : file.Chunk sizes.sum n) :
    ∃ s', Runs file s s' ∧ s'.reader = s.reader.passed n ∧ s'.encrypter = s.encrypter.passed n ∧
      s'.writer = s.writer.passed n ∧ s'.reads = sizes ++ [n] ∧
      s'.semRead = bufferPages ∧ s'.semEncrypt = 0 ∧ s'.semWrite = 0 ∧ s'.mutex = 1 := by
  rw [← h.pos] at hn
  obtain ⟨buffer, hread⟩ := readPass h.reader h.semRead h.mutex hn
  have hsize : (s.filled n buffer).lastSizePerPage s.reader.i = n := Function.update_self ..
  obtain ⟨buffer', bytes, hencrypt⟩ := @encryptPass file (s.filled n buffer) n h.encrypter
    (congrArg (· + 1) h.semEncrypt) h.mutex (h.encrypterPage ▸ hsize)
  obtain ⟨serial, hwrite⟩ := @writePass file ((s.filled n buffer).encrypted n buffer' bytes) n
    h.writer (congrArg (· + 1) h.semWrite) h.mutex (h.writerPage ▸ hsize)
  refine ⟨_, hread.trans (hencrypt.trans hwrite), rfl, rfl, rfl, ?_, ?_, ?_, ?_, h.mutex⟩
  · have hreads := h.reads
    rw [Memkrypt.reads] at hreads ⊢
    simp [written, encrypted, filled, PageEvent.answer, hreads]
  · exact congrArg (· - 1 + 1) h.semRead
  · exact congrArg (· + 1 - 1) h.semEncrypt
  · exact congrArg (· + 1 - 1) h.semWrite

theorem Idle.next (h : s.Idle sizes) (hn : file.Chunk sizes.sum n) (h0 : n ≠ 0) :
    ∃ s', Runs file s s' ∧ s'.Idle (sizes ++ [n]) := by
  obtain ⟨s', hrun, hr, he, hw, hreads, hsr, hse, hsw, hmutex⟩ := h.pass hn
  rw [Reader.passed, if_neg h0] at hr
  rw [Stage.passed, if_neg h0] at he hw
  refine ⟨s', hrun, ?_, ?_, ?_, hsr, hse, hsw, hmutex, ?_, ?_, hreads, ?_⟩
  · rw [hr]
  · rw [he]
  · rw [hw]
  · rw [he, hr, h.encrypterPage]
  · rw [hw, hr, h.writerPage]
  · rw [hr, h.pos, List.sum_append, List.sum_singleton]

theorem Idle.finish (h : s.Idle sizes) (hn : file.Chunk sizes.sum 0) :
    ∃ s', Runs file s s' ∧ s'.Finished ∧ s'.reads = sizes ++ [0] := by
  obtain ⟨s', hrun, hr, he, hw, hreads, -⟩ := h.pass hn
  refine ⟨s', hrun, ⟨⟨?_, ?_⟩, ⟨?_, ?_⟩, ?_, ?_⟩, hreads⟩
  · rw [hr]; rfl
  · rw [hr]; rfl
  · rw [he]; rfl
  · rw [he]; rfl
  · rw [hw]; rfl
  · rw [hw]; rfl

/-- The stages can read a file by any pieces. -/
theorem Idle.run (h : s.Idle sizes) {pieces : List Nat}
    (hpieces : ∀ n ∈ pieces, 1 ≤ n ∧ n ≤ pageSize)
    (hsum : sizes.sum + pieces.sum = file.bytes.length) :
    ∃ s', Runs file s s' ∧ s'.Finished ∧ s'.reads = sizes ++ pieces ++ [0] := by
  induction pieces generalizing s sizes with
  | nil =>
    rw [List.append_nil]
    exact h.finish ⟨Nat.zero_le _, Nat.le_of_eq hsum, iff_of_true rfl hsum⟩
  | cons n pieces ih =>
    rw [List.forall_mem_cons] at hpieces
    rw [List.sum_cons] at hsum
    obtain ⟨⟨hpos, hle⟩, hpieces⟩ := hpieces
    obtain ⟨s', hrun, hidle⟩ := @Idle.next file s sizes n h
      ⟨hle, by omega, iff_of_false (by omega) (by omega)⟩ (by omega)
    obtain ⟨s'', hrun', hfin, hreads⟩ := ih hidle hpieces (by
      rw [List.sum_append, List.sum_singleton]
      omega)
    exact ⟨s'', hrun.trans hrun', hfin, by rw [hreads, List.append_assoc sizes]; rfl⟩

theorem boot_idle : ∃ s, Runs file boot s ∧ s.Idle [] :=
  ⟨_, .turn (t := .read 0) rfl, rfl, rfl, rfl, rfl, rfl, rfl, rfl, rfl, rfl, rfl, rfl⟩

end Memkrypt

/-- Every splitting gives the same, and the way back gives the stream. For the stages of `memkrypt`,
the splitting is what `read` answers in a run, and the result what is sent in the end. -/
theorem stream_cipher (bytes : List Byte) (hlen : bytes.length < 2 ^ 31) :
    (∀ reads buffer, Splits bytes reads → kryptEncrypt buffer reads = xorFrom 0 bytes) ∧
    (∀ reads, Splits bytes reads → ∃ s : Memkrypt,
      Reach (memkryptSystem ⟨bytes, Nat.lt_trans hlen (by decide)⟩) anyStep s ∧ s.Finished ∧
        s.reads = reads.map List.length ++ [0]) ∧
    (∀ s : Memkrypt, Reach (memkryptSystem ⟨bytes, Nat.lt_trans hlen (by decide)⟩) anyStep s →
      s.Finished → s.serial = xorFrom 0 bytes) ∧
    ∀ reads buffer, Splits (xorFrom 0 bytes) reads →
      unkrypt buffer reads = (bytes, bytes.length) := by
  refine ⟨fun reads buffer h => ?_, fun reads h => ?_, fun s hs hfin => ?_,
    fun reads buffer h => ?_⟩
  · rw [kryptEncrypt, h.cryptLoop hlen]
  · obtain ⟨s, hboot, hidle⟩ := @Memkrypt.boot_idle ⟨bytes, Nat.lt_trans hlen (by decide)⟩
    obtain ⟨s', hrun, hfin, hreads⟩ :=
      @Memkrypt.Idle.run ⟨bytes, _⟩ s [] hidle _ h.lengths h.sum_lengths
    obtain ⟨turns, hturns⟩ := hboot.trans hrun
    exact ⟨s', Reach.runList (.init rfl) hturns, hfin, hreads⟩
  · obtain ⟨off, r, e, w, hinv⟩ := Pipeline.reach hs
    rw [hinv.finished hfin, DiskFile.cipher, xorFrom]
    simp only [Nat.zero_add]
  · rw [unkrypt, h.cryptLoop (by rw [length_xorFrom]; exact hlen), xorFrom_xorFrom, length_xorFrom]

/-- Two bytes, read one by one, and decrypted at once. -/
theorem stream_cipher_pair :
    kryptEncrypt (fun _ => 0) [[0x01], [0x02]] = [0x52, 0x72] ∧
      (∃ s : Memkrypt, s.reads = [1, 1, 0] ∧ s.serial = [0x52, 0x72]) ∧
      unkrypt (fun _ => 0) [[0x52, 0x72]] = ([0x01, 0x02], 2) := by
  obtain ⟨hkrypt, hrun, hserial, hback⟩ := stream_cipher [0x01, 0x02] (by decide)
  have hreads : Splits [0x01, 0x02] [[0x01], [0x02]] := ⟨rfl, by decide⟩
  refine ⟨hkrypt _ _ hreads, ?_, hback [[0x52, 0x72]] _ ⟨rfl, by decide⟩⟩
  obtain ⟨s, hs, hfin, hsizes⟩ := hrun _ hreads
  exact ⟨s, hsizes, hserial s hs hfin⟩

end SpuriOS
