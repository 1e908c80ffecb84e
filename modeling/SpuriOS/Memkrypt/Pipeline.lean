import SpuriOS.Memkrypt.Model
import Mathlib.Data.Nat.ModEq
import Mathlib.Order.Interval.Finset.Nat

/-! # The pipeline is safe and in order

Number the fillings of the pages from 0 on: filling `k` goes to page `k % BUFFER_PAGES` and holds
the bytes of the file from `off k` to `off (k + 1)`. When `r` fillings are stored, `e` encrypted
and `w` written, the semaphores count the differences of these numbers, the indices of the three
stages are their remainders, and each filling in flight has its page for itself. -/

namespace SpuriOS

open Transition

/-- The file XORed with the key repeated from its first byte. -/
def DiskFile.cipher (file : DiskFile) : List Byte :=
  file.bytes.mapIdx fun n b => b ^^^ keyByte n

def DiskFile.byte (file : DiskFile) (n : Nat) : Byte := file.bytes.getD n 0

/-- What a page of the buffer holds, with its size. -/
inductive Contents where
  | empty
  | filled (sz : Nat)
  | encrypted (sz : Nat)
  deriving DecidableEq, Repr

/-- A page is filled when it is empty, encrypted once after that, and then written, each time
with the size of the filling. -/
def Contents.next : Contents → PageEvent → Option Contents
  | .empty, .filled _ sz => some (.filled sz)
  | .filled sz, .encrypted _ sz' => if sz' = sz then some (.encrypted sz) else none
  | .encrypted sz, .written _ sz' => if sz' = sz then some .empty else none
  | _, _ => none

/-- What page `i` holds after the events of `log`, if they all came in turn. -/
def pageContents (i : Nat) (log : List PageEvent) : Option Contents :=
  (log.filter (·.page = i)).foldlM Contents.next .empty

section
variable {log : List PageEvent} {ev : PageEvent} {i : Nat}

theorem pageContents_concat (h : ev.page = i) :
    pageContents i (log ++ [ev]) = (pageContents i log).bind (·.next ev) := by
  simp [pageContents, h]

theorem pageContents_concat_of_ne (h : ev.page ≠ i) :
    pageContents i (log ++ [ev]) = pageContents i log := by
  simp [pageContents, h]

end

/-- The pages that the stages share. -/
inductive SharedPage where
  | buffer (i : Nat)
  | sizes
  deriving DecidableEq, Repr

/-- The shared page that the next step of the reader reads or writes. -/
def Reader.accesses (r : Reader) : Option SharedPage :=
  match r.pc with
  | .clear | .read => some (.buffer r.i)
  | .store => some .sizes
  | _ => none

def Stage.accesses (st : Stage) : Option SharedPage :=
  match st.pc with
  | .load => some .sizes
  | .work => some (.buffer st.i)
  | _ => none

/-- All three stages have processed the terminating 0. -/
def Memkrypt.Finished (s : Memkrypt) : Prop :=
  (s.reader.pc = .done ∧ s.reader.sz = 0) ∧ (s.encrypter.pc = .done ∧ s.encrypter.sz = 0) ∧
    s.writer.pc = .done ∧ s.writer.sz = 0

/-- What the pipeline promises of every state it reaches. -/
structure PipelineSafe (file : DiskFile) (s : Memkrypt) : Prop where
  readEncrypt : ∀ p, s.reader.accesses = some p → s.encrypter.accesses ≠ some p
  readWrite : ∀ p, s.reader.accesses = some p → s.writer.accesses ≠ some p
  encryptWrite : ∀ p, s.encrypter.accesses = some p → s.writer.accesses ≠ some p
  once : ∀ i < bufferPages, pageContents i s.log ≠ none
  encryptSize : s.encrypter.pc = .work →
    pageContents s.encrypter.i s.log = some (.filled s.encrypter.sz)
  writeSize : s.writer.pc = .work →
    pageContents s.writer.i s.log = some (.encrypted s.writer.sz)
  sent : s.serial <+: file.cipher
  stuck : (∀ t, s.turn file t = none) → s.Finished
  finished : s.Finished → s.serial = file.cipher

/-! ## The stages and their counters -/

/-- The reader holds a token of `sem_read` for a filling that is not stored. -/
def ReadPc.taken : ReadPc → Nat
  | .clear | .read | .lock | .store => 1
  | _ => 0

@[simp] theorem ReadPc.taken_eq :
    mark.taken = 0 ∧ wait.taken = 0 ∧ clear.taken = 1 ∧ read.taken = 1 ∧ lock.taken = 1 ∧
    store.taken = 1 ∧ unlock.taken = 0 ∧ signal.taken = 0 ∧ done.taken = 0 := by decide

/-- The tokens that the reader has not yet put into `sem_read`. -/
def ReadPc.unmarked : ReadPc → Nat
  | .mark => bufferPages
  | _ => 0

@[simp] theorem ReadPc.unmarked_eq :
    mark.unmarked = bufferPages ∧ wait.unmarked = 0 ∧ clear.unmarked = 0 ∧ read.unmarked = 0 ∧
    lock.unmarked = 0 ∧ store.unmarked = 0 ∧ unlock.unmarked = 0 ∧ signal.unmarked = 0 ∧
    done.unmarked = 0 := by decide

/-- The reader has stored a filling and not signalled it. -/
def ReadPc.owes : ReadPc → Nat
  | .unlock | .signal => 1
  | _ => 0

@[simp] theorem ReadPc.owes_eq :
    mark.owes = 0 ∧ wait.owes = 0 ∧ clear.owes = 0 ∧ read.owes = 0 ∧ lock.owes = 0 ∧
    store.owes = 0 ∧ unlock.owes = 1 ∧ signal.owes = 1 ∧ done.owes = 0 := by decide

/-- The reader's index is still that of the last filling it stored. -/
def ReadPc.late : ReadPc → Nat
  | .unlock | .signal | .done => 1
  | _ => 0

@[simp] theorem ReadPc.late_eq :
    mark.late = 0 ∧ wait.late = 0 ∧ clear.late = 0 ∧ read.late = 0 ∧ lock.late = 0 ∧
    store.late = 0 ∧ unlock.late = 1 ∧ signal.late = 1 ∧ done.late = 1 := by decide

/-- The reader has read a filling that it has not stored. -/
def ReadPc.ahead : ReadPc → Nat
  | .lock | .store => 1
  | _ => 0

@[simp] theorem ReadPc.ahead_eq :
    mark.ahead = 0 ∧ wait.ahead = 0 ∧ clear.ahead = 0 ∧ read.ahead = 0 ∧ lock.ahead = 1 ∧
    store.ahead = 1 ∧ unlock.ahead = 0 ∧ signal.ahead = 0 ∧ done.ahead = 0 := by decide

def ReadPc.locks : ReadPc → Nat
  | .store | .unlock => 1
  | _ => 0

@[simp] theorem ReadPc.locks_eq :
    mark.locks = 0 ∧ wait.locks = 0 ∧ clear.locks = 0 ∧ read.locks = 0 ∧ lock.locks = 0 ∧
    store.locks = 1 ∧ unlock.locks = 1 ∧ signal.locks = 0 ∧ done.locks = 0 := by decide

def StagePc.taken : StagePc → Nat
  | .lock | .load | .unlock | .work => 1
  | _ => 0

@[simp] theorem StagePc.taken_eq :
    wait.taken = 0 ∧ lock.taken = 1 ∧ load.taken = 1 ∧ unlock.taken = 1 ∧ work.taken = 1 ∧
    signal.taken = 0 ∧ done.taken = 0 := by decide

def StagePc.owes : StagePc → Nat
  | .signal => 1
  | _ => 0

@[simp] theorem StagePc.owes_eq :
    wait.owes = 0 ∧ lock.owes = 0 ∧ load.owes = 0 ∧ unlock.owes = 0 ∧ work.owes = 0 ∧
    signal.owes = 1 ∧ done.owes = 0 := by decide

def StagePc.late : StagePc → Nat
  | .signal | .done => 1
  | _ => 0

@[simp] theorem StagePc.late_eq :
    wait.late = 0 ∧ lock.late = 0 ∧ load.late = 0 ∧ unlock.late = 0 ∧ work.late = 0 ∧
    signal.late = 1 ∧ done.late = 1 := by decide

def StagePc.locks : StagePc → Nat
  | .load | .unlock => 1
  | _ => 0

@[simp] theorem StagePc.locks_eq :
    wait.locks = 0 ∧ lock.locks = 0 ∧ load.locks = 1 ∧ unlock.locks = 1 ∧ work.locks = 0 ∧
    signal.locks = 0 ∧ done.locks = 0 := by decide

/-- The stage knows the size of the page it works on. -/
def StagePc.sized : StagePc → Bool
  | .unlock | .work => true
  | _ => false

@[simp] theorem StagePc.sized_eq :
    wait.sized = false ∧ lock.sized = false ∧ load.sized = false ∧ unlock.sized = true ∧
    work.sized = true ∧ signal.sized = false ∧ done.sized = false := by decide

/-- The bytes of the page that the stage has gone through. -/
def Stage.count (st : Stage) : Nat := if st.pc = .work then st.j else 0

/-- The reader after it stored `r` fillings. -/
structure Reader.At (file : DiskFile) (r : Reader) (off : Nat → Nat) (n : Nat) : Prop where
  index : (r.i + r.pc.late) % bufferPages = n % bufferPages
  index_lt : r.i < bufferPages
  zero : off 0 = 0
  mono : ∀ k < n + r.pc.ahead, off k ≤ off (k + 1)
  pos : r.pos = off (n + r.pc.ahead)
  pos_le : r.pos ≤ file.bytes.length
  ahead : r.pc.ahead = 1 → off (n + 1) = off n + r.sz
  late : r.pc.late = 1 → ∃ k, n = k + 1 ∧ off n = off k + r.sz
  done : r.pc = .done → r.sz = 0
  /-- Only the last filling is empty, and it ends the file. -/
  last : ∀ k < n + r.pc.ahead, off (k + 1) = off k →
    k + 1 = n + r.pc.ahead ∧ r.pc.ahead + r.pc.late = 1 ∧ off k = file.bytes.length

/-- A stage after it finished its work on `n` fillings. -/
structure Stage.At (st : Stage) (off : Nat → Nat) (n : Nat) : Prop where
  index : (st.i + st.pc.late) % bufferPages = n % bufferPages
  index_lt : st.i < bufferPages
  sized : st.pc.sized → off (n + 1) = off n + st.sz
  j_le : st.pc = .work → st.j ≤ st.sz
  late : st.pc.late = 1 → ∃ k, n = k + 1 ∧ off n = off k + st.sz
  done : st.pc = .done → st.sz = 0
  /-- A stage that goes on has not met the terminating 0. -/
  goesOn : st.pc.late = 0 → ∀ k < n, off (k + 1) ≠ off k

/-- The semaphores count what the stages have handed on. -/
structure Memkrypt.Tokens (s : Memkrypt) (r e w : Nat) : Prop where
  read : s.semRead + r + s.reader.pc.taken + s.reader.pc.unmarked + s.writer.pc.owes =
    w + bufferPages
  encrypt : s.semEncrypt + e + s.encrypter.pc.taken + s.reader.pc.owes = r
  write : s.semWrite + w + s.writer.pc.taken + s.encrypter.pc.owes = e
  mutex : s.mutex + s.reader.pc.locks + s.encrypter.pc.locks + s.writer.pc.locks = 1

/-- What filling `k` is to its page. -/
def stageOf (off : Nat → Nat) (r e k : Nat) : Contents :=
  if k < e then .encrypted (off (k + 1) - off k)
  else if k < r then .filled (off (k + 1) - off k)
  else .empty

/-- What is in the shared pages and what has left them. -/
structure Memkrypt.Pages (file : DiskFile) (s : Memkrypt) (off : Nat → Nat) (r e w : Nat) :
    Prop where
  sizes : ∀ k, w ≤ k → k < r → s.lastSizePerPage (k % bufferPages) = off (k + 1) - off k
  raw : ∀ k, e ≤ k → k < r + s.reader.pc.ahead → ∀ j, off k + j < off (k + 1) →
    s.buffer (k % bufferPages) j =
      if k = e ∧ j < s.encrypter.count then file.byte (off k + j) ^^^ keyByte (off k + j)
      else file.byte (off k + j)
  encrypted : ∀ k, w ≤ k → k < e → ∀ j, off k + j < off (k + 1) →
    s.buffer (k % bufferPages) j = file.byte (off k + j) ^^^ keyByte (off k + j)
  bytes : s.bytes = (off e + s.encrypter.count) % 2 ^ 32
  serial : s.serial = file.cipher.take (off w + s.writer.count)
  contents : ∀ k, w ≤ k → k < w + bufferPages →
    pageContents (k % bufferPages) s.log = some (stageOf off r e k)

/-- The invariant: `r` fillings are stored, `e` encrypted and `w` written. -/
structure Pipeline (file : DiskFile) (s : Memkrypt) (off : Nat → Nat) (r e w : Nat) : Prop where
  reader : s.reader.At file off r
  encrypter : s.encrypter.At off e
  writer : s.writer.At off w
  tokens : s.Tokens r e w
  pages : s.Pages file off r e w

section
variable {file : DiskFile} {s s' : Memkrypt} {off off' : Nat → Nat} {r e w n k : Nat}

/-! ## One stage moves -/

namespace Stage
variable {st : Stage}

theorem count_of_ne (h : st.pc ≠ .work) : st.count = 0 := if_neg h

theorem count_of_work (h : st.pc = .work) : st.count = st.j := if_pos h

theorem At.move (h : st.At off n) {pc : StagePc} (hst : st.pc.late = 0) (hlate : pc.late = 0)
    (hsized : pc.sized = false) : { st with pc := pc }.At off n where
  index := (hlate.trans hst.symm) ▸ h.index
  index_lt := h.index_lt
  sized hp := nomatch hsized.symm.trans hp
  j_le hp := by cases hp; cases hsized
  late hp := nomatch hlate.symm.trans hp
  done hp := by cases hp; cases hlate
  goesOn _ := h.goesOn hst

theorem At.load (h : st.At off n) (hpc : st.pc = .load) {sz : Nat}
    (hsz : off (n + 1) = off n + sz) :
    { st with pc := .unlock, sz := sz }.At off n where
  index := by simpa [hpc] using h.index
  index_lt := h.index_lt
  sized _ := hsz
  j_le := nofun
  late := nofun
  done := nofun
  goesOn _ := h.goesOn (by simp [hpc])

theorem At.start (h : st.At off n) (hpc : st.pc = .unlock) :
    { st with pc := .work, j := 0 }.At off n where
  index := by simpa [hpc] using h.index
  index_lt := h.index_lt
  sized _ := h.sized (by simp [hpc])
  j_le _ := Nat.zero_le _
  late := nofun
  done := nofun
  goesOn _ := h.goesOn (by simp [hpc])

theorem At.advance (h : st.At off n) (hpc : st.pc = .work) (hj : st.j < st.sz) :
    { st with pc := .work, j := st.j + 1 }.At off n where
  index := by simpa [hpc] using h.index
  index_lt := h.index_lt
  sized _ := h.sized (by simp [hpc])
  j_le _ := hj
  late := nofun
  done := nofun
  goesOn _ := h.goesOn (by simp [hpc])

theorem At.finish (h : st.At off n) (hpc : st.pc = .work) :
    { st with pc := .signal }.At off (n + 1) where
  index := by
    have hi : st.i % bufferPages = n % bufferPages := by simpa [hpc] using h.index
    exact Nat.ModEq.add_right 1 hi
  index_lt := h.index_lt
  sized := nofun
  j_le := nofun
  late _ := ⟨n, rfl, h.sized (by simp [hpc])⟩
  done := nofun
  goesOn := nofun

theorem At.stop (h : st.At off n) (hpc : st.pc = .signal) (hsz : st.sz = 0) :
    { st with pc := .done }.At off n where
  index := by simpa [hpc] using h.index
  index_lt := h.index_lt
  sized := nofun
  j_le := nofun
  late _ := h.late (by simp [hpc])
  done _ := hsz
  goesOn := nofun

theorem At.again (h : st.At off n) (hpc : st.pc = .signal) (hsz : st.sz ≠ 0)
    (hbefore : ∀ k, k + 1 < n → off (k + 1) ≠ off k) :
    { st with pc := .wait, i := (st.i + 1) % bufferPages }.At off n where
  index := by simpa [hpc] using h.index
  index_lt := Nat.mod_lt _ (by decide)
  sized := nofun
  j_le := nofun
  late := nofun
  done := nofun
  goesOn _ k hk := by
    obtain ⟨m, rfl, hm⟩ := h.late (by simp [hpc])
    rcases Nat.lt_succ_iff_lt_or_eq.mp hk with hk | rfl
    · exact hbefore k (by omega)
    · omega

/-- The offsets of the fillings that are not stored do not matter to a stage. -/
theorem At.congr (h : st.At off n) (hoff : ∀ k ≤ r, off' k = off k) (hn : n + st.pc.taken ≤ r) :
    st.At off' n where
  index := h.index
  index_lt := h.index_lt
  sized hp := by
    have htaken : st.pc.taken = 1 := by cases hpc : st.pc <;> simp_all
    rw [hoff _ (by omega), hoff _ (by omega)]
    exact h.sized hp
  j_le := h.j_le
  late hp := by
    obtain ⟨k, rfl, hk⟩ := h.late hp
    exact ⟨k, rfl, by rw [hoff _ (by omega), hoff _ (by omega)]; exact hk⟩
  done := h.done
  goesOn hp k hk := by
    rw [hoff _ (by omega), hoff _ (by omega)]
    exact h.goesOn hp k hk

end Stage

namespace Reader
variable {rd : Reader}

theorem At.move (h : rd.At file off n) {pc : ReadPc} (hlate : pc.late = rd.pc.late)
    (hahead : pc.ahead = rd.pc.ahead) (hdone : pc ≠ .done) :
    { rd with pc := pc }.At file off n where
  index := hlate ▸ h.index
  index_lt := h.index_lt
  zero := h.zero
  mono := hahead ▸ h.mono
  pos := hahead ▸ h.pos
  pos_le := h.pos_le
  ahead hp := h.ahead (hahead ▸ hp)
  late hp := h.late (hlate ▸ hp)
  done hp := absurd hp hdone
  last := hahead ▸ hlate ▸ h.last

/-- The reader has read the bytes of the next filling. -/
theorem At.read (h : rd.At file off r) (hpc : rd.pc = .read) (hn : file.Chunk rd.pos n)
    (hoff : ∀ k ≤ r, off' k = off k) (hnext : off' (r + 1) = off r + n) :
    { rd with pc := .lock, sz := n, pos := rd.pos + n }.At file off' r := by
  have hpos : rd.pos = off r := by simpa [hpc] using h.pos
  constructor
  case index => simpa [hpc] using h.index
  case index_lt => exact h.index_lt
  case zero => rw [hoff 0 (Nat.zero_le r)]; exact h.zero
  case mono =>
    intro k hk
    rcases Nat.lt_succ_iff_lt_or_eq.mp hk with hk | rfl
    · rw [hoff _ (by omega), hoff _ (by omega)]
      exact h.mono k (by omega)
    · rw [hnext, hoff _ (Nat.le_refl _)]
      omega
  case pos => simp [hnext, hpos]
  case pos_le => exact hn.left
  case ahead => intro _; rw [hnext, hoff _ (Nat.le_refl r)]
  case late => nofun
  case done => nofun
  case last =>
    intro k hk hzero
    rcases Nat.lt_succ_iff_lt_or_eq.mp hk with hk | rfl
    · rw [hoff _ (by omega), hoff _ (by omega)] at hzero
      have := (h.last k (by omega) hzero).2.1
      simp [hpc] at this
    · rw [hnext, hoff _ (Nat.le_refl _)] at hzero
      refine ⟨rfl, rfl, ?_⟩
      rw [hoff _ (Nat.le_refl _), ← hpos]
      exact hn.eof.mp (by omega)

theorem At.store (h : rd.At file off r) (hpc : rd.pc = .store) :
    { rd with pc := .unlock }.At file off (r + 1) where
  index := by
    have hi : rd.i % bufferPages = r % bufferPages := by simpa [hpc] using h.index
    exact Nat.ModEq.add_right 1 hi
  index_lt := h.index_lt
  zero := h.zero
  mono := by simpa [hpc] using h.mono
  pos := by simpa [hpc] using h.pos
  pos_le := h.pos_le
  ahead := nofun
  late _ := ⟨r, rfl, h.ahead (by simp [hpc])⟩
  done := nofun
  last := by simpa [hpc] using h.last

theorem At.stop (h : rd.At file off n) (hpc : rd.pc = .signal) (hsz : rd.sz = 0) :
    { rd with pc := .done }.At file off n where
  index := by simpa [hpc] using h.index
  index_lt := h.index_lt
  zero := h.zero
  mono := by simpa [hpc] using h.mono
  pos := by simpa [hpc] using h.pos
  pos_le := h.pos_le
  ahead := nofun
  late _ := h.late (by simp [hpc])
  done _ := hsz
  last := by simpa [hpc] using h.last

theorem At.again (h : rd.At file off n) (hpc : rd.pc = .signal) (hsz : rd.sz ≠ 0) :
    { rd with pc := .wait, i := (rd.i + 1) % bufferPages }.At file off n where
  index := by simpa [hpc] using h.index
  index_lt := Nat.mod_lt _ (by decide)
  zero := h.zero
  mono := by simpa [hpc] using h.mono
  pos := by simpa [hpc] using h.pos
  pos_le := h.pos_le
  ahead := nofun
  late := nofun
  done := nofun
  last k hk hzero := by
    obtain ⟨m, rfl, hm⟩ := h.late (by simp [hpc])
    have hlast := (h.last k (by simpa [hpc] using hk) hzero).1
    simp only [hpc, ReadPc.ahead_eq, Nat.add_zero, Nat.add_right_cancel_iff] at hlast
    subst hlast
    omega

end Reader

/-! ## The pages -/

/-- The fillings in flight have different pages. -/
theorem page_inj {a b m : Nat} (ha : m ≤ a ∧ a < m + bufferPages)
    (hb : m ≤ b ∧ b < m + bufferPages) (h : a % bufferPages = b % bufferPages) : a = b :=
  Nat.mod_injOn_Ico m bufferPages (by simpa using ha) (by simpa using hb) h

theorem Stage.At.i_eq {st : Stage} (h : st.At off n) (hlate : st.pc.late = 0) :
    st.i = n % bufferPages := by
  have := h.index
  rwa [hlate, Nat.add_zero, Nat.mod_eq_of_lt h.index_lt] at this

theorem Reader.At.i_eq {rd : Reader} (h : rd.At file off n) (hlate : rd.pc.late = 0) :
    rd.i = n % bufferPages := by
  have := h.index
  rwa [hlate, Nat.add_zero, Nat.mod_eq_of_lt h.index_lt] at this

theorem Memkrypt.Tokens.order (h : s.Tokens r e w) :
    w ≤ e ∧ e ≤ r ∧ r + s.reader.pc.taken ≤ w + bufferPages := by
  have h₁ := h.read
  have h₂ := h.encrypt
  have h₃ := h.write
  omega

/-- The bytes of the fillings are bytes of the file. -/
theorem Reader.At.off_le {rd : Reader} (h : rd.At file off n) (hk : k ≤ n + rd.pc.ahead) :
    off k ≤ file.bytes.length := by
  have hmono : ∀ m ≤ n + rd.pc.ahead, ∀ i ≤ m, off i ≤ off m := by
    intro m
    induction m with
    | zero => intro _ i hi; rw [Nat.le_zero.mp hi]
    | succ m ih =>
      intro hm i hi
      rcases Nat.le_succ_iff.mp hi with hi | rfl
      · exact (ih (by omega) i hi).trans (h.mono m (by omega))
      · exact Nat.le_refl _
  calc off k ≤ off (n + rd.pc.ahead) := hmono _ (Nat.le_refl _) k hk
    _ = rd.pos := h.pos.symm
    _ ≤ file.bytes.length := h.pos_le

theorem cipher_take_succ (hn : n < file.bytes.length) :
    file.cipher.take (n + 1) = file.cipher.take n ++ [file.byte n ^^^ keyByte n] := by
  simp [DiskFile.cipher, DiskFile.byte, List.take_add_one, hn]

theorem length_cipher : file.cipher.length = file.bytes.length := by
  simp [DiskFile.cipher]

namespace Memkrypt.Pages

/-- A step that leaves the pages alone. -/
theorem frame (h : s.Pages file off r e w) (hsizes : s'.lastSizePerPage = s.lastSizePerPage)
    (hbuffer : s'.buffer = s.buffer) (hbytes : s'.bytes = s.bytes) (hserial : s'.serial = s.serial)
    (hlog : s'.log = s.log) (hahead : s'.reader.pc.ahead = s.reader.pc.ahead)
    (he : s'.encrypter.count = s.encrypter.count) (hw : s'.writer.count = s.writer.count) :
    s'.Pages file off r e w where
  sizes := hsizes ▸ h.sizes
  raw := by rw [hbuffer, hahead, he]; exact h.raw
  encrypted := hbuffer ▸ h.encrypted
  bytes := by rw [hbytes, he]; exact h.bytes
  serial := by rw [hserial, hw]; exact h.serial
  contents := hlog ▸ h.contents

/-- The offsets of the fillings that are not stored do not matter. -/
theorem congr (h : s.Pages file off r e w) (ht : s.Tokens r e w)
    (hoff : ∀ k ≤ r, off' k = off k) (hahead : s.reader.pc.ahead = 0) :
    s.Pages file off' r e w := by
  obtain ⟨hwe, her, -⟩ := ht.order
  constructor
  case sizes =>
    intro k hk hkr
    rw [hoff k (by omega), hoff (k + 1) hkr]
    exact h.sizes k hk hkr
  case raw =>
    intro k hk hkr j
    rw [hahead, Nat.add_zero] at hkr
    rw [hoff k (by omega), hoff (k + 1) hkr]
    exact h.raw k hk (by omega) j
  case encrypted =>
    intro k hk hke j
    rw [hoff k (by omega), hoff (k + 1) (by omega)]
    exact h.encrypted k hk hke j
  case bytes => rw [hoff e her]; exact h.bytes
  case serial => rw [hoff w (by omega)]; exact h.serial
  case contents =>
    intro k hk hkw
    rw [h.contents k hk hkw]
    simp only [stageOf]
    split
    · rw [hoff k (by omega), hoff (k + 1) (by omega)]
    · split
      · rw [hoff k (by omega), hoff (k + 1) (by omega)]
      · rfl

/-- The reader may overwrite the page of the next filling. -/
theorem fill (h : s.Pages file off r e w) (ht : s.Tokens r e w) (htaken : s.reader.pc.taken = 1)
    (hahead : s.reader.pc.ahead = 0) {pc : ReadPc} {sz pos m : Nat} {src : Nat → Byte}
    (hsrc : pc.ahead = 1 → off (r + 1) = off r + m ∧ ∀ j < m, src j = file.byte (off r + j))
    (hi : s.reader.i = r % bufferPages) :
    { s with
      buffer := s.fillPage s.reader.i m src
      reader := ⟨pc, s.reader.i, sz, pos⟩ }.Pages file off r e w := by
  obtain ⟨hwe, her, hr⟩ := ht.order
  rw [htaken] at hr
  have hother : ∀ k, w ≤ k → k < r →
      s.fillPage s.reader.i m src (k % bufferPages) = s.buffer (k % bufferPages) := by
    intro k hk hkr
    refine Function.update_of_ne (fun heq => ?_) _ _
    have := page_inj ⟨hk, by omega⟩ ⟨by omega, by omega⟩ (heq.trans hi)
    omega
  constructor
  case sizes => exact h.sizes
  case raw =>
    intro k hk hkr j hj
    by_cases hlt : k < r
    · show s.fillPage _ _ _ _ _ = _
      rw [hother k (by omega) hlt]
      exact h.raw k hk (by omega) j hj
    · have hpc : pc.ahead = 1 := by
        have : pc.ahead ≤ 1 := by cases pc <;> simp
        simp only at hkr
        omega
      obtain ⟨hoff, hbyte⟩ := hsrc hpc
      obtain rfl : k = r := by simp only [hpc] at hkr; omega
      -- the encrypter has a token for the page it works on, so it is behind the reader
      have hcount : ¬(k = e ∧ j < s.encrypter.count) := by
        rintro ⟨rfl, hj⟩
        have hwork : s.encrypter.pc = .work := by
          by_contra hne
          rw [Stage.count_of_ne hne] at hj
          omega
        have := ht.encrypt
        simp only [hwork, StagePc.taken_eq] at this
        omega
      rw [if_neg hcount]
      show s.fillPage _ _ _ _ _ = _
      rw [hi, fillPage, Function.update_self, ← Nat.zero_add j, Memory.write_add (by omega),
        Nat.zero_add]
      exact hbyte j (by omega)
  case encrypted =>
    intro k hk hke j hj
    show s.fillPage _ _ _ _ _ = _
    rw [hother k hk (by omega)]
    exact h.encrypted k hk hke j hj
  case bytes => exact h.bytes
  case serial => exact h.serial
  case contents => exact h.contents

/-- An event on the page of filling `m` leaves the other pages what they are. -/
theorem contents_of_ne (h : s.Pages file off r e w) {m : Nat}
    (hm : w ≤ m ∧ m < w + bufferPages) (ev : PageEvent) (hev : ev.page = m % bufferPages)
    (hk : w ≤ k ∧ k < w + bufferPages) (hne : k ≠ m) :
    pageContents (k % bufferPages) (s.log ++ [ev]) = some (stageOf off r e k) := by
  rw [pageContents_concat_of_ne fun heq => hne (page_inj hk hm (heq.symm.trans hev))]
  exact h.contents k hk.1 hk.2

theorem contents_self (h : s.Pages file off r e w) {m : Nat}
    (hm : w ≤ m ∧ m < w + bufferPages) (ev : PageEvent) (hev : ev.page = m % bufferPages) :
    pageContents (m % bufferPages) (s.log ++ [ev]) = (stageOf off r e m).next ev := by
  rw [pageContents_concat hev, h.contents m hm.1 hm.2]
  rfl

/-- `set_last_size` announces the filling. -/
theorem store (h : s.Pages file off r e w) (ht : s.Tokens r e w) (hpc : s.reader.pc = .store)
    (hi : s.reader.i = r % bufferPages) (hsz : off (r + 1) = off r + s.reader.sz) :
    { s with
      lastSizePerPage := Function.update s.lastSizePerPage s.reader.i s.reader.sz
      reader := { s.reader with pc := .unlock }
      log := s.log ++ [PageEvent.filled s.reader.i s.reader.sz] }.Pages file off (r + 1) e w := by
  obtain ⟨hwe, her, hr⟩ := ht.order
  simp only [hpc, ReadPc.taken_eq] at hr
  have hin : w ≤ r ∧ r < w + bufferPages := ⟨by omega, by omega⟩
  constructor
  case sizes =>
    intro k hk hkr
    simp only [hi]
    rcases Nat.lt_succ_iff_lt_or_eq.mp hkr with hkr | rfl
    · rw [Function.update_of_ne fun heq => by have := page_inj ⟨hk, by omega⟩ hin heq; omega]
      exact h.sizes k hk hkr
    · rw [Function.update_self, hsz, Nat.add_sub_cancel_left]
  case raw => simpa [hpc] using h.raw
  case encrypted => exact h.encrypted
  case bytes => exact h.bytes
  case serial => exact h.serial
  case contents =>
    intro k hk hkw
    by_cases hne : k = r
    · subst hne
      rw [h.contents_self hin (.filled s.reader.i s.reader.sz) hi]
      simp only [stageOf, Nat.not_lt.mpr her, Nat.lt_irrefl, if_false, Nat.lt_succ_self, if_true,
        Contents.next, hsz, Nat.add_sub_cancel_left]
    · rw [h.contents_of_ne hin (.filled s.reader.i s.reader.sz) hi ⟨hk, hkw⟩ hne]
      simp only [stageOf, show k < r + 1 ↔ k < r by omega]

/-- The loop of `memkrypt_encrypt` takes the next byte. -/
theorem encryptByte (h : s.Pages file off r e w) (ht : s.Tokens r e w)
    (hpc : s.encrypter.pc = .work) (hi : s.encrypter.i = e % bufferPages)
    (hsz : off (e + 1) = off e + s.encrypter.sz) (hj : s.encrypter.j < s.encrypter.sz)
    (hlt : off e + s.encrypter.j < 2 ^ 32) :
    { s with
      buffer := Function.update s.buffer s.encrypter.i
        (Function.update (s.buffer s.encrypter.i) s.encrypter.j
          (s.buffer s.encrypter.i s.encrypter.j ^^^ keyByte s.bytes))
      encrypter := { s.encrypter with pc := .work, j := s.encrypter.j + 1 }
      bytes := (s.bytes + 1) % 2 ^ 32 }.Pages file off r e w := by
  obtain ⟨hwe, her, hr⟩ := ht.order
  have htaken := ht.encrypt
  simp only [hpc, StagePc.taken_eq] at htaken
  have hin : w ≤ e ∧ e < w + bufferPages := ⟨hwe, by omega⟩
  have hbytes : s.bytes = off e + s.encrypter.j := by
    rw [h.bytes, Stage.count_of_work hpc, Nat.mod_eq_of_lt hlt]
  have hold : s.buffer (e % bufferPages) s.encrypter.j = file.byte (off e + s.encrypter.j) := by
    rw [h.raw e (Nat.le_refl _) (by omega) _ (by omega), Stage.count_of_work hpc]
    exact if_neg fun hlt => Nat.lt_irrefl _ hlt.2
  simp only [hi, hbytes, hold]
  constructor
  case sizes => exact h.sizes
  case raw =>
    intro k hk hkr j hkj
    dsimp only at hkr ⊢
    simp only [Stage.count, if_true]
    by_cases hke : k = e
    · subst hke
      rw [Function.update_self]
      rcases Nat.lt_trichotomy j s.encrypter.j with hjj | rfl | hjj
      · rw [Function.update_of_ne (by omega), h.raw k hk hkr j hkj, Stage.count_of_work hpc,
          if_pos ⟨rfl, hjj⟩, if_pos ⟨rfl, by omega⟩]
      · rw [Function.update_self, if_pos ⟨rfl, Nat.lt_succ_self _⟩]
      · rw [Function.update_of_ne (by omega), h.raw k hk hkr j hkj, Stage.count_of_work hpc,
          if_neg (by omega), if_neg (by omega)]
    · rw [Function.update_of_ne fun heq => ?_, h.raw k hk hkr j hkj]
      · simp only [hke, false_and, if_false]
      · have hahead : s.reader.pc.ahead ≤ s.reader.pc.taken := by
          cases s.reader.pc <;> simp
        exact hke (page_inj ⟨by omega, by omega⟩ hin heq)
  case encrypted =>
    intro k hk hke j hkj
    dsimp only
    rw [Function.update_of_ne fun heq => by have := page_inj ⟨hk, by omega⟩ hin heq; omega]
    exact h.encrypted k hk hke j hkj
  case bytes =>
    simp only [Stage.count, if_true]
    rw [Nat.add_assoc]
  case serial => exact h.serial
  case contents => exact h.contents

/-- The whole page is encrypted. -/
theorem encrypted_all (h : s.Pages file off r e w) (ht : s.Tokens r e w)
    (hpc : s.encrypter.pc = .work) (hi : s.encrypter.i = e % bufferPages)
    (hsz : off (e + 1) = off e + s.encrypter.sz) (hj : s.encrypter.j = s.encrypter.sz) :
    { s with
      encrypter := { s.encrypter with pc := .signal }
      log := s.log ++ [PageEvent.encrypted s.encrypter.i s.encrypter.sz] }.Pages
        file off r (e + 1) w := by
  obtain ⟨hwe, her, hr⟩ := ht.order
  have htaken := ht.encrypt
  simp only [hpc, StagePc.taken_eq] at htaken
  have hin : w ≤ e ∧ e < w + bufferPages := ⟨hwe, by omega⟩
  constructor
  case sizes => exact h.sizes
  case raw =>
    intro k hk hkr j hkj
    dsimp only at hkr ⊢
    have hcount : { s.encrypter with pc := .signal }.count = 0 := if_neg (nofun)
    rw [hcount, h.raw k (by omega) hkr j hkj, if_neg (by omega), if_neg (by omega)]
  case encrypted =>
    intro k hk hke j hkj
    rcases Nat.lt_succ_iff_lt_or_eq.mp hke with hke | rfl
    · exact h.encrypted k hk hke j hkj
    · rw [h.raw k (Nat.le_refl _) (by omega) j hkj, Stage.count_of_work hpc,
        if_pos ⟨rfl, by omega⟩]
  case bytes =>
    rw [Stage.count_of_ne (show StagePc.signal ≠ .work from nofun), hsz, ← hj,
      ← Stage.count_of_work hpc]
    exact h.bytes
  case serial => exact h.serial
  case contents =>
    intro k hk hkw
    by_cases hne : k = e
    · subst hne
      rw [h.contents_self hin (.encrypted s.encrypter.i s.encrypter.sz) hi]
      simp only [stageOf, Nat.lt_irrefl, if_false, show k < r by omega, if_true, Contents.next,
        hsz, Nat.add_sub_cancel_left, Nat.lt_succ_self]
    · rw [h.contents_of_ne hin (.encrypted s.encrypter.i s.encrypter.sz) hi ⟨hk, hkw⟩ hne]
      simp only [stageOf, show k < e + 1 ↔ k < e by omega]

/-- `serial_write` sends the next byte. -/
theorem writeByte (h : s.Pages file off r e w) (ht : s.Tokens r e w)
    (hpc : s.writer.pc = .work) (hi : s.writer.i = w % bufferPages)
    (hsz : off (w + 1) = off w + s.writer.sz) (hj : s.writer.j < s.writer.sz)
    (hlt : off w + s.writer.j < file.bytes.length) :
    { s with
      serial := s.serial ++ [s.buffer s.writer.i s.writer.j]
      writer := { s.writer with pc := .work, j := s.writer.j + 1 } }.Pages file off r e w where
  sizes := h.sizes
  raw := h.raw
  encrypted := h.encrypted
  bytes := h.bytes
  serial := by
    have htaken := ht.write
    simp only [hpc, StagePc.taken_eq] at htaken
    simp only [Stage.count, if_true]
    rw [h.serial, Stage.count_of_work hpc, hi,
      h.encrypted w (Nat.le_refl _) (by omega) _ (by omega), ← Nat.add_assoc,
      cipher_take_succ hlt]
  contents := h.contents

/-- The whole page is written. -/
theorem written_all (h : s.Pages file off r e w) (ht : s.Tokens r e w)
    (hpc : s.writer.pc = .work) (hi : s.writer.i = w % bufferPages)
    (hsz : off (w + 1) = off w + s.writer.sz) (hj : s.writer.j = s.writer.sz) :
    { s with
      writer := { s.writer with pc := .signal }
      log := s.log ++ [PageEvent.written s.writer.i s.writer.sz] }.Pages file off r e (w + 1) := by
  obtain ⟨hwe, her, hr⟩ := ht.order
  have htaken := ht.write
  simp only [hpc, StagePc.taken_eq] at htaken
  have hin : w ≤ w ∧ w < w + bufferPages := ⟨Nat.le_refl _, by omega⟩
  constructor
  case sizes => exact fun k hk => h.sizes k (by omega)
  case raw => exact h.raw
  case encrypted => exact fun k hk => h.encrypted k (by omega)
  case bytes => exact h.bytes
  case serial =>
    rw [Stage.count_of_ne (show StagePc.signal ≠ .work from nofun), hsz, ← hj,
      ← Stage.count_of_work hpc]
    exact h.serial
  case contents =>
    intro k hk hkw
    by_cases hne : k = w + bufferPages
    · -- the page of the filling that is gone is the page of a filling to come
      subst hne
      rw [Nat.add_mod_right, h.contents_self hin (.written s.writer.i s.writer.sz) hi]
      simp only [stageOf, show w < e by omega, if_true, Contents.next, hsz,
        Nat.add_sub_cancel_left, show ¬(w + bufferPages < e) by omega,
        show ¬(w + bufferPages < r) by omega, if_false]
    · exact h.contents_of_ne hin (.written s.writer.i s.writer.sz) hi ⟨by omega, by omega⟩
        (by omega)

end Memkrypt.Pages

/-! ## A step of the pipeline -/

namespace Pipeline

theorem before (h : Pipeline file s off r e w) (hk : k + 1 < r) : off (k + 1) ≠ off k := by
  intro hzero
  have := (h.reader.last k (by omega) hzero).1
  omega

theorem memkryptRead (h : Pipeline file s off r e w) (hs : s.memkryptRead file n = some s') :
    ∃ off r, Pipeline file s' off r e w := by
  obtain ⟨hrd, hen, hwr, ht, hp⟩ := h
  obtain ⟨hread, hencrypt, hwrite, hmutex⟩ := id ht
  unfold Memkrypt.memkryptRead at hs
  cases hpc : s.reader.pc with
  | mark =>
    simp only [hpc, Option.some.injEq] at hs hread hencrypt hmutex
    subst hs
    refine ⟨off, r, hrd.move (by simp [hpc]) (by simp [hpc]) nofun, hen, hwr,
      ⟨?_, hencrypt, hwrite, hmutex⟩, hp.frame rfl rfl rfl rfl rfl (by simp [hpc]) rfl rfl⟩
    simp only [ReadPc.taken_eq, ReadPc.unmarked_eq] at hread ⊢
    omega
  | wait =>
    simp only [hpc, Option.map_eq_some_iff, semWait_eq_some] at hs hread hencrypt hmutex
    obtain ⟨sem, hsem, rfl⟩ := hs
    refine ⟨off, r, hrd.move (by simp [hpc]) (by simp [hpc]) nofun, hen, hwr,
      ⟨?_, hencrypt, hwrite, hmutex⟩, hp.frame rfl rfl rfl rfl rfl (by simp [hpc]) rfl rfl⟩
    simp only [ReadPc.taken_eq, ReadPc.unmarked_eq] at hread ⊢
    omega
  | clear =>
    simp only [hpc, Option.some.injEq] at hs hread hencrypt hmutex
    subst hs
    exact ⟨off, r, hrd.move (by simp [hpc]) (by simp [hpc]) nofun, hen, hwr,
      ⟨hread, hencrypt, hwrite, hmutex⟩, hp.fill ht (by simp [hpc]) (by simp [hpc]) nofun
        (hrd.i_eq (by simp [hpc]))⟩
  | read =>
    simp only [hpc] at hs hread hencrypt hmutex
    split at hs
    case isFalse => cases hs
    case isTrue hchunk =>
    cases hs
    have hpos : s.reader.pos = off r := by simpa [hpc] using hrd.pos
    have hoff : ∀ k ≤ r, Function.update off (r + 1) (off r + n) k = off k := fun k hk =>
      Function.update_of_ne (by omega) _ _
    have hnext : Function.update off (r + 1) (off r + n) (r + 1) = off r + n :=
      Function.update_self ..
    obtain ⟨hwe, her, -⟩ := ht.order
    refine ⟨Function.update off (r + 1) (off r + n), r, hrd.read hpc hchunk hoff hnext,
      hen.congr hoff (by omega), hwr.congr hoff (by omega), ⟨hread, hencrypt, hwrite, hmutex⟩,
      (hp.congr ht hoff (by simp [hpc])).fill ht (by simp [hpc]) (by simp [hpc]) (fun _ => ?_)
        (hrd.i_eq (by simp [hpc]))⟩
    rw [hnext, hoff r (Nat.le_refl r), hpos]
    exact ⟨rfl, fun j _ => rfl⟩
  | lock =>
    simp only [hpc, Option.map_eq_some_iff, semWait_eq_some] at hs hread hencrypt hmutex
    obtain ⟨sem, hsem, rfl⟩ := hs
    refine ⟨off, r, hrd.move (by simp [hpc]) (by simp [hpc]) nofun, hen, hwr,
      ⟨hread, hencrypt, hwrite, ?_⟩, hp.frame rfl rfl rfl rfl rfl (by simp [hpc]) rfl rfl⟩
    simp only [ReadPc.locks_eq] at hmutex ⊢
    omega
  | store =>
    simp only [hpc, Option.some.injEq] at hs hread hencrypt hmutex
    subst hs
    refine ⟨off, r + 1, hrd.store hpc, hen, hwr, ⟨?_, ?_, hwrite, hmutex⟩,
      hp.store ht hpc (hrd.i_eq (by simp [hpc])) (hrd.ahead (by simp [hpc]))⟩
    · simp only [ReadPc.taken_eq, ReadPc.unmarked_eq] at hread ⊢
      omega
    · simp only [ReadPc.owes_eq] at hencrypt ⊢
      omega
  | unlock =>
    simp only [hpc, Option.some.injEq] at hs hread hencrypt hmutex
    subst hs
    refine ⟨off, r, hrd.move (by simp [hpc]) (by simp [hpc]) nofun, hen, hwr,
      ⟨hread, hencrypt, hwrite, ?_⟩, hp.frame rfl rfl rfl rfl rfl (by simp [hpc]) rfl rfl⟩
    simp only [ReadPc.locks_eq] at hmutex ⊢
    omega
  | signal =>
    simp only [hpc, Option.some.injEq] at hs hread hencrypt hmutex
    subst hs
    by_cases hsz : s.reader.sz = 0
    · rw [if_pos hsz]
      refine ⟨off, r, hrd.stop hpc hsz, hen, hwr, ⟨hread, ?_, hwrite, hmutex⟩,
        hp.frame rfl rfl rfl rfl rfl (by simp [hpc]) rfl rfl⟩
      simp only [ReadPc.owes_eq] at hencrypt ⊢
      omega
    · rw [if_neg hsz]
      refine ⟨off, r, hrd.again hpc hsz, hen, hwr, ⟨hread, ?_, hwrite, hmutex⟩,
        hp.frame rfl rfl rfl rfl rfl (by simp [hpc]) rfl rfl⟩
      simp only [ReadPc.owes_eq] at hencrypt ⊢
      omega
  | done => simp [hpc] at hs

theorem memkryptEncrypt (h : Pipeline file s off r e w) (hs : s.memkryptEncrypt = some s') :
    ∃ e, Pipeline file s' off r e w := by
  have hbefore : ∀ k, k + 1 < e → off (k + 1) ≠ off k := fun k hk =>
    h.before (hk.trans_le h.tokens.order.2.1)
  obtain ⟨hrd, hen, hwr, ht, hp⟩ := h
  obtain ⟨hread, hencrypt, hwrite, hmutex⟩ := id ht
  unfold Memkrypt.memkryptEncrypt at hs
  cases hpc : s.encrypter.pc with
  | wait =>
    simp only [hpc, Option.map_eq_some_iff, semWait_eq_some] at hs hencrypt hwrite hmutex
    obtain ⟨sem, hsem, rfl⟩ := hs
    refine ⟨e, hrd, hen.move (by simp [hpc]) (by simp) (by simp), hwr,
      ⟨hread, ?_, hwrite, hmutex⟩,
      hp.frame rfl rfl rfl rfl rfl rfl (by simp [Stage.count, hpc]) rfl⟩
    simp only [StagePc.taken_eq] at hencrypt ⊢
    omega
  | lock =>
    simp only [hpc, Option.map_eq_some_iff, semWait_eq_some] at hs hencrypt hwrite hmutex
    obtain ⟨sem, hsem, rfl⟩ := hs
    refine ⟨e, hrd, hen.move (by simp [hpc]) (by simp) (by simp), hwr,
      ⟨hread, hencrypt, hwrite, ?_⟩,
      hp.frame rfl rfl rfl rfl rfl rfl (by simp [Stage.count, hpc]) rfl⟩
    simp only [StagePc.locks_eq] at hmutex ⊢
    omega
  | load =>
    simp only [hpc, Option.some.injEq] at hs hencrypt hwrite hmutex
    subst hs
    simp only [StagePc.taken_eq] at hencrypt
    have hsz : off (e + 1) = off e + s.lastSizePerPage s.encrypter.i := by
      rw [hen.i_eq (by simp [hpc]), hp.sizes e (by omega) (by omega)]
      have := hrd.mono e (by omega)
      omega
    exact ⟨e, hrd, hen.load hpc hsz, hwr, ⟨hread, hencrypt, hwrite, hmutex⟩,
      hp.frame rfl rfl rfl rfl rfl rfl (by simp [Stage.count, hpc]) rfl⟩
  | unlock =>
    simp only [hpc, Option.some.injEq] at hs hencrypt hwrite hmutex
    subst hs
    refine ⟨e, hrd, hen.start hpc, hwr, ⟨hread, hencrypt, hwrite, ?_⟩,
      hp.frame rfl rfl rfl rfl rfl rfl (by simp [Stage.count, hpc]) rfl⟩
    simp only [StagePc.locks_eq] at hmutex ⊢
    omega
  | work =>
    simp only [hpc] at hs hencrypt hwrite hmutex
    have hi := hen.i_eq (by simp [hpc])
    have hsz := hen.sized (by simp [hpc])
    have htaken := hencrypt
    simp only [StagePc.taken_eq] at htaken
    split at hs
    case isTrue hj =>
      cases hs
      have hlt : off e + s.encrypter.j < 2 ^ 32 := by
        have := hrd.off_le (k := e + 1) (by omega)
        have := file.size_lt
        omega
      exact ⟨e, hrd, hen.advance hpc hj, hwr, ⟨hread, hencrypt, hwrite, hmutex⟩,
        hp.encryptByte ht hpc hi hsz hj hlt⟩
    case isFalse hj =>
      cases hs
      have hj : s.encrypter.j = s.encrypter.sz := by
        have := hen.j_le hpc
        omega
      refine ⟨e + 1, hrd, hen.finish hpc, hwr, ⟨hread, ?_, ?_, hmutex⟩,
        hp.encrypted_all ht hpc hi hsz hj⟩
      · simp only [StagePc.taken_eq]
        omega
      · simp only [StagePc.owes_eq] at hwrite ⊢
        omega
  | signal =>
    simp only [hpc, Option.some.injEq] at hs hencrypt hwrite hmutex
    subst hs
    by_cases hsz : s.encrypter.sz = 0
    · rw [if_pos hsz]
      refine ⟨e, hrd, hen.stop hpc hsz, hwr, ⟨hread, hencrypt, ?_, hmutex⟩,
        hp.frame rfl rfl rfl rfl rfl rfl (by simp [Stage.count, hpc]) rfl⟩
      simp only [StagePc.owes_eq] at hwrite ⊢
      omega
    · rw [if_neg hsz]
      refine ⟨e, hrd, hen.again hpc hsz hbefore, hwr, ⟨hread, hencrypt, ?_, hmutex⟩,
        hp.frame rfl rfl rfl rfl rfl rfl (by simp [Stage.count, hpc]) rfl⟩
      simp only [StagePc.owes_eq] at hwrite ⊢
      omega
  | done => simp [hpc] at hs

theorem memkryptWrite (h : Pipeline file s off r e w) (hs : s.memkryptWrite = some s') :
    ∃ w, Pipeline file s' off r e w := by
  have hbefore : ∀ k, k + 1 < w → off (k + 1) ≠ off k := fun k hk =>
    h.before (hk.trans_le (h.tokens.order.1.trans h.tokens.order.2.1))
  obtain ⟨hrd, hen, hwr, ht, hp⟩ := h
  obtain ⟨hread, hencrypt, hwrite, hmutex⟩ := id ht
  unfold Memkrypt.memkryptWrite at hs
  cases hpc : s.writer.pc with
  | wait =>
    simp only [hpc, Option.map_eq_some_iff, semWait_eq_some] at hs hread hwrite hmutex
    obtain ⟨sem, hsem, rfl⟩ := hs
    refine ⟨w, hrd, hen, hwr.move (by simp [hpc]) (by simp) (by simp),
      ⟨hread, hencrypt, ?_, hmutex⟩,
      hp.frame rfl rfl rfl rfl rfl rfl rfl (by simp [Stage.count, hpc])⟩
    simp only [StagePc.taken_eq] at hwrite ⊢
    omega
  | lock =>
    simp only [hpc, Option.map_eq_some_iff, semWait_eq_some] at hs hread hwrite hmutex
    obtain ⟨sem, hsem, rfl⟩ := hs
    refine ⟨w, hrd, hen, hwr.move (by simp [hpc]) (by simp) (by simp),
      ⟨hread, hencrypt, hwrite, ?_⟩,
      hp.frame rfl rfl rfl rfl rfl rfl rfl (by simp [Stage.count, hpc])⟩
    simp only [StagePc.locks_eq] at hmutex ⊢
    omega
  | load =>
    obtain ⟨-, her, -⟩ := ht.order
    simp only [hpc, Option.some.injEq] at hs hread hwrite hmutex
    subst hs
    simp only [StagePc.taken_eq] at hwrite
    have hsz : off (w + 1) = off w + s.lastSizePerPage s.writer.i := by
      rw [hwr.i_eq (by simp [hpc]), hp.sizes w (by omega) (by omega)]
      have := hrd.mono w (by omega)
      omega
    exact ⟨w, hrd, hen, hwr.load hpc hsz, ⟨hread, hencrypt, hwrite, hmutex⟩,
      hp.frame rfl rfl rfl rfl rfl rfl rfl (by simp [Stage.count, hpc])⟩
  | unlock =>
    simp only [hpc, Option.some.injEq] at hs hread hwrite hmutex
    subst hs
    refine ⟨w, hrd, hen, hwr.start hpc, ⟨hread, hencrypt, hwrite, ?_⟩,
      hp.frame rfl rfl rfl rfl rfl rfl rfl (by simp [Stage.count, hpc])⟩
    simp only [StagePc.locks_eq] at hmutex ⊢
    omega
  | work =>
    obtain ⟨-, her, -⟩ := ht.order
    simp only [hpc] at hs hread hwrite hmutex
    have hi := hwr.i_eq (by simp [hpc])
    have hsz := hwr.sized (by simp [hpc])
    have htaken := hwrite
    simp only [StagePc.taken_eq] at htaken
    split at hs
    case isTrue hj =>
      cases hs
      have hlt : off w + s.writer.j < file.bytes.length := by
        have := hrd.off_le (k := w + 1) (by omega)
        omega
      exact ⟨w, hrd, hen, hwr.advance hpc hj, ⟨hread, hencrypt, hwrite, hmutex⟩,
        hp.writeByte ht hpc hi hsz hj hlt⟩
    case isFalse hj =>
      cases hs
      have hj : s.writer.j = s.writer.sz := by
        have := hwr.j_le hpc
        omega
      refine ⟨w + 1, hrd, hen, hwr.finish hpc, ⟨?_, hencrypt, ?_, hmutex⟩,
        hp.written_all ht hpc hi hsz hj⟩
      · simp only [StagePc.owes_eq] at hread ⊢
        omega
      · simp only [StagePc.taken_eq]
        omega
  | signal =>
    simp only [hpc, Option.some.injEq] at hs hread hwrite hmutex
    subst hs
    by_cases hsz : s.writer.sz = 0
    · rw [if_pos hsz]
      refine ⟨w, hrd, hen, hwr.stop hpc hsz, ⟨?_, hencrypt, hwrite, hmutex⟩,
        hp.frame rfl rfl rfl rfl rfl rfl rfl (by simp [Stage.count, hpc])⟩
      simp only [StagePc.owes_eq] at hread ⊢
      omega
    · rw [if_neg hsz]
      refine ⟨w, hrd, hen, hwr.again hpc hsz hbefore, ⟨?_, hencrypt, hwrite, hmutex⟩,
        hp.frame rfl rfl rfl rfl rfl rfl rfl (by simp [Stage.count, hpc])⟩
      simp only [StagePc.owes_eq] at hread ⊢
      omega
  | done => simp [hpc] at hs

end Pipeline

/-! ## What the invariant says -/

theorem Reader.accesses_eq_some {rd : Reader} {p : SharedPage} (h : rd.accesses = some p) :
    (p = .buffer rd.i ∧ rd.pc.taken = 1 ∧ rd.pc.late = 0) ∨ (p = .sizes ∧ rd.pc.locks = 1) := by
  unfold Reader.accesses at h
  split at h <;> simp_all

theorem Stage.accesses_eq_some {st : Stage} {p : SharedPage} (h : st.accesses = some p) :
    (p = .buffer st.i ∧ st.pc = .work) ∨ (p = .sizes ∧ st.pc.locks = 1) := by
  unfold Stage.accesses at h
  split at h <;> simp_all

theorem Reader.At.accesses {rd : Reader} (h : rd.At file off n) {p : SharedPage}
    (hp : rd.accesses = some p) :
    (p = .buffer (n % bufferPages) ∧ rd.pc.taken = 1) ∨ (p = .sizes ∧ rd.pc.locks = 1) := by
  obtain ⟨rfl, htaken, hlate⟩ | hp := Reader.accesses_eq_some hp
  · exact .inl ⟨by rw [h.i_eq hlate], htaken⟩
  · exact .inr hp

theorem Stage.At.accesses {st : Stage} (h : st.At off n) {p : SharedPage}
    (hp : st.accesses = some p) :
    (p = .buffer (n % bufferPages) ∧ st.pc.taken = 1) ∨ (p = .sizes ∧ st.pc.locks = 1) := by
  obtain ⟨rfl, hpc⟩ | hp := Stage.accesses_eq_some hp
  · exact .inl ⟨by rw [h.i_eq (by simp [hpc])], by simp [hpc]⟩
  · exact .inr hp

/-- Two functions do not access a page at once, when one is ahead of the other and one of them at
most has the mutex. -/
theorem one_access {p : SharedPage} {a b m taken taken' locks locks' : Nat}
    (h : (p = .buffer (a % bufferPages) ∧ taken = 1) ∨ (p = .sizes ∧ locks = 1))
    (h' : (p = .buffer (b % bufferPages) ∧ taken' = 1) ∨ (p = .sizes ∧ locks' = 1))
    (hahead : taken = 1 → taken' = 1 → m ≤ b ∧ b < a ∧ a < m + bufferPages)
    (hmutex : locks = 1 → ¬locks' = 1) : False := by
  obtain ⟨rfl, ht⟩ | ⟨rfl, hl⟩ := h
  · obtain ⟨hp, ht'⟩ | ⟨hp, -⟩ := h'
    · obtain ⟨hmb, hba, ham⟩ := hahead ht ht'
      have heq := page_inj (m := m) ⟨by omega, ham⟩ ⟨hmb, by omega⟩ (SharedPage.buffer.inj hp)
      omega
    · cases hp
  · obtain ⟨hp, -⟩ | ⟨-, hl'⟩ := h'
    · cases hp
    · exact hmutex hl hl'

theorem Stage.At.ended {st : Stage} (h : st.At off n) (hpc : st.pc = .done) :
    ∃ k, n = k + 1 ∧ off (k + 1) = off k := by
  obtain ⟨k, rfl, hk⟩ := h.late (by simp [hpc])
  exact ⟨k, rfl, by rw [hk, h.done hpc, Nat.add_zero]⟩

/-- A reader that cannot move waits for a page or for the mutex, or is done. -/
theorem memkryptRead_stuck (h : s.reader.At file off r)
    (hs : ∀ n, s.memkryptRead file n = none) :
    (s.reader.pc = .wait ∧ s.semRead = 0) ∨ (s.reader.pc = .lock ∧ s.mutex = 0) ∨
      s.reader.pc = .done := by
  unfold Memkrypt.memkryptRead at hs
  cases hpc : s.reader.pc
  case wait => exact .inl ⟨rfl, by simpa [hpc, semWait] using hs 0⟩
  case lock => exact .inr (.inl ⟨rfl, by simpa [hpc, semWait] using hs 0⟩)
  case done => exact .inr (.inr rfl)
  case read =>
    by_cases hpos : s.reader.pos = file.bytes.length
    · have hchunk : file.Chunk s.reader.pos 0 := ⟨Nat.zero_le _, by omega, by simp [hpos]⟩
      simpa [hpc, hchunk] using hs 0
    · have hchunk : file.Chunk s.reader.pos 1 :=
        ⟨by decide, by have := h.pos_le; omega, by simp [hpos]⟩
      simpa [hpc, hchunk] using hs 1
  all_goals simpa [hpc] using hs 0

theorem memkryptEncrypt_stuck (hs : s.memkryptEncrypt = none) :
    (s.encrypter.pc = .wait ∧ s.semEncrypt = 0) ∨ (s.encrypter.pc = .lock ∧ s.mutex = 0) ∨
      s.encrypter.pc = .done := by
  unfold Memkrypt.memkryptEncrypt at hs
  cases hpc : s.encrypter.pc
  case wait => exact .inl ⟨rfl, by simpa [hpc, semWait] using hs⟩
  case lock => exact .inr (.inl ⟨rfl, by simpa [hpc, semWait] using hs⟩)
  case done => exact .inr (.inr rfl)
  case work =>
    simp only [hpc] at hs
    split at hs <;> cases hs
  all_goals simp [hpc] at hs

theorem memkryptWrite_stuck (hs : s.memkryptWrite = none) :
    (s.writer.pc = .wait ∧ s.semWrite = 0) ∨ (s.writer.pc = .lock ∧ s.mutex = 0) ∨
      s.writer.pc = .done := by
  unfold Memkrypt.memkryptWrite at hs
  cases hpc : s.writer.pc
  case wait => exact .inl ⟨rfl, by simpa [hpc, semWait] using hs⟩
  case lock => exact .inr (.inl ⟨rfl, by simpa [hpc, semWait] using hs⟩)
  case done => exact .inr (.inr rfl)
  case work =>
    simp only [hpc] at hs
    split at hs <;> cases hs
  all_goals simp [hpc] at hs

namespace Pipeline

theorem boot : Pipeline file .boot (fun _ => 0) 0 0 0 where
  reader := ⟨rfl, by decide, rfl, nofun, rfl, Nat.zero_le _, nofun, nofun, nofun, nofun⟩
  encrypter := ⟨rfl, by decide, nofun, nofun, nofun, nofun, nofun⟩
  writer := ⟨rfl, by decide, nofun, nofun, nofun, nofun, nofun⟩
  tokens := ⟨rfl, rfl, rfl, rfl⟩
  pages := {
    sizes := nofun
    raw := nofun
    encrypted := nofun
    bytes := rfl
    serial := rfl
    contents := fun _ _ _ => rfl }

theorem turn (h : Pipeline file s off r e w) {t : Turn} (hs : s.turn file t = some s') :
    ∃ off r e w, Pipeline file s' off r e w := by
  cases t with
  | read n =>
    obtain ⟨off, r, h⟩ := h.memkryptRead hs
    exact ⟨off, r, e, w, h⟩
  | encrypt =>
    obtain ⟨e, h⟩ := h.memkryptEncrypt hs
    exact ⟨off, r, e, w, h⟩
  | write =>
    obtain ⟨w, h⟩ := h.memkryptWrite hs
    exact ⟨off, r, e, w, h⟩

theorem readEncrypt (h : Pipeline file s off r e w) {p : SharedPage}
    (hr : s.reader.accesses = some p) : s.encrypter.accesses ≠ some p := by
  intro he
  obtain ⟨hwe, her, hrw⟩ := h.tokens.order
  have htoken := h.tokens.encrypt
  have hmutex := h.tokens.mutex
  refine one_access (m := w) (h.reader.accesses hr) (h.encrypter.accesses he) (fun hr he => ?_)
    fun hr he => ?_
  · omega
  · omega

theorem readWrite (h : Pipeline file s off r e w) {p : SharedPage}
    (hr : s.reader.accesses = some p) : s.writer.accesses ≠ some p := by
  intro hw
  obtain ⟨hwe, her, hrw⟩ := h.tokens.order
  have htoken := h.tokens.write
  have hmutex := h.tokens.mutex
  refine one_access (m := w) (h.reader.accesses hr) (h.writer.accesses hw) (fun hr hw => ?_)
    fun hr hw => ?_
  · omega
  · omega

theorem encryptWrite (h : Pipeline file s off r e w) {p : SharedPage}
    (he : s.encrypter.accesses = some p) : s.writer.accesses ≠ some p := by
  intro hw
  obtain ⟨hwe, her, hrw⟩ := h.tokens.order
  have htoken := h.tokens.encrypt
  have htoken' := h.tokens.write
  have hmutex := h.tokens.mutex
  refine one_access (m := w) (h.encrypter.accesses he) (h.writer.accesses hw) (fun he hw => ?_)
    fun he hw => ?_
  · omega
  · omega

theorem once (h : Pipeline file s off r e w) {i : Nat} (hi : i < bufferPages) :
    pageContents i s.log ≠ none := by
  -- one of the fillings in flight or to come is on page `i`
  obtain ⟨k, hwk, hkw, rfl⟩ : ∃ k, w ≤ k ∧ k < w + bufferPages ∧ k % bufferPages = i := by
    refine ⟨w + (i + bufferPages - w % bufferPages) % bufferPages, by omega,
      Nat.add_lt_add_left (Nat.mod_lt _ (by decide)) w, ?_⟩
    have := Nat.mod_lt w (show 0 < bufferPages by decide)
    simp only [bufferPages] at *
    omega
  rw [h.pages.contents k hwk hkw]
  nofun

theorem encryptSize (h : Pipeline file s off r e w) (hpc : s.encrypter.pc = .work) :
    pageContents s.encrypter.i s.log = some (.filled s.encrypter.sz) := by
  obtain ⟨hwe, her, hrw⟩ := h.tokens.order
  have htoken := h.tokens.encrypt
  simp only [hpc, StagePc.taken_eq] at htoken
  rw [h.encrypter.i_eq (by simp [hpc]), h.pages.contents e hwe (by omega), stageOf,
    if_neg (Nat.lt_irrefl e), if_pos (by omega), h.encrypter.sized (by simp [hpc]),
    Nat.add_sub_cancel_left]

theorem writeSize (h : Pipeline file s off r e w) (hpc : s.writer.pc = .work) :
    pageContents s.writer.i s.log = some (.encrypted s.writer.sz) := by
  obtain ⟨hwe, her, hrw⟩ := h.tokens.order
  have htoken := h.tokens.write
  simp only [hpc, StagePc.taken_eq] at htoken
  rw [h.writer.i_eq (by simp [hpc]), h.pages.contents w (Nat.le_refl w) (by omega), stageOf,
    if_pos (by omega), h.writer.sized (by simp [hpc]), Nat.add_sub_cancel_left]

theorem stuck (h : Pipeline file s off r e w) (hs : ∀ t, s.turn file t = none) : s.Finished := by
  obtain ⟨hrd, hen, hwr, ht, -⟩ := h
  obtain ⟨hread, hencrypt, hwrite, hmutex⟩ := ht
  have hrs := memkryptRead_stuck hrd fun n => hs (.read n)
  have hes := memkryptEncrypt_stuck (hs .encrypt)
  have hws := memkryptWrite_stuck (hs .write)
  -- nobody who is stuck holds the mutex
  have hfree : s.mutex = 1 := by
    rcases hrs with ⟨hr, -⟩ | ⟨hr, -⟩ | hr <;> rcases hes with ⟨he, -⟩ | ⟨he, -⟩ | he <;>
      rcases hws with ⟨hw, -⟩ | ⟨hw, -⟩ | hw <;> simpa [hr, he, hw] using hmutex
  rcases hrs with ⟨hr, hsem⟩ | ⟨-, hm⟩ | hr
  case inr.inl => omega
  case inl =>
    -- the file has not ended, so the other two wait as well
    have hopen : ∀ k < r, off (k + 1) ≠ off k := by
      intro k hk hzero
      have := (hrd.last k (by omega) hzero).2.1
      simp [hr] at this
    simp only [hr, hsem, ReadPc.taken_eq, ReadPc.unmarked_eq, ReadPc.owes_eq] at hread hencrypt
    rcases hes with ⟨he, hsem'⟩ | ⟨-, hm⟩ | he
    case inr.inl => omega
    case inr.inr =>
      obtain ⟨k, rfl, hk⟩ := hen.ended he
      exact absurd hk (hopen k (by omega))
    simp only [he, hsem', StagePc.taken_eq, StagePc.owes_eq] at hencrypt hwrite
    rcases hws with ⟨hw, hsem''⟩ | ⟨-, hm⟩ | hw
    case inr.inl => omega
    case inr.inr =>
      obtain ⟨k, rfl, hk⟩ := hwr.ended hw
      exact absurd hk (hopen k (by omega))
    simp only [hw, hsem'', StagePc.taken_eq, StagePc.owes_eq] at hread hwrite
    have : 0 < bufferPages := by decide
    omega
  case inr.inr =>
    obtain ⟨k, rfl, hk⟩ := hrd.late (by simp [hr])
    rw [hrd.done hr, Nat.add_zero] at hk
    simp only [hr, ReadPc.owes_eq] at hencrypt
    have he : s.encrypter.pc = .done := by
      rcases hes with ⟨he, hsem⟩ | ⟨-, hm⟩ | he
      · simp only [he, hsem, StagePc.taken_eq] at hencrypt
        exact absurd hk (hen.goesOn (by simp [he]) k (by omega))
      · omega
      · exact he
    have hw : s.writer.pc = .done := by
      rcases hws with ⟨hw, hsem⟩ | ⟨-, hm⟩ | hw
      · obtain ⟨m, rfl, hm⟩ := hen.ended he
        simp only [hw, he, hsem, StagePc.taken_eq, StagePc.owes_eq] at hwrite
        exact absurd hm (hwr.goesOn (by simp [hw]) m (by omega))
      · omega
      · exact hw
    exact ⟨⟨hr, hrd.done hr⟩, ⟨he, hen.done he⟩, hw, hwr.done hw⟩

theorem finished (h : Pipeline file s off r e w) (hs : s.Finished) : s.serial = file.cipher := by
  obtain ⟨k, rfl, hk⟩ := h.writer.ended hs.2.2.1
  obtain ⟨hwe, her, -⟩ := h.tokens.order
  have hend := (h.reader.last k (by omega) hk).2.2
  rw [h.pages.serial, Stage.count_of_ne (by rw [hs.2.2.1]; nofun), hk, hend, Nat.add_zero,
    ← length_cipher, List.take_length]

theorem safe (h : Pipeline file s off r e w) : PipelineSafe file s where
  readEncrypt _ := h.readEncrypt
  readWrite _ := h.readWrite
  encryptWrite _ := h.encryptWrite
  once _ := h.once
  encryptSize := h.encryptSize
  writeSize := h.writeSize
  sent := h.pages.serial ▸ List.take_prefix _ _
  stuck := h.stuck
  finished := h.finished

end Pipeline

theorem Pipeline.reach (h : Reach (memkryptSystem file) anyStep s) :
    ∃ off r e w, Pipeline file s off r e w := by
  refine h.invariant (I := fun s => ∃ off r e w, Pipeline file s off r e w) ?_ ?_
  · rintro _ rfl
    exact ⟨_, 0, 0, 0, .boot⟩
  · rintro _ _ _ ⟨_, _, _, _, hi⟩ _ hs
    exact hi.turn hs

theorem memkrypt_pipeline (h : Reach (memkryptSystem file) anyStep s) : PipelineSafe file s := by
  obtain ⟨off, r, e, w, hinv⟩ := Pipeline.reach h
  exact hinv.safe

end

/-- A file of two bytes. -/
def pairFile : DiskFile := ⟨[0x01, 0x02], by decide⟩

/-- One stage after the other, twice round the pages. -/
def pairTurns : List Turn :=
  List.replicate 8 (.read 2) ++ List.replicate 8 .encrypt ++ List.replicate 8 .write ++
    List.replicate 7 (.read 0) ++ List.replicate 6 .encrypt ++ List.replicate 6 .write

theorem memkrypt_pipeline_pair : ∃ s : Memkrypt,
    s.serial = [0x52, 0x72] ∧ s.reader.pc = .done ∧ PipelineSafe pairFile s := by
  have hrun : (runList (Memkrypt.turn pairFile) .boot pairTurns).map
      (fun s => (s.serial, s.reader.pc)) = some ([0x52, 0x72], .done) := by decide +kernel
  obtain ⟨s, hs, heq⟩ := Option.map_eq_some_iff.mp hrun
  rw [Prod.mk.injEq] at heq
  exact ⟨s, heq.1, heq.2, memkrypt_pipeline (Reach.runList (.init rfl) hs)⟩

end SpuriOS
