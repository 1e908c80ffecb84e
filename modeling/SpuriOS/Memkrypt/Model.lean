import SpuriOS.Common
import SpuriOS.Lib.Memory
import SpuriOS.Lib.Transition
import Mathlib.Logic.Function.Basic

/-! # The memkrypt pipeline (`tasks/memkrypt.c`)

Three processes that share `BUFFER_PAGES` pages and the page of the sizes, and wait for each other
on four semaphores. Each loop is cut at every access to what the processes share; a semaphore is a
counter whose `wait` is enabled while the counter is positive. -/

namespace SpuriOS

/-- `BUFFER_PAGES`. -/
def bufferPages : Nat := 4

/-- `CIPHER_KEY`. -/
def cipherKey : List Byte := [0x53, 0x70, 0x75, 0x72, 0x69, 0x4F, 0x53]

/-- `CIPHER_KEY_SIZE`. -/
def cipherKeySize : Nat := 7

/-- The contents of a file of the disk. The size field of an inode has 32 bits. -/
structure DiskFile where
  bytes : List Byte
  size_lt : bytes.length < 2 ^ 32

/-- Where `memkrypt_read` is: the names are those of the next access to something shared, `mark`
is the signal before the loop and `lock`, `store`, `unlock` are the body of `set_last_size`. -/
inductive ReadPc where
  | mark
  | wait
  | clear
  | read
  | lock
  | store
  | unlock
  | signal
  | done
  deriving DecidableEq, Repr

/-- Where `memkrypt_encrypt` or `memkrypt_write` is; `lock`, `load` and `unlock` are the body of
`get_last_size`, and `work` is the loop that encrypts the page or the call that writes it. -/
inductive StagePc where
  | wait
  | lock
  | load
  | unlock
  | work
  | signal
  | done
  deriving DecidableEq, Repr

structure Reader where
  pc : ReadPc
  i : Nat
  sz : Nat
  /-- The stream position of `file`. -/
  pos : Nat

structure Stage where
  pc : StagePc
  i : Nat
  sz : Nat
  /-- The bytes of the page that are encrypted, or sent by `serial_write`. -/
  j : Nat

/-- What the stages do to a page of the buffer, with the size they do it for. -/
inductive PageEvent where
  | filled (i sz : Nat)
  | encrypted (i sz : Nat)
  | written (i sz : Nat)
  deriving DecidableEq, Repr

def PageEvent.page : PageEvent → Nat
  | filled i _ | encrypted i _ | written i _ => i

structure Memkrypt where
  semRead : Nat
  semEncrypt : Nat
  semWrite : Nat
  mutex : Nat
  buffer : Nat → Nat → Byte
  lastSizePerPage : Nat → Nat
  /-- What the serial port has been given. -/
  serial : List Byte
  reader : Reader
  encrypter : Stage
  /-- The `bytes` of `memkrypt_encrypt`, an `int` that the remainder by a `size_t` reads as an
  unsigned number of 32 bits. -/
  bytes : Nat
  writer : Stage
  /-- History: what was done to the pages. No stage reads it. -/
  log : List PageEvent

/-- The state after `main` has opened the semaphores and forked twice. -/
def Memkrypt.boot : Memkrypt where
  semRead := 0
  semEncrypt := 0
  semWrite := 0
  mutex := 1
  buffer _ _ := 0
  lastSizePerPage _ := 0
  serial := []
  reader := ⟨.mark, 0, 0, 0⟩
  encrypter := ⟨.wait, 0, 0, 0⟩
  bytes := 0
  writer := ⟨.wait, 0, 0, 0⟩
  log := []

/-- `sem_wait(sem, 1)`. -/
def semWait (sem : Nat) : Option Nat := if sem = 0 then none else some (sem - 1)

theorem semWait_eq_some {sem sem' : Nat} : semWait sem = some sem' ↔ sem = sem' + 1 := by
  unfold semWait
  split <;> simp <;> omega

/-- What `read` may answer for a whole page: at least one byte while there are any left. -/
structure DiskFile.Chunk (file : DiskFile) (pos n : Nat) : Prop where
  fits : n ≤ pageSize
  left : pos + n ≤ file.bytes.length
  eof : n = 0 ↔ pos = file.bytes.length

instance (file : DiskFile) (pos n : Nat) : Decidable (file.Chunk pos n) :=
  decidable_of_iff (n ≤ pageSize ∧ pos + n ≤ file.bytes.length ∧
    (n = 0 ↔ pos = file.bytes.length)) ⟨fun ⟨a, b, c⟩ => ⟨a, b, c⟩, fun ⟨a, b, c⟩ => ⟨a, b, c⟩⟩

/-- The key byte for the byte number `n`. -/
def keyByte (n : Nat) : Byte := cipherKey.getD (n % cipherKeySize) 0

namespace Memkrypt

def fillPage (s : Memkrypt) (i n : Nat) (src : Nat → Byte) : Nat → Nat → Byte :=
  Function.update s.buffer i (Memory.write (s.buffer i) 0 n src)

/-- One step of `memkrypt_read`, whose `read` answers `n`. -/
def memkryptRead (file : DiskFile) (n : Nat) (s : Memkrypt) : Option Memkrypt :=
  let r := s.reader
  match r.pc with
  | .mark => some { s with semRead := s.semRead + bufferPages, reader := { r with pc := .wait } }
  | .wait => (semWait s.semRead).map fun sem =>
      { s with semRead := sem, reader := { r with pc := .clear } }
  | .clear => some { s with
      buffer := s.fillPage r.i pageSize fun _ => 0
      reader := { r with pc := .read } }
  | .read =>
    if file.Chunk r.pos n then some { s with
      buffer := s.fillPage r.i n fun j => file.bytes.getD (r.pos + j) 0
      reader := { r with pc := .lock, sz := n, pos := r.pos + n } }
    else none
  | .lock => (semWait s.mutex).map fun sem =>
      { s with mutex := sem, reader := { r with pc := .store } }
  | .store => some { s with
      lastSizePerPage := Function.update s.lastSizePerPage r.i r.sz
      reader := { r with pc := .unlock }
      log := s.log ++ [.filled r.i r.sz] }
  | .unlock => some { s with mutex := s.mutex + 1, reader := { r with pc := .signal } }
  | .signal => some { s with
      semEncrypt := s.semEncrypt + 1
      reader := if r.sz = 0 then { r with pc := .done }
        else { r with pc := .wait, i := (r.i + 1) % bufferPages } }
  | .done => none

/-- One step of `memkrypt_encrypt`. -/
def memkryptEncrypt (s : Memkrypt) : Option Memkrypt :=
  let e := s.encrypter
  match e.pc with
  | .wait => (semWait s.semEncrypt).map fun sem =>
      { s with semEncrypt := sem, encrypter := { e with pc := .lock } }
  | .lock => (semWait s.mutex).map fun sem =>
      { s with mutex := sem, encrypter := { e with pc := .load } }
  | .load => some { s with encrypter := { e with pc := .unlock, sz := s.lastSizePerPage e.i } }
  | .unlock => some { s with
      mutex := s.mutex + 1
      encrypter := { e with pc := .work, j := 0 } }
  | .work =>
    if e.j < e.sz then some { s with
      buffer := Function.update s.buffer e.i
        (Function.update (s.buffer e.i) e.j (s.buffer e.i e.j ^^^ keyByte s.bytes))
      encrypter := { e with j := e.j + 1 }
      bytes := (s.bytes + 1) % 2 ^ 32 }
    else some { s with
      encrypter := { e with pc := .signal }
      log := s.log ++ [.encrypted e.i e.sz] }
  | .signal => some { s with
      semWrite := s.semWrite + 1
      encrypter := if e.sz = 0 then { e with pc := .done }
        else { e with pc := .wait, i := (e.i + 1) % bufferPages } }
  | .done => none

/-- One step of `memkrypt_write`. -/
def memkryptWrite (s : Memkrypt) : Option Memkrypt :=
  let w := s.writer
  match w.pc with
  | .wait => (semWait s.semWrite).map fun sem =>
      { s with semWrite := sem, writer := { w with pc := .lock } }
  | .lock => (semWait s.mutex).map fun sem =>
      { s with mutex := sem, writer := { w with pc := .load } }
  | .load => some { s with writer := { w with pc := .unlock, sz := s.lastSizePerPage w.i } }
  | .unlock => some { s with
      mutex := s.mutex + 1
      writer := { w with pc := .work, j := 0 } }
  | .work =>
    if w.j < w.sz then some { s with
      serial := s.serial ++ [s.buffer w.i w.j]
      writer := { w with j := w.j + 1 } }
    else some { s with
      writer := { w with pc := .signal }
      log := s.log ++ [.written w.i w.sz] }
  | .signal => some { s with
      semRead := s.semRead + 1
      writer := if w.sz = 0 then { w with pc := .done }
        else { w with pc := .wait, i := (w.i + 1) % bufferPages } }
  | .done => none

end Memkrypt

/-- Whose turn it is, and for the reader what its `read` answers. -/
inductive Turn where
  | read (n : Nat)
  | encrypt
  | write
  deriving DecidableEq, Repr

def Memkrypt.turn (file : DiskFile) (s : Memkrypt) : Turn → Option Memkrypt
  | .read n => s.memkryptRead file n
  | .encrypt => s.memkryptEncrypt
  | .write => s.memkryptWrite

open Transition in
/-- Every interleaving of the three stages. -/
def memkryptSystem (file : DiskFile) : System Memkrypt Turn :=
  System.ofFun (· = Memkrypt.boot) (Memkrypt.turn file)

end SpuriOS
