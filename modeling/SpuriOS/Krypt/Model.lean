import SpuriOS.Ext2.Stream
import SpuriOS.Memkrypt.Stream
import SpuriOS.Pipe.Pages

/-! # The krypt pipeline (`tasks/krypt.c`)

The process of `main` reads a file, its child encrypts and the child of that one writes to the
serial port; two pipes join them. Each program is cut at its system calls, and a call on a pipe at
the rounds of its loop. What `main` says on the console, its wait for a key at the end and the
closes of console, file and port are left out. -/

namespace SpuriOS

open Transition

/-- The processes, named after the function they call. -/
inductive KryptRole where
  | read
  | encrypt
  | write
  deriving DecidableEq, Repr

def KryptRole.pid : KryptRole → Pid
  | .read => 1
  | .encrypt => 2
  | .write => 3

/-- The next system call of the process that goes on with `krypt_read`. `noPipe` is the end of a
`main` whose `pipe` failed. -/
inductive KryptReadPc where
  | pipe
  | noPipe
  | fork
  | closeIn
  | openFile
  | palloc
  | read
  | write (c : PipeCall)
  | closeOut (res : Int)
  | done (res : Int)

/-- The next system call of the process that goes on with `krypt_encrypt`; `closeOut1` and
`closeIn1` are about `pipe_read2enc`, `closeIn2` and `closeOut2` about `pipe_enc2write`. `exit` is
the end of a `main` whose second `pipe` failed. -/
inductive KryptEncryptPc where
  | absent
  | closeOut1
  | pipe
  | exit
  | noPipe
  | fork
  | closeIn2
  | palloc
  | start
  | read (c : PipeCall)
  | crypt (sz : Int)
  | write (c : PipeCall)
  | closeOut2 (res : Int)
  | closeIn1 (res : Int)
  | done (res : Int)

/-- The next system call of the process that goes on with `krypt_write`, or the next byte that
`serial_write` sends. -/
inductive KryptWritePc where
  | absent
  | closeIn1
  | closeOut2
  | openSerial
  | palloc
  | start
  | read (c : PipeCall)
  | serial (i : Nat) (sz : Int)
  | closeIn2 (res : Int)
  | done (res : Int)

structure KryptRead where
  pc : KryptReadPc
  user : UserMem
  buffer : Nat

structure KryptEncrypt where
  pc : KryptEncryptPc
  user : UserMem
  buffer : Nat
  bytes : Nat

structure KryptWrite where
  pc : KryptWritePc
  user : UserMem
  buffer : Nat

structure Krypt where
  pipes : Pipes
  /-- The `refcount` of the endpoints. -/
  refcount : Nat → Nat
  pipeRead2enc : Nat × Nat
  pipeEnc2write : Nat × Nat
  /-- The open file of the process that reads. -/
  file : Session
  /-- What the serial port was given. -/
  serial : List Byte
  read : KryptRead
  encrypt : KryptEncrypt
  write : KryptWrite

/-- `palloc`, which maps the page at `addr`. -/
def UserMem.palloc (u : UserMem) (addr : Nat) : UserMem :=
  { u with isUser := fun a => u.isUser a || decide (addr ≤ a ∧ a < addr + pageSize) }

/-- `memset(buffer, 0, PAGE_SIZE)`. -/
def UserMem.clear (u : UserMem) (buffer : Nat) : UserMem :=
  { u with byte := Memory.write u.byte buffer pageSize fun _ => 0 }

/-- An `int` as an argument of type `uint_32`. -/
def uintOf (sz : Int) : Nat := (sz % 2 ^ 32).toNat

namespace Krypt

/-- `pipe`, where `frame` is what `mm_mem_kalloc` returns: the two endpoints, each with one
descriptor. -/
def openPipe (s : Krypt) (frame : Option Nat) : Option ((Nat × Nat) × Krypt) :=
  match freeSlots s.pipes, frame with
  | inp :: out :: _, some _ => some ((inp, out), { s with
      pipes := (pipeOpen frame s.pipes).2
      refcount := Function.update (Function.update s.refcount inp 1) out 1 })
  | _, _ => none

/-- `device_copy_fds` for the endpoints that the parent has open. -/
def dup (s : Krypt) (fds : List Nat) : Krypt :=
  { s with
    refcount := fds.foldl (fun refs x => Function.update refs x (refs x + 1)) s.refcount }

def close (s : Krypt) (x : Nat) : Krypt :=
  { s with pipes := s.pipes.closeEnd s.refcount x, refcount := dropRef s.refcount x }

/-- A round of the call `c` of process `p`, as far as `p` does not wait: the call goes on, or waits,
or returns. -/
def call (s : Krypt) (p : Pid) (c : PipeCall) (goOn : PipeCall → Krypt → Krypt)
    (return' : Int → Krypt → Krypt) : Option Krypt :=
  if p ∈ (s.pipes.endpoints c.self).queue then none
  else
    some <| match pipeRound s.pipes c with
    | (pipes, c', .again) => goOn c' { s with pipes }
    | (_, _, .block) => { s with pipes := s.pipes.enqueue c.self p }
    | (_, _, .done sz) => return' sz s

/-- The next step of `main` and `krypt_read`. `frame` is what `mm_mem_kalloc` returns if it is
called, and `answer` what `open` or `palloc` does. -/
def kryptRead (frame answer : Option Nat) (s : Krypt) : Option Krypt :=
  let r := s.read
  match r.pc with
  | .pipe =>
    match s.openPipe frame with
    | some (fds, s) => some { s with pipeRead2enc := fds, read := { r with pc := .fork } }
    | none => some { s with read := { r with pc := .noPipe } }
  | .fork =>
    let s := s.dup [s.pipeRead2enc.1, s.pipeRead2enc.2]
    some { s with
      read := { r with pc := .closeIn }
      encrypt := { s.encrypt with pc := .closeOut1, user := r.user } }
  | .closeIn =>
    let s := s.close s.pipeRead2enc.1
    some { s with read := { r with pc := .openFile } }
  | .openFile =>
    match answer with
    | some _ => some { s with read := { r with pc := .palloc } }
    | none => some { s with read := { r with pc := .closeOut (-1) } }
  | .palloc =>
    match answer with
    | some addr => some { s with
        read := { r with pc := .read, user := r.user.palloc addr, buffer := addr } }
    | none => some { s with read := { r with pc := .closeOut (-2) } }
  | .read =>
    let user := r.user.clear r.buffer
    (ext2FileRead s.file.file r.buffer pageSize s.file.ram user).map fun (sz, file, ram, user) =>
      let s := { s with file := ⟨file, ram, s.file.stream.read pageSize⟩ }
      if sz = 0 then { s with read := { r with pc := .closeOut 0, user } }
      else
        let c := ⟨true, s.pipeRead2enc.2, r.buffer, uintOf sz, 0, user⟩
        { s with read := { r with pc := .write c, user } }
  | .write c =>
    s.call KryptRole.read.pid c (fun c s => { s with read := { r with pc := .write c } })
      fun _ s => { s with read := { r with pc := .read, user := c.user } }
  | .closeOut res =>
    let s := s.close s.pipeRead2enc.2
    some { s with read := { r with pc := .done res } }
  | .noPipe | .done _ => none

/-- The next step of `krypt_encrypt` and of the `main` around it. -/
def kryptEncrypt (frame answer : Option Nat) (s : Krypt) : Option Krypt :=
  let e := s.encrypt
  match e.pc with
  | .closeOut1 =>
    let s := s.close s.pipeRead2enc.2
    some { s with encrypt := { e with pc := .pipe } }
  | .pipe =>
    match s.openPipe frame with
    | some (fds, s) => some { s with pipeEnc2write := fds, encrypt := { e with pc := .fork } }
    | none => some { s with encrypt := { e with pc := .exit } }
  | .exit =>
    let s := s.close s.pipeRead2enc.1
    some { s with encrypt := { e with pc := .noPipe } }
  | .fork =>
    let s := s.dup [s.pipeRead2enc.1, s.pipeEnc2write.1, s.pipeEnc2write.2]
    some { s with
      encrypt := { e with pc := .closeIn2 }
      write := { s.write with pc := .closeIn1, user := e.user } }
  | .closeIn2 =>
    let s := s.close s.pipeEnc2write.1
    some { s with encrypt := { e with pc := .palloc } }
  | .palloc =>
    match answer with
    | some addr => some { s with
        encrypt := ⟨.start, e.user.palloc addr, addr, 0⟩ }
    | none => some { s with encrypt := { e with pc := .closeOut2 (-2) } }
  | .start =>
    let user := e.user.clear e.buffer
    let c := ⟨false, s.pipeRead2enc.1, e.buffer, pageSize, 0, user⟩
    some { s with encrypt := { e with pc := .read c, user } }
  | .read c =>
    s.call KryptRole.encrypt.pid c (fun c s => { s with encrypt := { e with pc := .read c } })
      fun sz s =>
        if sz = 0 then { s with encrypt := { e with pc := .closeOut2 0, user := c.user } }
        else { s with encrypt := { e with pc := .crypt sz, user := c.user } }
  | .crypt sz =>
    let (byte, bytes) := xorLoop sz.toNat e.buffer e.user.byte e.bytes
    let user := { e.user with byte }
    let c := ⟨true, s.pipeEnc2write.2, e.buffer, uintOf sz, 0, user⟩
    some { s with encrypt := { e with pc := .write c, user, bytes } }
  | .write c =>
    s.call KryptRole.encrypt.pid c (fun c s => { s with encrypt := { e with pc := .write c } })
      fun _ s => { s with encrypt := { e with pc := .start, user := c.user } }
  | .closeOut2 res =>
    let s := s.close s.pipeEnc2write.2
    some { s with encrypt := { e with pc := .closeIn1 res } }
  | .closeIn1 res =>
    let s := s.close s.pipeRead2enc.1
    some { s with encrypt := { e with pc := .done res } }
  | .absent | .noPipe | .done _ => none

/-- The next step of `krypt_write` and of the `main` around it. -/
def kryptWrite (answer : Option Nat) (s : Krypt) : Option Krypt :=
  let w := s.write
  match w.pc with
  | .closeIn1 =>
    let s := s.close s.pipeRead2enc.1
    some { s with write := { w with pc := .closeOut2 } }
  | .closeOut2 =>
    let s := s.close s.pipeEnc2write.2
    some { s with write := { w with pc := .openSerial } }
  | .openSerial =>
    match answer with
    | some _ => some { s with write := { w with pc := .palloc } }
    | none => some { s with write := { w with pc := .closeIn2 (-1) } }
  | .palloc =>
    match answer with
    | some addr => some { s with write := ⟨.start, w.user.palloc addr, addr⟩ }
    | none => some { s with write := { w with pc := .closeIn2 (-2) } }
  | .start =>
    let user := w.user.clear w.buffer
    let c := ⟨false, s.pipeEnc2write.1, w.buffer, pageSize, 0, user⟩
    some { s with write := { w with pc := .read c, user } }
  | .read c =>
    s.call KryptRole.write.pid c (fun c s => { s with write := { w with pc := .read c } })
      fun sz s =>
        if sz = 0 then { s with write := { w with pc := .closeIn2 0, user := c.user } }
        else { s with write := { w with pc := .serial 0 sz, user := c.user } }
  | .serial i sz =>
    if i < uintOf sz then some { s with
      serial := s.serial ++ [w.user.byte (w.buffer + i)]
      write := { w with pc := .serial (i + 1) sz } }
    else some { s with write := { w with pc := .start } }
  | .closeIn2 res =>
    let s := s.close s.pipeEnc2write.1
    some { s with write := { w with pc := .done res } }
  | .absent | .done _ => none

end Krypt

/-- Whose turn it is, and what the kernel answers when it is asked for a frame, or for a page or a
file. -/
structure KryptTurn where
  role : KryptRole
  frame : Option Nat
  answer : Option Nat

namespace Krypt

/-- A step; a frame that the kernel hands out is not in use. -/
def turn (s : Krypt) (t : KryptTurn) : Option Krypt :=
  if t.frame.any s.pipes.held then none
  else match t.role with
  | .read => s.kryptRead t.frame t.answer
  | .encrypt => s.kryptEncrypt t.frame t.answer
  | .write => s.kryptWrite t.answer

/-- When `main` begins, with no pipe in use and the file `f` on the disk. -/
structure Boot (f : Ext2File) (s : Krypt) : Prop where
  klass : ∀ x < maxEndpoints, (s.pipes.endpoints x).klass = .none
  file : s.file.file = f
  stream : s.file.stream = f.toStream
  serial : s.serial = []
  read : s.read.pc = .pipe
  encrypt : s.encrypt.pc = .absent
  write : s.write.pc = .absent

end Krypt

/-- Every interleaving of the three processes. -/
def kryptSystem (f : Ext2File) : System Krypt KryptTurn :=
  System.ofFun (Krypt.Boot f) Krypt.turn

/-- The contents of a file. -/
def Ext2File.bytes (f : Ext2File) : List Byte := Circular.slice f.content 0 f.fileSize

end SpuriOS
