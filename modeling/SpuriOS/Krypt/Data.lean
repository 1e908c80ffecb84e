import SpuriOS.Krypt.Pipes

/-! # What the processes of krypt have

`Data` follows the bytes of the file through the three processes and the two pipes: what a process
has in its hands, what is in a pipe, and what was taken out of it. -/

namespace SpuriOS

open Circular

namespace KryptReadPc

/-- `pipe` was called and did not fail. -/
def begun : KryptReadPc → Bool
  | .pipe | .noPipe => false
  | _ => true

def loops : KryptReadPc → Bool
  | .read | .write _ => true
  | _ => false

/-- `read` answered 0. -/
def ended : KryptReadPc → Prop
  | .closeOut res | .done res => res = 0
  | _ => False

/-- The process ended with 0. -/
def sentAll : KryptReadPc → Prop
  | .done res => res = 0
  | _ => False

/-- What was read and is not in the pipe. -/
def hand : KryptReadPc → List Byte
  | .write c => if c.sz = 0 then c.bytes c.size else []
  | _ => []

/-- How far the end is, without the bytes that are still to move. -/
def rank : KryptReadPc → Nat
  | .pipe => 9
  | .fork => 8
  | .closeIn => 7
  | .openFile => 6
  | .palloc => 5
  | .write c => if c.sz = 0 then 4 else 3
  | .read => 2
  | .closeOut _ => 1
  | .noPipe | .done _ => 0

end KryptReadPc

namespace KryptEncryptPc

/-- Before the loop. -/
def early : KryptEncryptPc → Bool
  | .absent | .closeOut1 | .pipe | .exit | .noPipe | .fork | .closeIn2 | .palloc => true
  | _ => false

def loops : KryptEncryptPc → Bool
  | .start | .read _ | .crypt _ | .write _ => true
  | _ => false

def ended : KryptEncryptPc → Prop
  | .closeOut2 res | .closeIn1 res | .done res => res = 0
  | _ => False

/-- The process has less than a page in its hands, encrypted or not. -/
def short : KryptEncryptPc → Prop
  | .crypt sz => sz.toNat < bufferSize
  | .write c => c.size < bufferSize
  | _ => False

/-- What the last `read` returned, before it is encrypted. -/
def cryptSize : KryptEncryptPc → Option Int
  | .crypt sz => some sz
  | _ => none

/-- How many bytes were read and are not encrypted. -/
def raw : KryptEncryptPc → Nat
  | .read c => c.sz
  | .crypt sz => sz.toNat
  | _ => 0

def call : KryptEncryptPc → Option PipeCall
  | .read c | .write c => some c
  | _ => none

def rank : KryptEncryptPc → Nat
  | .absent | .closeOut1 => 13
  | .pipe => 12
  | .fork => 11
  | .closeIn2 => 10
  | .palloc => 9
  | .read c => if c.sz = 0 then 3 else 8
  | .crypt _ => 7
  | .write c => if c.sz = 0 then 6 else 5
  | .start => 4
  | .closeOut2 _ => 2
  | .exit | .closeIn1 _ => 1
  | .noPipe | .done _ => 0

end KryptEncryptPc

namespace KryptWritePc

def loops : KryptWritePc → Bool
  | .start | .read _ | .serial _ _ => true
  | _ => false

/-- What the last `read` returned, while it is sent. -/
def serialSize : KryptWritePc → Option Int
  | .serial _ sz => some sz
  | _ => none

def ended : KryptWritePc → Prop
  | .closeIn2 res | .done res => res = 0
  | _ => False

def rank : KryptWritePc → Nat
  | .absent | .closeIn1 => 9
  | .closeOut2 => 8
  | .openSerial => 7
  | .palloc => 6
  | .read c => if c.sz = 0 then 2 else 5
  | .serial _ _ => 4
  | .start => 3
  | .closeIn2 _ => 1
  | .done _ => 0

end KryptWritePc

/-- What was read and is not in the other pipe, encrypted. -/
def KryptEncrypt.hand (e : KryptEncrypt) : List Byte :=
  match e.pc with
  | .read c => xorFrom e.bytes (c.bytes c.sz)
  | .crypt sz => xorFrom e.bytes (slice e.user.byte e.buffer sz.toNat)
  | .write c => if c.sz = 0 then c.bytes c.size else []
  | _ => []

/-- What was read and was not sent. -/
def KryptWrite.hand (w : KryptWrite) : List Byte :=
  match w.pc with
  | .read c => c.bytes c.sz
  | .serial i sz => slice w.user.byte (w.buffer + i) (uintOf sz - i)
  | _ => []

/-- The page at `buffer` is at user level. -/
def UserMem.Page (u : UserMem) (buffer : Nat) : Prop :=
  ∀ j < pageSize, u.isUser (buffer + j) = true

/-- The bytes `t` were taken out of the first pipe; `q₁` and `q₂` are in the pipes. -/
structure Krypt.Data (f : Ext2File) (s : Krypt) (q₁ q₂ t : List Byte) (short₁ short₂ : Bool) :
    Prop where
  begun : s.read.pc.begun = true
  file : s.file.Inv f
  readPage : s.read.pc.loops = true → s.read.user.Page s.read.buffer
  readCall : ∀ c, s.read.pc.call = some c →
    c.user = s.read.user ∧ (c.size < bufferSize → s.file.stream.pos = f.fileSize)
  readShort : short₁ = true → s.file.stream.pos = f.fileSize
  readEnd : s.read.pc.ended → s.file.stream.pos = f.fileSize
  sent₁ : s.in1 ≠ 0 → t ++ q₁ ++ s.read.pc.hand = f.bytes.take s.file.stream.pos
  part₁ : t <+: f.bytes
  early : s.encrypt.pc.early = true → t = []
  encryptPage : s.encrypt.pc.loops = true → s.encrypt.user.Page s.encrypt.buffer
  encryptIn : ∀ c, s.encrypt.pc.inCall = some c → c.user.isUser = s.encrypt.user.isUser ∧
    c.buf = s.encrypt.buffer ∧ (0 < c.sz → short₂ = false)
  encryptRaw : ∀ sz, s.encrypt.pc.cryptSize = some sz →
    ∃ n : Nat, sz = n ∧ 0 < n ∧ n ≤ bufferSize ∧ short₂ = false
  encryptOut : ∀ c, s.encrypt.pc.outCall = some c → c.user.isUser = s.encrypt.user.isUser
  encryptCount : s.encrypt.pc.loops = true → s.encrypt.bytes + s.encrypt.pc.raw = t.length
  drained : s.encrypt.pc.short ∨ short₂ = true → s.out1 = 0 ∧ q₁ = []
  encryptEnd : s.encrypt.pc.ended → s.out1 = 0 ∧ (s.read.pc.sentAll → t = f.bytes)
  sent₂ : s.in2 ≠ 0 → s.serial ++ s.write.hand ++ q₂ ++ s.encrypt.hand = xorFrom 0 t
  part₂ : s.serial ++ s.write.hand <+: xorFrom 0 f.bytes
  unborn : s.write.pc.isAbsent = true → s.serial = []
  writePage : s.write.pc.loops = true → s.write.user.Page s.write.buffer
  writeIn : ∀ c, s.write.pc.call = some c →
    c.user.isUser = s.write.user.isUser ∧ c.buf = s.write.buffer
  writeSerial : ∀ sz, s.write.pc.serialSize = some sz → ∃ n : Nat, sz = n ∧ n ≤ bufferSize
  writeEnd : s.write.pc.ended → s.out2 = 0 ∧ s.serial = xorFrom 0 t

/-! ## How far the end is

A byte counts more the farther it is from the serial port, so that every step but a wait comes
closer to the end. -/

def KryptRead.load (r : KryptRead) : Nat := r.pc.rank + 11 * r.pc.hand.length

def KryptEncrypt.load (e : KryptEncrypt) : Nat := e.pc.rank + 5 * e.hand.length

def KryptWrite.load (w : KryptWrite) : Nat := w.pc.rank + w.hand.length

namespace Krypt

def weight (f : Ext2File) (s : Krypt) (q₁ q₂ : List Byte) : Nat :=
  14 * (f.fileSize - s.file.stream.pos) + s.read.load + 11 * q₁.length + s.encrypt.load +
    5 * q₂.length + s.write.load

/-- The call a process is in. -/
def pending (s : Krypt) : KryptRole → Option PipeCall
  | .read => s.read.pc.call
  | .encrypt => s.encrypt.pc.call
  | .write => s.write.pc.call

def waits (s : Krypt) (role : KryptRole) : Bool :=
  (s.pending role).any fun c => role.pid ∈ (s.pipes.endpoints c.self).queue

def awake (s : Krypt) : Nat :=
  (!s.waits .read).toNat + (!s.waits .encrypt).toNat + (!s.waits .write).toNat

/-- The invariant of krypt. `n` is the weight. -/
inductive Inv (f : Ext2File) (held : Nat → Bool) (s : Krypt) : Nat → Prop
  | unopened : s.Unopened held → s.read.pc = .pipe ∨ s.read.pc = .noPipe →
    Session.Inv f s.file → s.file.stream.pos = 0 → s.serial = [] →
    Inv f held s (s.weight f [] [])
  | running (q₁ q₂ t : List Byte) (short₁ short₂ : Bool) :
    s.Plumbing held q₁ q₂ short₁ short₂ → s.Data f q₁ q₂ t short₁ short₂ →
    Inv f held s (s.weight f q₁ q₂)

/-- A step that keeps the invariant and comes closer to the end. `n` is the weight before. -/
inductive Falls (f : Ext2File) (held : Nat → Bool) (s : Krypt) (n : Nat) (s' : Krypt) : Prop
  | moved (q₁ q₂ t : List Byte) (short₁ short₂ : Bool) : s'.Plumbing held q₁ q₂ short₁ short₂ →
    s'.weight f q₁ q₂ < n → s'.Data f q₁ q₂ t short₁ short₂ → Falls f held s n s'
  | waits (q₁ q₂ t : List Byte) (short₁ short₂ : Bool) : s'.Plumbing held q₁ q₂ short₁ short₂ →
    s'.weight f q₁ q₂ = n ∧ s'.awake < s.awake → s'.Data f q₁ q₂ t short₁ short₂ →
    Falls f held s n s'

section
variable {f : Ext2File} {s s' : Krypt} {q₁ q₂ : List Byte} {P : Pipes}
  {role : KryptRole} {c : PipeCall}

/-- A step of one process that moves no byte between the two. -/
theorem weight_read (hsame : (s'.file, s'.encrypt, s'.write) = (s.file, s.encrypt, s.write))
    (hhand : s'.read.pc.hand.length ≤ s.read.pc.hand.length)
    (hrank : s'.read.pc.rank < s.read.pc.rank) : s'.weight f q₁ q₂ < s.weight f q₁ q₂ := by
  simp only [Prod.mk.injEq] at hsame
  obtain ⟨hfile, he, hw⟩ := hsame
  rw [weight, weight, hfile, he, hw, KryptRead.load, KryptRead.load]
  omega

theorem weight_encrypt (hsame : (s'.file, s'.read, s'.write) = (s.file, s.read, s.write))
    (hhand : s'.encrypt.hand.length ≤ s.encrypt.hand.length)
    (hrank : s'.encrypt.pc.rank < s.encrypt.pc.rank) :
    s'.weight f q₁ q₂ < s.weight f q₁ q₂ := by
  simp only [Prod.mk.injEq] at hsame
  obtain ⟨hfile, hr, hw⟩ := hsame
  rw [weight, weight, hfile, hr, hw, KryptEncrypt.load, KryptEncrypt.load]
  omega

theorem weight_write (hsame : (s'.file, s'.read, s'.encrypt) = (s.file, s.read, s.encrypt))
    (hhand : s'.write.hand.length ≤ s.write.hand.length)
    (hrank : s'.write.pc.rank < s.write.pc.rank) : s'.weight f q₁ q₂ < s.weight f q₁ q₂ := by
  simp only [Prod.mk.injEq] at hsame
  obtain ⟨hfile, hr, he⟩ := hsame
  rw [weight, weight, hfile, hr, he, KryptWrite.load, KryptWrite.load]
  omega

theorem awake_le : s.awake ≤ 3 := by
  have := Bool.toNat_le (!s.waits .read)
  have := Bool.toNat_le (!s.waits .encrypt)
  have := Bool.toNat_le (!s.waits .write)
  rw [awake]
  omega

theorem awake_pos (h : s.waits role = false) : 0 < s.awake := by
  cases role <;> simp only [awake, h, Bool.not_false, Bool.toNat_true] <;> omega

theorem mem_enqueue {x y : Nat} {p p' : Pid} :
    p' ∈ ((P.enqueue x p).endpoints y).queue ↔ p' ∈ (P.endpoints y).queue ∨ (y = x ∧ p' = p) := by
  rw [Pipes.enqueue]
  by_cases hy : y = x
  · subst hy
    rw [Pipes.modify_self, List.mem_append, List.mem_singleton]
    simp only [true_and]
  · rw [Pipes.modify_of_ne _ hy]
    simp only [hy, false_and, or_false]

theorem pid_inj {role role' : KryptRole} (h : role.pid = role'.pid) : role = role' := by
  revert h
  cases role <;> cases role' <;> decide

/-- A process that begins to wait. -/
theorem awake_enqueue {r : KryptRole} {x : Nat} (hpending : s.pending r = some c) (hx : c.self = x)
    (hq : r.pid ∉ (s.pipes.endpoints x).queue) :
    awake { s with pipes := s.pipes.enqueue x r.pid } < s.awake := by
  obtain rfl := hx
  have hothers : ∀ r', r' ≠ r →
      waits { s with pipes := s.pipes.enqueue c.self r.pid } r' = s.waits r' := by
    intro r' hne
    have hpid : r'.pid ≠ r.pid := fun h => hne (pid_inj h)
    simp only [waits, mem_enqueue, hpid, and_false, or_false]
    rfl
  have hself : s.waits r = false := by
    rw [waits, hpending, Option.any_some]
    exact decide_eq_false hq
  have hself' : waits { s with pipes := s.pipes.enqueue c.self r.pid } r = true := by
    rw [waits, show pending { s with pipes := s.pipes.enqueue c.self r.pid } r = some c from
      hpending, Option.any_some]
    exact decide_eq_true (mem_enqueue.2 (.inr ⟨rfl, rfl⟩))
  cases r <;> simp [awake, hself, hself', hothers]

end

end Krypt

theorem xorFrom_nil {n : Nat} : xorFrom n [] = [] := rfl

theorem xorFrom_mono {n : Nat} {l l' : List Byte} (h : l <+: l') :
    xorFrom n l <+: xorFrom n l' := by
  obtain ⟨k, rfl⟩ := h
  rw [xorFrom_append]
  exact List.prefix_append _ _

theorem Ext2File.length_bytes {f : Ext2File} : f.bytes.length = f.fileSize := length_slice

/-- The bytes of the next read. -/
theorem Ext2File.take_bytes {f : Ext2File} {pos n : Nat} (h : pos + n ≤ f.fileSize) :
    f.bytes.take (pos + n) = f.bytes.take pos ++ slice f.content pos n := by
  have htake : ∀ m ≤ f.fileSize, f.bytes.take m = slice f.content 0 m := by
    intro m hm
    rw [bytes, ← Nat.add_sub_cancel' hm, slice_add, List.take_left' length_slice]
  rw [htake _ h, htake _ (Nat.le_of_add_right_le h), slice_add, Nat.zero_add]

theorem UserMem.palloc_page (u : UserMem) (addr : Nat) : (u.palloc addr).Page addr := by
  intro j hj
  simp only [palloc, Bool.or_eq_true, decide_eq_true_eq]
  exact .inr ⟨Nat.le_add_right _ _, Nat.add_lt_add_left hj _⟩

theorem UserMem.Page.base {u : UserMem} {buffer : Nat} (h : u.Page buffer) :
    u.isUser buffer = true := h 0 (by decide)

theorem uintOf_natCast {n : Nat} (h : n ≤ bufferSize) : uintOf (n : Int) = n := by
  rw [bufferSize_eq] at h
  rw [uintOf]
  omega

/-- The page after the loop that encrypts it. -/
theorem xorFrom_slice {m : Nat → Byte} {a n bytes : Nat} :
    slice (fun j => if a ≤ j ∧ j < a + n then m j ^^^ keyByte (bytes + (j - a)) else m j) a n =
      xorFrom bytes (slice m a n) := by
  refine List.ext_getElem (by simp) fun j hj hj' => ?_
  rw [length_slice] at hj
  simp only [slice, xorFrom, List.getElem_map, List.getElem_range, List.getElem_mapIdx]
  rw [if_pos (by omega), Nat.add_sub_cancel_left]

theorem KryptEncryptPc.inCall_of_in1 {pc : KryptEncryptPc} (h : pc.in1 = 0) : pc.inCall = none := by
  cases pc <;> first | rfl | cases h

theorem KryptEncryptPc.outCall_of_out2 {pc : KryptEncryptPc} (h : pc.out2 = 0) :
    pc.outCall = none := by
  cases pc <;> first | rfl | cases h

theorem KryptReadPc.call_of_out1 {pc : KryptReadPc} (h : pc.out1 = 0) : pc.call = none := by
  cases pc <;> first | rfl | cases h

theorem KryptWritePc.call_of_in2 {pc : KryptWritePc} (h : pc.in2 = 0) : pc.call = none := by
  cases pc <;> first | rfl | cases h

theorem KryptEncrypt.hand_of_out2 {e : KryptEncrypt} (h : e.pc.out2 = 0) : e.hand = [] := by
  cases hpc : e.pc <;> rw [hpc] at h <;> simp only [hand, hpc] <;> cases h

end SpuriOS
