import SpuriOS.Ext2.File
import SpuriOS.Mm.Bitmap
import SpuriOS.Mm.Paging
import SpuriOS.Pipe.Model
import Mathlib.Order.MinMax

/-! # The buffers of `read` and `write`

Every copy that a device makes between the kernel and the buffer of its caller is written to a
log, also the ones that `copy2user` refuses. What a call meets while it waits (the pipe at each of
its rounds, the keys that are pressed, the status of a serial port) is given beforehand. -/

namespace SpuriOS

/-- `size` bytes of the caller from `addr` on. -/
structure Transfer where
  addr : Nat
  size : Nat
  done : Bool

/-- The memory of the process that calls, with the log. -/
structure Caller where
  user : UserMem
  log : List Transfer

namespace Caller

def copy2user (src : Nat → Byte) (dst size : Nat) (c : Caller) : Int × Caller :=
  (if c.user.isUser dst then toInt32 size else -1,
    { user := (SpuriOS.copy2user src dst size c.user).2
      log := c.log ++ [⟨dst, size, c.user.isUser dst⟩] })

/-- The kernel reads from the buffer without asking. -/
def take (addr size : Nat) (c : Caller) : Caller :=
  { c with log := c.log ++ [⟨addr, size, true⟩] }

end Caller

/-! ## `/proc/cpuid` -/

/-- `struct str_dev_proc_cpuid`. -/
structure DevProcCpuid where
  buffer : Nat → Byte
  streamLength : Nat
  streamPosition : Nat

/-- The size that `proc_cpuid_read` goes on with. -/
def DevProcCpuid.clip (d : DevProcCpuid) (size : Nat) : Nat :=
  if Word32.add d.streamPosition size > d.streamLength then
    Word32.sub d.streamLength d.streamPosition
  else size

def procCpuidRead (d : DevProcCpuid) (buf size : Nat) (c : Caller) :
    Int × DevProcCpuid × Caller :=
  let size := d.clip size
  let r := c.copy2user (fun i => d.buffer (d.streamPosition + i)) buf size
  let effectiveSz := r.1
  if effectiveSz > 0 then
    (effectiveSz, { d with streamPosition := Word32.add d.streamPosition effectiveSz.toNat }, r.2)
  else (effectiveSz, d, r.2)

/-! ## Consoles -/

/-- The loop of `con_read`. `chars` are the values of `kbd_char_buf` when the process is woken. -/
def conReadLoop (buf size : Nat) : List Byte → (sz : Nat) → Caller → Option Int × Caller
  | [], sz, c => if sz < size then (none, c) else (some sz, c)
  | kbdCharBuf :: chars, sz, c =>
    if sz < size then
      if kbdCharBuf ≠ 0 then
        conReadLoop buf size chars (sz + 1) (c.copy2user (fun _ => kbdCharBuf) buf 1).2
      else conReadLoop buf size chars sz c
    else (some sz, c)

def conRead (chars : List Byte) (buf size : Nat) (c : Caller) : Option Int × Caller :=
  conReadLoop buf size chars 0 c

/-- The loop of `vga_writebuf`, as far as it reads; what it puts on the screen is left out. Each
round takes one byte at least. -/
def vgaWritebufLoop (string size : Nat) : (fuel sz : Nat) → Caller → Nat × Caller
  | 0, sz, c => (sz, c)
  | fuel + 1, sz, c =>
    if sz < size then
      let byte := fun i => c.user.byte (string + sz + i)
      let c := c.take (string + sz) 1
      if byte 0 = 0 then (sz + 1, c)
      else if byte 0 = '\\'.toUInt8 then
        let c := c.take (string + sz + 1) 1
        if byte 1 = 'c'.toUInt8 then
          let c := (c.take (string + sz + 2) 1).take (string + sz + 3) 1
          vgaWritebufLoop string size fuel (sz + 4) c
        else vgaWritebufLoop string size fuel (sz + 2) c
      else vgaWritebufLoop string size fuel (sz + 1) c
    else (sz, c)

def conWrite (buf size : Nat) (c : Caller) : Option Int × Caller :=
  let r := vgaWritebufLoop buf size size 0 c
  (some r.1, r.2)

/-! ## Serial ports -/

/-- `struct str_dev_serial`, the input side. -/
structure DevSerial where
  bufferFree : Bool
  buffer : Nat → Byte
  ptrTo : Nat

/-- `woken` is the port when the process goes on after `loader_enqueue`, if it does. -/
def serialRead (d : DevSerial) (woken : Option DevSerial) (buf size : Nat) (c : Caller) :
    Option Int × DevSerial × Caller :=
  if size > 0 then
    match if d.bufferFree then woken else some d with
    | none => (none, d, c)
    | some d =>
      let bytesCopied := if size < d.ptrTo then size else d.ptrTo
      (some bytesCopied, { d with ptrTo := 0, bufferFree := true },
        (c.copy2user d.buffer buf bytesCopied).2)
  else (some size, d, c)

/-- The loop of `serial_write`. `lstat` says at which of its rounds the port is ready. -/
def serialWriteLoop (size : Nat) : List Bool → (writed buf : Nat) → Caller → Option Int × Caller
  | [], writed, _, c => if writed < size then (none, c) else (some writed, c)
  | thre :: lstat, writed, buf, c =>
    if writed < size then
      if thre then serialWriteLoop size lstat (writed + 1) (buf + 1) (c.take buf 1)
      else serialWriteLoop size lstat writed buf c
    else (some writed, c)

def serialWrite (lstat : List Bool) (buf size : Nat) (c : Caller) : Option Int × Caller :=
  if c.user.isUser buf then serialWriteLoop size lstat 0 buf c else (some (-1), c)

/-! ## Pipes -/

/-- The copies of a round. Of a read they are those of `readCopy`, of a write of `writeCopy`. -/
def PipeCall.log (c : PipeCall) (pos effSize : Nat) : List Transfer :=
  let done := c.writing || c.user.isUser c.buf
  if pos + effSize > bufferSize then
    let tmp := bufferSize - pos
    [⟨c.buf, tmp, done⟩, ⟨c.buf, effSize - tmp, done⟩]
  else [⟨c.buf, effSize, done⟩]

/-- The chunk of a round. -/
def PipeCall.effSize (c : PipeCall) (s : Pipes) : Nat :=
  if c.writing then writeSize s c else readSize s c

/-- A call that finds the pipes in the states `env` at its rounds. -/
def pipeCallLoop : List Pipes → PipeCall → List Transfer → Option Int × Caller
  | [], c, log => (none, ⟨c.user, log⟩)
  | s :: env, c, log =>
    let r := pipeRound s c
    match r.2.2 with
    | .done result => (some result, ⟨c.user, log⟩)
    | .block => pipeCallLoop env r.2.1 log
    | .again => pipeCallLoop env r.2.1 (log ++ c.log (s.endpoints c.self).pos (c.effSize s))

/-! ## Files -/

/-- What a round of `ext2_file_read` takes from the buffer of the file. -/
def Ext2File.chunk (f : Ext2File) (remainingSize : Nat) : Nat :=
  let left := Word32.sub f.bufLen f.bufPos
  if remainingSize < left then remainingSize else left

def Ext2File.advance (f : Ext2File) (n : Nat) : Ext2File :=
  { f with bufPos := Word32.add f.bufPos n, streamPos := Word32.add f.streamPos n }

/-- The loop of `ext2_file_read`, with the log. -/
def ext2FileReadLogged (size : Nat) :
    (fuel remainingSize totalCopiedBytes buf : Nat) → Ext2File → Ram → Caller →
      Option (Int × Ext2File × Ram) × Caller
  | 0, _, _, _, _, _, c => (none, c)
  | fuel + 1, remainingSize, totalCopiedBytes, buf, f, r, c =>
    if remainingSize = 0 then
      (if totalCopiedBytes = size then some (totalCopiedBytes, f, r) else none, c)
    else
      let bytesCopiados := f.chunk remainingSize
      let done := c.user.isUser buf
      let c := (c.copy2user (fun i => r.mem (f.buffer + f.bufPos + i)) buf bytesCopiados).2
      if ¬done then (some (-1, f, r), c)
      else
        let f := f.advance bytesCopiados
        let remainingSize := Word32.sub remainingSize bytesCopiados
        if remainingSize > 0 then
          match e2fLoadBuffer f r with
          | none => (none, c)
          | some (f, r) =>
            ext2FileReadLogged size fuel remainingSize (totalCopiedBytes + bytesCopiados)
              (buf + bytesCopiados) f r c
        else
          ext2FileReadLogged size fuel remainingSize (totalCopiedBytes + bytesCopiados)
            (buf + bytesCopiados) f r c

/-- The file as `ext2_file_read` finds it or loads it. -/
def Ext2File.loaded (f : Ext2File) (r : Ram) : Option (Ext2File × Ram) :=
  if f.bufferEmpty then e2fLoadBuffer f r else some (f, r)

/-- The size that `ext2_file_read` goes on with. -/
def Ext2File.clip (f : Ext2File) (size : Nat) : Nat :=
  if Word32.add f.streamPos size > f.fileSize then Word32.sub f.fileSize f.streamPos else size

def ext2FileReadCall (f : Ext2File) (r : Ram) (buf size : Nat) (c : Caller) :
    Option (Int × Ext2File × Ram) × Caller :=
  if size = 0 then (some (0, f, r), c)
  else
    match f.loaded r with
    | none => (none, c)
    | some (f, r) => ext2FileReadLogged (f.clip size) (f.clip size + 2) (f.clip size) 0 buf f r c

/-! ## All calls -/

/-- A call of `read` or `write` with what the device decides. -/
inductive DevCall where
  | ext2FileRead (f : Ext2File) (h : f.bufLen = pageSize) (r : Ram)
  | procCpuidRead (d : DevProcCpuid)
  | pipeRead (self : Nat) (env : List Pipes)
  | pipeWrite (self : Nat) (env : List Pipes)
  | conRead (chars : List Byte)
  | conWrite
  | serialRead (d : DevSerial) (woken : Option DevSerial)
  | serialWrite (lstat : List Bool)

namespace DevCall

/-- What the call returns, if it does, and the copies. -/
def run (call : DevCall) (u : UserMem) (buf size : Nat) : Option Int × Caller :=
  let c : Caller := ⟨u, []⟩
  match call with
  | .ext2FileRead f _ r =>
    let r := ext2FileReadCall f r buf size c
    (r.1.map (·.1), r.2)
  | .procCpuidRead d =>
    let r := SpuriOS.procCpuidRead d buf size c
    (some r.1, r.2.2)
  | .pipeRead self env => pipeCallLoop env ⟨false, self, buf, size, 0, u⟩ []
  | .pipeWrite self env => pipeCallLoop env ⟨true, self, buf, size, 0, u⟩ []
  | .conRead chars => SpuriOS.conRead chars buf size c
  | .conWrite => SpuriOS.conWrite buf size c
  | .serialRead d woken =>
    let r := SpuriOS.serialRead d woken buf size c
    (r.1, r.2.2)
  | .serialWrite lstat => SpuriOS.serialWrite lstat buf size c

end DevCall

/-- All bytes of the transfer are at user level. -/
def Transfer.Within (u : UserMem) (t : Transfer) : Prop :=
  ∀ i < t.size, u.isUser (t.addr + i) = true

/-- All copies are of bytes at user level, or the call fails and copies nothing. -/
def UserConfined (u : UserMem) (r : Option Int × Caller) : Prop :=
  (∀ t ∈ r.2.log, t.Within u) ∨
    (∃ e < 0, r.1 = some e) ∧ ∀ t ∈ r.2.log, t.done = true → t.size = 0

/-! ## How far the calls reach -/

/-- The most bytes that a round moves at once. -/
def pipeSpan : List Pipes → PipeCall → Nat
  | [], _ => 0
  | s :: env, c =>
    let r := pipeRound s c
    match r.2.2 with
    | .done _ => 0
    | .block => pipeSpan env r.2.1
    | .again =>
      let pos := (s.endpoints c.self).pos
      let n := c.effSize s
      max (if pos + n > bufferSize then max (bufferSize - pos) (n - (bufferSize - pos)) else n)
        (pipeSpan env r.2.1)

/-- The number of bytes that `vga_writebuf` comes upon. -/
def vgaSpan (string : Nat → Byte) (size : Nat) : (fuel sz : Nat) → Nat
  | 0, sz => sz
  | fuel + 1, sz =>
    if sz < size then
      if string sz = 0 then sz + 1
      else if string sz = '\\'.toUInt8 then
        vgaSpan string size fuel (if string (sz + 1) = 'c'.toUInt8 then sz + 4 else sz + 2)
      else vgaSpan string size fuel (sz + 1)
    else sz

/-- The number of bytes that `ext2_file_read` comes upon before a load fails. -/
def ext2Span : (fuel remainingSize : Nat) → Ext2File → Ram → Nat
  | 0, _, _, _ => 0
  | fuel + 1, remainingSize, f, r =>
    if remainingSize = 0 then 0
    else
      let n := f.chunk remainingSize
      let rest := Word32.sub remainingSize n
      if rest > 0 then
        match e2fLoadBuffer (f.advance n) r with
        | none => n
        | some (f, r) => n + ext2Span fuel rest f r
      else n

namespace DevCall

/-- The number of bytes from `buf` on that the call gets to if it is let. -/
def span (call : DevCall) (u : UserMem) (buf size : Nat) : Nat :=
  match call with
  | .ext2FileRead f _ r =>
    if size = 0 then 0
    else
      match f.loaded r with
      | none => 0
      | some (f, r) => ext2Span (f.clip size + 2) (f.clip size) f r
  | .procCpuidRead d => d.clip size
  | .pipeRead self env => pipeSpan env ⟨false, self, buf, size, 0, u⟩
  | .pipeWrite self env => pipeSpan env ⟨true, self, buf, size, 0, u⟩
  | .conRead chars => if 0 < size ∧ ∃ c ∈ chars, c ≠ 0 then 1 else 0
  | .conWrite => vgaSpan (fun i => u.byte (buf + i)) size size 0
  | .serialRead d woken =>
    if size > 0 then
      match if d.bufferFree then woken else some d with
      | none => 0
      | some d => if size < d.ptrTo then size else d.ptrTo
    else 0
  | .serialWrite lstat => min size (lstat.count true)

/-- The device asks for the privilege level of the first byte, and fails if it is none of the
user's. -/
def Checks : DevCall → Prop
  | .ext2FileRead .. | .procCpuidRead _ | .serialWrite _ => True
  | _ => False

end DevCall

section
variable {u : UserMem} {c : Caller} {buf size n : Nat} {f : Ext2File} {r : Ram}

/-- Without the log, the call is that of the model of files. -/
theorem ext2FileReadLoop_eq {fuel remainingSize total : Nat} :
    ext2FileReadLoop size fuel remainingSize total buf f r c.user =
      (ext2FileReadLogged size fuel remainingSize total buf f r c).1.map fun x =>
        (x.1, x.2.1, x.2.2,
          (ext2FileReadLogged size fuel remainingSize total buf f r c).2.user) := by
  induction fuel generalizing remainingSize total buf f r c with
  | zero => rfl
  | succ fuel ih =>
    rw [ext2FileReadLoop, ext2FileReadLogged]
    split
    · split <;> rfl
    dsimp only
    cases hdone : c.user.isUser buf with
    | false =>
      have hne : ∀ n : Nat, (-1 : Int) ≠ n := fun n => by omega
      rw [SpuriOS.copy2user, hdone, if_neg Bool.false_ne_true]
      dsimp only
      rw [if_pos (hne _), if_pos Bool.false_ne_true, Caller.copy2user, SpuriOS.copy2user, hdone]
      rfl
    | true =>
      generalize hsrc : (fun i => r.mem (f.buffer + f.bufPos + i)) = src
      have huser : (c.copy2user src buf (f.chunk remainingSize)).2.user =
          { c.user with byte := Memory.write c.user.byte buf (f.chunk remainingSize) src } := by
        rw [Caller.copy2user, copy2user_eq hdone]
      rw [copy2user_eq hdone]
      simp only [ne_eq, not_true_eq_false, if_false]
      change (if Word32.sub remainingSize (f.chunk remainingSize) > 0 then
        (e2fLoadBuffer (f.advance (f.chunk remainingSize)) r).bind fun x =>
          ext2FileReadLoop size fuel (Word32.sub remainingSize (f.chunk remainingSize))
            (total + f.chunk remainingSize) (buf + f.chunk remainingSize) x.1 x.2
            { c.user with byte := Memory.write c.user.byte buf (f.chunk remainingSize) src }
        else _) = _
      rw [← huser]
      split
      · cases e2fLoadBuffer (f.advance (f.chunk remainingSize)) r with
        | none => rfl
        | some x => exact ih
      · exact huser ▸ ih

theorem ext2FileRead_eq :
    ext2FileRead f buf size r c.user = (ext2FileReadCall f r buf size c).1.map fun x =>
      (x.1, x.2.1, x.2.2, (ext2FileReadCall f r buf size c).2.user) := by
  rw [ext2FileRead, ext2FileReadCall]
  split
  · rfl
  · rw [Ext2File.loaded]
    split
    · cases e2fLoadBuffer f r with
      | none => rfl
      | some x => exact ext2FileReadLoop_eq
    · exact ext2FileReadLoop_eq

/-! ## What is in the logs -/

theorem within_append {log : List Transfer} {t : Transfer} :
    (∀ t' ∈ log ++ [t], t'.Within u) ↔ (∀ t' ∈ log, t'.Within u) ∧ t.Within u := by
  simp [or_imp, forall_and]

/-- Adjacent ranges at user level are one. -/
theorem within_add {k n : Nat} :
    ((∀ i < k, u.isUser (buf + i) = true) ∧ ∀ i < n, u.isUser (buf + k + i) = true) ↔
      ∀ i < k + n, u.isUser (buf + i) = true := by
  constructor
  · rintro ⟨hk, hn⟩ i hi
    by_cases hik : i < k
    · exact hk i hik
    · have := hn (i - k) (by omega)
      rwa [show buf + k + (i - k) = buf + i by omega] at this
  · intro h
    refine ⟨fun i hi => h i (by omega), fun i hi => ?_⟩
    rw [Nat.add_assoc]
    exact h (k + i) (by omega)

theorem conReadLoop_log {chars : List Byte} {sz : Nat} :
    (∀ t ∈ (conReadLoop buf size chars sz c).2.log, t.Within u) ↔
      (∀ t ∈ c.log, t.Within u) ∧
        ((sz < size ∧ ∃ ch ∈ chars, ch ≠ 0) → u.isUser buf = true) := by
  induction chars generalizing sz c with
  | nil =>
    rw [conReadLoop]
    split <;> simp
  | cons ch chars ih =>
    rw [conReadLoop]
    split
    next hlt =>
      split
      next hch =>
        have hone : Transfer.Within u ⟨buf, 1, c.user.isUser buf⟩ ↔ u.isUser buf = true :=
          ⟨fun h => h 0 (Nat.zero_lt_one), fun h i hi => by
            obtain rfl : i = 0 := by simpa using hi
            exact h⟩
        rw [ih, Caller.copy2user, within_append, hone]
        constructor
        · rintro ⟨⟨hlog, hbuf⟩, -⟩
          exact ⟨hlog, fun _ => hbuf⟩
        · rintro ⟨hlog, hbuf⟩
          have := hbuf ⟨hlt, ch, by simp, hch⟩
          exact ⟨⟨hlog, this⟩, fun _ => this⟩
      next hch =>
        rw [Decidable.not_not] at hch
        rw [ih]
        simp [hch]
    next hge => simp [hge]

theorem conReadLoop_result {chars : List Byte} {sz : Nat} {e : Int}
    (h : (conReadLoop buf size chars sz c).1 = some e) : 0 ≤ e := by
  induction chars generalizing sz c with
  | nil =>
    rw [conReadLoop] at h
    split at h
    · cases h
    · cases h
      omega
  | cons ch chars ih =>
    rw [conReadLoop] at h
    split at h
    · split at h <;> exact ih h
    · cases h
      omega

theorem le_vgaSpan (string : Nat → Byte) (fuel sz : Nat) : sz ≤ vgaSpan string size fuel sz := by
  induction fuel generalizing sz with
  | zero => exact Nat.le_refl _
  | succ fuel ih =>
    rw [vgaSpan]
    split
    · split
      · omega
      · split
        · split <;> exact Nat.le_trans (by omega) (ih _)
        · exact Nat.le_trans (by omega) (ih _)
    · exact Nat.le_refl _

theorem within_one {a : Nat} : Transfer.Within u ⟨a, 1, true⟩ ↔ u.isUser a = true :=
  ⟨fun h => h 0 Nat.zero_lt_one, fun h i hi => by
    obtain rfl : i = 0 := by simpa using hi
    exact h⟩

theorem vgaWritebufLoop_log {fuel sz : Nat} :
    (∀ t ∈ (vgaWritebufLoop buf size fuel sz c).2.log, t.Within u) ↔
      (∀ t ∈ c.log, t.Within u) ∧
        ∀ i < vgaSpan (fun i => c.user.byte (buf + i)) size fuel sz, sz ≤ i →
          u.isUser (buf + i) = true := by
  have hstep : ∀ m n, m < n → ((∀ i < n, m ≤ i → u.isUser (buf + i) = true) ↔
      u.isUser (buf + m) = true ∧ ∀ i < n, m + 1 ≤ i → u.isUser (buf + i) = true) := by
    intro m n hm
    refine ⟨fun h => ⟨h m hm (Nat.le_refl m), fun i hi hle => h i hi (by omega)⟩, ?_⟩
    rintro ⟨h0, h⟩ i hi hle
    obtain rfl | hlt := Nat.eq_or_lt_of_le hle
    · exact h0
    · exact h i hi hlt
  induction fuel generalizing sz c with
  | zero =>
    rw [vgaWritebufLoop, vgaSpan]
    exact ⟨fun h => ⟨h, fun i hi hle => by omega⟩, And.left⟩
  | succ fuel ih =>
    rw [vgaWritebufLoop, vgaSpan]
    simp only [Nat.add_zero, Nat.add_assoc]
    split
    · split
      · rw [Caller.take, within_append, within_one, hstep sz (sz + 1) (by omega)]
        refine and_congr_right fun _ => ⟨fun h => ⟨h, fun i hi hle => by omega⟩, And.left⟩
      · split
        · split
          · have hle : sz + 4 ≤ vgaSpan (fun i => c.user.byte (buf + i)) size fuel (sz + 4) :=
              le_vgaSpan ..
            refine Iff.trans ih ?_
            rw [hstep sz _ (by omega), hstep (sz + 1) _ (by omega), hstep (sz + 2) _ (by omega),
              hstep (sz + 3) _ (by omega)]
            simp only [Caller.take, within_append, within_one, and_assoc]
          · have hle : sz + 2 ≤ vgaSpan (fun i => c.user.byte (buf + i)) size fuel (sz + 2) :=
              le_vgaSpan ..
            refine Iff.trans ih ?_
            rw [hstep sz _ (by omega), hstep (sz + 1) _ (by omega)]
            simp only [Caller.take, within_append, within_one, and_assoc]
        · have hle : sz + 1 ≤ vgaSpan (fun i => c.user.byte (buf + i)) size fuel (sz + 1) :=
            le_vgaSpan ..
          refine Iff.trans ih ?_
          rw [hstep sz _ (by omega)]
          simp only [Caller.take, within_append, within_one, and_assoc]
    · exact ⟨fun h => ⟨h, fun i hi hle => by omega⟩, And.left⟩

theorem serialWriteLoop_log {lstat : List Bool} {writed : Nat} :
    (∀ t ∈ (serialWriteLoop size lstat writed buf c).2.log, t.Within u) ↔
      (∀ t ∈ c.log, t.Within u) ∧
        ∀ i < min (size - writed) (lstat.count true), u.isUser (buf + i) = true := by
  induction lstat generalizing writed buf c with
  | nil =>
    rw [serialWriteLoop]
    split <;> simp
  | cons thre lstat ih =>
    rw [serialWriteLoop]
    split
    next hlt =>
      cases thre with
      | true =>
        have hmin : min (size - writed) ((true :: lstat).count true) =
            1 + min (size - (writed + 1)) (lstat.count true) := by
          rw [List.count_cons_self]
          omega
        rw [if_pos rfl, ih, Caller.take, within_append, hmin, ← within_add, and_assoc]
        rfl
      | false =>
        rw [if_neg (by simp), ih, List.count_cons_of_ne (by simp)]
    next hge =>
      rw [show size - writed = 0 by omega, Nat.zero_min]
      simp

theorem serialWriteLoop_result {lstat : List Bool} {writed : Nat} {e : Int}
    (h : (serialWriteLoop size lstat writed buf c).1 = some e) : 0 ≤ e := by
  induction lstat generalizing writed buf c with
  | nil =>
    rw [serialWriteLoop] at h
    split at h
    · cases h
    · cases h
      omega
  | cons thre lstat ih =>
    rw [serialWriteLoop] at h
    split at h
    · split at h <;> exact ih h
    · cases h
      omega

/-- A round of a pipe call keeps the buffer; if it ends the call, the result is a count. -/
theorem pipeRound_call (s : Pipes) (c : PipeCall) :
    (pipeRound s c).2.1.buf = c.buf ∧ ∀ e, (pipeRound s c).2.2 = .done e → 0 ≤ e := by
  have hcases := pipeRound_cases s c
  generalize pipeRound s c = r at hcases
  cases hcases with
  | full _ | readEnd _ _ _ _ | writeEnd _ _ _ =>
    refine ⟨rfl, fun e he => ?_⟩
    cases he
    omega
  | readBlock _ _ _ _ | writeBlock _ _ _ _ | readMove _ _ _ | writeMove _ _ _ _ =>
    exact ⟨rfl, fun e he => by cases he⟩

theorem pipeCallLoop_result {env : List Pipes} {c : PipeCall} {log : List Transfer} {e : Int}
    (h : (pipeCallLoop env c log).1 = some e) : 0 ≤ e := by
  induction env generalizing c log with
  | nil => cases h
  | cons s env ih =>
    rw [pipeCallLoop] at h
    have hdone := (pipeRound_call s c).2
    revert h hdone
    cases (pipeRound s c).2.2 with
    | done result =>
      intro h hdone
      cases h
      exact hdone _ rfl
    | block | again => exact fun h _ => ih h

theorem forall_lt_max {U : Nat → Prop} {m n : Nat} :
    (∀ i < max m n, U i) ↔ (∀ i < m, U i) ∧ ∀ i < n, U i := by
  simp only [lt_max_iff, or_imp, forall_and]

theorem PipeCall.log_within {c : PipeCall} {pos m : Nat} {log : List Transfer} :
    (∀ t ∈ log ++ c.log pos m, t.Within u) ↔ (∀ t ∈ log, t.Within u) ∧
      ∀ i < (if pos + m > bufferSize then max (bufferSize - pos) (m - (bufferSize - pos)) else m),
        u.isUser (c.buf + i) = true := by
  rw [PipeCall.log]
  split
  · rw [forall_lt_max]
    simp only [List.mem_append, or_imp, forall_and, List.mem_cons, forall_eq, List.not_mem_nil,
      false_imp_iff, and_true]
    rfl
  · rw [within_append]
    rfl

/-- A read changes no byte outside of the copies in the log. -/
theorem readCopy_outside {s : Pipes} {c : PipeCall} {a : Nat}
    (h : ∀ t ∈ c.log (s.endpoints c.self).pos n, t.done = true →
      ¬(t.addr ≤ a ∧ a < t.addr + t.size)) :
    (readCopy s c n).byte a = c.user.byte a := by
  rw [PipeCall.log] at h
  rw [readCopy]
  cases hu : c.user.isUser c.buf with
  | false =>
    have hcopy : ∀ src m, (copy2user src c.buf m c.user).2 = c.user := fun src m => by
      rw [copy2user, hu]
      rfl
    split <;> simp only [hcopy]
  | true =>
    rw [hu, Bool.or_true] at h
    split at h
    next hwrap =>
      simp only [List.mem_cons, List.not_mem_nil, or_false, forall_eq_or_imp, forall_eq,
        forall_const] at h
      dsimp only
      rw [if_pos hwrap, copy2user_eq hu, copy2user_eq (by exact hu)]
      dsimp only
      rw [Memory.write_of_not h.2, Memory.write_of_not h.1]
    next hstraight =>
      simp only [List.mem_singleton, forall_eq, forall_const] at h
      dsimp only
      rw [if_neg hstraight, copy2user_eq hu]
      dsimp only
      rw [Memory.write_of_not h]

theorem pipeCallLoop_log {env : List Pipes} {c : PipeCall} {log : List Transfer} :
    (∀ t ∈ (pipeCallLoop env c log).2.log, t.Within u) ↔
      (∀ t ∈ log, t.Within u) ∧ ∀ i < pipeSpan env c, u.isUser (c.buf + i) = true := by
  induction env generalizing c log with
  | nil => simp [pipeCallLoop, pipeSpan]
  | cons s env ih =>
    have hbuf := (pipeRound_call s c).1
    rw [pipeCallLoop, pipeSpan]
    dsimp only
    cases (pipeRound s c).2.2 with
    | done result => simp
    | block =>
      dsimp only
      rw [ih, hbuf]
    | again =>
      dsimp only
      rw [ih, hbuf, PipeCall.log_within, forall_lt_max, and_assoc]

/-! ### Files -/

/-- A load leaves the position in the first page of the buffer. -/
theorem e2fLoadBuffer_bufPos {f' : Ext2File} {r' : Ram} (hlen : f.bufLen = pageSize)
    (h : e2fLoadBuffer f r = some (f', r')) : f'.bufLen = pageSize ∧ f'.bufPos < pageSize := by
  rw [e2fLoadBuffer] at h
  simp only [Option.bind_eq_bind, Option.bind_eq_some_iff] at h
  obtain ⟨r'', -, h⟩ := h
  cases h
  refine ⟨hlen, ?_⟩
  dsimp only
  rw [hlen]
  exact Nat.mod_lt _ (by decide)

theorem Ext2File.chunk_pos (hlen : f.bufLen = pageSize) (hpos : f.bufPos < pageSize)
    (hn : 0 < n) : 0 < f.chunk n := by
  have hleft : Word32.sub f.bufLen f.bufPos = pageSize - f.bufPos := by
    rw [hlen]
    exact Word32.sub_of_le (Nat.le_of_lt hpos) (by decide)
  rw [chunk, hleft]
  split <;> omega

theorem ext2Span_zero {fuel : Nat} : ext2Span fuel 0 f r = 0 := by
  cases fuel <;> rfl

/-- The chunk of the first round is in the span. -/
theorem chunk_le_ext2Span {fuel : Nat} (hn : n ≠ 0) :
    f.chunk n ≤ ext2Span (fuel + 1) n f r := by
  rw [ext2Span, if_neg hn]
  dsimp only
  split
  · split
    · exact Nat.le_refl _
    · exact Nat.le_add_right ..
  · exact Nat.le_refl _

theorem ext2FileReadLogged_log {fuel remainingSize total : Nat} (hlen : f.bufLen = pageSize)
    (hfirst : remainingSize = 0 ∨ 0 < f.chunk remainingSize ∨ c.user.isUser buf = true)
    (hu : c.user.isUser = u.isUser) :
    (∀ t ∈ (ext2FileReadLogged size fuel remainingSize total buf f r c).2.log, t.Within u) ↔
      (∀ t ∈ c.log, t.Within u) ∧
        ∀ i < ext2Span fuel remainingSize f r, u.isUser (buf + i) = true := by
  induction fuel generalizing remainingSize total buf f r c with
  | zero => simp [ext2FileReadLogged, ext2Span]
  | succ fuel ih =>
    by_cases hrem : remainingSize = 0
    · rw [ext2FileReadLogged, if_pos hrem, hrem, ext2Span_zero]
      simp
    have hchunk : f.chunk remainingSize ≤ ext2Span (fuel + 1) remainingSize f r :=
      chunk_le_ext2Span hrem
    have hlen₁ : (f.advance (f.chunk remainingSize)).bufLen = pageSize := hlen
    rw [ext2FileReadLogged, if_neg hrem]
    dsimp only
    cases huser : c.user.isUser buf with
    | false =>
      -- the copy is refused, and the chunk is not empty
      have hpos := (hfirst.resolve_left hrem).resolve_right (by rw [huser]; simp)
      rw [hu] at huser
      rw [if_pos (by simp), Caller.copy2user, within_append]
      refine iff_of_false (fun h => ?_) fun h => ?_
      · have := h.2 0 hpos
        rw [show buf + 0 = buf from rfl, huser] at this
        cases this
      · have := h.2 0 (by omega)
        rw [show buf + 0 = buf from rfl, huser] at this
        cases this
    | true =>
      rw [if_neg (by simp), ext2Span, if_neg hrem]
      dsimp only
      generalize hsrc : (fun i => r.mem (f.buffer + f.bufPos + i)) = src
      have hu' : (c.copy2user src buf (f.chunk remainingSize)).2.user.isUser = u.isUser := by
        rw [Caller.copy2user, copy2user_eq huser]
        exact hu
      have hlog : (c.copy2user src buf (f.chunk remainingSize)).2.log =
          c.log ++ [⟨buf, f.chunk remainingSize, true⟩] := by
        rw [Caller.copy2user, huser]
      split
      next hrest =>
        cases hload : e2fLoadBuffer (f.advance (f.chunk remainingSize)) r with
        | none =>
          dsimp only
          rw [hlog, within_append]
          rfl
        | some x =>
          obtain ⟨hlen', hpos'⟩ := e2fLoadBuffer_bufPos hlen₁ hload
          dsimp only
          rw [ih hlen' (.inr (.inl (Ext2File.chunk_pos hlen' hpos' hrest))) hu', hlog,
            within_append, ← within_add, and_assoc]
          rfl
      next hrest =>
        have hzero : Word32.sub remainingSize (f.chunk remainingSize) = 0 := by omega
        rw [ih hlen₁ (.inl hzero) hu', hlog, within_append, hzero, ext2Span_zero]
        simp only [Nat.not_lt_zero, false_imp_iff, implies_true, and_true]
        rfl

theorem mem_ext2FileReadLogged {fuel remainingSize total : Nat} {t : Transfer} (h : t ∈ c.log) :
    t ∈ (ext2FileReadLogged size fuel remainingSize total buf f r c).2.log := by
  induction fuel generalizing remainingSize total buf f r c with
  | zero => exact h
  | succ fuel ih =>
    have h' : ∀ src n, t ∈ (c.copy2user src buf n).2.log := fun _ _ =>
      List.mem_append_left _ h
    rw [ext2FileReadLogged]
    split
    · exact h
    · dsimp only
      split
      · exact h' _ _
      · split
        · split
          · exact h' _ _
          · exact ih (h' _ _)
        · exact ih (h' _ _)

theorem ext2FileReadLogged_zero {fuel total : Nat} {e : Int}
    (h : (ext2FileReadLogged size fuel 0 total buf f r c).1.map (·.1) = some e) : 0 ≤ e := by
  cases fuel with
  | zero => cases h
  | succ fuel =>
    rw [ext2FileReadLogged, if_pos rfl] at h
    dsimp only at h
    split at h
    · cases h
      exact Int.natCast_nonneg total
    · cases h

/-- If the first byte of the buffer is at user level, a read that fails has copied something. -/
theorem ext2FileReadLogged_failed {fuel remainingSize total : Nat} (hlen : f.bufLen = pageSize)
    (hu : c.user.isUser buf = true) {e : Int}
    (h : (ext2FileReadLogged size fuel remainingSize total buf f r c).1.map (·.1) = some e)
    (he : e < 0) :
    ∃ t ∈ (ext2FileReadLogged size fuel remainingSize total buf f r c).2.log,
      t.done = true ∧ 0 < t.size := by
  induction fuel generalizing remainingSize total f r c with
  | zero => cases h
  | succ fuel ih =>
    by_cases hrem : remainingSize = 0
    · subst hrem
      have := ext2FileReadLogged_zero h
      omega
    have hlen₁ : (f.advance (f.chunk remainingSize)).bufLen = pageSize := hlen
    rw [ext2FileReadLogged, if_neg hrem] at h ⊢
    dsimp only at h ⊢
    generalize (fun i => r.mem (f.buffer + f.bufPos + i)) = src at h ⊢
    have hcopy : ⟨buf, f.chunk remainingSize, true⟩ ∈
        (c.copy2user src buf (f.chunk remainingSize)).2.log := by
      rw [Caller.copy2user, hu]
      exact List.mem_append_right _ (List.mem_singleton_self _)
    have hu' : (c.copy2user src buf (f.chunk remainingSize)).2.user.isUser buf = true := by
      rw [Caller.copy2user, copy2user_eq hu]
      exact hu
    rw [hu, if_neg (by simp)] at h ⊢
    by_cases hn : f.chunk remainingSize = 0
    · rw [hn] at h hu' hlen₁ ⊢
      split at h
      next hrest =>
        rw [if_pos hrest]
        cases hload : e2fLoadBuffer (f.advance 0) r with
        | none =>
          rw [hload] at h
          cases h
        | some x =>
          rw [hload] at h
          exact ih (e2fLoadBuffer_bufPos hlen₁ hload).1 hu' h
      next hrest =>
        rw [show Word32.sub remainingSize 0 = 0 by omega] at h
        have := ext2FileReadLogged_zero h
        omega
    · refine ⟨⟨buf, f.chunk remainingSize, true⟩, ?_, rfl, Nat.pos_of_ne_zero hn⟩
      split
      · split
        · exact hcopy
        · exact mem_ext2FileReadLogged hcopy
      · exact mem_ext2FileReadLogged hcopy

/-! ## The calls -/

namespace DevCall
variable {call : DevCall}

theorem run_procCpuidRead (d : DevProcCpuid) (u : UserMem) (buf size : Nat) :
    ((procCpuidRead d).run u buf size).1 =
        some (if u.isUser buf then toInt32 (d.clip size) else -1) ∧
      ((procCpuidRead d).run u buf size).2.log = [⟨buf, d.clip size, u.isUser buf⟩] := by
  rw [run, SpuriOS.procCpuidRead]
  split <;> exact ⟨rfl, rfl⟩

/-- The log of a call that finds its first byte at user level if it asks. -/
theorem run_log (h : call.Checks → u.isUser buf = true) :
    (∀ t ∈ (call.run u buf size).2.log, t.Within u) ↔
      ∀ i < call.span u buf size, u.isUser (buf + i) = true := by
  cases call with
  | ext2FileRead f hlen r =>
    have hu := h trivial
    dsimp only [run, span]
    rw [ext2FileReadCall]
    split
    · simp
    · cases hload : f.loaded r with
      | none => simp
      | some x =>
        have hlen' : x.1.bufLen = pageSize := by
          rw [Ext2File.loaded] at hload
          split at hload
          · exact (e2fLoadBuffer_bufPos hlen hload).1
          · cases hload
            exact hlen
        dsimp only
        rw [ext2FileReadLogged_log hlen' (.inr (.inr hu)) rfl]
        simp
  | procCpuidRead d =>
    rw [(run_procCpuidRead d u buf size).2, List.forall_mem_singleton]
    rfl
  | pipeRead self env | pipeWrite self env =>
    rw [run, span, pipeCallLoop_log]
    simp
  | conRead chars =>
    rw [run, span, SpuriOS.conRead, conReadLoop_log]
    split
    next hsome => simp [hsome]
    next hnone => simp [hnone]
  | conWrite =>
    rw [run, span, SpuriOS.conWrite, vgaWritebufLoop_log]
    simp
  | serialRead d woken =>
    dsimp only [run, span]
    rw [SpuriOS.serialRead]
    split
    · split
      · simp
      · simp [Caller.copy2user, Transfer.Within]
    · simp
  | serialWrite lstat =>
    dsimp only [run, span]
    rw [SpuriOS.serialWrite, if_pos (h trivial), serialWriteLoop_log]
    simp

/-- Such a call fails only after it has copied something. -/
theorem run_failed (h : call.Checks → u.isUser buf = true) {e : Int}
    (hr : (call.run u buf size).1 = some e) (he : e < 0) :
    ∃ t ∈ (call.run u buf size).2.log, t.done = true ∧ 0 < t.size := by
  cases call with
  | ext2FileRead f hlen r =>
    have hu := h trivial
    dsimp only [run] at hr ⊢
    rw [ext2FileReadCall] at hr ⊢
    split at hr
    · cases hr
      exact absurd he (Int.lt_irrefl 0)
    next hsize =>
      rw [if_neg hsize]
      cases hload : f.loaded r with
      | none =>
        rw [hload] at hr
        cases hr
      | some x =>
        have hlen' : x.1.bufLen = pageSize := by
          rw [Ext2File.loaded] at hload
          split at hload
          · exact (e2fLoadBuffer_bufPos hlen hload).1
          · cases hload
            exact hlen
        rw [hload] at hr
        exact ext2FileReadLogged_failed hlen' hu hr he
  | procCpuidRead d =>
    have hu := h trivial
    obtain ⟨hres, hlog⟩ := run_procCpuidRead d u buf size
    rw [hres, hu, if_pos rfl] at hr
    rw [hlog, hu]
    refine ⟨_, List.mem_singleton_self _, rfl, Nat.pos_of_ne_zero fun hzero => ?_⟩
    cases hr
    dsimp only at hzero
    rw [hzero] at he
    exact absurd he (by decide)
  | pipeRead self env | pipeWrite self env => exact absurd (pipeCallLoop_result hr) (by omega)
  | conRead chars => exact absurd (conReadLoop_result hr) (by omega)
  | conWrite =>
    cases hr
    omega
  | serialRead d woken =>
    dsimp only [run] at hr
    rw [SpuriOS.serialRead] at hr
    split at hr
    · split at hr
      · cases hr
      · cases hr
        omega
    · cases hr
      omega
  | serialWrite lstat =>
    dsimp only [run] at hr
    rw [SpuriOS.serialWrite, if_pos (h trivial)] at hr
    exact absurd (serialWriteLoop_result hr) (by omega)

/-- A device that asks, and finds the first byte not at user level. -/
theorem run_refused (h : call.Checks) (hu : u.isUser buf = false) :
    UserConfined u (call.run u buf size) := by
  cases call with
  | ext2FileRead f hlen r =>
    dsimp only [run]
    rw [ext2FileReadCall]
    split
    · exact .inl fun t ht => by cases ht
    · cases f.loaded r with
      | none => exact .inl fun t ht => by cases ht
      | some x =>
        dsimp only
        rw [ext2FileReadLogged]
        split
        · exact .inl fun t ht => by cases ht
        · dsimp only
          rw [hu, if_pos (by simp)]
          refine .inr ⟨⟨-1, by decide, rfl⟩, fun t ht hdone => ?_⟩
          rw [Caller.copy2user, hu] at ht
          obtain rfl := List.mem_singleton.1 ht
          cases hdone
  | procCpuidRead d =>
    obtain ⟨hres, hlog⟩ := run_procCpuidRead d u buf size
    rw [hu] at hres hlog
    refine .inr ⟨⟨-1, by decide, hres⟩, fun t ht hdone => ?_⟩
    rw [hlog] at ht
    obtain rfl := List.mem_singleton.1 ht
    cases hdone
  | serialWrite lstat =>
    dsimp only [run]
    rw [SpuriOS.serialWrite, if_neg (by rw [hu]; simp)]
    exact .inl fun t ht => by cases ht
  | pipeRead | pipeWrite | conRead | conWrite | serialRead => exact h.elim

end DevCall

/-- A call keeps to the pages of its user if and only if the bytes of its span are there, or it asks
and the first is not. -/
theorem DevCall.confined_iff_span (call : DevCall) :
    UserConfined u (call.run u buf size) ↔
      (∀ i < call.span u buf size, u.isUser (buf + i) = true) ∨
        call.Checks ∧ u.isUser buf = false := by
  by_cases h : call.Checks → u.isUser buf = true
  · rw [← DevCall.run_log h]
    constructor
    · rintro (hc | ⟨⟨e, he, hr⟩, hnone⟩)
      · exact .inl hc
      · obtain ⟨t, ht, hdone, hpos⟩ := DevCall.run_failed h hr he
        exact absurd (hnone t ht hdone) (by omega)
    · rintro (hc | ⟨hcheck, hu⟩)
      · exact .inl hc
      · rw [h hcheck] at hu
        cases hu
  · obtain ⟨hcheck, hu⟩ := Classical.not_imp.1 h
    rw [Bool.not_eq_true] at hu
    exact iff_of_true (DevCall.run_refused hcheck hu) (.inr ⟨hcheck, hu⟩)

/-! ## The log has all stores -/

/-- The log grows, and what no finished copy of it covers is as before. -/
structure Caller.Extends (c c' : Caller) : Prop where
  log : ∀ t ∈ c.log, t ∈ c'.log
  outside : ∀ a, (∀ t ∈ c'.log, t.done = true → ¬(t.addr ≤ a ∧ a < t.addr + t.size)) →
    c'.user.byte a = c.user.byte a

namespace Caller.Extends
variable {c₁ c₂ c₃ : Caller}

theorem refl (c : Caller) : c.Extends c := ⟨fun _ h => h, fun _ _ => rfl⟩

theorem trans (h : c₁.Extends c₂) (h' : c₂.Extends c₃) : c₁.Extends c₃ :=
  ⟨fun t ht => h'.log t (h.log t ht), fun a ha =>
    (h'.outside a ha).trans (h.outside a fun t ht => ha t (h'.log t ht))⟩

theorem copy2user (src : Nat → Byte) (dst size : Nat) (c : Caller) :
    c.Extends (c.copy2user src dst size).2 := by
  refine ⟨fun t ht => List.mem_append_left _ ht, fun a ha => ?_⟩
  rw [Caller.copy2user] at ha ⊢
  have hcopy := ha _ (List.mem_append_right _ (List.mem_singleton_self _))
  dsimp only at hcopy ⊢
  cases hu : c.user.isUser dst with
  | false =>
    rw [SpuriOS.copy2user, hu]
    rfl
  | true =>
    rw [copy2user_eq hu]
    exact Memory.write_of_not (hcopy hu)

theorem take (addr size : Nat) (c : Caller) : c.Extends (c.take addr size) :=
  ⟨fun _ ht => List.mem_append_left _ ht, fun _ _ => rfl⟩

theorem conReadLoop {chars : List Byte} {sz : Nat} {c : Caller} :
    c.Extends (conReadLoop buf size chars sz c).2 := by
  induction chars generalizing sz c with
  | nil =>
    rw [SpuriOS.conReadLoop]
    split <;> exact refl c
  | cons ch chars ih =>
    rw [SpuriOS.conReadLoop]
    split
    · split
      · exact (copy2user ..).trans ih
      · exact ih
    · exact refl c

theorem vgaWritebufLoop {fuel sz : Nat} {c : Caller} :
    c.Extends (vgaWritebufLoop buf size fuel sz c).2 := by
  induction fuel generalizing sz c with
  | zero => exact refl c
  | succ fuel ih =>
    rw [SpuriOS.vgaWritebufLoop]
    dsimp only
    split
    · split
      · exact take ..
      · split
        · split
          · exact (((take ..).trans (take ..)).trans ((take ..).trans (take ..))).trans ih
          · exact ((take ..).trans (take ..)).trans ih
        · exact (take ..).trans ih
    · exact refl c

theorem serialWriteLoop {lstat : List Bool} {writed : Nat} {c : Caller} :
    c.Extends (serialWriteLoop size lstat writed buf c).2 := by
  induction lstat generalizing writed buf c with
  | nil =>
    rw [SpuriOS.serialWriteLoop]
    split <;> exact refl c
  | cons thre lstat ih =>
    rw [SpuriOS.serialWriteLoop]
    split
    · split
      · exact (take ..).trans ih
      · exact ih
    · exact refl c

theorem ext2FileReadLogged {fuel remainingSize total : Nat} {c : Caller} :
    c.Extends (ext2FileReadLogged size fuel remainingSize total buf f r c).2 := by
  induction fuel generalizing remainingSize total buf f r c with
  | zero => exact refl c
  | succ fuel ih =>
    rw [SpuriOS.ext2FileReadLogged]
    split
    · exact refl c
    · dsimp only
      split
      · exact copy2user ..
      · split
        · split
          · exact copy2user ..
          · exact (copy2user ..).trans ih
        · exact (copy2user ..).trans ih

theorem pipeCallLoop {env : List Pipes} {c : PipeCall} {log : List Transfer} :
    Caller.Extends ⟨c.user, log⟩ (pipeCallLoop env c log).2 := by
  induction env generalizing c log with
  | nil => exact refl _
  | cons s env ih =>
    rw [SpuriOS.pipeCallLoop]
    have hcases := pipeRound_cases s c
    generalize pipeRound s c = x at hcases
    cases hcases with
    | full _ | readEnd _ _ _ _ | writeEnd _ _ _ => exact refl _
    | readBlock _ _ _ _ | writeBlock _ _ _ _ => exact ih
    | readMove hw _ _ =>
      have hround : Caller.Extends ⟨c.user, log⟩
          ⟨readCopy s c (c.effSize s), log ++ c.log (s.endpoints c.self).pos (c.effSize s)⟩ :=
        ⟨fun _ ht => List.mem_append_left _ ht, fun a ha =>
          readCopy_outside fun t ht => ha t (List.mem_append_right _ ht)⟩
      have hcall : (readCall s c).user = readCopy s c (c.effSize s) := by
        rw [PipeCall.effSize, hw]
        rfl
      exact (hcall ▸ hround).trans ih
    | writeMove _ _ _ _ =>
      have hround : ∀ more, Caller.Extends ⟨c.user, log⟩ ⟨c.user, log ++ more⟩ := fun _ =>
        ⟨fun _ ht => List.mem_append_left _ ht, fun _ _ => rfl⟩
      exact (hround _).trans (ih (c := writeCall s c))

end Caller.Extends

/-- A call stores nowhere but where a finished copy of its log says. -/
theorem DevCall.run_extends (call : DevCall) :
    Caller.Extends ⟨u, []⟩ (call.run u buf size).2 := by
  cases call with
  | ext2FileRead f hlen r =>
    dsimp only [run]
    rw [ext2FileReadCall]
    split
    · exact .refl _
    · cases f.loaded r with
      | none => exact .refl _
      | some x => exact .ext2FileReadLogged
  | procCpuidRead d =>
    dsimp only [run]
    rw [SpuriOS.procCpuidRead]
    split <;> exact .copy2user ..
  | pipeRead self env | pipeWrite self env => exact .pipeCallLoop (c := ⟨_, self, buf, size, 0, u⟩)
  | conRead chars => exact .conReadLoop
  | conWrite => exact .vgaWritebufLoop
  | serialRead d woken =>
    dsimp only [run]
    rw [SpuriOS.serialRead]
    split
    · split
      · exact .refl _
      · exact .copy2user ..
    · exact .refl _
  | serialWrite lstat =>
    dsimp only [run]
    rw [SpuriOS.serialWrite]
    split
    · exact .serialWriteLoop
    · exact .refl _

end

end SpuriOS
