import SpuriOS.Device.Reads

/-! # Reads into buffers that are refused

A read fails without effect if it looks at what `copy2user` returns before it moves on. The files
do, a piece at a time; pipes, serial ports and consoles do not. -/

namespace SpuriOS

/-- A copy of the call is refused. -/
def Refused (c : Caller) : Prop := ∃ t ∈ c.log, t.done = false

theorem not_refused_after {c : Caller} {src : Nat → Byte} {buf n : Nat} (hc : ¬Refused c) :
    ¬Refused (c.after src buf n) := by
  rintro ⟨t, ht, hdone⟩
  rcases List.mem_append.1 ht with hold | hnew
  · exact hc ⟨t, hold, hdone⟩
  · rw [List.mem_singleton.1 hnew] at hdone
    cases hdone

/-- The read of a pipe leaves it at every round. -/
def pipeKept : List Pipes → PipeCall → Prop
  | [], _ => True
  | s :: env, c =>
    let r := pipeRound s c
    r.1 = s ∧
      match r.2.2 with
      | .done _ => True
      | .block | .again => pipeKept env r.2.1

/-- The port as `serial_read` finds it, if it does. -/
def DevSerial.found (d : DevSerial) (woken : Option DevSerial) : Option DevSerial :=
  if d.bufferFree then woken else some d

namespace DevCall

def IsRead : DevCall → Prop
  | .ext2FileRead .. | .procCpuidRead _ | .pipeRead .. | .conRead _ | .serialRead .. => True
  | .pipeWrite .. | .conWrite | .serialWrite _ => False

/-- What a later read finds is what this one found. A file that is read for the first time is
loaded by either; of a console a read changes nothing that another one finds. -/
def Kept (call : DevCall) (u : UserMem) (buf size : Nat) : Prop :=
  match call with
  | .ext2FileRead f _ r =>
    ∀ x ∈ (ext2FileReadCall f r buf size ⟨u, []⟩).1, x.2.1.loaded x.2.2 = f.loaded r
  | .procCpuidRead d => (SpuriOS.procCpuidRead d buf size ⟨u, []⟩).2.1 = d
  | .pipeRead self env => pipeKept env ⟨false, self, buf, size, 0, u⟩
  | .serialRead d woken =>
    (SpuriOS.serialRead d woken buf size ⟨u, []⟩).2.1 = (d.found woken).getD d
  | _ => True

/-- The call fails, and leaves the device. -/
def NoEffect (call : DevCall) (u : UserMem) (buf size : Nat) : Prop :=
  (∃ e < 0, (call.run u buf size).1 = some e) ∧ call.Kept u buf size

/-- The devices that see that a copy is refused, before anything else has happened. -/
def Backs (call : DevCall) (u : UserMem) (buf : Nat) : Prop :=
  match call with
  | .procCpuidRead _ => True
  | .ext2FileRead .. => u.isUser buf = false
  | _ => False

end DevCall

namespace Ext2File
variable {f f' : Ext2File} {r r' : Ram} {c : Caller} {rem buf : Nat}

theorem loaded_bufferEmpty (h : f.loaded r = some (f', r')) : f'.bufferEmpty = false := by
  rw [loaded] at h
  split at h
  · rw [load_file h]
  next hfull =>
    cases h
    exact Bool.eq_false_iff.2 hfull

theorem loaded_self (h : f.bufferEmpty = false) : f.loaded r = some (f, r) := by
  rw [loaded, h]
  rfl

theorem logged_zero {fuel size total : Nat} :
    (ext2FileReadLogged size fuel 0 total buf f r c).2 = c := by
  cases fuel <;> rfl

/-- A read whose first piece is copied and a later one refused has moved on. -/
theorem logged_refused {fuel size total : Nat} (hf : f.bufferEmpty = false) (hrem : rem < 2 ^ 32)
    (hc : ¬Refused c) (hu : c.user.isUser buf = true)
    (href : Refused (ext2FileReadLogged size fuel rem total buf f r c).2) :
    ∃ f' r' m, (ext2FileReadLogged size fuel rem total buf f r c).1 = some (-1, f', r') ∧
      0 < m ∧ m ≤ rem ∧ f'.streamPos % 2 ^ 32 = (f.streamPos + m) % 2 ^ 32 ∧
      f'.bufferEmpty = false := by
  induction fuel generalizing rem total buf f r c with
  | zero => exact absurd href hc
  | succ fuel ih =>
    by_cases h0 : rem = 0
    · rw [h0, logged_zero] at href
      exact absurd href hc
    have hle : f.chunk rem ≤ rem := by
      rw [chunk]
      split <;> omega
    rw [ext2FileReadLogged, if_neg h0] at href ⊢
    dsimp only at href ⊢
    rw [if_neg (not_not_intro hu), Caller.copy2user_true hu, Word32.sub_of_le hle hrem] at href ⊢
    generalize hk : f.chunk rem = k at href hle ⊢
    generalize hsrc : (fun i => r.mem (f.buffer + f.bufPos + i)) = src at href ⊢
    have hc₁ : ¬Refused (c.after src buf k) := not_refused_after hc
    by_cases hmore : rem - k > 0
    · rw [if_pos hmore] at href ⊢
      cases hload : e2fLoadBuffer (f.advance k) r with
      | none =>
        rw [hload] at href
        exact absurd href hc₁
      | some x =>
        obtain ⟨f₁, r₁⟩ := x
        rw [hload] at href
        dsimp only at href ⊢
        have hf₁ := load_file hload
        have hpos : f₁.streamPos = Word32.add f.streamPos k := by
          rw [hf₁]
          rfl
        cases hu₁ : c.user.isUser (buf + k) with
        | true =>
          obtain ⟨f', r', m, hrun, hm, hmle, hstream, hempty⟩ :=
            ih (hf₁ ▸ rfl) (by omega) hc₁ hu₁ href
          refine ⟨f', r', k + m, hrun, by omega, by omega, ?_, hempty⟩
          rw [hstream, hpos, Word32.add, Word32.wrap]
          omega
        | false =>
          obtain _ | fuel := fuel
          · exact absurd href hc₁
          · refine ⟨f₁, r₁, k, ?_, Nat.pos_of_ne_zero fun hk0 => ?_, hle, ?_, hf₁ ▸ rfl⟩
            · rw [ext2FileReadLogged, if_neg (by omega)]
              dsimp only
              rw [if_pos (by rw [Caller.after, hu₁]; exact Bool.false_ne_true)]
            · rw [hk0, Nat.add_zero, hu] at hu₁
              cases hu₁
            · rw [hpos, Word32.add, Word32.wrap, Nat.mod_mod]
    · rw [if_neg hmore, show rem - k = 0 by omega, logged_zero] at href
      exact absurd href hc₁

end Ext2File

namespace DevCall
variable {call : DevCall} {u : UserMem} {buf size : Nat}

theorem ext2FileRead_noEffect_iff {f : Ext2File} {hlen : f.bufLen = pageSize} {r : Ram}
    (hsize : size < 2 ^ 32) (href : Refused ((ext2FileRead f hlen r).run u buf size).2) :
    (ext2FileRead f hlen r).NoEffect u buf size ↔ u.isUser buf = false := by
  have hnone : ¬Refused ⟨u, []⟩ := by
    rintro ⟨_, ht, -⟩
    exact List.not_mem_nil ht
  rw [NoEffect, Kept]
  dsimp only [run] at href ⊢
  rw [ext2FileReadCall] at href ⊢
  split at href
  next => exact absurd href hnone
  next h0 =>
    rw [if_neg h0]
    cases hload : f.loaded r with
    | none =>
      rw [hload] at href
      exact absurd href hnone
    | some x =>
      obtain ⟨f₁, r₁⟩ := x
      have hempty := Ext2File.loaded_bufferEmpty hload
      rw [hload] at href
      dsimp only at href ⊢
      have hclip : f₁.clip size < 2 ^ 32 := by
        rw [Ext2File.clip]
        split
        · exact Word32.wrap_lt _
        · exact hsize
      generalize f₁.clip size = n at href hclip ⊢
      cases hu : u.isUser buf with
      | true =>
        obtain ⟨f', r', m, hrun, hm, hmle, hpos, hempty'⟩ :=
          Ext2File.logged_refused hempty hclip hnone hu href
        refine iff_of_false ?_ fun he => Bool.false_ne_true he.symm
        rintro ⟨-, hkept⟩
        have hback := hkept _ hrun
        rw [Ext2File.loaded_self hempty'] at hback
        cases hback
        omega
      | false =>
        refine iff_of_true ?_ rfl
        by_cases hn : n = 0
        · rw [hn, Ext2File.logged_zero] at href
          exact absurd href hnone
        · rw [ext2FileReadLogged, if_neg hn]
          dsimp only
          rw [hu, if_pos Bool.false_ne_true]
          refine ⟨⟨-1, by decide, rfl⟩, fun x hx => ?_⟩
          cases hx
          exact Ext2File.loaded_self hempty

/-- A pipe, a serial port or a console never returns an error. -/
theorem run_nonneg (h : call.IsRead) (hchecks : ¬call.Checks) {e : Int}
    (hrun : (call.run u buf size).1 = some e) : 0 ≤ e := by
  cases call with
  | ext2FileRead | procCpuidRead => exact absurd trivial hchecks
  | pipeRead self env => exact pipeCallLoop_result hrun
  | conRead chars => exact conReadLoop_result hrun
  | serialRead d woken =>
    dsimp only [run] at hrun
    rw [SpuriOS.serialRead] at hrun
    split at hrun
    · split at hrun
      · cases hrun
      · cases hrun
        exact Int.natCast_nonneg _
    · cases hrun
      exact Int.natCast_nonneg _
  | pipeWrite | conWrite | serialWrite => exact h.elim

theorem procCpuidRead_noEffect {d : DevProcCpuid}
    (href : Refused ((procCpuidRead d).run u buf size).2) :
    (procCpuidRead d).NoEffect u buf size := by
  obtain ⟨hres, hlog⟩ := run_procCpuidRead d u buf size
  obtain ⟨t, ht, hdone⟩ := href
  rw [hlog, List.mem_singleton] at ht
  rw [ht] at hdone
  dsimp only at hdone
  rw [hdone] at hres
  exact ⟨⟨-1, by decide, hres⟩, by rw [Kept, DevProcCpuid.read_false hdone]⟩

end DevCall

/-- A read that is refused fails without effect just when it is of `/proc/cpuid`, or of a file and
no piece of it was copied before. -/
theorem refused_read_iff (call : DevCall) (hread : call.IsRead) (u : UserMem) (buf size : UInt32)
    (href : Refused (call.run u buf.toNat size.toNat).2) :
    call.NoEffect u buf.toNat size.toNat ↔ call.Backs u buf.toNat := by
  by_cases hchecks : call.Checks
  · cases call with
    | ext2FileRead f hlen r => exact DevCall.ext2FileRead_noEffect_iff size.toNat_lt href
    | procCpuidRead d => exact iff_of_true (DevCall.procCpuidRead_noEffect href) trivial
    | serialWrite => exact hread.elim
    | pipeRead | pipeWrite | conRead | conWrite | serialRead => exact hchecks.elim
  · refine iff_of_false ?_ ?_
    · rintro ⟨⟨e, he, hrun⟩, -⟩
      exact absurd (DevCall.run_nonneg hread hchecks hrun) (Int.not_le.2 he)
    · cases call with
      | ext2FileRead | procCpuidRead => exact absurd trivial hchecks
      | pipeRead | pipeWrite | conRead | conWrite | serialRead | serialWrite => exact id

/-- No address of the process is at user level. -/
def kernelPages : UserMem := ⟨fun _ => 0, fun _ => false⟩

theorem refused_read_cpuid : (DevCall.procCpuidRead cpuidText).NoEffect kernelPages 0x100000 10 :=
  (refused_read_iff (.procCpuidRead cpuidText) trivial kernelPages 0x100000 10
    ⟨⟨0x100000, 10, false⟩, List.mem_singleton_self _, rfl⟩).2 trivial

/-- A serial port with three bytes says that it has read them, and has none left. -/
theorem refused_read_loses :
    let call := DevCall.serialRead ⟨false, fun _ => 0x41, 3⟩ none
    Refused (call.run kernelPages 0x100000 3).2 ∧ (call.run kernelPages 0x100000 3).1 = some 3 ∧
      ¬call.Kept kernelPages 0x100000 3 ∧ ¬call.NoEffect kernelPages 0x100000 3 := by
  have hkept : ¬(DevCall.serialRead ⟨false, fun _ => 0x41, 3⟩ none).Kept kernelPages 0x100000 3 :=
    fun h => absurd (congrArg DevSerial.ptrTo h) (by decide)
  exact ⟨⟨⟨0x100000, 3, false⟩, List.mem_singleton_self _, rfl⟩, rfl, hkept, fun h => hkept h.2⟩

end SpuriOS
