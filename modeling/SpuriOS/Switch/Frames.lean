import SpuriOS.Lib.Descending
import SpuriOS.Switch.Model

/-! # The frames on a kernel stack

What the instructions and the routines leave on the stack of the current directory, and what they
take from there. Every routine has one lemma, which says what the whole machine is afterwards. -/

namespace SpuriOS

open Descending

/-- The words that `pushad` leaves, with `esp` for the one that `popad` skips. -/
def Context.gprs (c : Context) (esp : Nat) : List Nat :=
  [c.edi, c.esi, c.ebp, esp, c.ebx, c.edx, c.ecx, c.eax]

/-- The words that the processor leaves when it enters an interrupt gate. -/
def Context.trapFrame (c : Context) : List Nat :=
  [c.eip, c.cs, c.eflags] ++ if c.cs % 4 = plUser then [c.esp, c.ss] else []

/-- The address behind the frame of an interrupt. -/
def Context.top (c : Context) : Nat := if c.cs % 4 = plUser then kStackTop else c.esp

/-- The registers of `k`, with those that `popad` sets taken from `c`. -/
def Context.withGprs (k c : Context) : Context :=
  { k with
    edi := c.edi, esi := c.esi, ebp := c.ebp, ebx := c.ebx, edx := c.edx, ecx := c.ecx,
    eax := c.eax }

/-- The room that a handler leaves below its stack pointer. -/
def stackRoom : Nat := 0x40

/-- The registers of code of privilege level `pl`, which has this room on its stack if it runs on
that of the kernel. -/
inductive Context.Level (c : Context) (room : Nat) : Nat → Prop
  | kernel : c.cs = ssKCode → c.ss = ssKData → room ≤ c.esp → c.Level room plKernel
  | user : c.cs = ssUCode ||| plUser → c.ss = ssUData ||| plUser → c.Level room plUser

section
variable {c k : Context} {x d b : Nat} {ws : List Nat}

@[simp] theorem Context.length_gprs : (c.gprs x).length = 8 := rfl

theorem Context.length_trapFrame :
    c.trapFrame.length = 3 + if c.cs % 4 = plUser then 2 else 0 := by
  rw [trapFrame, List.length_append]
  split <;> rfl

theorem Context.trapFrame_le : 4 * c.trapFrame.length ≤ 20 := by
  rw [length_trapFrame]
  split <;> decide

theorem Context.Level.room {room pl : Nat} (h : c.Level room pl) (hroom : room ≤ kStackTop) :
    room ≤ c.top := by
  rw [Context.top]
  cases h with
  | kernel hcs _ hesp =>
    rw [hcs, if_neg (by decide)]
    exact hesp
  | user hcs =>
    rw [hcs, if_pos (by decide)]
    exact hroom

/-- The memory is the old one with the words `ws` from address `a` to `b` of directory `d`. -/
structure Stacks (d b : Nat) (mem mem' : Nat → Nat → Nat) (a : Nat) (ws : List Nat) : Prop where
  length : a + 4 * ws.length = b
  holds : Holds 4 (mem' d) a ws
  above : Above b (mem d) (mem' d)
  others : ∀ d', d' ≠ d → mem' d' = mem d'

namespace Stacks

variable {mem mem' : Nat → Nat → Nat} {a : Nat}

theorem nil : Stacks d b mem mem b [] := ⟨rfl, trivial, .refl, fun _ _ => rfl⟩

theorem push (h : Stacks d b mem mem' a ws) (ha : 4 ≤ a) (w : Nat) :
    Stacks d b mem (Function.update mem' d (Function.update (mem' d) (a - 4) w)) (a - 4)
      (w :: ws) where
  length := by
    rw [← h.length, List.length_cons]
    omega
  holds := by
    rw [Function.update_self]
    refine Holds.push ?_ (by decide)
    rw [Nat.sub_add_cancel ha]
    exact h.holds
  above := by
    rw [Function.update_self]
    refine h.above.trans (.update ?_)
    have := h.length
    omega
  others d' hd := by rw [Function.update_of_ne hd, h.others d' hd]

/-- Code that writes below the words leaves them. -/
theorem frame {mem'' : Nat → Nat → Nat} (h : Stacks d b mem mem' a ws)
    (habove : Above a (mem' d) (mem'' d)) (hothers : ∀ d', d' ≠ d → mem'' d' = mem' d') :
    Stacks d b mem mem'' a ws where
  length := h.length
  holds := h.holds.frame habove (Nat.le_refl a)
  above := h.above.trans (habove.mono (by have := h.length; omega))
  others d' hd := (hothers d' hd).trans (h.others d' hd)

/-- Words on top of other words. -/
theorem trans {mem'' : Nat → Nat → Nat} {a' : Nat} {vs : List Nat} (h : Stacks d b mem mem' a ws)
    (h' : Stacks d a mem' mem'' a' vs) : Stacks d b mem mem'' a' (vs ++ ws) where
  length := by
    have := h.length
    have := h'.length
    rw [List.length_append]
    omega
  holds := by
    refine holds_append.2 ⟨h'.holds, ?_⟩
    rw [h'.length]
    exact h.holds.frame h'.above (Nat.le_refl a)
  above := h.above.trans (h'.above.mono (by have := h.length; omega))
  others d' hd := (h'.others d' hd).trans (h.others d' hd)

end Stacks

end

/-- The fields of two processes are different words. -/
theorem pcbOff_ne {p q off off' : Nat} (hne : p ≠ q) (h : off < pcbSz) (h' : off' < pcbSz) :
    p * pcbSz + off ≠ q * pcbSz + off' := by
  unfold pcbSz at *
  omega

namespace Machine

variable {m : Machine} {L : Labels} {c : Context} {x w b : Nat} {ws : List Nat}
  {mem : Nat → Nat → Nat}

theorem push_spec (h : Stacks m.cr3 b mem m.mem m.cpu.esp ws) (hroom : 4 ≤ m.cpu.esp) :
    ∃ mem', m.push w = { m with cpu := { m.cpu with esp := m.cpu.esp - 4 }, mem := mem' } ∧
      Stacks m.cr3 b mem mem' (m.cpu.esp - 4) (w :: ws) :=
  ⟨_, rfl, h.push hroom w⟩

theorem pushAll_spec (vs : List Nat) (h : Stacks m.cr3 b mem m.mem m.cpu.esp ws)
    (hroom : 4 * vs.length ≤ m.cpu.esp) : ∃ mem', vs.foldl (fun m w => m.push w) m =
      { m with cpu := { m.cpu with esp := m.cpu.esp - 4 * vs.length }, mem := mem' } ∧
      Stacks m.cr3 b mem mem' (m.cpu.esp - 4 * vs.length) (vs.reverse ++ ws) := by
  induction vs generalizing m ws with
  | nil => exact ⟨m.mem, rfl, h⟩
  | cons v vs ih =>
    rw [List.length_cons] at hroom
    obtain ⟨mem', hm, h'⟩ := push_spec (w := v) h (by omega)
    obtain ⟨mem'', hm', h''⟩ := ih (m := m.push v) (by rw [hm]; exact h')
      (by rw [hm]; dsimp only; omega)
    have hesp : m.cpu.esp - 4 - 4 * vs.length = m.cpu.esp - 4 * (v :: vs).length := by
      rw [List.length_cons]
      omega
    refine ⟨mem'', ?_, ?_⟩
    · rw [List.foldl_cons, hm', hm, ← hesp]
    · rw [hm, hesp] at h''
      rwa [List.reverse_cons, List.append_assoc]

theorem pushad_spec (h : Stacks m.cr3 b mem m.mem m.cpu.esp ws) (hroom : 32 ≤ m.cpu.esp) :
    ∃ mem', m.pushad = { m with cpu := { m.cpu with esp := m.cpu.esp - 32 }, mem := mem' } ∧
      Stacks m.cr3 b mem mem' (m.cpu.esp - 32) (m.cpu.gprs m.cpu.esp ++ ws) :=
  pushAll_spec [m.cpu.eax, m.cpu.ecx, m.cpu.edx, m.cpu.ebx, m.cpu.esp, m.cpu.ebp, m.cpu.esi,
    m.cpu.edi] h hroom

theorem popad_spec (h : Holds 4 (m.mem m.cr3) m.cpu.esp (c.gprs x ++ ws)) :
    m.popad = { m with cpu := { m.cpu.withGprs c with esp := m.cpu.esp + 32 } } := by
  obtain ⟨h₀, h₁, h₂, -, h₄, h₅, h₆, h₇, -⟩ := h
  simp only [popad, pop, h₀, h₁, h₂, h₄, h₅, h₆, h₇, Context.withGprs]

/-- The interrupt of code with the registers `c`. -/
theorem interrupt_spec {room pl : Nat} (hcpu : m.cpu = c) (hc : c.Level room pl)
    (htop : 20 ≤ c.top) (hesp0 : pl = plUser → m.esp0 = kStackTop) :
    ∃ mem', m.interrupt = { m with
      cpu := { c with esp := c.top - 4 * c.trapFrame.length, cs := ssKCode, ss := ssKData }
      mem := mem' } ∧
      Stacks m.cr3 c.top m.mem mem' (c.top - 4 * c.trapFrame.length) c.trapFrame := by
  have hroom : 4 * c.trapFrame.length ≤ c.top := Nat.le_trans c.trapFrame_le htop
  cases hc with
  | kernel hcs hss _ =>
    have hring : ¬m.cpu.cs % 4 = plUser := by rw [hcpu, hcs]; decide
    have htop : c.top = m.cpu.esp := by rw [Context.top, ← hcpu, if_neg hring]
    have hframe : c.trapFrame = [c.eip, c.cs, c.eflags] := by
      rw [Context.trapFrame, ← hcpu, if_neg hring, List.append_nil]
    rw [htop, hframe] at hroom ⊢
    obtain ⟨mem', hm, h⟩ := pushAll_spec [m.cpu.eflags, m.cpu.cs, m.cpu.eip] (m := m)
      .nil hroom
    rw [hcpu] at h hm hring ⊢
    refine ⟨mem', ?_, h⟩
    simp only [List.foldl_cons, List.foldl_nil] at hm
    simp only [interrupt, hcpu, if_neg hring, hm, hss]
    rfl
  | user hcs hss =>
    have hring : m.cpu.cs % 4 = plUser := by rw [hcpu, hcs]; decide
    have htop : c.top = m.esp0 := by rw [Context.top, ← hcpu, if_pos hring, hesp0 rfl]
    have hframe : c.trapFrame = [c.eip, c.cs, c.eflags, c.esp, c.ss] := by
      rw [Context.trapFrame, ← hcpu, if_pos hring]
      rfl
    rw [htop, hframe] at hroom ⊢
    rw [hcpu] at hring
    obtain ⟨mem', hm, h⟩ := pushAll_spec [c.ss, c.esp, c.eflags, c.cs, c.eip]
      (m := { m with cpu := { c with esp := m.esp0, ss := ssKData } }) .nil hroom
    refine ⟨mem', ?_, h⟩
    simp only [List.foldl_cons, List.foldl_nil] at hm
    simp only [interrupt, hcpu, if_pos hring, hm]
    rfl

theorem iret_spec {room pl : Nat} (h : Holds 4 (m.mem m.cr3) m.cpu.esp c.trapFrame)
    (hc : c.Level room pl) (hss : m.cpu.ss = ssKData) (htop : m.cpu.esp + 4 * c.trapFrame.length = c.top) :
    m.iret = { m with cpu := { m.cpu with
      eip := c.eip, cs := c.cs, eflags := c.eflags, esp := c.esp, ss := c.ss } } := by
  cases hc with
  | kernel hcs hss' _ =>
    have hring : ¬c.cs % 4 = plUser := by rw [hcs]; decide
    rw [Context.trapFrame, if_neg hring] at h
    obtain ⟨h₀, h₁, h₂, -⟩ := h
    rw [Context.trapFrame, Context.top, if_neg hring, if_neg hring] at htop
    have hesp : m.cpu.esp + 4 + 4 + 4 = c.esp := htop
    simp only [iret, pop, h₀, h₁, h₂, if_neg hring, hesp, hss', hss]
  | user hcs hss' =>
    have hring : c.cs % 4 = plUser := by rw [hcs]; decide
    rw [Context.trapFrame, if_pos hring] at h
    obtain ⟨h₀, h₁, h₂, h₃, h₄, -⟩ := h
    simp only [iret, pop, h₀, h₁, h₂, h₃, h₄, if_pos hring]

/-- The end of every trap: the process is at its own level with its registers. -/
theorem popad_iret {room pl : Nat} (h : Holds 4 (m.mem m.cr3) m.cpu.esp (c.gprs x ++ c.trapFrame))
    (hc : c.Level room pl) (hss : m.cpu.ss = ssKData)
    (htop : m.cpu.esp + 32 + 4 * c.trapFrame.length = c.top) :
    m.popad.iret = { m with cpu := c } := by
  rw [popad_spec h]
  exact iret_spec (m := { m with cpu := { m.cpu.withGprs c with esp := m.cpu.esp + 32 } })
    (holds_append.1 h).2 hc hss htop

/-- The segments of data that `task_switch` sets for this privilege level. -/
def dataSegment (pl : Nat) : Nat := if pl = plKernel then ssKData else ssUData ||| plUser

/-- The stack for traps that `task_switch` sets for this privilege level. -/
def trapStack (pl : Nat) : Nat := if pl = plKernel then 0 else kStackTop

theorem mul_pcbSz {p : Nat} (hp : p < maxPid) : p * pcbSz % 2 ^ 32 = p * pcbSz := by
  rw [maxPid] at hp
  exact Nat.mod_eq_of_lt (by rw [pcbSz]; omega)

theorem saveCurrent_spec (hcur : m.curPid < maxPid) : ∃ k : Context, m.saveCurrent =
    { m with
      cpu := m.cpu.withGprs k
      processes :=
        Function.update m.processes (m.curPid * pcbSz + pcbEspOff) m.cpu.esp } := by
  refine ⟨m.saveCurrent.cpu, ?_⟩
  simp only [saveCurrent, mulEbx, mul_pcbSz hcur, Context.withGprs]

theorem restoreNext_spec (htmp : m.tmpPid < maxPid) : ∃ k : Context, m.restoreNext =
    { m with
      cpu := { m.cpu.withGprs k with esp := m.pcb m.tmpPid pcbEspOff }
      ds := dataSegment (m.pcb m.tmpPid pcbPlOff)
      es := dataSegment (m.pcb m.tmpPid pcbPlOff)
      cr3 := m.pcb m.tmpPid pcbCr3Off
      curPid := m.tmpPid
      esp0 := trapStack (m.pcb m.tmpPid pcbPlOff) } := by
  refine ⟨{ m.cpu with
    esi := m.tmpPid * pcbSz, ebx := m.pcb m.tmpPid pcbPlOff
    edx := m.tmpPid * pcbSz / 2 ^ 32, eax := m.tmpPid }, ?_⟩
  simp only [restoreNext, mulEbx, mul_pcbSz htmp, Context.withGprs, dataSegment, trapStack, pcb]
  by_cases hpl : m.processes (m.tmpPid * pcbSz + pcbPlOff) = plKernel
  · simp only [hpl, if_true]
  · simp only [hpl, if_false]

/-- The current process is left with its registers on its stack, and the next one has those that
are on its own. -/
theorem taskSwitch_spec {q : Pid} (hroom : 32 ≤ m.cpu.esp) (hcur : m.curPid < maxPid)
    (hq : m.tmpPid = q) (hlt : q < maxPid) (hne : q ≠ m.curPid) (hcr3 : m.pcb q pcbCr3Off ≠ m.cr3)
    (h : Holds 4 (m.mem (m.pcb q pcbCr3Off)) (m.pcb q pcbEspOff) (c.gprs x ++ ws)) :
    ∃ mem', m.taskSwitch = { m with
        cpu := { m.cpu.withGprs c with esp := m.pcb q pcbEspOff + 32 }
        ds := dataSegment (m.pcb q pcbPlOff)
        es := dataSegment (m.pcb q pcbPlOff)
        cr3 := m.pcb q pcbCr3Off
        mem := mem'
        processes := Function.update m.processes (m.curPid * pcbSz + pcbEspOff) (m.cpu.esp - 32)
        curPid := q
        esp0 := trapStack (m.pcb q pcbPlOff) } ∧
      Stacks m.cr3 m.cpu.esp m.mem mem' (m.cpu.esp - 32) (m.cpu.gprs m.cpu.esp) := by
  subst hq
  obtain ⟨mem', hm, hs⟩ := pushad_spec (m := m) .nil hroom
  rw [List.append_nil] at hs
  obtain ⟨k, hsave⟩ := saveCurrent_spec (m := m.pushad) (by rw [hm]; exact hcur)
  obtain ⟨k', hrestore⟩ := restoreNext_spec (m := m.pushad.saveCurrent)
    (by rw [hsave, hm]; exact hlt)
  have hoff : ∀ off, off < pcbSz → m.pushad.saveCurrent.pcb m.tmpPid off = m.pcb m.tmpPid off := by
    intro off hoff
    rw [hsave, hm]
    exact Function.update_of_ne (pcbOff_ne hne hoff (by decide)) ..
  have hpid : m.pushad.saveCurrent.tmpPid = m.tmpPid := by rw [hsave, hm]
  rw [hpid, hoff pcbEspOff (by decide), hoff pcbPlOff (by decide), hoff pcbCr3Off (by decide),
    hsave, hm] at hrestore
  have hholds : Holds 4 (mem' (m.pcb m.tmpPid pcbCr3Off)) (m.pcb m.tmpPid pcbEspOff)
      (c.gprs x ++ ws) := by
    rw [hs.others _ hcr3]
    exact h
  refine ⟨mem', ?_, hs⟩
  rw [taskSwitch, hsave, hm, hrestore]
  exact popad_spec (m := { m with
    cpu := _, ds := _, es := _, cr3 := _, mem := _, processes := _, curPid := _, esp0 := _ }) hholds

/-- The entry of a trap, down to the first instruction of the handler. -/
theorem isrCommon_spec (L : Labels) (intNo errCode : Nat)
    (h : Stacks m.cr3 b mem m.mem m.cpu.esp ws) (hroom : 44 ≤ m.cpu.esp) :
    ∃ mem' esp, m.isrCommon L intNo errCode =
      { m with cpu := { m.cpu with esp := m.cpu.esp - 44 }, mem := mem' } ∧
      Stacks m.cr3 b mem mem' (m.cpu.esp - 44)
        (L.afterHandler :: (m.cpu.gprs esp ++ ([intNo, errCode] ++ ws))) := by
  obtain ⟨mem₁, h₁, hs₁⟩ := pushAll_spec [errCode, intNo] h (by dsimp only [List.length]; omega)
  change (m.push errCode).push intNo = _ at h₁
  obtain ⟨mem₂, h₂, hs₂⟩ := pushad_spec (m := (m.push errCode).push intNo)
    (by rw [h₁]; exact hs₁) (by rw [h₁]; dsimp only [List.length]; omega)
  obtain ⟨mem₃, h₃, hs₃⟩ := push_spec (m := ((m.push errCode).push intNo).pushad)
    (w := L.afterHandler) (by rw [h₂]; exact hs₂)
    (by rw [h₂, h₁]; dsimp only [List.length]; omega)
  have hesp : m.cpu.esp - 4 * [errCode, intNo].length - 32 - 4 = m.cpu.esp - 44 := by
    dsimp only [List.length]
    omega
  refine ⟨mem₃, m.cpu.esp - 4 * [errCode, intNo].length, h₃.trans ?_, ?_⟩
  · rw [h₂, h₁, ← hesp]
  · rw [h₂, h₁] at hs₃
    rw [← hesp]
    exact hs₃

/-- The end of a trap. -/
theorem isrReturn_spec {room pl intNo errCode : Nat}
    (h : Holds 4 (m.mem m.cr3) m.cpu.esp
      (L.afterHandler :: (c.gprs x ++ ([intNo, errCode] ++ c.trapFrame))))
    (hc : c.Level room pl) (hss : m.cpu.ss = ssKData)
    (htop : m.cpu.esp + 44 + 4 * c.trapFrame.length = c.top) :
    m.isrReturn L = some { m with cpu := c } := by
  obtain ⟨hret, hgprs⟩ := h
  have hpop := popad_spec (m := { m with cpu := { m.cpu with esp := m.cpu.esp + 4 } }) hgprs
  have hiret := iret_spec (c := c)
    (m := { m with cpu := { m.cpu.withGprs c with esp := m.cpu.esp + 4 + 32 + 8 } })
    (holds_append.1 (holds_append.1 hgprs).2).2 hc hss htop
  simp only [isrReturn, pop, hret, if_true]
  rw [hpop]
  exact congrArg some hiret

/-- A switch to a process that was interrupted at its own level. -/
theorem switchRet_goBack {room pl : Nat}
    (h : Holds 4 (m.mem m.cr3) m.cpu.esp (L.goBack :: (c.gprs x ++ c.trapFrame)))
    (hc : c.Level room pl) (hss : m.cpu.ss = ssKData)
    (htop : m.cpu.esp + 36 + 4 * c.trapFrame.length = c.top) :
    m.switchRet L = { m with cpu := c } := by
  obtain ⟨hret, hgprs⟩ := h
  rw [← popad_iret (m := { m with cpu := { m.cpu with esp := m.cpu.esp + 4 } }) hgprs hc hss htop]
  exact if_pos hret

/-- A switch to a process that has not run. -/
theorem switchRet_taskInit {room pl : Nat}
    (h : Holds 4 (m.mem m.cr3) m.cpu.esp (L.taskInit :: c.trapFrame)) (hc : c.Level room pl)
    (hgprs : m.cpu.withGprs c = m.cpu) (hss : m.cpu.ss = ssKData)
    (htop : m.cpu.esp + 4 + 4 * c.trapFrame.length = c.top) :
    m.switchRet L = { m with cpu := c } := by
  obtain ⟨hret, hframe⟩ := h
  have hiret := iret_spec (m := { m with cpu := { m.cpu with esp := m.cpu.esp + 4 } }) hframe hc
    hss htop
  have hswitch : m.switchRet L =
      iret { m with cpu := { m.cpu with esp := m.cpu.esp + 4 } } :=
    (if_neg fun hgo => L.goBack_ne (hgo.symm.trans hret)).trans (if_pos hret)
  rw [hswitch, hiret, ← hgprs]
  rfl

/-- A switch to a process that waits in a handler. -/
theorem switchRet_code {ret : Nat} (h : m.mem m.cr3 m.cpu.esp = ret) (hgo : ret ≠ L.goBack)
    (hinit : ret ≠ L.taskInit) :
    m.switchRet L = { m with cpu := { m.cpu with esp := m.cpu.esp + 4 } } :=
  (if_neg fun he => hgo (h.symm.trans he)).trans (if_neg fun he => hinit (h.symm.trans he))

theorem called_spec (k : Clobber) (r : Nat) : ∃ mem', m.called k r =
    { m with cpu := { m.cpu with eax := r, ecx := k.ecx, edx := k.edx }, mem := mem' } ∧
    Above m.cpu.esp (m.mem m.cr3) (mem' m.cr3) ∧ ∀ d, d ≠ m.cr3 → mem' d = m.mem d := by
  refine ⟨_, rfl, fun a ha => ?_, fun d hd => Function.update_of_ne hd ..⟩
  exact (congrFun (Function.update_self ..) a).trans (if_neg (Nat.not_lt.2 ha))

/-- Code is interrupted, down to the first instruction of the handler. -/
theorem trap_spec {room pl : Nat} (L : Labels) (intNo errCode : Nat) (hcpu : m.cpu = c)
    (hc : c.Level room pl) (htop : 64 ≤ c.top) (hesp0 : pl = plUser → m.esp0 = kStackTop) :
    ∃ mem' esp x, m.interrupt.isrCommon L intNo errCode =
      { m with cpu := { c with esp := esp, cs := ssKCode, ss := ssKData }, mem := mem' } ∧
      Stacks m.cr3 c.top m.mem mem' esp
        (L.afterHandler :: (c.gprs x ++ ([intNo, errCode] ++ c.trapFrame))) := by
  obtain ⟨mem₁, h₁, hs₁⟩ := interrupt_spec hcpu hc (Nat.le_trans (by decide) htop) hesp0
  have hlen := c.trapFrame_le
  obtain ⟨mem₂, x, h₂, hs₂⟩ := isrCommon_spec (m := m.interrupt) L intNo errCode
    (by rw [h₁]; exact hs₁) (by rw [h₁]; dsimp only; omega)
  refine ⟨mem₂, _, x, h₂.trans (by rw [h₁]), ?_⟩
  rw [h₁] at hs₂
  exact hs₂

end Machine

end SpuriOS
