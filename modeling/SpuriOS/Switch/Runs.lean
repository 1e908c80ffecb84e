import SpuriOS.Switch.Refinement

/-! # Runs of the machine

From the boot on, every run is a run of the processors of the processes: no step is stuck, a
process that is not switched to keeps its registers, and a `fork` returns in two processes. -/

namespace SpuriOS

open Descending Transition Machine

variable {L : Labels} {m m' m₀ : Machine} {v v' : Virtual} {c k : Context} {p q : Pid}
  {as as₀ : List Act}

/-- The machine when interrupts are enabled for the first time: idle runs, on the stack of the
boot, and no other process is there. -/
structure Machine.Boot (m : Machine) : Prop where
  cur : m.curPid = idlePid
  id : m.pcb idlePid pcbIdOff = idlePid
  pl : m.pcb idlePid pcbPlOff = plKernel
  cr3 : m.pcb idlePid pcbCr3Off = m.cr3
  free : ∀ p, p ≠ idlePid → m.pcb p pcbIdOff = freePcbPid
  cpu : m.cpu.Level (2 * stackRoom) plKernel
  ds : m.ds = ssKData
  es : m.es = ssKData
  sched : m.sched.Initial
  trap : ∀ p, m.trap p = none

/-- The traps and the switches of the kernel. -/
def machineSystem (L : Labels) : System Machine Act := System.ofFun Machine.Boot (Machine.step L)

/-- The processes that have a processor each. -/
def virtualSystem (v₀ : Virtual) : System Virtual Act where
  init v := v = v₀
  step := Virtual.Step

/-- Only idle, with these registers. -/
def Virtual.boot (c : Context) : Virtual where
  cur := idlePid
  ready := []
  ctx := Function.update (fun _ => none) idlePid (some c)

theorem Machine.Boot.refines (h : m.Boot) : m.Refines L (.boot m.cpu) := by
  have hself : (Virtual.boot m.cpu).ctx idlePid = some m.cpu := by
    simp [Virtual.boot]
  have hother : ∀ p, p ≠ idlePid → (Virtual.boot m.cpu).ctx p = none := fun p hp => by
    simp [Virtual.boot, hp]
  have hlive : ∀ p, m.live p ↔ p = idlePid := by
    intro p
    by_cases hp : p = idlePid
    · rw [hp]
      refine iff_of_true ⟨by decide, ?_⟩ rfl
      rw [h.id]
      decide
    · exact iff_of_false (fun hl => hl.2 (h.free p hp)) hp
  have honly : ∀ p c, (Virtual.boot m.cpu).ctx p = some c → p = idlePid ∧ m.cpu = c := by
    intro p c hc
    by_cases hp : p = idlePid
    · rw [hp, hself] at hc
      exact ⟨hp, Option.some.inj hc⟩
    · rw [hother p hp] at hc
      cases hc
  exact {
    cur := h.cur
    spells := ⟨[], h.sched.spells⟩
    ready := List.forall_mem_nil _
    idle := by rw [hself]; rfl
    live p := by
      rw [hlive]
      by_cases hp : p = idlePid
      · rw [hp, hself]
        exact iff_of_true rfl rfl
      · rw [hother p hp]
        exact iff_of_false Bool.false_ne_true hp
    cr3 p q hp hq _ := ((hlive p).1 hp).trans ((hlive q).1 hq).symm
    level p c hc := by
      obtain ⟨rfl, rfl⟩ := honly p c hc
      rw [h.pl]
      exact h.cpu
    suspended p c hne hc := absurd ((honly p c hc).1.trans h.cur.symm) hne
    actual := by
      rw [Sched.current, h.sched.actual, h.cur]
      rfl
    curLive := by
      rw [show (Virtual.boot m.cpu).ctx (Virtual.boot m.cpu).cur = _ from hself]
      rfl
    running c hc := by
      obtain ⟨-, rfl⟩ := honly _ c hc
      have hpl : m.pcb m.curPid pcbPlOff = plKernel := h.cur ▸ h.pl
      exact {
        cr3 := by rw [h.cur, h.cr3]
        ds := by rw [hpl]; exact h.ds
        es := by rw [hpl]; exact h.es
        esp0 := fun hu => absurd (hpl.symm.trans hu) (by decide)
        own := fun _ => rfl
        trap := fun e he =>
          absurd ((h.trap _).symm.trans he) (Option.some_ne_none e).symm } }

/-- A step of the machine is the step of the processors, and none of them is stuck. -/
theorem Machine.Refines.step (h : m.Refines L v) {a : Act} (hok : m.Allows L a) :
    ∃ m' v', m.step L a = some m' ∧ v.Step a v' ∧ m'.Refines L v' := by
  cases a with
  | work c => exact ⟨_, _, rfl, .work, h.work hok⟩
  | tick woken k =>
    obtain ⟨m', q, hq, hm, href⟩ := h.tick woken k hok
    exact ⟨m', _, hm, .tick hq, href⟩
  | trap intNo errCode =>
    obtain ⟨m', hm, href⟩ := h.trap intNo errCode hok
    exact ⟨m', v, hm, .trap, href⟩
  | fault intNo errCode k =>
    obtain ⟨m', hm, href⟩ := h.fault intNo errCode k hok
    exact ⟨m', v, hm, .fault, href⟩
  | code c below =>
    obtain ⟨m', hm, href⟩ := h.code c below hok
    exact ⟨m', v, hm, .code, href⟩
  | unblock p =>
    obtain ⟨m', hm, href⟩ := h.unblock p hok
    exact ⟨m', _, hm, .unblock, href⟩
  | result r =>
    obtain ⟨m', c, hc, hm, href⟩ := h.result r hok
    exact ⟨m', _, hm, .result hc, href⟩
  | block ret =>
    obtain ⟨m', q, hq, hm, href⟩ := h.block ret hok
    exact ⟨m', _, hm, .block hq, href⟩
  | exit woken ret =>
    obtain ⟨m', q, hq, hm, href⟩ := h.exit woken ret hok
    exact ⟨m', _, hm, .exit hq, href⟩
  | load cr3 pl eip =>
    obtain ⟨m', pid, hnone, hm, href⟩ := h.load cr3 pl eip hok
    exact ⟨m', _, hm, .load hnone, href⟩
  | fork cr3 =>
    obtain ⟨m', child, c, -, hc, hnone, hm, -, href⟩ := h.fork cr3 hok
    exact ⟨m', _, hm, .fork hc hnone, href⟩
  | ret =>
    obtain ⟨m', hm, href⟩ := h.ret hok
    exact ⟨m', v, hm, .ret, href⟩

/-- A run of the machine is a run of the processors with the same steps. -/
theorem Machine.Refines.run (h : m.Refines L v) (v₀ : Virtual)
    (hrun : Run (machineSystem L) (Machine.Allows L) m as m') :
    ∃ v', Run (virtualSystem v₀) anyStep v as v' ∧ m'.Refines L v' := by
  refine hrun.simulates (R := Machine.Refines L) (fun {s t a s'} href hok hs => ?_) h
  obtain ⟨s'', t', hs', ht, href'⟩ := href.step hok
  obtain rfl : s'' = s' := Option.some.inj (hs'.symm.trans hs)
  exact ⟨t', ht, href'⟩

/-- In every run from the boot the current process is at its own level with the registers that its
own processor has, or in a handler that finds them in its `registers_t`; and no step that the
processes and the handlers may take is stuck. -/
theorem every_process_has_a_processor (h₀ : m₀.Boot)
    (hrun : Run (machineSystem L) (Machine.Allows L) m₀ as m) :
    ∃ v, Run (virtualSystem (.boot m₀.cpu)) anyStep (.boot m₀.cpu) as v ∧ m.curPid = v.cur ∧
      (∀ p, (v.ctx p).isSome ↔ m.live p) ∧
      (m.trap m.curPid = none → v.ctx v.cur = some m.cpu) ∧
      (∀ esp, m.trap m.curPid = some esp → ∃ c, v.ctx v.cur = some c ∧
        Trapped L (m.mem m.cr3) c esp) ∧
      ∀ a, m.Allows L a → ∃ m' v', m.step L a = some m' ∧ v.Step a v' ∧ m'.Refines L v' := by
  obtain ⟨v, hv, href⟩ := h₀.refines.run (.boot m₀.cpu) hrun
  obtain ⟨c, hc, hcur, -, -⟩ := href.exists_running
  exact ⟨v, hv, href.cur, href.live, fun hown => hcur.own hown ▸ hc,
    fun esp hesp => ⟨c, hc, (hcur.trap esp hesp).trapped⟩, fun a hok => href.step hok⟩

/-- Somewhere to link the kernel to. -/
def bootLabels : Labels := ⟨0x1000, 0x1004, 0x1008, by decide⟩

/-- Idle on the stack of `kinit.asm`. -/
def bootMachine : Machine where
  cpu := ⟨0, 0, 0, 0, 0, 0, 0, 0x1200, ssKCode, taskDefaultEflags, 0xa0000 - 0x100, ssKData⟩
  ds := ssKData
  es := ssKData
  cr3 := 1
  mem _ _ := 0
  processes i := if i = pcbIdOff then idlePid else if i = pcbCr3Off then 1
    else if i = pcbPlOff then plKernel else if i % pcbSz = 0 then freePcbPid else 0
  curPid := idlePid
  tmpPid := idlePid
  esp0 := 0
  sched := .empty
  trap _ := none

theorem bootMachine_boot : bootMachine.Boot where
  cur := rfl
  id := rfl
  pl := rfl
  cr3 := rfl
  free p hp := by
    have hoff : p * pcbSz + pcbIdOff = p * 28 := rfl
    have hp' : ¬(p : Nat) = 0 := hp
    simp only [Machine.pcb, bootMachine, hoff]
    rw [if_neg (by rw [pcbIdOff]; omega), if_neg (by rw [pcbCr3Off]; omega),
      if_neg (by rw [pcbPlOff]; omega), if_pos (show p * 28 % pcbSz = 0 from Nat.mul_mod_left ..)]
  cpu := .kernel rfl rfl (by decide)
  ds := rfl
  es := rfl
  sched := Sched.empty_initial
  trap _ := rfl

/-- The steps from the boot, if the processes and the handlers may take them. -/
def bootRun (as : List Act) : Option Machine :=
  runList (fun m a => if m.Allows bootLabels a then m.step bootLabels a else none) bootMachine as

/-- Two processes are loaded, and the first gets the processor. -/
def bootLoads : List Act :=
  [.load 2 plUser 0x400000, .load 3 plUser 0x400000, .tick [] ⟨0, 0, fun _ => 0⟩]

/-- The quantum of the first process ends. -/
theorem every_process_has_a_processor_second : ∃ as m v, bootRun as = some m ∧ m.curPid = 2 ∧
    Run (virtualSystem (.boot bootMachine.cpu)) anyStep (.boot bootMachine.cpu) as v ∧
    v.cur = 2 ∧ v.ctx 2 = some m.cpu := by
  have hrun : (bootRun (bootLoads ++ List.replicate 11 (.tick [] ⟨7, 7, fun _ => 7⟩))).any
      (fun m => m.curPid = 2 ∧ m.trap 2 = none) := by decide +kernel
  obtain ⟨m, hm, hcur⟩ := (Option.any_eq_true _ _).1 hrun
  obtain ⟨hcur, htrap⟩ := of_decide_eq_true hcur
  obtain ⟨v, hv, hvcur, -, hown, -, -⟩ :=
    every_process_has_a_processor bootMachine_boot (.of_runList hm)
  rw [← hvcur, hcur] at hown
  exact ⟨_, m, v, hm, hcur, hv, hvcur.symm.trans hcur, hown htrap⟩

/-! ## A process that is interrupted -/

/-- The steps that leave the registers of the process that takes them. -/
def Machine.Act.Keeps : Act → Prop
  | .work _ | .result _ | .exit .. => False
  | _ => True

theorem Virtual.Step.ctx_eq {a : Act} (h : v.Step a v') (hc : v.ctx p = some c)
    (ha : v.cur = p → a.Keeps) : v'.ctx p = some c := by
  have hne : ∀ {q : Pid}, v.ctx q = none → p ≠ q := fun hq he =>
    Option.some_ne_none c (hc.symm.trans (he ▸ hq))
  cases h with
  | work | result | exit => exact (Function.update_of_ne (fun he => ha he.symm) ..).trans hc
  | tick | trap | fault | code | unblock | block | ret => exact hc
  | load hnone => exact (Function.update_of_ne (hne hnone) ..).trans hc
  | fork _ hnone => exact (Function.update_of_ne (hne hnone) ..).trans hc

/-- Whatever interrupts a process, and whatever runs before it is switched to again, it goes on
with the registers it had. -/
theorem registers_kept (h₀ : m₀.Boot) (hrun₀ : Run (machineSystem L) (Machine.Allows L) m₀ as₀ m)
    (hcur : m.curPid = p) (hown : m.trap p = none)
    (hrun : Run (machineSystem L) (fun m a => m.Allows L a ∧ (m.curPid = p → a.Keeps)) m as m')
    (hcur' : m'.curPid = p) (hown' : m'.trap p = none) : m'.cpu = m.cpu := by
  obtain ⟨v, -, href⟩ := h₀.refines.run (.boot m₀.cpu) hrun₀
  obtain ⟨c, hc, hcpu, -, -⟩ := href.exists_running
  have hc' : v.ctx p = some c := by rwa [← hcur, href.cur]
  obtain ⟨v', -, href', hv'⟩ := hrun.simulates (N := virtualSystem (.boot m₀.cpu))
    (R := fun m v => m.Refines L v ∧ v.ctx p = some c) (fun {s t a s'} hR hok hs => by
      obtain ⟨href, hp⟩ := hR
      obtain ⟨s'', t', hs', ht, href'⟩ := href.step hok.1
      obtain rfl : s'' = s' := Option.some.inj (hs'.symm.trans hs)
      exact ⟨t', ht, href', ht.ctx_eq hp fun he => hok.2 (href.cur.trans he)⟩) ⟨href, hc'⟩
  have hcpu' := href'.running c (hcur' ▸ hv')
  exact (hcpu'.own (by rw [hcur']; exact hown')).trans (hcpu.own (by rw [hcur]; exact hown)).symm

/-- Twice eleven ticks of two processes. -/
theorem registers_kept_turns : ∃ m m', (bootRun bootLoads = some m ∧ m.curPid = 1) ∧
    Run (machineSystem bootLabels) (Machine.Allows bootLabels) m
      (List.replicate 22 (.tick [] ⟨7, 7, fun _ => 7⟩)) m' ∧ m'.cpu = m.cpu := by
  have hrun : (bootRun (bootLoads ++ List.replicate 22 (.tick [] ⟨7, 7, fun _ => 7⟩))).any
      (fun m => m.curPid = 1 ∧ m.trap 1 = none) := by decide +kernel
  have hfirst : (bootRun bootLoads).all (fun m => m.curPid = 1 ∧ m.trap 1 = none) := by
    decide +kernel
  obtain ⟨m', hm', hcur'⟩ := (Option.any_eq_true _ _).1 hrun
  rw [bootRun, runList_append, Option.bind_eq_some_iff] at hm'
  obtain ⟨m, hm, hturns⟩ := hm'
  rw [bootRun, hm, Option.all_some] at hfirst
  obtain ⟨hcur, htrap⟩ := of_decide_eq_true hfirst
  obtain ⟨hcur', htrap'⟩ := of_decide_eq_true hcur'
  have hticks : Run (machineSystem bootLabels) _ m _ m' := .of_runList hturns
  refine ⟨m, m', ⟨hm, hcur⟩, hticks, ?_⟩
  refine registers_kept (p := 1) bootMachine_boot (.of_runList hm) hcur htrap
    (hticks.imp fun m a ha hok => ⟨hok, fun _ => ?_⟩) hcur' htrap'
  rw [List.eq_of_mem_replicate ha]
  trivial

/-! ## `fork` of `syscalls.c` -/

/-- A process pushes words on its own stack. -/
def pushOwn (c : Context) (mem : Nat → Nat) : List Nat → Context × (Nat → Nat)
  | [] => (c, mem)
  | w :: ws => pushOwn { c with esp := c.esp - 4 } (Function.update mem (c.esp - 4) w) ws

/-- `SYS_FORK`. -/
def sysFork : Nat := 8

/-- The stub of `fork` up to `int $0x30`, with the number of the call in `eax`. -/
def forkCall (c : Context) (mem : Nat → Nat) : Context × (Nat → Nat) :=
  pushOwn { c with eax := sysFork } mem [c.ebx, c.ecx, c.edx, c.esi, c.edi, c.ebp]

/-- The rest of the stub. -/
def forkReturn (c : Context) (mem : Nat → Nat) : Context :=
  { c with
    ebp := mem c.esp
    edi := mem (c.esp + 4)
    esi := mem (c.esp + 8)
    edx := mem (c.esp + 12)
    ecx := mem (c.esp + 16)
    ebx := mem (c.esp + 20)
    esp := c.esp + 24 }

theorem pushOwn_spec {mem : Nat → Nat} (ws : List Nat) {vs : List Nat}
    (h : Holds 4 mem c.esp vs) (hroom : 4 * ws.length ≤ c.esp) :
    (pushOwn c mem ws).1 = { c with esp := c.esp - 4 * ws.length } ∧
      Holds 4 (pushOwn c mem ws).2 (c.esp - 4 * ws.length) (ws.reverse ++ vs) := by
  induction ws generalizing c mem vs with
  | nil => exact ⟨rfl, h⟩
  | cons w ws ih =>
    rw [List.length_cons] at hroom ⊢
    have hesp : c.esp - 4 + 4 = c.esp := Nat.sub_add_cancel (by omega)
    have hpush : Holds 4 (Function.update mem (c.esp - 4) w) (c.esp - 4) (w :: vs) :=
      Holds.push (by rw [hesp]; exact h) (by decide)
    obtain ⟨hcpu, hholds⟩ := ih (c := { c with esp := c.esp - 4 }) hpush (by dsimp only; omega)
    have hlen : c.esp - 4 - 4 * ws.length = c.esp - 4 * (ws.length + 1) := by omega
    dsimp only at hcpu hholds
    rw [hlen] at hcpu hholds
    rw [List.reverse_cons, List.append_assoc]
    exact ⟨hcpu, hholds⟩

theorem forkCall_spec {mem : Nat → Nat} (hroom : 24 ≤ c.esp) :
    (forkCall c mem).1 = { c with eax := sysFork, esp := c.esp - 24 } ∧
      Holds 4 (forkCall c mem).2 (c.esp - 24) [c.ebp, c.edi, c.esi, c.edx, c.ecx, c.ebx] := by
  have hnil : Holds 4 mem c.esp [] := trivial
  exact pushOwn_spec (c := { c with eax := sysFork })
    [c.ebx, c.ecx, c.edx, c.esi, c.edi, c.ebp] hnil hroom

/-- The stub gets its registers back from a stack that is the same from its pointer on. -/
theorem forkReturn_eq {mem mem' : Nat → Nat} (hroom : 24 ≤ c.esp)
    (hk : k.esp = (forkCall c mem).1.esp)
    (hmem : Above k.esp (forkCall c mem).2 mem') :
    forkReturn k mem' = { k with
      ebp := c.ebp, edi := c.edi, esi := c.esi, edx := c.edx, ecx := c.ecx, ebx := c.ebx
      esp := c.esp } := by
  obtain ⟨hcpu, hholds⟩ := forkCall_spec hroom
  have hesp : k.esp = c.esp - 24 := hk.trans (congrArg Context.esp hcpu)
  have hholds' : Holds 4 mem' k.esp [c.ebp, c.edi, c.esi, c.edx, c.ecx, c.ebx] := by
    refine Holds.frame ?_ hmem (Nat.le_refl _)
    rw [hesp]
    exact hholds
  obtain ⟨h₀, h₁, h₂, h₃, h₄, h₅, -⟩ := hholds'
  have hback : k.esp + 24 = c.esp := by omega
  simp only [forkReturn, h₀, h₁, h₂, h₃, h₄, h₅, hback]

/-- A frame tells the registers of the process. -/
theorem Trapped.unique {mem : Nat → Nat} {esp : Nat} (h : Trapped L mem c esp)
    (h' : Trapped L mem k esp) (hc : c.cs = ssUCode ||| plUser) : k = c := by
  obtain ⟨⟨x, intNo, errCode, hholds⟩, -⟩ := h
  obtain ⟨⟨x', intNo', errCode', hholds'⟩, -⟩ := h'
  obtain ⟨-, h₀, h₁, h₂, -, h₄, h₅, h₆, h₇, -, -, h₈, h₉, h₁₀, hlevel⟩ := hholds
  obtain ⟨-, k₀, k₁, k₂, -, k₄, k₅, k₆, k₇, -, -, k₈, k₉, k₁₀, klevel⟩ := hholds'
  have hcs : k.cs = c.cs := k₉.symm.trans h₉
  rw [if_pos (by rw [hc]; decide)] at hlevel
  rw [hcs, if_pos (by rw [hc]; decide)] at klevel
  obtain ⟨h₁₁, h₁₂, -⟩ := hlevel
  obtain ⟨k₁₁, k₁₂, -⟩ := klevel
  cases c
  cases k
  simp_all

/-- `fork` in the handler of a call that its stub made, with the result of the handler: the stub
returns in both processes with the registers of the call, but for `eax`, which is the child in the
one and 0 in the other. Their stacks are the same from the stack pointer on. -/
theorem fork_returns_twice {cr3 esp : Nat} {mem₀ : Nat → Nat} (h₀ : m₀.Boot)
    (hrun : Run (machineSystem L) (Machine.Allows L) m₀ as m) (hok : m.Allows L (.fork cr3))
    (htrap : m.trap m.curPid = some esp)
    (hcall : Trapped L (m.mem m.cr3) (forkCall c mem₀).1 esp) (hroom : 24 ≤ c.esp) :
    ∃ child m₁ m₂ v₂ k k', m.getNewPid = some child ∧ child ≠ m.curPid ∧
      m.step L (.fork cr3) = some m₁ ∧ m₁.step L (.result child) = some m₂ ∧ m₂.Refines L v₂ ∧
      v₂.ctx m.curPid = some k ∧ v₂.ctx child = some k' ∧
      ∀ mem, Above k.esp (forkCall c mem₀).2 mem →
        forkReturn k mem = { c with eax := child } ∧ forkReturn k' mem = { c with eax := 0 } := by
  obtain ⟨v, -, href⟩ := h₀.refines.run (.boot m₀.cpu) hrun
  obtain ⟨m₁, child, c₁, hpid, hc₁, hnone, hm₁, htrap₁, href₁⟩ := href.fork cr3 hok
  obtain ⟨c', hc', hcur, hlevel, -⟩ := href.exists_running
  obtain rfl : c₁ = c' := Option.some.inj (hc₁.symm.trans hc')
  rw [hok.2.1] at hlevel
  obtain ⟨hcs, hss⟩ : c₁.cs = ssUCode ||| plUser ∧ c₁.ss = ssUData ||| plUser := by
    cases hlevel with
    | user hcs hss => exact ⟨hcs, hss⟩
  have hk : (forkCall c mem₀).1 = c₁ := (hcur.trap esp htrap).trapped.unique hcall hcs
  have hne : child ≠ v.cur := fun he => Option.some_ne_none c₁ (hc₁.symm.trans (he ▸ hnone))
  obtain ⟨m₂, k, hk₂, hm₂, href₂⟩ := href₁.result child
    (by rw [Machine.Allows, htrap₁]; exact hok.1)
  have hcur₁ : Function.update v.ctx child (some (.ofUser c₁.eip c₁.eflags c₁.esp)) v.cur =
      some c₁ := (Function.update_of_ne hne.symm ..).trans hc₁
  obtain rfl : c₁ = k := Option.some.inj (hcur₁.symm.trans hk₂)
  refine ⟨child, m₁, m₂, _, { c₁ with eax := child }, .ofUser c₁.eip c₁.eflags c₁.esp, hpid,
    href.cur ▸ hne, hm₁, hm₂, href₂, ?_, ?_, fun mem hmem => ?_⟩
  · rw [href.cur]
    exact Function.update_self ..
  · exact (Function.update_of_ne hne ..).trans (Function.update_self ..)
  · have hfields : c₁ = { c with eax := sysFork, esp := c.esp - 24 } :=
      hk.symm.trans (forkCall_spec hroom).1
    have hesp : c₁.esp = (forkCall c mem₀).1.esp := by rw [hk]
    refine ⟨(forkReturn_eq (k := { c₁ with eax := child }) hroom hesp hmem).trans ?_,
      (forkReturn_eq (k := .ofUser c₁.eip c₁.eflags c₁.esp) hroom hesp hmem).trans ?_⟩
    · rw [hfields]
    · rw [hfields] at hcs hss ⊢
      simp only [Context.ofUser]
      rw [← hcs, ← hss]

/-- The registers of a process that calls `fork` with its first instructions. -/
def firstCall : Context × (Nat → Nat) :=
  forkCall (.ofLoad plUser 0x400000) fun _ => 0

/-- A process calls `fork` with its first instructions. -/
theorem fork_returns_twice_first : ∃ m child m₁ m₂ v₂ k k',
    bootRun [.load 2 plUser 0x400000, .tick [] ⟨0, 0, fun _ => 0⟩, .work firstCall.1,
      .trap 0x30 0] = some m ∧ child = 2 ∧ m.step bootLabels (.fork 3) = some m₁ ∧
      m₁.step bootLabels (.result child) = some m₂ ∧ m₂.Refines bootLabels v₂ ∧
      v₂.ctx 1 = some k ∧ v₂.ctx child = some k' ∧
      ∀ mem, Above k.esp firstCall.2 mem →
        forkReturn k mem = { Context.ofLoad plUser 0x400000 with eax := child } ∧
        forkReturn k' mem = { Context.ofLoad plUser 0x400000 with eax := 0 } := by
  have hrun : (bootRun [.load 2 plUser 0x400000, .tick [] ⟨0, 0, fun _ => 0⟩, .work firstCall.1,
      .trap 0x30 0]).any fun m => m.curPid = 1 ∧ m.trap 1 = some (kStackTop - 64) ∧
        m.getNewPid = some 2 ∧ m.Allows bootLabels (.fork 3) ∧
        Holds 4 (m.mem m.cr3) (kStackTop - 64) (bootLabels.afterHandler ::
          (firstCall.1.gprs (kStackTop - 28) ++ ([0x30, 0] ++ firstCall.1.trapFrame))) := by
    decide +kernel
  obtain ⟨m, hm, hstate⟩ := (Option.any_eq_true _ _).1 hrun
  obtain ⟨hcur, htrap, hpid, hok, hframe⟩ := of_decide_eq_true hstate
  obtain ⟨child, m₁, m₂, v₂, k, k', hchild, -, hm₁, hm₂, href, hk, hk', hreturn⟩ :=
    fork_returns_twice bootMachine_boot (.of_runList hm) hok (hcur ▸ htrap)
      ⟨⟨_, _, _, hframe⟩, by decide⟩ (by decide)
  exact ⟨m, child, m₁, m₂, v₂, k, k', hm, Option.some.inj (hchild.symm.trans hpid), hm₁, hm₂,
    href, hcur ▸ hk, hk', hreturn⟩

end SpuriOS
