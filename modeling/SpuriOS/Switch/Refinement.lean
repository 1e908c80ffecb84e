import SpuriOS.Switch.Virtual

/-! # The machine of the kernel refines the processors of the processes

One lemma for the steps that stay in the current process, one for a switch, and one for a new
process. -/

namespace SpuriOS

open Descending Machine

variable {L : Labels} {m m' : Machine} {v v' : Virtual} {c c' : Context} {p q : Pid}

/-! ## Frames -/

theorem Trapped.frame {mem mem' : Nat → Nat} {trap a : Nat} (h : Trapped L mem c trap)
    (habove : Above a mem mem') (ha : a ≤ trap) : Trapped L mem' c trap := by
  obtain ⟨⟨x, intNo, errCode, hholds⟩, htop⟩ := h
  exact ⟨⟨x, intNo, errCode, hholds.frame habove ha⟩, htop⟩

theorem Context.Level.congr {room pl : Nat} (h : c.Level room pl) (hcs : c'.cs = c.cs)
    (hss : c'.ss = c.ss) (hesp : c'.cs % 4 ≠ plUser → c'.esp = c.esp) : c'.Level room pl := by
  cases h with
  | kernel hcs' hss' hroom =>
    refine .kernel (hcs.trans hcs') (hss.trans hss') ?_
    rwa [hesp (by rw [hcs, hcs']; decide)]
  | user hcs' hss' => exact .user (hcs.trans hcs') (hss.trans hss')

/-- What the handler returns through `regs->eax` is in the frame of the trap. -/
theorem Trapped.result {mem : Nat → Nat} {trap : Nat} (h : Trapped L mem c trap) (r : Nat) :
    Trapped L (Function.update mem (trap + 32) r) { c with eax := r } trap := by
  obtain ⟨⟨x, intNo, errCode, hholds⟩, htop⟩ := h
  obtain ⟨h₀, h₁, h₂, h₃, h₄, h₅, h₆, h₇, h₈, htail⟩ := hholds
  have hne : ∀ a, a ≠ trap + 32 → Function.update mem (trap + 32) r a = mem a := fun a ha =>
    Function.update_of_ne ha ..
  refine ⟨⟨x, intNo, errCode, ?_, ?_, ?_, ?_, ?_, ?_, ?_, ?_, ?_, ?_⟩, htop⟩
  · exact (hne _ (by omega)).trans h₀
  · exact (hne _ (by omega)).trans h₁
  · exact (hne _ (by omega)).trans h₂
  · exact (hne _ (by omega)).trans h₃
  · exact (hne _ (by omega)).trans h₄
  · exact (hne _ (by omega)).trans h₅
  · exact (hne _ (by omega)).trans h₆
  · exact (hne _ (by omega)).trans h₇
  · exact Function.update_self ..
  · exact htail.frame (Above.update (Nat.lt_succ_self _)) (by omega)

/-- Where `fork` finds the registers of a process of user level that is in a trap. -/
theorem Trapped.userFrame {mem : Nat → Nat} {trap : Nat} (h : Trapped L mem c trap)
    (hc : c.cs = ssUCode ||| plUser) :
    mem (taskKStackAddress + (stackTop - 4) * 4) = c.eip ∧
    mem (taskKStackAddress + (stackTop - 2) * 4) = c.eflags ∧
    mem (taskKStackAddress + (stackTop - 1) * 4) = c.esp := by
  have hring : c.cs % 4 = plUser := by rw [hc]; decide
  obtain ⟨⟨x, intNo, errCode, hholds⟩, htop⟩ := h
  have hframe := (holds_append.1 (holds_append.1 hholds.2).2).2
  rw [Context.length_trapFrame, Context.top, if_pos hring, if_pos hring] at htop
  rw [Context.trapFrame, if_pos hring] at hframe
  have haddr : trap + 4 + 4 * 8 + 4 * 2 = taskKStackAddress + (stackTop - 4) * 4 := by
    have htop' : kStackTop = taskKStackAddress + stackTop * 4 + 4 := rfl
    rw [htop', stackTop] at htop
    rw [stackTop]
    omega
  rw [Context.length_gprs, List.length_cons, List.length_singleton, haddr] at hframe
  obtain ⟨heip, -, heflags, hesp, -⟩ := hframe
  exact ⟨heip, heflags, hesp⟩

namespace Machine

theorem live_congr (h : m'.processes = m.processes) : m'.live p ↔ m.live p := by
  rw [live, live, pcb, pcb, h]

theorem Refines.curLive' (h : m.Refines L v) : m.live m.curPid :=
  (h.live _).1 (h.cur ▸ h.curLive)

/-- The current process changes its registers and its stack, and processes are woken. -/
theorem Refines.parked (h : m.Refines L v) (hcur : m'.curPid = m.curPid)
    (hproc : m'.processes = m.processes) (htrap : ∀ p, p ≠ m.curPid → m'.trap p = m.trap p)
    (hmem : ∀ d, d ≠ m.cr3 → m'.mem d = m.mem d) (hspells : ∃ r, m'.sched.Spells r v'.ready)
    (hready : ∀ p ∈ v'.ready, p ∈ v.ready ∨ p ≠ idlePid ∧ m.live p) (hvcur : v'.cur = v.cur)
    (hctx : ∀ p, p ≠ v.cur → v'.ctx p = v.ctx p) (hc : v'.ctx v.cur = some c)
    (hlevel : c.Level (2 * stackRoom) (m.pcb m.curPid pcbPlOff)) : m'.Parked L v' := by
  have hpcb : ∀ p off, m'.pcb p off = m.pcb p off := fun p off => by rw [pcb, pcb, hproc]
  have hsome : ∀ p, (v'.ctx p).isSome = (v.ctx p).isSome := by
    intro p
    by_cases hp : p = v.cur
    · rw [hp, hc, h.curLive]
      rfl
    · rw [hctx p hp]
  obtain ⟨c₀, hc₀⟩ := Option.isSome_iff_exists.1 h.curLive
  have hdir : m.cr3 = m.pcb m.curPid pcbCr3Off := (h.running c₀ (h.cur ▸ hc₀)).cr3
  exact {
    cur := hcur.trans (h.cur.trans hvcur.symm)
    spells := hspells
    ready p hp := by
      rw [hsome]
      exact (hready p hp).elim (h.ready p) fun hp => ⟨hp.1, (h.live p).2 hp.2⟩
    idle := by rw [hsome]; exact h.idle
    live p := by rw [hsome, h.live, live_congr hproc]
    cr3 p q hp hq := by
      rw [live_congr hproc] at hp hq
      rw [hpcb, hpcb]
      exact h.cr3 p q hp hq
    level p c' hp := by
      rw [hpcb]
      by_cases hpc : p = v.cur
      · rw [hpc, hc] at hp
        cases hp
        rw [hpc, ← h.cur]
        exact hlevel
      · exact h.level p c' ((hctx p hpc).symm.trans hp)
    suspended p c' hne hp := by
      rw [hcur] at hne
      have hp' := (hctx p (h.cur ▸ hne)).symm.trans hp
      have hlive := (h.live p).1 (Option.isSome_iff_exists.2 ⟨c', hp'⟩)
      have hother : m.pcb p pcbCr3Off ≠ m.cr3 := fun he =>
        hne (h.cr3 p m.curPid hlive h.curLive' (he.trans hdir))
      rw [hpcb, hpcb, htrap p hne, hmem _ hother]
      exact h.suspended p c' hne hp' }

/-- A step in which the current process stays: it may change its registers and its stack, and
processes may be woken. -/
theorem Refines.stay (h : m.Refines L v) (hcur : m'.curPid = m.curPid)
    (hproc : m'.processes = m.processes) (htrap : ∀ p, p ≠ m.curPid → m'.trap p = m.trap p)
    (hmem : ∀ d, d ≠ m.cr3 → m'.mem d = m.mem d) (hspells : ∃ r, m'.sched.Spells r v'.ready)
    (hactual : m'.sched.current = m.sched.current)
    (hready : ∀ p ∈ v'.ready, p ∈ v.ready ∨ p ≠ idlePid ∧ m.live p) (hvcur : v'.cur = v.cur)
    (hctx : ∀ p, p ≠ v.cur → v'.ctx p = v.ctx p) (hc : v'.ctx v.cur = some c)
    (hlevel : c.Level (2 * stackRoom) (m.pcb m.curPid pcbPlOff)) (hrun : m'.Running L c) :
    m'.Refines L v' where
  toParked := h.parked hcur hproc htrap hmem hspells hready hvcur hctx hc hlevel
  actual := hactual.trans (h.actual.trans hcur.symm)
  curLive := by
    rw [hvcur, hc]
    rfl
  running c' hp := by
    rw [hcur, h.cur, hc] at hp
    cases hp
    exact hrun

section
variable (h : m.Refines L v)
include h

/-- The registers of the current process, and what the machine has of them. -/
theorem Refines.exists_running : ∃ c, v.ctx v.cur = some c ∧ m.Running L c ∧
    c.Level (2 * stackRoom) (m.pcb m.curPid pcbPlOff) ∧ 2 * stackRoom ≤ c.top := by
  obtain ⟨c, hc⟩ := Option.isSome_iff_exists.1 h.curLive
  have hc' : v.ctx m.curPid = some c := h.cur ▸ hc
  have hlevel := h.level _ c hc'
  exact ⟨c, hc, h.running c hc', hlevel, hlevel.room (by decide)⟩

theorem Refines.work (hok : m.Allows L (.work c)) :
    { m with cpu := c }.Refines L { v with ctx := Function.update v.ctx v.cur (some c) } := by
  obtain ⟨hown, hcs, hss, hesp⟩ := hok
  obtain ⟨c₀, -, hrun, hlevel, -⟩ := h.exists_running
  rw [hrun.own hown] at hcs hss hesp
  refine h.stay rfl rfl (fun _ _ => rfl) (fun _ _ => rfl) h.spells rfl (fun p hp => .inl hp) rfl
    (fun p hp => Function.update_of_ne hp ..) (Function.update_self ..)
    (hlevel.congr hcs hss hesp) ?_
  exact { hrun with
    own := fun _ => rfl
    trap := fun esp hesp => absurd (hown.symm.trans hesp) (Option.some_ne_none esp).symm }

theorem Refines.trap (intNo errCode : Nat) (hok : m.Allows L (.trap intNo errCode)) :
    ∃ m', m.step L (.trap intNo errCode) = some m' ∧ m'.Refines L v := by
  obtain ⟨c, hc, hrun, hlevel, htop⟩ := h.exists_running
  obtain ⟨mem', esp, x, hm, hs⟩ := trap_spec L intNo errCode (hrun.own hok) hlevel
    (Nat.le_trans (by decide) htop) hrun.esp0
  have hlen := c.trapFrame_le
  have hesp := hs.length
  simp only [List.length_cons, List.length_append, List.length_nil, Context.length_gprs] at hesp
  have hroom : stackRoom ≤ esp := by
    rw [stackRoom] at htop ⊢
    omega
  have htrap : Function.update m.trap m.curPid (some esp) m.curPid = some esp :=
    Function.update_self ..
  refine ⟨_, rfl, ?_⟩
  rw [hm]
  refine h.stay rfl rfl (fun p hp => Function.update_of_ne hp ..) hs.others h.spells rfl
    (fun p hp => .inl hp) rfl (fun _ _ => rfl) hc hlevel ?_
  exact {
    cr3 := hrun.cr3
    ds := hrun.ds
    es := hrun.es
    esp0 := hrun.esp0
    own := fun hnone => absurd (htrap.symm.trans hnone) (Option.some_ne_none esp)
    trap := fun esp' hesp' => by
      obtain rfl : esp = esp' := Option.some.inj (htrap.symm.trans hesp')
      exact ⟨⟨⟨x, intNo, errCode, hs.holds⟩, by omega⟩, Nat.le_refl _, hroom, rfl, rfl⟩ }

theorem Refines.fault (intNo errCode : Nat) (k : Clobber)
    (hok : m.Allows L (.fault intNo errCode k)) :
    ∃ m', m.step L (.fault intNo errCode k) = some m' ∧ m'.Refines L v := by
  obtain ⟨c, hc, hrun, hlevel, -⟩ := h.exists_running
  obtain ⟨e, he⟩ := Option.ne_none_iff_exists'.1 hok
  have hhandling := hrun.trap e he
  -- the handler is interrupted as code of the kernel
  have hkernel : m.cpu.Level stackRoom plKernel :=
    .kernel hhandling.cs hhandling.ss hhandling.room
  have htop : m.cpu.top = m.cpu.esp := by
    rw [Context.top, hhandling.cs, if_neg (by decide)]
  obtain ⟨mem₁, esp, x, h₁, hs⟩ := trap_spec L intNo errCode rfl hkernel
    (htop ▸ hhandling.room) fun hpl => absurd hpl (by decide)
  obtain ⟨mem₂, h₂, habove, hothers⟩ := called_spec (m := m.interrupt.isrCommon L intNo errCode) k 0
  rw [h₁] at h₂ habove hothers
  have hs₂ := hs.frame habove hothers
  have hesp := hs.length
  simp only [List.length_cons, List.length_append, List.length_nil, Context.length_gprs] at hesp
  have hret := isrReturn_spec (m := { m with
    cpu := { m.cpu with
      esp := esp, cs := ssKCode, ss := ssKData, eax := 0, ecx := k.ecx, edx := k.edx }
    mem := mem₂ }) hs₂.holds hkernel rfl (by dsimp only; omega)
  refine ⟨{ m with mem := mem₂ }, ?_, ?_⟩
  · rw [step, h₁, h₂, hret]
  refine h.stay rfl rfl (fun _ _ => rfl) hs₂.others h.spells rfl (fun p hp => .inl hp) rfl
    (fun _ _ => rfl) hc hlevel ?_
  exact { hrun with
    trap := fun e' he' => by
      have hhandling := hrun.trap e' he'
      exact { hhandling with
        trapped := hhandling.trapped.frame hs₂.above (htop ▸ hhandling.esp) } }

theorem Refines.code (c' : Context) (below : Nat → Nat) (hok : m.Allows L (.code c' below)) :
    ∃ m', m.step L (.code c' below) = some m' ∧ m'.Refines L v := by
  obtain ⟨c, hc, hrun, hlevel, -⟩ := h.exists_running
  obtain ⟨e, he, hroom, hesp, hcs, hss⟩ := hok
  have hhandling := hrun.trap e he
  have habove : Above e (m.mem m.cr3) ((m.overwrite e below).mem m.cr3) := fun a ha =>
    (congrFun (Function.update_self ..) a).trans (if_neg (Nat.not_lt.2 ha))
  refine ⟨{ m.overwrite e below with cpu := c' }, by rw [step, he]; rfl, ?_⟩
  refine h.stay rfl rfl (fun _ _ => rfl) (fun d hd => Function.update_of_ne hd ..) h.spells rfl
    (fun p hp => .inl hp) rfl (fun _ _ => rfl) hc hlevel ?_
  exact { hrun with
    own := fun hown => absurd (he.symm.trans hown) (Option.some_ne_none e)
    trap := fun e' he' => by
      obtain rfl : e = e' := Option.some.inj (he.symm.trans he')
      exact ⟨hhandling.trapped.frame habove (Nat.le_refl e), hesp, hroom,
        hcs.trans hhandling.cs, hss.trans hhandling.ss⟩ }

theorem Refines.result (r : Nat) (hok : m.Allows L (.result r)) :
    ∃ m' c, v.ctx v.cur = some c ∧ m.step L (.result r) = some m' ∧ m'.Refines L
      { v with ctx := Function.update v.ctx v.cur (some { c with eax := r }) } := by
  obtain ⟨c, hc, hrun, hlevel, -⟩ := h.exists_running
  obtain ⟨e, he⟩ := Option.ne_none_iff_exists'.1 hok
  refine ⟨_, c, hc, by rw [step, he]; rfl, ?_⟩
  refine h.stay rfl rfl (fun _ _ => rfl) (fun d hd => Function.update_of_ne hd ..) h.spells rfl
    (fun p hp => .inl hp) rfl (fun p hp => Function.update_of_ne hp ..) (Function.update_self ..)
    (hlevel.congr rfl rfl fun _ => rfl) ?_
  exact { hrun with
    own := fun hown => absurd (he.symm.trans hown) (Option.some_ne_none e)
    trap := fun e' he' => by
      obtain rfl : e = e' := Option.some.inj (he.symm.trans he')
      have hhandling := hrun.trap e he
      refine { hhandling with trapped := ?_ }
      dsimp only
      rw [Function.update_self]
      exact hhandling.trapped.result r }

theorem Refines.ret (hok : m.Allows L .ret) :
    ∃ m', m.step L .ret = some m' ∧ m'.Refines L v := by
  obtain ⟨c, hc, hrun, hlevel, -⟩ := h.exists_running
  have hhandling := hrun.trap _ hok
  obtain ⟨⟨x, intNo, errCode, hholds⟩, htop⟩ := hhandling.trapped
  have hret := isrReturn_spec hholds hlevel hhandling.ss htop
  refine ⟨_, by rw [step, hret]; rfl, ?_⟩
  refine h.stay rfl rfl (fun p hp => Function.update_of_ne hp ..) (fun _ _ => rfl) h.spells rfl
    (fun p hp => .inl hp) rfl (fun _ _ => rfl) hc hlevel ?_
  have htrap : Function.update m.trap m.curPid none m.curPid = none := Function.update_self ..
  exact { hrun with
    own := fun _ => rfl
    trap := fun e he => absurd (htrap.symm.trans he) (Option.some_ne_none e).symm }

theorem Refines.unblock (p : Pid) (hok : m.Allows L (.unblock p)) :
    ∃ m', m.step L (.unblock p) = some m' ∧ m'.Refines L { v with ready := v.ready ++ [p] } := by
  obtain ⟨c, hc, hrun, hlevel, -⟩ := h.exists_running
  obtain ⟨-, hnodup, hasleep⟩ := hok
  obtain ⟨r, hr⟩ := h.spells
  obtain ⟨s', r', hs', hspells, hcurrent⟩ := hr.unblockAll hnodup
    (fun q hq => (hasleep q hq).1.1) fun q hq hmem => (hasleep q hq).2.2 (hr.runs_iff.2 hmem)
  refine ⟨{ m with sched := s' }, by rw [step, Machine.unblockAll, hs']; rfl, ?_⟩
  refine h.stay rfl rfl (fun _ _ => rfl) (fun _ _ => rfl) ⟨r', hspells⟩ hcurrent
    (fun q hq => (List.mem_append.1 hq).imp_right fun hq => ?_) rfl (fun _ _ => rfl) hc hlevel
    { hrun with }
  exact ⟨(hasleep q hq).2.1, (hasleep q hq).1⟩

end

/-! ## Switches -/

/-- The machine after a switch to `q`, which goes on with the registers `cpu`. -/
def switched (m : Machine) (q : Pid) (cpu : Context) (mem : Nat → Nat → Nat) : Machine :=
  { m with
    cpu := cpu
    ds := dataSegment (m.pcb q pcbPlOff)
    es := dataSegment (m.pcb q pcbPlOff)
    cr3 := m.pcb q pcbCr3Off
    mem := mem
    processes := Function.update m.processes (m.curPid * pcbSz + pcbEspOff) (m.cpu.esp - 36)
    curPid := q
    esp0 := trapStack (m.pcb q pcbPlOff) }

/-- The current process is left with its registers and the return address on its stack, and the
next one goes on as it was suspended. -/
theorem callTaskSwitch_spec {room : Nat} (ret : Nat) (hroom : 36 ≤ m.cpu.esp)
    (hcs : m.cpu.cs = ssKCode) (hss : m.cpu.ss = ssKData) (hcur : m.curPid < maxPid)
    (hq : m.tmpPid = q) (hlt : q < maxPid) (hne : q ≠ m.curPid)
    (hdir : m.pcb q pcbCr3Off ≠ m.cr3) (hlevel : c.Level room (m.pcb q pcbPlOff))
    (h : Suspended L (m.mem (m.pcb q pcbCr3Off)) (m.pcb q pcbEspOff) c (m.trap q)) :
    ∃ cpu mem', m.callTaskSwitch L ret = m.switched q cpu mem' ∧
      Stacks m.cr3 m.cpu.esp m.mem mem' (m.cpu.esp - 36)
        (m.cpu.gprs (m.cpu.esp - 4) ++ [ret]) ∧
      (m.trap q = none → cpu = c) ∧
      ∀ e, m.trap q = some e → Handling L (m.mem (m.pcb q pcbCr3Off)) cpu c e := by
  obtain ⟨mem₁, h₁, hs₁⟩ := push_spec (m := m) (w := ret) .nil (by omega)
  have hother₁ : mem₁ (m.pcb q pcbCr3Off) = m.mem (m.pcb q pcbCr3Off) := hs₁.others _ hdir
  have hswitch : ∀ {k : Context} {x ws}, Holds 4 (m.mem (m.pcb q pcbCr3Off)) (m.pcb q pcbEspOff)
      (k.gprs x ++ ws) → ∃ mem', (m.push ret).taskSwitch =
        m.switched q { m.cpu.withGprs k with esp := m.pcb q pcbEspOff + 32 } mem' ∧
        Stacks m.cr3 m.cpu.esp m.mem mem' (m.cpu.esp - 36)
          (m.cpu.gprs (m.cpu.esp - 4) ++ [ret]) := by
    intro k x ws hk
    obtain ⟨mem₂, h₂, hs₂⟩ := taskSwitch_spec (m := m.push ret) (q := q) (c := k) (x := x)
      (by rw [h₁]; dsimp only; omega) (by rw [h₁]; exact hcur) (by rw [h₁]; exact hq)
      hlt (by rw [h₁]; exact hne) (by rw [h₁]; exact hdir)
      (by rw [h₁]; dsimp only [pcb] at hother₁ ⊢; rw [hother₁]; exact hk)
    rw [h₁] at h₂ hs₂
    have hesp : m.cpu.esp - 4 - 32 = m.cpu.esp - 36 := by omega
    refine ⟨mem₂, ?_, ?_⟩
    · rw [h₁, h₂, switched, ← hesp]
      rfl
    · rw [← hesp]
      exact hs₁.trans hs₂
  generalize m.trap q = trap at h ⊢
  cases h with
  | @ticked k x x' hholds htop =>
    obtain ⟨mem', hm, hs⟩ := hswitch hholds
    have hword : Holds 4 (mem' (m.pcb q pcbCr3Off)) (m.pcb q pcbEspOff + 32)
        (L.goBack :: (c.gprs x' ++ c.trapFrame)) := by
      rw [hs.others _ hdir]
      exact (holds_append.1 hholds).2
    refine ⟨c, mem', ?_, hs, fun _ => rfl, fun e he => absurd he (Option.some_ne_none e).symm⟩
    rw [callTaskSwitch, hm]
    exact switchRet_goBack (m := m.switched q { m.cpu.withGprs k with esp := _ } mem') hword
      hlevel hss (by rw [← htop]; rfl)
  | @fresh x hholds htop =>
    obtain ⟨mem', hm, hs⟩ := hswitch hholds
    have hword : Holds 4 (mem' (m.pcb q pcbCr3Off)) (m.pcb q pcbEspOff + 32)
        (L.taskInit :: c.trapFrame) := by
      rw [hs.others _ hdir]
      exact (holds_append.1 hholds).2
    refine ⟨c, mem', ?_, hs, fun _ => rfl, fun e he => absurd he (Option.some_ne_none e).symm⟩
    rw [callTaskSwitch, hm]
    exact switchRet_taskInit (m := m.switched q { m.cpu.withGprs c with esp := _ } mem') hword
      hlevel rfl hss (by rw [← htop]; rfl)
  | @waiting k x ret' trap hgo hinit hholds hesp hroom' htrapped =>
    obtain ⟨mem', hm, hs⟩ := hswitch hholds
    have hword : mem' (m.pcb q pcbCr3Off) (m.pcb q pcbEspOff + 32) = ret' := by
      rw [hs.others _ hdir]
      exact (holds_append.1 hholds).2.1
    refine ⟨{ m.cpu.withGprs k with esp := m.pcb q pcbEspOff + 32 + 4 }, mem', ?_, hs,
      fun hnone => absurd hnone (Option.some_ne_none trap), fun e he => ?_⟩
    · rw [callTaskSwitch, hm]
      exact switchRet_code (m := m.switched q { m.cpu.withGprs k with esp := _ } mem') hword hgo
        hinit
    · obtain rfl := Option.some.inj he
      exact ⟨htrapped, hesp, hroom', hcs, hss⟩

theorem switched_pcb {cpu : Context} {mem : Nat → Nat → Nat} {off : Nat} (hoff : off < pcbSz)
    (hne : p ≠ m.curPid ∨ off ≠ pcbEspOff) : (m.switched q cpu mem).pcb p off = m.pcb p off := by
  refine Function.update_of_ne (fun he => ?_) ..
  by_cases hp : p = m.curPid
  · rw [hp] at he
    exact hne.elim (fun hne => hne hp) fun hne => hne (Nat.add_left_cancel he)
  · exact pcbOff_ne hp hoff (by decide) he

/-- A switch to a process that is suspended. The one that is left has gone, or is suspended by
what the switch puts on its stack. -/
theorem Parked.switch (h : m.Parked L v) (ret : Nat) (hq : v.ctx q = some c)
    (hne : q ≠ m.curPid) (htmp : m.tmpPid = q) (hcur : m.curPid < maxPid)
    (hroom : 36 ≤ m.cpu.esp) (hcs : m.cpu.cs = ssKCode) (hss : m.cpu.ss = ssKData)
    (hdir : ∀ p, m.live p → p ≠ m.curPid → m.pcb p pcbCr3Off ≠ m.cr3)
    (hleave : ∀ c₀, v.ctx m.curPid = some c₀ → m.cr3 = m.pcb m.curPid pcbCr3Off ∧
      ∀ mem', Stacks m.cr3 m.cpu.esp m.mem mem' (m.cpu.esp - 36)
        (m.cpu.gprs (m.cpu.esp - 4) ++ [ret]) →
        Suspended L (mem' m.cr3) (m.cpu.esp - 36) c₀ (m.trap m.curPid))
    (hactual : m.sched.current = q) :
    (m.callTaskSwitch L ret).Refines L { v with cur := q } := by
  have hlive : m.live q := (h.live q).1 (Option.isSome_iff_exists.2 ⟨c, hq⟩)
  have hlevel := h.level q c hq
  obtain ⟨cpu, mem', hm, hs, hown, htrap⟩ := callTaskSwitch_spec ret hroom hcs hss hcur htmp
    hlive.1 hne (hdir q hlive hne) hlevel (h.suspended q c hne hq)
  have hid : ∀ p, (m.switched q cpu mem').live p ↔ m.live p := fun p => by
    rw [Machine.live, Machine.live, switched_pcb (by decide) (.inr (by decide))]
  rw [hm]
  exact {
    cur := rfl
    spells := h.spells
    ready := h.ready
    idle := h.idle
    live p := (h.live p).trans (hid p).symm
    cr3 p p' hp hp' := by
      rw [hid] at hp hp'
      rw [switched_pcb (by decide) (.inr (by decide)), switched_pcb (by decide) (.inr (by decide))]
      exact h.cr3 p p' hp hp'
    level p c' hp := by
      rw [switched_pcb (by decide) (.inr (by decide))]
      exact h.level p c' hp
    suspended p c' hpq hp := by
      rw [switched_pcb (by decide) (.inr (by decide))]
      by_cases hpc : p = m.curPid
      · subst hpc
        obtain ⟨hcr3, hsuspended⟩ := hleave c' hp
        have hesp : (m.switched q cpu mem').pcb m.curPid pcbEspOff = m.cpu.esp - 36 :=
          Function.update_self ..
        rw [hesp, ← hcr3]
        exact hsuspended mem' hs
      · have hp' := (h.live p).1 (Option.isSome_iff_exists.2 ⟨c', hp⟩)
        have hmem : mem' (m.pcb p pcbCr3Off) = m.mem (m.pcb p pcbCr3Off) :=
          hs.others _ (hdir p hp' hpc)
        rw [switched_pcb (by decide) (.inl hpc)]
        change Suspended L (mem' _) _ _ _
        rw [hmem]
        exact h.suspended p c' hpc hp
    actual := hactual
    curLive := Option.isSome_iff_exists.2 ⟨c, hq⟩
    running c' hp := by
      obtain rfl : c = c' := Option.some.inj (hq.symm.trans hp)
      have hmem : mem' (m.pcb q pcbCr3Off) = m.mem (m.pcb q pcbCr3Off) :=
        hs.others _ (hdir q hlive hne)
      have hpl : (m.switched q cpu mem').pcb q pcbPlOff = m.pcb q pcbPlOff :=
        switched_pcb (by decide) (.inr (by decide))
      have hcr3 : (m.switched q cpu mem').pcb q pcbCr3Off = m.pcb q pcbCr3Off :=
        switched_pcb (by decide) (.inr (by decide))
      exact {
        cr3 := hcr3.symm
        ds := congrArg dataSegment hpl.symm
        es := congrArg dataSegment hpl.symm
        esp0 := fun huser => by
          have huser' : m.pcb q pcbPlOff = plUser := hpl.symm.trans huser
          exact (congrArg trapStack huser').trans rfl
        own := hown
        trap := fun e he => by
          have hhandling := htrap e he
          rw [← hmem] at hhandling
          exact hhandling } }

/-- The scheduler takes processes out. -/
theorem Parked.resched {s : Sched} {r ready : List Nat} (h : m.Parked L v)
    (hspells : s.Spells r ready) (hsub : ∀ p ∈ ready, p ∈ v.ready) (q : Pid) :
    Parked L { m with sched := s, tmpPid := q } { v with ready := ready } where
  cur := h.cur
  spells := ⟨r, hspells⟩
  ready p hp := h.ready p (hsub p hp)
  idle := h.idle
  live := h.live
  cr3 := h.cr3
  level := h.level
  suspended := h.suspended

theorem Refines.cur_mem (h : m.Refines L v) (hne : m.curPid ≠ idlePid) : v.cur ∈ v.ready := by
  obtain ⟨r, hr⟩ := h.spells
  rw [← h.cur, ← h.actual] at *
  cases ha : m.sched.actual with
  | none =>
    rw [Sched.current, ha] at hne
    exact absurd rfl hne
  | some a => exact hr.current_mem ha

/-- The process that the scheduler names when the current one leaves. -/
theorem Refines.named (h : m.Refines L v) (hcur : m.curPid ≠ idlePid)
    (hq : Named (v.ready.erase v.cur) q) : q ≠ m.curPid ∧ (v.ctx q).isSome := by
  obtain ⟨r, hr⟩ := h.spells
  rcases hq with hq | ⟨-, rfl⟩
  · exact ⟨h.cur ▸ (hr.nodup.mem_erase_iff.1 hq).1, (h.ready q (List.mem_of_mem_erase hq)).2⟩
  · exact ⟨hcur.symm, h.idle⟩

/-- Other processes have other directories than the current one. -/
theorem Refines.dir_ne (h : m.Refines L v) (hp : m.live p) (hne : p ≠ m.curPid) :
    m.pcb p pcbCr3Off ≠ m.cr3 := by
  obtain ⟨c, -, hrun, -⟩ := h.exists_running
  rw [hrun.cr3]
  exact fun he => hne (h.cr3 p m.curPid hp h.curLive' he)

theorem Refines.exit_named (h : m.Refines L v) (hne : m.curPid ≠ idlePid) :
    ∃ q s' r', schedExit m.sched = some (q, s') ∧ s'.Spells r' (v.ready.erase v.cur) ∧
      s'.current = q ∧ Named (v.ready.erase v.cur) q := by
  obtain ⟨r, hr⟩ := h.spells
  have hmem := h.cur_mem hne
  have hcurrent : m.sched.current = v.cur := h.actual.trans h.cur
  rw [← hcurrent] at hmem ⊢
  exact hr.exit_named hmem fun hidle => (h.ready _ hidle).1 rfl

theorem Refines.block (h : m.Refines L v) (ret : Nat) (hok : m.Allows L (.block ret)) :
    ∃ m' q, Named (v.ready.erase v.cur) q ∧ m.step L (.block ret) = some m' ∧
      m'.Refines L { v with cur := q, ready := v.ready.erase v.cur } := by
  obtain ⟨htrap, hidle, hgo, hinit⟩ := hok
  obtain ⟨e, he⟩ := Option.ne_none_iff_exists'.1 htrap
  obtain ⟨c, hc, hrun, -, -⟩ := h.exists_running
  have hhandling := hrun.trap e he
  obtain ⟨q, s', r', hs', hspells, hcurrent, hq⟩ := h.exit_named hidle
  obtain ⟨hne, hsome⟩ := h.named hidle hq
  obtain ⟨cq, hcq⟩ := Option.isSome_iff_exists.1 hsome
  have hroom : 36 ≤ m.cpu.esp := Nat.le_trans (by decide) hhandling.room
  refine ⟨_, q, hq, by rw [step, Machine.block, schedBlock, hs']; rfl, ?_⟩
  refine (h.toParked.resched hspells (fun p hp => List.mem_of_mem_erase hp) q).switch ret hcq hne
    rfl h.curLive'.1 hroom hhandling.cs hhandling.ss (fun p hp hpc => h.dir_ne hp hpc)
    (fun c₀ hc₀ => ⟨hrun.cr3, fun mem' hs => ?_⟩) hcurrent
  obtain rfl : c = c₀ := Option.some.inj (hc.symm.trans (h.cur ▸ hc₀))
  have hesp : m.cpu.esp - 36 + 36 = m.cpu.esp := Nat.sub_add_cancel hroom
  rw [show Machine.trap _ _ = some e from he]
  exact .waiting hgo hinit hs.holds (hesp.symm ▸ hhandling.esp) (hesp.symm ▸ hhandling.room)
    (hhandling.trapped.frame hs.above hhandling.esp)

theorem Refines.exit (h : m.Refines L v) (woken : List Pid) (ret : Nat)
    (hok : m.Allows L (.exit woken ret)) :
    ∃ m' q, Named (v.ready.erase v.cur) q ∧ m.step L (.exit woken ret) = some m' ∧
      m'.Refines L {
        cur := q
        ready := v.ready.erase v.cur ++ woken
        ctx := Function.update v.ctx v.cur none } := by
  obtain ⟨htrap, hidle, hnodup, hasleep⟩ := hok
  obtain ⟨e, he⟩ := Option.ne_none_iff_exists'.1 htrap
  obtain ⟨c, hc, hrun, -, -⟩ := h.exists_running
  have hhandling := hrun.trap e he
  obtain ⟨q, s', r', hs', hspells, hcurrent, hq⟩ := h.exit_named hidle
  obtain ⟨hne, hsome⟩ := h.named hidle hq
  obtain ⟨cq, hcq⟩ := Option.isSome_iff_exists.1 hsome
  have hroom : 36 ≤ m.cpu.esp := Nat.le_trans (by decide) hhandling.room
  obtain ⟨r, hr⟩ := h.spells
  have hnotCur : m.curPid ∉ woken := fun hmem =>
    (hasleep _ hmem).2.2 (hr.runs_iff.2 (h.cur ▸ h.cur_mem hidle))
  -- the flushes wake processes once another one is the current one of the scheduler
  obtain ⟨s₁, r₁, hwoken, hspells₁, hcurrent₁⟩ := hspells.unblockAll hnodup
    (fun p hp => (hasleep p hp).1.1) fun p hp hmem =>
      (hasleep p hp).2.2 (hr.runs_iff.2 (List.mem_of_mem_erase hmem))
  -- the tables without the process that exits
  let m₁ := { m with
    sched := s₁, tmpPid := q
    processes := Function.update m.processes (m.curPid * pcbSz + pcbIdOff) freePcbPid }
  let v₁ : Virtual :=
    { cur := v.cur, ready := v.ready.erase v.cur ++ woken, ctx := Function.update v.ctx v.cur none }
  have hpcb : ∀ p, p ≠ m.curPid → ∀ off, off < pcbSz → m₁.pcb p off = m.pcb p off :=
    fun p hp off hoff => Function.update_of_ne (pcbOff_ne hp hoff (by decide)) ..
  have hcurDead : ¬m₁.live m.curPid := fun hl => hl.2 (Function.update_self ..)
  have hlive : ∀ p, m₁.live p ↔ p ≠ m.curPid ∧ m.live p := by
    intro p
    by_cases hp : p = m.curPid
    · rw [hp]
      exact iff_of_false hcurDead fun hl => hl.1 rfl
    · rw [Machine.live, Machine.live, hpcb p hp _ (by decide)]
      exact (and_iff_right hp).symm
  have hctx : ∀ p, p ≠ m.curPid → v₁.ctx p = v.ctx p := fun p hp =>
    Function.update_of_ne (h.cur ▸ hp) ..
  have hgone : v₁.ctx m.curPid = none := h.cur ▸ Function.update_self ..
  have hparked : m₁.Parked L v₁ := {
    cur := h.cur
    spells := ⟨r₁, hspells₁⟩
    ready p hp := by
      rcases List.mem_append.1 hp with hp | hp
      · have hp' := hr.nodup.mem_erase_iff.1 hp
        rw [hctx p (h.cur ▸ hp'.1)]
        exact h.ready p hp'.2
      · rw [hctx p (ne_of_mem_of_not_mem hp hnotCur)]
        exact ⟨(hasleep p hp).2.1, (h.live p).2 (hasleep p hp).1⟩
    idle := by
      rw [hctx _ hidle.symm]
      exact h.idle
    live p := by
      rw [hlive, ← h.live]
      by_cases hp : p = m.curPid
      · rw [hp, hgone]
        exact iff_of_false Bool.false_ne_true fun hl => hl.1 rfl
      · rw [hctx p hp]
        exact (and_iff_right hp).symm
    cr3 p p' hp hp' heq := by
      obtain ⟨hp, hlp⟩ := (hlive p).1 hp
      obtain ⟨hp', hlp'⟩ := (hlive p').1 hp'
      rw [hpcb p hp _ (by decide), hpcb p' hp' _ (by decide)] at heq
      exact h.cr3 p p' hlp hlp' heq
    level p c' hp := by
      have hpc : p ≠ m.curPid := fun he => Option.some_ne_none c' (hp.symm.trans (he ▸ hgone))
      rw [hpcb p hpc _ (by decide)]
      exact h.level p c' ((hctx p hpc).symm.trans hp)
    suspended p c' hpc hp := by
      rw [hpcb p hpc _ (by decide), hpcb p hpc _ (by decide)]
      exact h.suspended p c' hpc ((hctx p hpc).symm.trans hp) }
  have hstep : m.step L (.exit woken ret) = some (m₁.callTaskSwitch L ret) := by
    rw [step, Machine.exit, hs']
    simp only [Option.bind_eq_bind, Option.bind_some, Machine.unblockAll, hwoken]
    rfl
  refine ⟨m₁.callTaskSwitch L ret, q, hq, hstep, ?_⟩
  refine hparked.switch ret ((hctx q hne).trans hcq) hne rfl h.curLive'.1 hroom hhandling.cs
    hhandling.ss (fun p hp hpc => ?_) (fun c₀ hc₀ => ?_)
    (hcurrent₁.trans hcurrent)
  · rw [hpcb p hpc _ (by decide)]
    exact h.dir_ne ((hlive p).1 hp).2 hpc
  · exact absurd (hc₀.symm.trans hgone) (Option.some_ne_none c₀)

theorem pushad_sched : m.pushad.sched = m.sched := by simp only [pushad, push]

/-- `timer_handler` once it has asked the scheduler. -/
theorem timerHandler_eq {woken : List Pid} {s₁ s₂ : Sched} {pd : Pid} (k : Clobber)
    (hwoken : woken.foldlM (fun s p => schedUnblock p s) m.sched = some s₁)
    (htick : schedTick s₁ = some (pd, s₂)) : m.timerHandler L woken k =
      some (({ m.pushad with sched := s₂ }.called k pd).afterTick L) := by
  rw [timerHandler, Machine.unblockAll, pushad_sched, hwoken]
  simp only [Option.bind_eq_bind, Option.bind_some, htick]

theorem Refines.tick (h : m.Refines L v) (woken : List Pid) (k : Clobber)
    (hok : m.Allows L (.tick woken k)) : ∃ m' q, Named (v.ready ++ woken) q ∧
      m.step L (.tick woken k) = some m' ∧
      m'.Refines L { v with cur := q, ready := v.ready ++ woken } := by
  obtain ⟨hown, hnodup, hasleep⟩ := hok
  obtain ⟨c, hc, hrun, hlevel, htop⟩ := h.exists_running
  obtain ⟨r, hr⟩ := h.spells
  obtain ⟨s₁, r₁, hwoken, h₁, -⟩ := hr.unblockAll hnodup (fun p hp => (hasleep p hp).1.1)
    fun p hp hmem => (hasleep p hp).2.2 (hr.runs_iff.2 hmem)
  obtain ⟨q, s₂, htick, h₂, hcurrent, hq⟩ := h₁.tick_named
  have hready : ∀ p ∈ v.ready ++ woken, p ∈ v.ready ∨ p ≠ idlePid ∧ m.live p := fun p hp =>
    (List.mem_append.1 hp).imp_right fun hp => ⟨(hasleep p hp).2.1, (hasleep p hp).1⟩
  -- the machine when the scheduler has answered
  have hlen := c.trapFrame_le
  rw [stackRoom] at htop
  obtain ⟨mem₁, hm₁, hs₁⟩ := interrupt_spec (hrun.own hown) hlevel (by omega) hrun.esp0
  obtain ⟨mem₂, hm₂, hs₂⟩ := pushad_spec (m := m.interrupt) (by rw [hm₁]; exact hs₁)
    (by rw [hm₁]; dsimp only; omega)
  rw [hm₁] at hs₂
  obtain ⟨mem₃, hm₃, habove, hothers⟩ :=
    called_spec (m := { m.interrupt.pushad with sched := s₂ }) k q
  rw [hm₂, hm₁] at habove hothers
  have hs₃ := hs₂.frame habove hothers
  obtain ⟨esp, hesp⟩ : ∃ esp, c.top - 4 * c.trapFrame.length - 32 = esp := ⟨_, rfl⟩
  have hlength := hs₃.length
  simp only [List.length_append, Context.length_gprs, hesp] at hlength hs₃
  let m₃ := { m with
    cpu := { c with
      esp := esp, cs := ssKCode, ss := ssKData, eax := q, ecx := k.ecx, edx := k.edx }
    mem := mem₃, sched := s₂ }
  have hcalled : { m.interrupt.pushad with sched := s₂ }.called k q = m₃ := by
    rw [hm₃, hm₂, hm₁]
    simp only [m₃, hesp]
  have hstep : m.step L (.tick woken k) = some (m₃.afterTick L) := by
    rw [step, timerHandler_eq k (m := m.interrupt) (by rw [hm₁]; exact hwoken) htick, hcalled]
  refine ⟨_, q, hq, hstep, ?_⟩
  by_cases hsame : q = m.curPid
  · have hiret := popad_iret (m := m₃) hs₃.holds hlevel rfl (by dsimp only [m₃]; omega)
    rw [afterTick, if_pos hsame, hiret]
    refine h.stay rfl rfl (fun _ _ => rfl) hs₃.others ⟨r₁, h₂⟩ ?_ hready ?_ (fun _ _ => rfl) hc
      hlevel ?_
    · exact hcurrent.trans (hsame.trans h.actual.symm)
    · exact hsame.trans h.cur
    · exact { hrun with
        own := fun _ => rfl
        trap := fun e he => absurd (hown.symm.trans he) (Option.some_ne_none e).symm }
  · rw [afterTick, if_neg hsame]
    have hparked : { m₃ with tmpPid := q }.Parked L { v with ready := v.ready ++ woken } :=
      h.parked rfl rfl (fun _ _ => rfl) hs₃.others ⟨r₁, h₂⟩ hready rfl (fun _ _ => rfl) hc hlevel
    have hsome : (v.ctx q).isSome :=
      hq.elim (fun hq => (hparked.ready q hq).2) fun hidle => hidle.2 ▸ h.idle
    obtain ⟨cq, hcq⟩ := Option.isSome_iff_exists.1 hsome
    have hroom : 36 ≤ esp := by omega
    refine hparked.switch L.goBack hcq hsame rfl h.curLive'.1 hroom rfl rfl
      (fun p hp hpc => h.dir_ne hp hpc) (fun c₀ hc₀ => ⟨hrun.cr3, fun mem' hs => ?_⟩) hcurrent
    obtain rfl : c = c₀ := Option.some.inj (hc.symm.trans (h.cur ▸ hc₀))
    have hholds := (hs₃.trans hs).holds
    rw [List.append_assoc, List.singleton_append] at hholds
    rw [show Machine.trap _ _ = none from hown]
    refine .ticked hholds ?_
    change esp - 36 + 68 + 4 * c.trapFrame.length = c.top
    omega

/-! ## New processes -/

theorem mapStack_holds (m : Machine) (cr3 : Nat) (stack : Nat → Nat) (n : Nat) {i : Nat}
    (hi : i + n ≤ 1024) : Holds 4 ((m.mapStack cr3 stack).mem cr3) (taskKStackAddress + i * 4)
      ((List.range' i n).map stack) := by
  induction n generalizing i with
  | zero => trivial
  | succ n ih =>
    rw [List.range'_succ, List.map_cons]
    refine ⟨?_, ?_⟩
    · have hlt : i * 4 < 0x1000 := by omega
      have htop : kStackTop = taskKStackAddress + 0x1000 := rfl
      refine (congrFun (Function.update_self ..) _).trans ?_
      rw [if_pos ⟨Nat.le_add_right _ _, htop ▸ Nat.add_lt_add_left hlt _⟩, Nat.add_sub_cancel_left,
        Nat.mul_div_cancel _ (by decide)]
    · have hnext : taskKStackAddress + i * 4 + 4 = taskKStackAddress + (i + 1) * 4 := by omega
      rw [hnext]
      exact ih (by omega)

theorem ofUser_trapFrame (eip eflags esp : Nat) : (Context.ofUser eip eflags esp).trapFrame =
    [eip, ssUCode ||| plUser, eflags, esp, ssUData ||| plUser] :=
  congrArg ([eip, ssUCode ||| plUser, eflags] ++ ·)
    (if_pos (show (ssUCode ||| plUser) % 4 = plUser by decide))

theorem ofUser_top (eip eflags esp : Nat) : (Context.ofUser eip eflags esp).top = kStackTop :=
  if_pos (show (ssUCode ||| plUser) % 4 = plUser by decide)

theorem ofKernel_trapFrame (eip eflags : Nat) :
    (Context.ofKernel eip eflags).trapFrame = [eip, ssKCode, eflags] :=
  congrArg ([eip, ssKCode, eflags] ++ ·) (if_neg (show ¬ssKCode % 4 = plUser by decide))

theorem ofKernel_top (eip eflags : Nat) : (Context.ofKernel eip eflags).top = kStackTop :=
  if_neg (show ¬ssKCode % 4 = plUser by decide)

/-- What `create_user_stack` leaves for the first switch to a process. -/
theorem createUserStack_suspended (m : Machine) (L : Labels) (cr3 eflags eip userEsp : Nat) :
    Suspended L
      ((m.mapStack cr3 (createUserStack L.taskInit (fun _ => 0) eflags eip userEsp)).mem cr3)
      (taskKStackAddress + uInSwitchEsp * 4) (.ofUser eip eflags userEsp) none := by
  have hwords : (List.range' uInSwitchEsp 14).map
      (createUserStack L.taskInit (fun _ => 0) eflags eip userEsp) =
      (Context.ofUser eip eflags userEsp).gprs (taskKStackAddress + 1017 * 4) ++
        (L.taskInit :: (Context.ofUser eip eflags userEsp).trapFrame) := by
    rw [ofUser_trapFrame]
    rfl
  refine .fresh (x := taskKStackAddress + 1017 * 4) ?_
    (by rw [ofUser_trapFrame, ofUser_top]; dsimp only [List.length]; decide)
  rw [← hwords]
  exact m.mapStack_holds cr3 _ 14 (by rw [uInSwitchEsp])

/-- What `create_kernel_stack` leaves for the first switch to a process. -/
theorem createKernelStack_suspended (m : Machine) (L : Labels) (cr3 eflags eip : Nat) :
    Suspended L
      ((m.mapStack cr3 (createKernelStack L.taskInit (fun _ => 0) eflags eip)).mem cr3)
      (taskKStackAddress + kInSwitchEsp * 4) (.ofKernel eip eflags) none := by
  have hwords : (List.range' kInSwitchEsp 12).map
      (createKernelStack L.taskInit (fun _ => 0) eflags eip) =
      (Context.ofKernel eip eflags).gprs (taskKStackAddress + (stackTop - 4) * 4) ++
        (L.taskInit :: (Context.ofKernel eip eflags).trapFrame) := by
    rw [ofKernel_trapFrame]
    rfl
  refine .fresh (x := taskKStackAddress + (stackTop - 4) * 4) ?_
    (by rw [ofKernel_trapFrame, ofKernel_top]; dsimp only [List.length]; decide)
  rw [← hwords]
  exact m.mapStack_holds cr3 _ 12 (by rw [kInSwitchEsp])

theorem getNewPid_spec {pid : Pid} (h : m.getNewPid = some pid) :
    pid < maxPid ∧ ¬m.live pid := by
  have hfree := List.find?_some h
  have hlt := List.mem_range.1 (List.mem_of_find?_eq_some h)
  exact ⟨hlt, fun hl => hl.2 (of_decide_eq_true hfree)⟩

section
variable {pid pl cr3 esp : Nat}

theorem setPcb_of_ne {off : Nat} (hp : p ≠ pid) (hoff : off < pcbSz) :
    (m.setPcb pid pl cr3 esp).pcb p off = m.pcb p off := by
  have hne : ∀ off' < pcbSz, p * pcbSz + off ≠ pid * pcbSz + off' := fun off' hoff' =>
    pcbOff_ne hp hoff hoff'
  simp only [pcb, setPcb]
  rw [Function.update_of_ne (hne _ (by decide)), Function.update_of_ne (hne _ (by decide)),
    Function.update_of_ne (hne _ (by decide)), Function.update_of_ne (hne _ (by decide))]

theorem setPcb_self (m : Machine) (pid pl cr3 esp : Nat) :
    (m.setPcb pid pl cr3 esp).pcb pid pcbIdOff = pid ∧
    (m.setPcb pid pl cr3 esp).pcb pid pcbPlOff = pl ∧
    (m.setPcb pid pl cr3 esp).pcb pid pcbCr3Off = cr3 ∧
    (m.setPcb pid pl cr3 esp).pcb pid pcbEspOff = esp := by
  have hne : ∀ {off off' : Nat}, off ≠ off' → pid * pcbSz + off ≠ pid * pcbSz + off' :=
    fun hne he => hne (Nat.add_left_cancel he)
  simp only [pcb, setPcb]
  refine ⟨?_, ?_, ?_, Function.update_self ..⟩
  · rw [Function.update_of_ne (hne (by decide)), Function.update_of_ne (hne (by decide)),
      Function.update_of_ne (hne (by decide)), Function.update_self]
  · rw [Function.update_of_ne (hne (by decide)), Function.update_of_ne (hne (by decide)),
      Function.update_self]
  · rw [Function.update_of_ne (hne (by decide)), Function.update_self]

end

/-- A process with a directory of its own, whose kernel stack is that of a first switch. -/
theorem Refines.spawn {pid pl cr3 esp : Nat} {stack : Nat → Nat} (h : m.Refines L v)
    (hpid : m.getNewPid = some pid) (hdir : m.NewDir cr3) (hlevel : c.Level (2 * stackRoom) pl)
    (hsuspended : Suspended L ((m.mapStack cr3 stack).mem cr3) esp c none) :
    ∃ m', ((m.mapStack cr3 stack).setPcb pid pl cr3 esp).schedLoads pid = some m' ∧
      v.ctx pid = none ∧ m'.trap m'.curPid = m.trap m.curPid ∧ m'.Refines L
        { v with ready := v.ready ++ [pid], ctx := Function.update v.ctx pid (some c) } := by
  obtain ⟨hlt, hdead⟩ := getNewPid_spec hpid
  have hnone : v.ctx pid = none := by
    cases hv : v.ctx pid with
    | none => rfl
    | some c' => exact absurd ((h.live pid).1 (Option.isSome_iff_exists.2 ⟨c', hv⟩)) hdead
  have hcur : m.curPid ≠ pid := fun he => hdead (he ▸ h.curLive')
  obtain ⟨r, hr⟩ := h.spells
  have hnot : pid ∉ v.ready := fun hmem => hdead ((h.live pid).1 (h.ready pid hmem).2)
  obtain ⟨i, s', hs', hspells, hactual⟩ := hr.load hlt hnot
  let m₁ : Machine := { (m.mapStack cr3 stack).setPcb pid pl cr3 esp with sched := s' }
  have hpcb : ∀ p, p ≠ pid → ∀ off, off < pcbSz → m₁.pcb p off = m.pcb p off :=
    fun p hp off hoff => setPcb_of_ne (m := m.mapStack cr3 stack) hp hoff
  obtain ⟨hid, hpl, hcr3, hesp⟩ := setPcb_self (m.mapStack cr3 stack) pid pl cr3 esp
  have hlivePid : m₁.live pid := by
    refine ⟨hlt, fun he => ?_⟩
    have hbound : pid < freePcbPid := Nat.lt_trans hlt (by decide)
    exact absurd (hid.symm.trans he) (Nat.ne_of_lt hbound)
  have hlive : ∀ p, m₁.live p ↔ p = pid ∨ m.live p := by
    intro p
    by_cases hp : p = pid
    · exact iff_of_true (hp ▸ hlivePid) (.inl hp)
    · rw [Machine.live, Machine.live, hpcb p hp _ (by decide)]
      exact (or_iff_right hp).symm
  have hmem : ∀ d, d ≠ cr3 → m₁.mem d = m.mem d := fun d hd => Function.update_of_ne hd ..
  let v₁ : Virtual :=
    { v with ready := v.ready ++ [pid], ctx := Function.update v.ctx pid (some c) }
  have hctx : ∀ p, p ≠ pid → v₁.ctx p = v.ctx p := fun p hp => Function.update_of_ne hp ..
  have hself : v₁.ctx pid = some c := Function.update_self ..
  have hvcur : v.cur ≠ pid := h.cur ▸ hcur
  obtain ⟨c₀, hc₀, hrun, -, -⟩ := h.exists_running
  have hload : ((m.mapStack cr3 stack).setPcb pid pl cr3 esp).schedLoads pid = some m₁ := by
    have hsched : ((m.mapStack cr3 stack).setPcb pid pl cr3 esp).sched = m.sched := rfl
    rw [schedLoads, hsched, hs']
    rfl
  refine ⟨m₁, hload, hnone, Function.update_of_ne hcur .., ?_⟩
  change m₁.Refines L v₁
  exact {
    cur := h.cur
    spells := ⟨_, hspells⟩
    ready p hp := by
      rcases List.mem_append.1 hp with hp | hp
      · rw [hctx p (ne_of_mem_of_not_mem hp hnot)]
        exact h.ready p hp
      · rw [List.mem_singleton.1 hp, hself]
        exact ⟨fun he => hdead (he ▸ (h.live _).1 h.idle), rfl⟩
    idle := by
      rw [hctx _ fun he => hdead (he ▸ (h.live _).1 h.idle)]
      exact h.idle
    live p := by
      rw [hlive]
      by_cases hp : p = pid
      · rw [hp, hself]
        exact iff_of_true rfl (.inl rfl)
      · rw [hctx p hp, h.live, or_iff_right hp]
    cr3 p q hp hq heq := by
      by_cases hpp : p = pid <;> by_cases hqp : q = pid
      · exact hpp.trans hqp.symm
      · rw [hpp, hpcb q hqp _ (by decide)] at heq
        exact absurd (heq.symm.trans hcr3) (hdir q (((hlive q).1 hq).resolve_left hqp))
      · rw [hqp, hpcb p hpp _ (by decide)] at heq
        exact absurd (heq.trans hcr3) (hdir p (((hlive p).1 hp).resolve_left hpp))
      · rw [hpcb p hpp _ (by decide), hpcb q hqp _ (by decide)] at heq
        exact h.cr3 p q (((hlive p).1 hp).resolve_left hpp) (((hlive q).1 hq).resolve_left hqp) heq
    level p c' hp := by
      by_cases hpp : p = pid
      · rw [hpp] at hp ⊢
        obtain rfl : c = c' := Option.some.inj (hself.symm.trans hp)
        rw [show m₁.pcb pid pcbPlOff = pl from hpl]
        exact hlevel
      · rw [hpcb p hpp _ (by decide)]
        exact h.level p c' ((hctx p hpp).symm.trans hp)
    suspended p c' hne hp := by
      by_cases hpp : p = pid
      · rw [hpp] at hp ⊢
        obtain rfl : c = c' := Option.some.inj (hself.symm.trans hp)
        have htrap : m₁.trap pid = none := Function.update_self ..
        rw [show m₁.pcb pid pcbCr3Off = cr3 from hcr3, show m₁.pcb pid pcbEspOff = esp from hesp,
          htrap]
        exact hsuspended
      · have hp' := (hctx p hpp).symm.trans hp
        have hdir' := hdir p ((h.live p).1 (Option.isSome_iff_exists.2 ⟨c', hp'⟩))
        have htrap : m₁.trap p = m.trap p := Function.update_of_ne hpp ..
        rw [hpcb p hpp _ (by decide), hpcb p hpp _ (by decide), hmem _ hdir', htrap]
        exact h.suspended p c' hne hp'
    actual := (hr.load_current hspells hactual).trans h.actual
    curLive := by
      rw [hctx _ hvcur]
      exact h.curLive
    running c' hp := by
      have hp' : v.ctx v.cur = some c' := h.cur ▸ (hctx _ hcur).symm.trans hp
      obtain rfl : c₀ = c' := Option.some.inj (hc₀.symm.trans hp')
      have hdir' : m.cr3 ≠ cr3 := hrun.cr3 ▸ hdir _ h.curLive'
      have htrap : m₁.trap m.curPid = m.trap m.curPid := Function.update_of_ne hcur ..
      exact {
        cr3 := hrun.cr3.trans (hpcb _ hcur _ (by decide)).symm
        ds := hrun.ds.trans (congrArg dataSegment (hpcb _ hcur _ (by decide)).symm)
        es := hrun.es.trans (congrArg dataSegment (hpcb _ hcur _ (by decide)).symm)
        esp0 := fun hu => hrun.esp0 ((hpcb _ hcur _ (by decide)).symm.trans hu)
        own := fun hn => hrun.own (htrap.symm.trans hn)
        trap := fun e he => by
          have hhandling := hrun.trap e (htrap.symm.trans he)
          rw [← hmem _ hdir'] at hhandling
          exact hhandling } }

theorem Refines.load (h : m.Refines L v) (cr3 pl eip : Nat)
    (hok : m.Allows L (.load cr3 pl eip)) :
    ∃ m' pid, v.ctx pid = none ∧ m.step L (.load cr3 pl eip) = some m' ∧ m'.Refines L { v with
      ready := v.ready ++ [pid]
      ctx := Function.update v.ctx pid (some (.ofLoad pl eip)) } := by
  obtain ⟨hpl, hdir, hpid⟩ := hok
  obtain ⟨pid, hpid⟩ := Option.ne_none_iff_exists'.1 hpid
  rcases hpl with rfl | rfl
  · obtain ⟨m', hm', hnone, -, href⟩ := h.spawn (c := .ofKernel eip taskDefaultEflags) hpid hdir
      (.kernel rfl rfl (by decide : 2 * stackRoom ≤ kStackTop))
      (createKernelStack_suspended m L cr3 taskDefaultEflags eip)
    refine ⟨m', pid, hnone, ?_, href⟩
    rw [step, loaderLoad, hpid]
    exact hm'
  · obtain ⟨m', hm', hnone, -, href⟩ := h.spawn
      (c := .ofUser eip taskDefaultEflags uStackBottom) hpid hdir (.user rfl rfl)
      (createUserStack_suspended m L cr3 taskDefaultEflags eip _)
    refine ⟨m', pid, hnone, ?_, href⟩
    rw [step, loaderLoad, hpid]
    exact hm'

theorem Refines.fork (h : m.Refines L v) (cr3 : Nat) (hok : m.Allows L (.fork cr3)) :
    ∃ m' child c, m.getNewPid = some child ∧ v.ctx v.cur = some c ∧ v.ctx child = none ∧
      m.step L (.fork cr3) = some m' ∧ m'.trap m'.curPid = m.trap m.curPid ∧ m'.Refines L { v with
        ready := v.ready ++ [child]
        ctx := Function.update v.ctx child (some (.ofUser c.eip c.eflags c.esp)) } := by
  obtain ⟨htrap, hpl, hdir, hpid⟩ := hok
  obtain ⟨child, hpid⟩ := Option.ne_none_iff_exists'.1 hpid
  obtain ⟨e, he⟩ := Option.ne_none_iff_exists'.1 htrap
  obtain ⟨c, hc, hrun, hlevel, -⟩ := h.exists_running
  have huser : c.cs = ssUCode ||| plUser := by
    rw [hpl] at hlevel
    cases hlevel with
    | user hcs => exact hcs
  obtain ⟨heip, heflags, hesp⟩ := (hrun.trap e he).trapped.userFrame huser
  obtain ⟨m', hm', hnone, htrap', href⟩ := h.spawn (c := .ofUser c.eip c.eflags c.esp) hpid hdir
    (.user rfl rfl) (createUserStack_suspended m L cr3 c.eflags c.eip c.esp)
  refine ⟨m', child, c, hpid, hc, hnone, ?_, htrap', href⟩
  rw [step, Machine.fork, if_neg (Decidable.not_not.2 hpl), hpid]
  simp only [Option.bind_eq_bind, Option.bind_some, heip, heflags, hesp]
  exact hm'

end Machine

end SpuriOS
