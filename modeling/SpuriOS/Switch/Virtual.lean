import SpuriOS.Lib.Transition
import SpuriOS.SchedRing
import SpuriOS.Switch.Frames

/-! # Every process has a processor of its own

The abstract machine has the registers of each process, the processes that can run, and which of
them runs. An interrupt or a switch leaves the registers of all. The machine of the kernel refines
it: what a process has in the registers when it is at its own level again is what it left there. -/

namespace SpuriOS

open Descending Transition Machine

/-- The registers of the processes, those that the scheduler has, and the current one. -/
structure Virtual where
  cur : Pid
  ready : List Pid
  ctx : Pid → Option Context

/-- The scheduler names a process that it has, or idle when it has none. -/
def Named (ready : List Pid) (q : Pid) : Prop := q ∈ ready ∨ ready = [] ∧ q = idlePid

/-- The registers with which a process of user level starts. -/
def Context.ofUser (eip eflags esp : Nat) : Context where
  edi := 0
  esi := 0
  ebp := uStackBottom
  ebx := 0
  edx := 0
  ecx := 0
  eax := 0
  eip := eip
  cs := ssUCode ||| plUser
  eflags := eflags
  esp := esp
  ss := ssUData ||| plUser

/-- The registers with which a process of the kernel starts. -/
def Context.ofKernel (eip eflags : Nat) : Context where
  edi := 0
  esi := 0
  ebp := taskKStackAddress + (stackTop - 1) * 4
  ebx := 0
  edx := 0
  ecx := 0
  eax := 0
  eip := eip
  cs := ssKCode
  eflags := eflags
  esp := kStackTop
  ss := ssKData

/-- The registers with which a loaded file starts. -/
def Context.ofLoad (pl eip : Nat) : Context :=
  if pl = plKernel then .ofKernel eip taskDefaultEflags
  else .ofUser eip taskDefaultEflags uStackBottom

inductive Virtual.Step : Virtual → Act → Virtual → Prop
  | work {v : Virtual} {c} :
    Step v (.work c) { v with ctx := Function.update v.ctx v.cur (some c) }
  | tick {v : Virtual} {woken k q} : Named (v.ready ++ woken) q →
    Step v (.tick woken k) { v with cur := q, ready := v.ready ++ woken }
  | trap {v : Virtual} {intNo errCode} : Step v (.trap intNo errCode) v
  | fault {v : Virtual} {intNo errCode k} : Step v (.fault intNo errCode k) v
  | code {v : Virtual} {c below} : Step v (.code c below) v
  | unblock {v : Virtual} {p} : Step v (.unblock p) { v with ready := v.ready ++ [p] }
  | result {v : Virtual} {c r} : v.ctx v.cur = some c →
    Step v (.result r) { v with ctx := Function.update v.ctx v.cur (some { c with eax := r }) }
  | block {v : Virtual} {ret q} : Named (v.ready.erase v.cur) q →
    Step v (.block ret) { v with cur := q, ready := v.ready.erase v.cur }
  | exit {v : Virtual} {woken ret q} : Named (v.ready.erase v.cur) q →
    Step v (.exit woken ret) {
      cur := q
      ready := v.ready.erase v.cur ++ woken
      ctx := Function.update v.ctx v.cur none }
  | load {v : Virtual} {pid cr3 pl eip} : v.ctx pid = none →
    Step v (.load cr3 pl eip) { v with
      ready := v.ready ++ [pid]
      ctx := Function.update v.ctx pid (some (.ofLoad pl eip)) }
  | fork {v : Virtual} {c child cr3} : v.ctx v.cur = some c → v.ctx child = none →
    Step v (.fork cr3) { v with
      ready := v.ready ++ [child]
      ctx := Function.update v.ctx child (some (.ofUser c.eip c.eflags c.esp)) }
  | ret {v : Virtual} : Step v .ret v

/-! ## What holds between the machines -/

/-- The words from `esp` on are those of a trap, in which the handler is called. -/
structure Trapped (L : Labels) (mem : Nat → Nat) (c : Context) (esp : Nat) : Prop where
  holds : ∃ x intNo errCode, Holds 4 mem esp
    (L.afterHandler :: (c.gprs x ++ ([intNo, errCode] ++ c.trapFrame)))
  top : esp + 44 + 4 * c.trapFrame.length = c.top

/-- What a process that does not run has on its stack: it was interrupted, or has not run yet, or
waits in a trap. -/
inductive Suspended (L : Labels) (mem : Nat → Nat) (esp : Nat) (c : Context) : Option Nat → Prop
  | ticked {k : Context} {x x'} :
    Holds 4 mem esp (k.gprs x ++ (L.goBack :: (c.gprs x' ++ c.trapFrame))) →
    esp + 68 + 4 * c.trapFrame.length = c.top → Suspended L mem esp c none
  | fresh {x} : Holds 4 mem esp (c.gprs x ++ (L.taskInit :: c.trapFrame)) →
    esp + 36 + 4 * c.trapFrame.length = c.top → Suspended L mem esp c none
  | waiting {k : Context} {x ret trap} : ret ≠ L.goBack → ret ≠ L.taskInit →
    Holds 4 mem esp (k.gprs x ++ [ret]) → esp + 36 ≤ trap → stackRoom ≤ esp + 36 →
    Trapped L mem c trap → Suspended L mem esp c (some trap)

/-- The state of the processor in the handler of a trap. -/
structure Handling (L : Labels) (mem : Nat → Nat) (cpu c : Context) (trap : Nat) : Prop where
  trapped : Trapped L mem c trap
  esp : cpu.esp ≤ trap
  room : stackRoom ≤ cpu.esp
  cs : cpu.cs = ssKCode
  ss : cpu.ss = ssKData

/-- The current process is at its own level with its registers, or in a trap. -/
structure Machine.Running (L : Labels) (m : Machine) (c : Context) : Prop where
  cr3 : m.cr3 = m.pcb m.curPid pcbCr3Off
  ds : m.ds = dataSegment (m.pcb m.curPid pcbPlOff)
  es : m.es = dataSegment (m.pcb m.curPid pcbPlOff)
  esp0 : m.pcb m.curPid pcbPlOff = plUser → m.esp0 = kStackTop
  own : m.trap m.curPid = none → m.cpu = c
  trap : ∀ esp, m.trap m.curPid = some esp → Handling L (m.mem m.cr3) m.cpu c esp

/-- The process that `actual` is, or idle. -/
def Sched.current (s : Sched) : Pid := (s.actual.bind fun i => (s.tasks i).pd).getD idlePid

/-- The tables hold the processes of `v`, and those that do not run have their registers on their
stacks. -/
structure Machine.Parked (L : Labels) (m : Machine) (v : Virtual) : Prop where
  cur : m.curPid = v.cur
  spells : ∃ r, m.sched.Spells r v.ready
  ready : ∀ p ∈ v.ready, p ≠ idlePid ∧ (v.ctx p).isSome
  idle : (v.ctx idlePid).isSome
  live : ∀ p, (v.ctx p).isSome ↔ m.live p
  cr3 : ∀ p q, m.live p → m.live q → m.pcb p pcbCr3Off = m.pcb q pcbCr3Off → p = q
  level : ∀ p c, v.ctx p = some c → c.Level (2 * stackRoom) (m.pcb p pcbPlOff)
  suspended : ∀ p c, p ≠ m.curPid → v.ctx p = some c →
    Suspended L (m.mem (m.pcb p pcbCr3Off)) (m.pcb p pcbEspOff) c (m.trap p)

structure Machine.Refines (L : Labels) (m : Machine) (v : Virtual) : Prop
    extends m.Parked L v where
  actual : m.sched.current = m.curPid
  curLive : (v.ctx v.cur).isSome
  running : ∀ c, v.ctx m.curPid = some c → m.Running L c

/-! ## What the code relies on -/

/-- The processes are out of the scheduler, as those that sleep or wait for a device are. -/
def Machine.Asleep (m : Machine) (woken : List Pid) : Prop :=
  woken.Nodup ∧ ∀ p ∈ woken, m.live p ∧ p ≠ idlePid ∧ ¬m.sched.Runs p

/-- `mm_dir_new` gives a directory that no process has. -/
def Machine.NewDir (m : Machine) (cr3 : Nat) : Prop := ∀ p, m.live p → m.pcb p pcbCr3Off ≠ cr3

/-- The steps of the processes and of compiled code. A process of user level does not write to the
stack of the kernel, and idle leaves its stack pointer. A handler writes below its frame, keeps
some room, and returns from where it was called. What is woken sleeps, and the flushes of a process
that exits do not wait. -/
def Machine.Allows (L : Labels) (m : Machine) : Act → Prop
  | .work c => m.trap m.curPid = none ∧ c.cs = m.cpu.cs ∧ c.ss = m.cpu.ss ∧
    (c.cs % 4 ≠ plUser → c.esp = m.cpu.esp)
  | .tick woken _ => m.trap m.curPid = none ∧ m.Asleep woken
  | .trap _ _ => m.trap m.curPid = none
  | .fault _ _ _ => m.trap m.curPid ≠ none
  | .code c _ => ∃ esp, m.trap m.curPid = some esp ∧ stackRoom ≤ c.esp ∧ c.esp ≤ esp ∧
    c.cs = m.cpu.cs ∧ c.ss = m.cpu.ss
  | .unblock p => m.trap m.curPid ≠ none ∧ m.Asleep [p]
  | .result _ => m.trap m.curPid ≠ none
  | .block ret => m.trap m.curPid ≠ none ∧ m.curPid ≠ idlePid ∧ ret ≠ L.goBack ∧
    ret ≠ L.taskInit
  | .exit woken _ => m.trap m.curPid ≠ none ∧ m.curPid ≠ idlePid ∧ m.Asleep woken
  | .load cr3 pl _ => (pl = plKernel ∨ pl = plUser) ∧ m.NewDir cr3 ∧ m.getNewPid ≠ none
  | .fork cr3 => m.trap m.curPid ≠ none ∧ m.pcb m.curPid pcbPlOff = plUser ∧ m.NewDir cr3 ∧
    m.getNewPid ≠ none
  | .ret => m.trap m.curPid = some m.cpu.esp

section
variable (m : Machine)

instance (p : Pid) : Decidable (m.live p) :=
  inferInstanceAs (Decidable (p < maxPid ∧ m.pcb p pcbIdOff ≠ freePcbPid))

instance (woken : List Pid) : Decidable (m.Asleep woken) :=
  have (p : Pid) : Decidable (m.sched.Runs p) :=
    inferInstanceAs (Decidable (∃ i, i < maxPid ∧ (m.sched.tasks i).pd = some p))
  inferInstanceAs (Decidable (woken.Nodup ∧ ∀ p ∈ woken, m.live p ∧ p ≠ idlePid ∧
    ¬m.sched.Runs p))

instance (cr3 : Nat) : Decidable (m.NewDir cr3) :=
  decidable_of_iff (∀ p, p < maxPid → m.live p → m.pcb p pcbCr3Off ≠ cr3)
    ⟨fun h p hp => h p hp.1 hp, fun h p _ => h p⟩

instance (L : Labels) : (a : Act) → Decidable (m.Allows L a)
  | .work c => inferInstanceAs (Decidable (m.trap m.curPid = none ∧ c.cs = m.cpu.cs ∧
      c.ss = m.cpu.ss ∧ (c.cs % 4 ≠ plUser → c.esp = m.cpu.esp)))
  | .tick woken _ => inferInstanceAs (Decidable (m.trap m.curPid = none ∧ m.Asleep woken))
  | .trap _ _ => inferInstanceAs (Decidable (m.trap m.curPid = none))
  | .fault _ _ _ => inferInstanceAs (Decidable (m.trap m.curPid ≠ none))
  | .code c _ => decidable_of_iff (∃ esp ∈ m.trap m.curPid, stackRoom ≤ c.esp ∧ c.esp ≤ esp ∧
      c.cs = m.cpu.cs ∧ c.ss = m.cpu.ss) (by simp [Allows])
  | .unblock p => inferInstanceAs (Decidable (m.trap m.curPid ≠ none ∧ m.Asleep [p]))
  | .result _ => inferInstanceAs (Decidable (m.trap m.curPid ≠ none))
  | .block ret => inferInstanceAs (Decidable (m.trap m.curPid ≠ none ∧ m.curPid ≠ idlePid ∧
      ret ≠ L.goBack ∧ ret ≠ L.taskInit))
  | .exit woken _ => inferInstanceAs (Decidable (m.trap m.curPid ≠ none ∧
      m.curPid ≠ idlePid ∧ m.Asleep woken))
  | .load cr3 pl _ => inferInstanceAs (Decidable ((pl = plKernel ∨ pl = plUser) ∧ m.NewDir cr3 ∧
      m.getNewPid ≠ none))
  | .fork cr3 => inferInstanceAs (Decidable (m.trap m.curPid ≠ none ∧
      m.pcb m.curPid pcbPlOff = plUser ∧ m.NewDir cr3 ∧ m.getNewPid ≠ none))
  | .ret => inferInstanceAs (Decidable (m.trap m.curPid = some m.cpu.esp))

end

/-! ## The scheduler -/

section
variable {s s' : Sched} {r : List Nat} {order woken : List Pid} {v : Pid}

/-- `actual` is only left at `NULL` when there is no process. -/
theorem schedTick_actual_none (h : schedTick s = some (v, s')) (hnone : s'.actual = none) :
    s.runningTasks = 0 := by
  rw [schedTick] at h
  cases ha : s.actual with
  | none =>
    simp only [ha, Nat.le_zero_eq] at h
    by_contra hrun
    simp only [if_neg hrun, Option.bind_eq_bind, Option.bind_eq_some_iff] at h
    obtain ⟨first, -, pd, -, h⟩ := h
    cases h
    cases hnone
  | some a =>
    simp only [ha, Option.bind_eq_bind] at h
    split at h
    · obtain ⟨pd, -, h⟩ := Option.bind_eq_some_iff.1 h
      cases h
      exact absurd (ha.symm.trans hnone) (Option.some_ne_none a)
    · obtain ⟨next, -, h⟩ := Option.bind_eq_some_iff.1 h
      obtain ⟨pd, -, h⟩ := Option.bind_eq_some_iff.1 h
      cases h
      cases hnone

theorem Sched.Spells.current_mem (h : s.Spells r order) {a : Nat} (ha : s.actual = some a) :
    s.current ∈ order := by
  obtain ⟨p, hp⟩ := h.holds.exists_pd (h.holds.actual a ha)
  rw [Sched.current, ha, Option.bind_some, hp]
  exact h.runs_iff.1 ⟨a, ((h.holds.used a).1 (h.holds.actual a ha)).1, hp⟩

/-- `sched_tick` names the process that it makes the current one. -/
theorem Sched.Spells.tick_named (h : s.Spells r order) : ∃ v s', schedTick s = some (v, s') ∧
    s'.Spells r order ∧ s'.current = v ∧ Named order v := by
  obtain ⟨v, s', hs', hholds, hpd, hv⟩ := schedTick_spec h.holds
  have h' : s'.Spells r order := ⟨hholds, by simp only [hpd, h.pds], h.lt⟩
  refine ⟨v, s', hs', h', ?_⟩
  rcases hv with ⟨hnone, rfl⟩ | ⟨y, hy, hpy⟩
  · have hcurrent : s'.current = idlePid := by
      rw [Sched.current, hnone]
      rfl
    have hr := h.holds.eq_nil.1 (schedTick_actual_none hs' hnone)
    refine ⟨hcurrent, .inr ⟨?_, rfl⟩⟩
    simpa [hr] using h.pds.symm
  · have hcurrent : s'.current = v := by
      rw [Sched.current, hy, Option.bind_some, hpy]
      rfl
    exact ⟨hcurrent, .inl (hcurrent ▸ h'.current_mem hy)⟩

/-- `sched_exit` takes the current process out, and names the one it makes current. -/
theorem Sched.Spells.exit_named (h : s.Spells r order) (hcur : s.current ∈ order)
    (hidle : idlePid ∉ order) : ∃ v s' r', schedExit s = some (v, s') ∧
      s'.Spells r' (order.erase s.current) ∧ s'.current = v ∧
      Named (order.erase s.current) v := by
  obtain ⟨a, ha⟩ : ∃ a, s.actual = some a := by
    refine Option.ne_none_iff_exists'.1 fun hnone => hidle ?_
    rw [Sched.current, hnone] at hcur
    exact hcur
  obtain ⟨p, l, n, v, s', r', hp, rfl, hs', h', hv, hnext⟩ := h.exit ha
  have hcurrent : s.current = p := by
    rw [Sched.current, ha, Option.bind_some, hp]
    rfl
  have hpl : p ∉ l := fun hpl =>
    List.disjoint_of_nodup_append h.nodup hpl List.mem_cons_self
  have herase : (l ++ p :: n).erase p = l ++ n := by
    rw [List.erase_append_right _ hpl, List.erase_cons_head]
  rw [hcurrent, herase]
  have hv' : s'.current = v := by
    rw [Sched.current, hnext, hv]
    rfl
  refine ⟨v, s', r', hs', h', hv', ?_⟩
  cases hhead : (n ++ l).head? with
  | none =>
    obtain ⟨rfl, rfl⟩ := List.append_eq_nil_iff.1 (List.head?_eq_none_iff.1 hhead)
    rw [hhead] at hv
    exact .inr ⟨rfl, hv⟩
  | some q =>
    rw [hhead] at hv
    have hq := List.mem_of_head? hhead
    refine .inl (hv ▸ ?_)
    rw [List.mem_append] at hq ⊢
    exact hq.symm

/-- `sched_load` leaves the current process. -/
theorem Sched.Spells.load_current {i : Nat} (h : s.Spells r order)
    (h' : s'.Spells (r ++ [i]) (order ++ [v])) (hactual : s'.actual = s.actual) :
    s'.current = s.current := by
  have hmap : r.map (fun j => (s'.tasks j).pd) = r.map fun j => (s.tasks j).pd := by
    have hpds := h'.pds
    rw [List.map_append, List.map_append] at hpds
    exact (List.append_inj_left' hpds rfl).trans h.pds.symm
  rw [Sched.current, Sched.current, hactual]
  cases ha : s.actual with
  | none => rfl
  | some a =>
    rw [Option.bind_some, Option.bind_some, List.map_inj_left.1 hmap a (h.holds.actual a ha)]

/-- `sched_unblock` of processes that the scheduler does not have. -/
theorem Sched.Spells.unblockAll (h : s.Spells r order) (hnodup : woken.Nodup)
    (hlt : ∀ p ∈ woken, p < maxPid) (hnot : ∀ p ∈ woken, p ∉ order) :
    ∃ s' r', woken.foldlM (fun s p => schedUnblock p s) s = some s' ∧
      s'.Spells r' (order ++ woken) ∧ s'.current = s.current := by
  induction woken generalizing s r order with
  | nil => exact ⟨s, r, rfl, by rwa [List.append_nil], rfl⟩
  | cons p woken ih =>
    obtain ⟨hp, hnodup⟩ := List.nodup_cons.1 hnodup
    obtain ⟨i, s₁, hs₁, h₁, hactual⟩ :=
      h.load (hlt p List.mem_cons_self) (hnot p List.mem_cons_self)
    obtain ⟨s', r', hs', h', hcurrent⟩ := ih h₁ hnodup
      (fun q hq => hlt q (List.mem_cons_of_mem _ hq)) fun q hq hmem => by
        rcases List.mem_append.1 hmem with hmem | hmem
        · exact hnot q (List.mem_cons_of_mem _ hq) hmem
        · exact hp (List.mem_singleton.1 hmem ▸ hq)
    refine ⟨s', r', ?_, by rwa [List.append_assoc] at h',
      hcurrent.trans (h.load_current h₁ hactual)⟩
    rw [List.foldlM_cons, schedUnblock, hs₁]
    exact hs'

end

end SpuriOS
