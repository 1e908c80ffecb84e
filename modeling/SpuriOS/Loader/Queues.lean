import SpuriOS.Loader.Places

/-! # Wait queues are disjoint and first in, first out (`loader_enqueue`, `loader_unqueue`) -/

namespace SpuriOS

open Transition

section
variable {Q : Type}

/-- The wait queues link the processes `w`, and a process that is in none has no links. -/
structure Kernel.Queues (k : Kernel Q) (w : Q → List Pid) : Prop where
  head : ∀ q, k.queue q = (w q).head?
  line : ∀ q, Linked.Line (fun p => (k.processes p).next) (fun p => (k.processes p).prev) (w q)
  disjoint : ∀ p q q', p ∈ w q → p ∈ w q' → q = q'
  unlinked : ∀ p, k.Live p → (∀ q, p ∉ w q) →
    (k.processes p).prev = none ∧ (k.processes p).next = none

theorem Kernel.Inv.queues {k : Kernel Q} {r : List Nat} {w : Q → List Pid} {z t : List Pid}
    {v : Pid} (h : k.Inv r w z t v) : k.Queues w where
  head := h.head
  line := h.line
  disjoint _ _ _ hq hq' := h.queue_unique hq hq'
  unlinked := h.unlinked

variable [DecidableEq Q]

/-- The links of the queues `w`, and what the two operations do to them: the caller joins the end
of a queue, and the first process of one is handed to the scheduler. -/
structure Kernel.Fifo (k : Kernel Q) (w : Q → List Pid) : Prop extends k.Queues w where
  caller : k.calls → (k.processes k.curPid).prev = none ∧ (k.processes k.curPid).next = none
  enqueue : ∀ q, k.calls → ∃ k', loaderEnqueue q k = .ret 0 k' ∧
    k'.Queues (Function.update w q (w q ++ [k.curPid]))
  unqueue : ∀ q, ∃ k', loaderUnqueue q k = .ret 0 k' ∧
    k'.Queues (Function.update w q (w q).tail) ∧
    k'.schedLoads = k.schedLoads ++ (w q).head?.toList

/-- In every run the wait queues are disjoint lists, first in, first out. -/
theorem waitQueues_fifo {k : Kernel Q} (h : Reach (kernelSystem Q) noFlushWaits k)
    (hrun : k.halted = false) : ∃ w, k.Fifo w := by
  obtain ⟨r, w, z, hk⟩ := (Kernel.settled h).resolve_right fun hhalt => by simp_all
  refine ⟨w, { hk.queues with
    caller := fun hcalls => ?_
    enqueue := fun q hcalls => ?_
    unqueue := fun q => ?_ }⟩
  · obtain ⟨v, r', sched, calls, -, hexit⟩ := hk.schedExit hcalls.1
    exact hk.unlinked k.curPid (hexit.transitLive _ List.mem_cons_self) fun q =>
      hexit.not_at List.mem_cons_self (.queue q)
  · obtain ⟨k', r', hret, hinv, -⟩ := hk.loaderEnqueue hcalls.1 q
    exact ⟨k', hret, hinv.queues⟩
  · obtain ⟨k', r', hret, -, hinv, hwakes⟩ := hk.loaderUnqueue q
    exact ⟨k', hret, hinv.queues, hwakes.schedLoads⟩

end

/-- Two processes wait, and the first one is woken up. -/
def Kernel.oneWoken : Kernel Unit :=
  let running := Kernel.after (timerSwitch (.after (loaderLoad (.after (loaderLoad .boot)))))
  .after (loaderUnqueue () (.after (loaderEnqueue () (.after (loaderEnqueue () running)))))

theorem Kernel.run_step {Q : Type} [DecidableEq Q] {k k' : Kernel Q} {a : KernelLabel Q}
    (h : Reach (kernelSystem Q) noFlushWaits k) (hok : noFlushWaits k a) (hs : KernelStep k a k') :
    Reach (kernelSystem Q) noFlushWaits k' := .step h hok hs

theorem Kernel.oneWoken_reach : Reach (kernelSystem Unit) noFlushWaits .oneWoken := by
  have hfirst := run_step (a := .load) (.init Kernel.boot_initial) trivial (.load rfl rfl)
  have hsecond := run_step (a := .load) hfirst trivial (.load rfl rfl)
  have hrunning := run_step (a := .timerSwitch) hsecond trivial (.timerSwitch rfl)
  have hwait := run_step (a := .enqueue ()) hrunning trivial (.enqueue rfl ⟨by decide, rfl⟩)
  have hboth := run_step (a := .enqueue ()) hwait trivial (.enqueue rfl ⟨by decide, rfl⟩)
  exact run_step (a := .unqueue ()) hboth trivial (.unqueue rfl)

theorem waitQueues_fifo_woken : ∃ w, Kernel.oneWoken.Fifo w ∧ (w ()).head? = some 2 ∧
    Kernel.oneWoken.schedLoads = [1, 2, 1] := by
  obtain ⟨w, hw⟩ := waitQueues_fifo Kernel.oneWoken_reach rfl
  exact ⟨w, hw, (hw.head ()).symm.trans rfl, rfl⟩

/-- The idle process is linked to itself although it is in no queue. -/
theorem idle_linked : ∃ k : Kernel Unit, Reach (kernelSystem Unit) noFlushWaits k ∧
    ∃ p, (k.processes p).id = some p ∧ (∀ q, k.queue q = none) ∧
      (k.processes p).prev ≠ none ∧ (k.processes p).next ≠ none :=
  ⟨.boot, .init Kernel.boot_initial, idlePid, rfl, fun _ => rfl, by decide, by decide⟩

end SpuriOS
