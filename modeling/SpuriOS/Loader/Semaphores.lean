import SpuriOS.Lib.Semaphore
import SpuriOS.Loader.Queues

/-! # Kernel semaphores (`kernel/sem.c`)

A `sem_t` in a running kernel: its queue is one of the wait queues of the loader, and other
processes go on with everything that leaves this queue alone. -/

namespace SpuriOS

open Transition
open Semaphore (Account)

structure SemT (Q : Type) where
  kernel : Kernel Q
  /-- A `uint_32`. -/
  vl : Nat
  /-- History: the waits and signals so far. Nothing reads it. -/
  account : Account Pid

section
variable {Q : Type} [DecidableEq Q]

def SemT.semWait (q : Q) (s : SemT Q) : SemT Q :=
  if s.vl = 0 then
    { s with
      kernel := .after (loaderEnqueue q s.kernel)
      account := s.account.block s.kernel.curPid }
  else { s with vl := s.vl - 1, account := s.account.pass }

/-- The account gets the processes that are handed to the scheduler. -/
def SemT.semSignal (q : Q) (s : SemT Q) : SemT Q :=
  if s.kernel.queue q = none then
    { s with vl := Word32.wrap (s.vl + 1), account := s.account.signal [] }
  else
    let kernel := Kernel.after (loaderUnqueue q s.kernel)
    { s with
      kernel := kernel
      account := s.account.signal (kernel.schedLoads.drop s.kernel.schedLoads.length) }

inductive SemLabel (Q : Type) where
  | wait
  | signal
  | other (a : KernelLabel Q)

/-- What goes on apart from the queue `q`. -/
def KernelLabel.Apart (q : Q) : KernelLabel Q → Prop
  | .enqueue q' | .unqueue q' => q' ≠ q
  | .exit ops => noWait ops ∧ .unqueue q ∉ ops
  | _ => True

inductive SemStep (q : Q) : SemT Q → SemLabel Q → SemT Q → Prop
  | wait {s : SemT Q} : s.kernel.halted = false → s.kernel.calls → SemStep q s .wait (s.semWait q)
  | signal {s : SemT Q} : s.kernel.halted = false → SemStep q s .signal (s.semSignal q)
  | other {s : SemT Q} {a k} : KernelStep s.kernel a k → a.Apart q →
    SemStep q s (.other a) { s with kernel := k }

/-- `SEM_NEW(v)`, at any time. -/
structure SemT.New (q : Q) (v : UInt32) (s : SemT Q) : Prop where
  reach : Reach (kernelSystem Q) noFlushWaits s.kernel
  running : s.kernel.halted = false
  queue : s.kernel.queue q = none
  vl : s.vl = v.toNat
  account : s.account = .empty

def semSystem (q : Q) (v : UInt32) : System (SemT Q) (SemLabel Q) where
  init := SemT.New q v
  step := SemStep q

/-- No signal finds all bits of the counter set and nobody in the queue. -/
def noOverflow (q : Q) (s : SemT Q) : SemLabel Q → Prop
  | .signal => s.vl + 1 < 2 ^ 32 ∨ s.kernel.queue q ≠ none
  | _ => True

/-! ## The other processes -/

/-- Everything is in its place, and the queue `q` has the processes `l`. -/
def Kernel.Keeps (k : Kernel Q) (q : Q) (l : List Pid) : Prop :=
  ∃ r w z, k.Inv r w z [] k.curPid ∧ w q = l

namespace Kernel.Inv
variable {k k' : Kernel Q} {r : List Nat} {w : Q → List Pid} {z : List Pid} {v : Pid} {q : Q}
  {a : KernelLabel Q} {ops : List (FlushOp Q)}

theorem closeFds_keeps (h : k.Inv r w z [k.curPid] v) (hops : noWait ops)
    (hq : .unqueue q ∉ ops) : (SpuriOS.closeFds v ops k).Leaves (·.Keeps q (w q)) := by
  induction ops generalizing k r w with
  | nil =>
    obtain ⟨hinv, hcur, -⟩ := h.finishExit
    exact ⟨r, w, z, by rwa [hcur], rfl⟩
  | cons op ops ih =>
    have hops' : noWait ops := fun q hq => hops q (List.mem_cons_of_mem _ hq)
    rw [List.mem_cons, not_or] at hq
    cases op with
    | unqueue q' =>
      obtain ⟨k', r', hret, hcur, hinv, -⟩ := h.loaderUnqueue q'
      have hne : q ≠ q' := fun he => hq.1 (he ▸ rfl)
      rw [SpuriOS.closeFds, hret, Outcome.andThen_ret]
      have hkeeps := ih (by rwa [hcur]) hops' hq.2
      rwa [Function.update_of_ne hne] at hkeeps
    | load =>
      rw [SpuriOS.closeFds]
      rcases h.loaderLoad with ⟨hhalt, hfree⟩ | ⟨pid, k', r', hret, -, hinv, hcur, -⟩
      · rw [hhalt]
        exact ⟨hfree, h.schedCalls⟩
      · rw [hret, Outcome.andThen_ret]
        exact ih (by rwa [hcur]) hops' hq.2
    | enqueue q' => exact absurd List.mem_cons_self (hops q')

theorem loaderExit_keeps (h : k.Inv r w z [] k.curPid) (hcur : k.curPid ≠ idlePid)
    (hops : noWait ops) (hq : .unqueue q ∉ ops) :
    (SpuriOS.loaderExit ops k).Leaves (·.Keeps q (w q)) := by
  obtain ⟨v, r', sched, calls, hexit, h'⟩ := h.schedExit hcur
  rw [SpuriOS.loaderExit, hexit]
  exact h'.closeFds_keeps hops hq

/-- A step of the others keeps the queue, or halts the machine. -/
theorem apart (h : k.Inv r w z [] k.curPid) (ha : a.Apart q) (hs : KernelStep k a k') :
    k'.halted = true ∨ k'.Keeps q (w q) := by
  cases hs with
  | load hrun hex =>
    rcases h.loaderLoad with ⟨hhalt, -⟩ | ⟨pid, k', r', hret, -, hinv, hcur, -⟩
    · rw [hhalt]
      exact .inl rfl
    · rw [hret]
      exact .inr ⟨r', w, z, by rwa [Kernel.after, hcur], rfl⟩
  | @enqueue q' hrun hcalls =>
    obtain ⟨k', r', hret, hinv, -⟩ := h.loaderEnqueue hcalls.1 q'
    rw [hret]
    exact .inr ⟨r', _, z, hinv, Function.update_of_ne (Ne.symm ha) ..⟩
  | @unqueue q' hrun =>
    obtain ⟨k', r', hret, hcur, hinv, -⟩ := h.loaderUnqueue q'
    rw [hret]
    exact .inr ⟨r', _, z, by rwa [Kernel.after, hcur], Function.update_of_ne (Ne.symm ha) ..⟩
  | @sleep time hrun hcalls hlt =>
    rcases Nat.eq_zero_or_pos time with rfl | htime
    · exact .inr ⟨r, w, z, h, rfl⟩
    · obtain ⟨a, b, time', k', r', rfl, hret, hinv, -⟩ := h.loaderSleep hcalls.1 htime
      rw [hret]
      exact .inr ⟨r', w, _, hinv, rfl⟩
  | tick hrun =>
    obtain ⟨a, b, k', r', rfl, hret, hinv, hcur, -⟩ := h.loaderTick
    rw [hret]
    exact .inr ⟨r', w, b, by rwa [Kernel.after, hcur], rfl⟩
  | timerSwitch hrun =>
    obtain ⟨k', hret, hinv, -⟩ := h.timerSwitch
    rw [hret]
    exact .inr ⟨r, w, z, hinv, rfl⟩
  | @exit ops hrun hcalls =>
    have hleaves := h.loaderExit_keeps hcalls.1 ha.1 ha.2
    cases hexit : SpuriOS.loaderExit ops k with
    | halt k' => exact .inl rfl
    | ret v k' =>
      rw [hexit] at hleaves
      exact .inr hleaves
  | resume hrun hex => cases (h.exiting k.curPid).symm.trans hex

end Kernel.Inv

/-! ## The semaphore -/

namespace SemT
variable {s s' : SemT Q} {q : Q} {v : UInt32} {r : List Nat} {w : Q → List Pid} {z : List Pid}

/-- The waiters of the queue and the counter conserve tokens. -/
def Holds (s : SemT Q) (q : Q) (v : UInt32) : Prop :=
  ∃ r w z, s.kernel.Inv r w z [] s.kernel.curPid ∧ s.account.Conserved v.toNat ⟨s.vl, w q⟩

theorem Holds.semWait (h : s.Holds q v) (hcalls : s.kernel.calls) : (s.semWait q).Holds q v := by
  obtain ⟨r, w, z, hk, hs⟩ := h
  rw [SemT.semWait]
  split
  next hzero =>
    obtain ⟨k', r', hret, hinv, -⟩ := hk.loaderEnqueue hcalls.1 q
    have hblock := hs.block s.kernel.curPid hzero
    rw [hret]
    refine ⟨r', _, z, hinv, ?_⟩
    rw [Semaphore.wait, if_pos hzero] at hblock
    rwa [Function.update_self]
  next hpos =>
    have hpass := hs.pass s.kernel.curPid hpos
    rw [Semaphore.wait, if_neg hpos] at hpass
    exact ⟨r, w, z, hk, hpass⟩

theorem Holds.semSignal (h : s.Holds q v) (hok : noOverflow q s .signal) :
    (s.semSignal q).Holds q v := by
  obtain ⟨r, w, z, hk, hs⟩ := h
  have hsignal := hs.signal
  have hhead := hk.head q
  rw [SemT.semSignal]
  split
  next hnone =>
    have hempty : w q = [] := List.head?_eq_none_iff.1 (hhead.symm.trans hnone)
    refine ⟨r, w, z, hk, ?_⟩
    rw [Semaphore.signal, hempty] at hsignal
    rw [hempty, Word32.wrap_of_lt (hok.resolve_right fun hne => hne hnone)]
    exact hsignal
  next hsome =>
    obtain ⟨k', r', hret, hcur, hinv, hwakes⟩ := hk.loaderUnqueue q
    obtain ⟨p, l, hw⟩ : ∃ p l, w q = p :: l :=
      List.exists_cons_of_ne_nil fun hempty => hsome (by rw [hhead, hempty]; rfl)
    rw [hret]
    refine ⟨r', _, z, by rwa [Kernel.after, hcur], ?_⟩
    rw [Semaphore.signal, hw] at hsignal
    rw [Kernel.after, Function.update_self]
    dsimp only
    rw [hwakes.schedLoads, List.drop_left, hw]
    exact hsignal

/-- In every run that does not overflow the counter, the semaphore conserves tokens. -/
theorem holds (h : Reach (semSystem q v) (noOverflow q) s) :
    s.kernel.halted = true ∨ s.Holds q v := by
  refine Reach.invariant (I := fun s => s.kernel.halted = true ∨ s.Holds q v) ?_ ?_ h
  · intro s hnew
    rcases Kernel.settled hnew.reach with ⟨r, w, z, hk⟩ | ⟨hhalt, -⟩
    · have hempty : w q = [] := List.head?_eq_none_iff.1 ((hk.head q).symm.trans hnew.queue)
      refine .inr ⟨r, w, z, hk, ?_⟩
      rw [hnew.account, hnew.vl, hempty]
      exact Account.conserved_empty
    · exact .inl hhalt
  · intro s a s' hs hok hstep
    cases hstep with
    | wait hrun hcalls => exact .inr ((hs.resolve_left (by simp [hrun])).semWait hcalls)
    | signal hrun => exact .inr ((hs.resolve_left (by simp [hrun])).semSignal hok)
    | @other a k hk ha =>
      have hrun : s.kernel.halted = false := by cases hk <;> assumption
      obtain ⟨r, w, z, hinv, haccount⟩ := hs.resolve_left (by simp [hrun])
      refine (hinv.apart ha hk).imp_right fun ⟨r', w', z', hinv', hw⟩ => ⟨r', w', z', hinv', ?_⟩
      rw [hw]
      exact haccount

end SemT

theorem semaphore_conserves {q : Q} {v : UInt32} {s : SemT Q}
    (h : Reach (semSystem q v) (noOverflow q) s) (hrun : s.kernel.halted = false) :
    ∃ w, s.kernel.Queues w ∧ s.account.Conserved v.toNat ⟨s.vl, w q⟩ ∧
      s.account.through = min s.account.waits (v.toNat + s.account.signals) := by
  obtain ⟨r, w, z, hk, hs⟩ := (SemT.holds h).resolve_left (by simp [hrun])
  exact ⟨w, hk.queues, hs, hs.through_eq⟩

end

/-- A semaphore of the first machine. -/
def semBoot (v : UInt32) : SemT Unit := ⟨.boot, v.toNat, .empty⟩

theorem semBoot_new (v : UInt32) : (semBoot v).New () v :=
  ⟨.init Kernel.boot_initial, rfl, rfl, rfl, rfl⟩

/-- A process waits and an interrupt signals. -/
theorem semaphore_conserves_handed : ∃ s : SemT Unit, s.account = ⟨1, 0, [1], [1]⟩ ∧ s.vl = 0 ∧
    ∃ w, s.kernel.Queues w ∧ s.account.Conserved 0 ⟨s.vl, w ()⟩ ∧
      s.account.through = min s.account.waits (0 + s.account.signals) := by
  let s : SemT Unit :=
    { semBoot 0 with kernel := .after (timerSwitch (.after (loaderLoad .boot))) }
  have hload : Reach (semSystem () 0) (noOverflow ())
      { semBoot 0 with kernel := .after (loaderLoad .boot) } :=
    .step (.init (semBoot_new 0)) (show noOverflow () _ (.other .load) from trivial)
      (SemStep.other (.load rfl rfl) trivial)
  have hswitch : Reach (semSystem () 0) (noOverflow ()) s :=
    .step hload (show noOverflow () _ (.other .timerSwitch) from trivial)
      (SemStep.other (.timerSwitch rfl) trivial)
  have hwait : Reach (semSystem () 0) (noOverflow ()) (s.semWait ()) :=
    .step hswitch (show noOverflow () _ .wait from trivial) (SemStep.wait rfl ⟨by decide, rfl⟩)
  have hsignal : Reach (semSystem () 0) (noOverflow ()) ((s.semWait ()).semSignal ()) :=
    .step hwait (show noOverflow () _ .signal from .inl (by decide)) (SemStep.signal rfl)
  exact ⟨_, rfl, rfl, semaphore_conserves hsignal rfl⟩

/-- The counter has all bits set, and goes to 0. -/
theorem semaphore_overflows :
    ¬∀ (v : UInt32) (s : SemT Unit), Reach (semSystem () v) anyStep s → s.kernel.halted = false →
      ∃ w, s.kernel.Queues w ∧ s.account.Conserved v.toNat ⟨s.vl, w ()⟩ ∧
        s.account.through = min s.account.waits (v.toNat + s.account.signals) := by
  intro hall
  obtain ⟨w, -, hs, -⟩ := hall 0xFFFFFFFF ((semBoot 0xFFFFFFFF).semSignal ())
    (.step (.init (semBoot_new _)) trivial (SemStep.signal rfl)) rfl
  have htokens : 0 + 0 = 0xFFFFFFFF + 1 := hs.tokens
  exact absurd htokens (by decide)

end SpuriOS
