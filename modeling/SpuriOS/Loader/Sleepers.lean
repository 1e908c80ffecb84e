import SpuriOS.Lib.DeltaQueue
import SpuriOS.Loader.Places

/-! # Sleepers wake up at their deadline (`loader_sleep`, `loader_tick`)

The state is extended by the number of ticks, the calls of `loader_sleep` with their deadlines,
and the times at which the scheduler was handed a process that slept. -/

namespace SpuriOS

open Transition DeltaQueue

section
variable {Q : Type}

structure Alarms (Q : Type) where
  kernel : Kernel Q
  ticks : Nat
  /-- Who called `loader_sleep`, with the tick until which. -/
  calls : List (Pid × Nat)
  /-- Who was passed to `sched_unblock`, with the tick in which. -/
  unblocked : List (Pid × Nat)

namespace Alarms

/-- A process has called `loader_sleep` and its deadline has not come. -/
def Asleep (s : Alarms Q) (p : Pid) : Prop := ∃ c ∈ s.calls, c.1 = p ∧ s.ticks < c.2

instance (s : Alarms Q) (p : Pid) : Decidable (s.Asleep p) :=
  inferInstanceAs (Decidable (∃ c ∈ s.calls, c.1 = p ∧ s.ticks < c.2))

/-- The processes that a step passes to `sched_load` or `sched_unblock`. -/
def loads (s : Alarms Q) (k' : Kernel Q) : List Pid :=
  k'.schedLoads.drop s.kernel.schedLoads.length

/-- The state after a step: all that a tick unblocks counts, and else who is asleep. -/
def next (s : Alarms Q) (a : KernelLabel Q) (k' : Kernel Q) : Alarms Q :=
  match a with
  | .tick => { s with
      kernel := k'
      ticks := s.ticks + 1
      unblocked := s.unblocked ++ (s.loads k').map (·, s.ticks + 1) }
  | .sleep time => { s with
      kernel := k'
      calls := if 0 < time then s.calls ++ [(s.kernel.curPid, s.ticks + time)] else s.calls
      unblocked := s.unblocked ++ ((s.loads k').filter (s.Asleep ·)).map (·, s.ticks) }
  | _ => { s with
      kernel := k'
      unblocked := s.unblocked ++ ((s.loads k').filter (s.Asleep ·)).map (·, s.ticks) }

/-- Every call is unblocked exactly once, in the tick of its deadline; those whose deadline has not
come are linked in order, and the times up to one are the ticks it has left. -/
structure Exact (s : Alarms Q) : Prop where
  unblocked : s.unblocked.Perm (s.calls.filter fun c => c.2 ≤ s.ticks)
  sleepers : ∃ z : List Pid, z.Nodup ∧ s.kernel.firstSlept = z.head? ∧
    Linked.Chain (fun p => (s.kernel.sleeping p).next) z none ∧ (∀ p, p ∈ z ↔ s.Asleep p) ∧
    (∀ p, z.head? = some p → 1 ≤ s.kernel.time p) ∧
    ∀ a p b, z = a ++ p :: b → (p, s.ticks + ((a ++ [p]).map s.kernel.time).sum) ∈ s.calls

end Alarms

/-- A step of the kernel, by a process that is awake if it is a call of `loader_sleep`. -/
inductive AlarmStep [DecidableEq Q] : Alarms Q → KernelLabel Q → Alarms Q → Prop
  | step {s : Alarms Q} {a k'} : KernelStep s.kernel a k' → AlarmStep s a (s.next a k')

structure Alarms.Initial (s : Alarms Q) : Prop where
  kernel : s.kernel.Initial
  ticks : s.ticks = 0
  calls : s.calls = []
  unblocked : s.unblocked = []

def alarmSystem (Q : Type) [DecidableEq Q] : System (Alarms Q) (KernelLabel Q) where
  init := Alarms.Initial
  step := AlarmStep

theorem Alarms.loads_of_append {s : Alarms Q} {k' : Kernel Q} {l : List Pid}
    (h : k'.schedLoads = s.kernel.schedLoads ++ l) : s.loads k' = l := by
  rw [Alarms.loads, h, List.drop_left]

/-- The calls are those unblocked and those of the sleepers `z`, with their deadlines. -/
structure Alarms.Keeps (s : Alarms Q) (z : List Pid) : Prop where
  calls : s.calls.Perm (s.unblocked ++ deadlines s.kernel.time s.ticks z)
  unblocked : ∀ c ∈ s.unblocked, c.2 ≤ s.ticks
  first : ∀ p, z.head? = some p → 0 < s.kernel.time p
  lt : ∀ p ∈ z, s.kernel.time p < 2 ^ 32

namespace Alarms.Keeps
variable {s : Alarms Q} {k' : Kernel Q} {z l : List Pid} {a : KernelLabel Q}

theorem lt_deadline (h : s.Keeps z) {c : Pid × Nat}
    (hc : c ∈ deadlines s.kernel.time s.ticks z) : s.ticks < c.2 :=
  lt_of_mem_deadlines h.first hc

theorem asleep_iff (h : s.Keeps z) (p : Pid) : s.Asleep p ↔ p ∈ z := by
  have hfst : (deadlines s.kernel.time s.ticks z).map Prod.fst = z := map_fst_deadlines
  constructor
  · rintro ⟨c, hc, rfl, hlt⟩
    rcases List.mem_append.1 (h.calls.mem_iff.1 hc) with hc | hc
    · exact absurd (h.unblocked c hc) (Nat.not_le.2 hlt)
    · rw [← hfst]
      exact List.mem_map_of_mem hc
  · intro hp
    rw [← hfst] at hp
    obtain ⟨c, hc, rfl⟩ := List.mem_map.1 hp
    exact ⟨c, h.calls.mem_iff.2 (List.mem_append_right _ hc), rfl, h.lt_deadline hc⟩

theorem exact {r : List Nat} {w : Q → List Pid} {v : Pid} (h : s.Keeps z)
    (hk : s.kernel.Inv r w z [] v) : s.Exact where
  unblocked := by
    have hdone : s.unblocked.filter (fun c => c.2 ≤ s.ticks) = s.unblocked :=
      List.filter_eq_self.2 fun c hc => decide_eq_true (h.unblocked c hc)
    have hleft : (deadlines s.kernel.time s.ticks z).filter (fun c => c.2 ≤ s.ticks) = [] :=
      List.filter_eq_nil_iff.2 fun c hc => by simpa using h.lt_deadline hc
    have := h.calls.filter fun c => c.2 ≤ s.ticks
    rw [List.filter_append, hdone, hleft, List.append_nil] at this
    exact this.symm
  sleepers := by
    refine ⟨z, hk.nodup, hk.firstSlept, hk.chain, fun p => (h.asleep_iff p).symm, h.first, ?_⟩
    rintro a p b rfl
    exact h.calls.mem_iff.2 (List.mem_append_right _ mem_deadlines)

/-- A step that hands no sleeper to the scheduler and leaves their times. -/
theorem of_wakes (h : s.Keeps z) (hk : s.kernel.Wakes k' l) (hl : ∀ p ∈ l, p ∉ z) :
    Alarms.Keeps { s with
      kernel := k'
      unblocked := s.unblocked ++ ((s.loads k').filter (s.Asleep ·)).map (·, s.ticks) } z := by
  have hnone : (s.loads k').filter (s.Asleep ·) = [] := by
    rw [Alarms.loads_of_append hk.schedLoads, List.filter_eq_nil_iff]
    intro p hp hasleep
    exact hl p hp ((h.asleep_iff p).1 (of_decide_eq_true hasleep))
  have htime : k'.time = s.kernel.time := funext fun p => by
    rw [Kernel.time, Kernel.time, hk.sleeping]
  rw [hnone, List.map_nil, List.append_nil]
  exact ⟨by rw [htime]; exact h.calls, h.unblocked, by rw [htime]; exact h.first,
    by rw [htime]; exact h.lt⟩

/-- `loader_sleep` puts the caller behind the sleepers `b₁`. -/
theorem sleep {b₁ b₂ : List Pid} {time d : Nat} (h : s.Keeps (b₁ ++ b₂)) (hnd : (b₁ ++ b₂).Nodup)
    (hcur : s.kernel.curPid ∉ b₁ ++ b₂) (hslept : s.kernel.Slept k'.sleeping b₁ b₂ d)
    (hsum : time = (b₁.map s.kernel.time).sum + d) (hpos : 0 < d)
    (hb : ∀ p, b₂.head? = some p → d ≤ s.kernel.time p) (htime : time < 2 ^ 32) :
    Alarms.Keeps { s with
      kernel := k', calls := s.calls ++ [(s.kernel.curPid, s.ticks + time)] }
      (b₁ ++ s.kernel.curPid :: b₂) := by
  have hne : ∀ p ∈ b₁ ++ b₂, p ≠ s.kernel.curPid := fun p hp he => hcur (he ▸ hp)
  have hself : k'.time s.kernel.curPid = d := hslept.current
  have hleft : ∀ p ∈ b₁, k'.time p = s.kernel.time p := fun p hp =>
    hslept.other p (hne p (List.mem_append_left _ hp)) fun he =>
      List.disjoint_of_nodup_append hnd hp (List.mem_of_head? he)
  have hfirst : ∀ p, b₂.head? = some p → k'.time p = s.kernel.time p - d := fun p hp =>
    (hslept.first p hp).trans (Word32.sub_of_le (hb p hp)
      (h.lt p (List.mem_append_right _ (List.mem_of_head? hp))))
  have hrest : ∀ p ∈ b₂, b₂.head? ≠ some p → k'.time p = s.kernel.time p := fun p hp hn =>
    hslept.other p (hne p (List.mem_append_right _ hp)) hn
  refine ⟨?_, h.unblocked, fun p hp => ?_, fun p hp => ?_⟩
  · have hinsert := deadlines_insert (n := s.ticks) hself hleft hfirst hrest hb
      (List.nodup_append.1 hnd).2.1
    rw [← hsum] at hinsert
    refine List.perm_append_comm.trans ((h.calls.cons _).trans ?_)
    exact List.perm_middle.symm.trans (hinsert.symm.append_left _)
  · cases b₁ with
    | nil =>
      obtain rfl : s.kernel.curPid = p := Option.some.inj hp
      exact hself.symm ▸ hpos
    | cons x b₁ =>
      obtain rfl : x = p := Option.some.inj hp
      exact (hleft x List.mem_cons_self).symm ▸ h.first x rfl
  · show k'.time p < 2 ^ 32
    rcases List.mem_append.1 hp with hp | hp
    · rw [hleft p hp]
      exact h.lt p (List.mem_append_left _ hp)
    · rcases List.mem_cons.1 hp with rfl | hp
      · rw [hself]
        omega
      · have hlt := h.lt p (List.mem_append_right _ hp)
        by_cases hhead : b₂.head? = some p
        · rw [hfirst p hhead]
          omega
        · rwa [hrest p hp hhead]

/-- `loader_tick` unblocks the sleepers `b₁`. -/
theorem tick {b₁ b₂ : List Pid} (h : s.Keeps (b₁ ++ b₂)) (hnd : (b₁ ++ b₂).Nodup)
    (htime : ∀ p, k'.time p = if (b₁ ++ b₂).head? = some p then Word32.sub (s.kernel.time p) 1
      else s.kernel.time p)
    (hdue : ∀ p ∈ b₁, k'.time p = 0) (hleft : ∀ p, b₂.head? = some p → k'.time p ≠ 0) :
    Alarms.Keeps { s with
      kernel := k', ticks := s.ticks + 1,
      unblocked := s.unblocked ++ b₁.map (·, s.ticks + 1) } b₂ := by
  have hfirst : ∀ p, (b₁ ++ b₂).head? = some p → k'.time p = s.kernel.time p - 1 := fun p hp => by
    rw [htime, if_pos hp,
      Word32.sub_of_le (h.first p hp) (h.lt p (List.mem_of_head? hp))]
  have hrest : ∀ p, (b₁ ++ b₂).head? ≠ some p → k'.time p = s.kernel.time p := fun p hp => by
    rw [htime, if_neg hp]
  have hpass : deadlines k'.time (s.ticks + 1) (b₁ ++ b₂) =
      deadlines s.kernel.time s.ticks (b₁ ++ b₂) := by
    cases hz : b₁ ++ b₂ with
    | nil => rfl
    | cons x z =>
      rw [hz] at hnd hfirst hrest h
      refine deadlines_tick (hfirst x rfl) (h.first x rfl) fun p hp => hrest p fun he => ?_
      obtain rfl : x = p := Option.some.inj he
      exact (List.nodup_cons.1 hnd).1 hp
  refine ⟨?_, fun c hc => ?_, fun p hp => Nat.pos_of_ne_zero (hleft p hp), fun p hp => ?_⟩
  · show s.calls.Perm (s.unblocked ++ b₁.map (·, s.ticks + 1) ++
      deadlines k'.time (s.ticks + 1) b₂)
    rw [List.append_assoc, ← deadlines_due hdue, hpass]
    exact h.calls
  · rcases List.mem_append.1 hc with hc | hc
    · exact Nat.le_succ_of_le (h.unblocked c hc)
    · obtain ⟨p, -, rfl⟩ := List.mem_map.1 hc
      exact Nat.le_refl _
  · have hlt := h.lt p (List.mem_append_right _ hp)
    show k'.time p < 2 ^ 32
    by_cases hhead : (b₁ ++ b₂).head? = some p
    · rw [hfirst p hhead]
      omega
    · rwa [hrest p hhead]

end Alarms.Keeps

/-- The invariant of the runs. -/
def Alarms.Settled (s : Alarms Q) : Prop :=
  (∃ r w z, s.kernel.Inv r w z [] s.kernel.curPid ∧ s.Keeps z) ∨ s.kernel.halted = true

theorem Alarms.Initial.settled {s : Alarms Q} (h : s.Initial) : s.Settled := by
  refine .inl ⟨_, _, _, h.kernel.inv, ?_, fun c hc => ?_, fun p hp => (nomatch hp),
    fun p hp => (nomatch hp)⟩
  · rw [h.calls, h.unblocked]
    exact .refl _
  · rw [h.unblocked] at hc
    exact nomatch hc

section
variable [DecidableEq Q] {s s' : Alarms Q} {a : KernelLabel Q} {r : List Nat} {w : Q → List Pid}
  {z : List Pid}

theorem Alarms.Keeps.step (h : s.Keeps z) (hk : s.kernel.Inv r w z [] s.kernel.curPid)
    (hok : noFlushWaits s.kernel a) (hs : AlarmStep s a s') : s'.Settled := by
  obtain ⟨hs⟩ := hs
  cases hs with
  | load hrun hex =>
    rcases hk.loaderLoad with ⟨hhalt, -⟩ | ⟨pid, k', r', hret, hdead, hinv, hcur, hwakes⟩
    · rw [hhalt]
      exact .inr rfl
    · rw [hret]
      refine .inl ⟨r', w, z, by rwa [← hcur] at hinv, h.of_wakes hwakes fun p hp hz => ?_⟩
      rw [List.mem_singleton.1 hp] at hz
      exact hdead (hk.placed.alive (a := .asleep) hz).1
  | @enqueue q hrun hcalls =>
    obtain ⟨k', r', hret, hinv, hwakes⟩ := hk.loaderEnqueue hcalls.1 q
    rw [hret]
    exact .inl ⟨r', _, z, hinv, h.of_wakes hwakes fun p hp => absurd hp List.not_mem_nil⟩
  | @unqueue q hrun =>
    obtain ⟨k', r', hret, hcur, hinv, hwakes⟩ := hk.loaderUnqueue q
    rw [hret]
    refine .inl ⟨r', _, z, by rwa [← hcur] at hinv, h.of_wakes hwakes fun p hp hz => ?_⟩
    exact hk.not_asleep (List.mem_of_head? (Option.mem_toList.1 hp)) hz
  | @sleep time hrun hcalls hlt =>
    rcases Nat.eq_zero_or_pos time with rfl | htime
    · exact .inl ⟨r, w, z, hk, h.of_wakes (.none rfl rfl) fun p hp =>
        absurd hp List.not_mem_nil⟩
    · obtain ⟨b₁, b₂, d, k', r', rfl, hret, hinv, hslept, hsum, hpos, hb, hloads⟩ :=
        hk.loaderSleep hcalls.1 htime
      have hcur : s.kernel.curPid ∉ b₁ ++ b₂ := hk.not_asleep_of_current hcalls.1
      have hnone : s.loads k' = [] :=
        Alarms.loads_of_append (hloads.trans (List.append_nil _).symm)
      have hnext : s.next (.sleep time) k' = { s with
          kernel := k', calls := s.calls ++ [(s.kernel.curPid, s.ticks + time)] } := by
        rw [Alarms.next, hnone, if_pos htime, List.filter_nil, List.map_nil, List.append_nil]
      rw [hret, Kernel.after, hnext]
      exact .inl ⟨r', w, _, hinv, h.sleep hk.nodup hcur hslept hsum hpos hb hlt⟩
  | tick hrun =>
    obtain ⟨b₁, b₂, k', r', rfl, hret, hinv, hcur, hloads, htime, hdue, hleft⟩ := hk.loaderTick
    rw [hret]
    rw [Kernel.after, Alarms.next, Alarms.loads_of_append hloads]
    exact .inl ⟨r', w, b₂, by rwa [← hcur] at hinv, h.tick hk.nodup htime hdue hleft⟩
  | timerSwitch hrun =>
    obtain ⟨k', hret, hinv, hwakes⟩ := hk.timerSwitch
    rw [hret]
    exact .inl ⟨r, w, z, hinv, h.of_wakes hwakes fun p hp => absurd hp List.not_mem_nil⟩
  | @exit ops hrun hcalls =>
    have hleaves := hk.loaderExit hcalls.1 hok
    cases hexit : loaderExit ops s.kernel with
    | halt k' => exact .inr rfl
    | ret v k' =>
      rw [hexit] at hleaves
      obtain ⟨r', w', l, hinv, hwakes, hl⟩ := hleaves
      exact .inl ⟨r', w', z, hinv, h.of_wakes hwakes hl⟩
  | resume hrun hex => cases (hk.exiting _).symm.trans hex

theorem Alarms.settled (h : Reach (alarmSystem Q) (fun s a => noFlushWaits s.kernel a) s) :
    s.Settled := by
  refine Reach.invariant Alarms.Initial.settled (fun {s a s'} hk hok hs => ?_) h
  rcases hk with ⟨r, w, z, hinv, hkeeps⟩ | hhalt
  · exact hkeeps.step hinv hok hs
  · obtain ⟨hs⟩ := hs
    cases hs <;> simp_all

/-- What a call does to the times: one that passed zero would have grown. -/
structure Alarms.Works (s : Alarms Q) : Prop where
  exact : s.Exact
  tick : ∃ k', loaderTick s.kernel = .ret 0 k' ∧ ∀ p, k'.time p ≤ s.kernel.time p
  sleep : ∀ time < 2 ^ 32, s.kernel.calls → ∃ k', loaderSleep time s.kernel = .ret 0 k' ∧
    ∀ p ≠ s.kernel.curPid, k'.time p ≤ s.kernel.time p

/-- Whatever calls are made, a process that calls `loader_sleep` for `time` ticks is unblocked
once, in the tick `time` ticks later. -/
theorem alarms_exact (h : Reach (alarmSystem Q) (fun s a => noFlushWaits s.kernel a) s)
    (hrun : s.kernel.halted = false) : s.Works := by
  obtain ⟨r, w, z, hk, hkeeps⟩ := (Alarms.settled h).resolve_right (by simp [hrun])
  refine ⟨hkeeps.exact hk, ?_, fun time hlt hcalls => ?_⟩
  · obtain ⟨b₁, b₂, k', r', rfl, hret, -, -, -, htime, -⟩ := hk.loaderTick
    refine ⟨k', hret, fun p => ?_⟩
    rw [htime]
    split_ifs with hp
    · rw [Word32.sub_of_le (hkeeps.first p hp) (hkeeps.lt p (List.mem_of_head? hp))]
      exact Nat.sub_le ..
    · exact Nat.le_refl _
  · rcases Nat.eq_zero_or_pos time with rfl | hpos
    · exact ⟨s.kernel, rfl, fun p _ => Nat.le_refl _⟩
    · obtain ⟨b₁, b₂, d, k', r', rfl, hret, -, hslept, -, -, hb, -⟩ :=
        hk.loaderSleep hcalls.1 hpos
      refine ⟨k', hret, fun p hp => ?_⟩
      by_cases hhead : b₂.head? = some p
      · rw [Kernel.time, hslept.first p hhead, Word32.sub_of_le (hb p hhead)
          (hkeeps.lt p (List.mem_append_right _ (List.mem_of_head? hhead)))]
        exact Nat.sub_le ..
      · exact Nat.le_of_eq (hslept.other p hp hhead)

end

end

theorem Alarms.run_step [DecidableEq Q] {s : Alarms Q} {a : KernelLabel Q} {k' : Kernel Q}
    (h : Reach (alarmSystem Q) (fun s a => noFlushWaits s.kernel a) s)
    (hok : noFlushWaits s.kernel a) (hs : KernelStep s.kernel a k') :
    Reach (alarmSystem Q) (fun s a => noFlushWaits s.kernel a) (s.next a k') := .step h hok (.step hs)

/-- Two processes sleep, for two ticks and for three. -/
def Alarms.twoAsleep : Alarms Unit :=
  let first := Kernel.after (loaderLoad .boot)
  let second := Kernel.after (loaderLoad first)
  let running := Kernel.after (timerSwitch second)
  let slept := Kernel.after (loaderSleep 2 running)
  (((((Alarms.mk .boot 0 [] []).next .load first).next .load second).next .timerSwitch
    running).next (.sleep 2) slept).next (.sleep 3) (.after (loaderSleep 3 slept))

theorem Alarms.twoAsleep_reach :
    Reach (alarmSystem Unit) (fun s a => noFlushWaits s.kernel a) .twoAsleep := by
  have hboot : Reach (alarmSystem Unit) (fun s a => noFlushWaits s.kernel a) ⟨.boot, 0, [], []⟩ :=
    .init ⟨Kernel.boot_initial, rfl, rfl, rfl⟩
  have hfirst := run_step (a := .load) hboot trivial (.load rfl rfl)
  have hsecond := run_step (a := .load) hfirst trivial (.load rfl rfl)
  have hrunning := run_step (a := .timerSwitch) hsecond trivial (.timerSwitch rfl)
  have hslept := run_step (a := .sleep 2) hrunning trivial
    (.sleep rfl ⟨by decide, rfl⟩ (by decide))
  exact run_step (a := .sleep 3) hslept trivial (.sleep rfl ⟨by decide, rfl⟩ (by decide))

/-- Two ticks later the first one is awake, and the other one is not. -/
theorem alarms_exact_woken : ∃ s : Alarms Unit, s.Works ∧ s.calls = [(1, 2), (2, 3)] ∧
    s.unblocked = [(1, 2)] ∧ s.Asleep 2 := by
  have hreach := Alarms.run_step (Alarms.run_step (a := .tick) Alarms.twoAsleep_reach trivial
    (.tick rfl)) (a := .tick) trivial (.tick rfl)
  exact ⟨_, alarms_exact hreach rfl, by decide, by decide, by decide⟩

end SpuriOS
