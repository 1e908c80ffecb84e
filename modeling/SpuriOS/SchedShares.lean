import SpuriOS.SchedRing
import SpuriOS.Lib.Rotation

/-! # Round robin (`kernel/sched.c`)

Between loads and exits `sched_tick` goes around the ring, and stays with every task for as many
ticks. -/

namespace SpuriOS

open Transition

/-- The calls, whatever they are called with. -/
inductive SchedMove : Sched → SchedLabel → Sched → Prop
  | load {s : Sched} {pd s'} : schedLoad pd s = some s' → SchedMove s (.load pd) s'
  | exit {s : Sched} {v s'} : schedExit s = some (v, s') → SchedMove s .exit s'
  | tick {s : Sched} {v s'} : schedTick s = some (v, s') → SchedMove s .tick s'

def schedCalls : System Sched SchedLabel where
  init := Sched.Initial
  step := SchedMove

/-- `n` ticks, and what they return. -/
def ticks : (n : Nat) → Sched → Option (List Pid × Sched)
  | 0, s => some ([], s)
  | n + 1, s => do
    let (pd, s) ← schedTick s
    let (l, s) ← ticks n s
    some (pd :: l, s)

namespace Sched

/-- The tasks that do not run have their whole quantum. -/
structure Rested (s : Sched) : Prop where
  others : ∀ i, (s.tasks i).pd ≠ none → s.actual ≠ some i →
    (s.tasks i).quantum = schedQuantumDefault
  le : ∀ i, (s.tasks i).pd ≠ none → (s.tasks i).quantum ≤ schedQuantumDefault

/-- The ring `r` of tasks begins with `actual`. -/
structure RingAt (s : Sched) (r : List Nat) : Prop where
  ne_nil : r ≠ []
  actual : s.actual = r.head?
  cycle : Linked.Cycle (fun i => (s.tasks i).next) r
  pd : ∀ i ∈ r, (s.tasks i).pd ≠ none

/-- The process in slot `i`. -/
def pidOf (s : Sched) (i : Nat) : Pid := (s.tasks i).pd.getD 0

/-- What the quantum of `actual` is. -/
def remaining (s : Sched) : Nat := (s.actual.map fun a => (s.tasks a).quantum).getD 0

/-- The tasks of the ring `r` run in turn. -/
structure RoundRobin (s : Sched) (r : List Nat) : Prop where
  /-- The current one for what is left of its quantum, and then each following one for a whole
  quantum and a tick. -/
  turns : ∀ n, ∃ u, ticks (s.remaining + (schedQuantumDefault + 1) * n) s =
    some (List.replicate s.remaining ((r.map s.pidOf).headD 0) ++ (List.range' 1 n).flatMap fun j =>
      List.replicate (schedQuantumDefault + 1) ((r.map s.pidOf).getD (j % r.length) 0), u)
  /-- After any ticks, so many more return to the same state, and every task has had its share. -/
  shares : ∀ n, ∃ l u l', ticks n s = some (l, u) ∧
    ticks ((schedQuantumDefault + 1) * r.length) u = some (l', u) ∧
    ∀ p, l'.count p = (schedQuantumDefault + 1) * (r.map s.pidOf).count p

section
variable {s t u s' : Sched} {r : List Nat} {a i j n q m : Nat} {p v : Pid} {l l' : List Pid}

/-! ## The quanta -/

@[simp] theorem modify_next_quantum (o : Option Nat) :
    ((s.modify i fun t => { t with next := o }).tasks j).quantum = (s.tasks j).quantum := by
  rcases eq_or_ne j i with rfl | hne
  · rw [modify_self]
  · rw [modify_of_ne hne]

@[simp] theorem modify_prev_quantum (o : Option Nat) :
    ((s.modify i fun t => { t with prev := o }).tasks j).quantum = (s.tasks j).quantum := by
  rcases eq_or_ne j i with rfl | hne
  · rw [modify_self]
  · rw [modify_of_ne hne]

/-- A new task has its whole quantum. -/
theorem schedLoad_quantum (h : schedLoad p s = some s') : ∃ i, s'.actual = s.actual ∧
    (∀ j ≠ i, (s'.tasks j).pd = (s.tasks j).pd ∧ (s'.tasks j).quantum = (s.tasks j).quantum) ∧
    (s'.tasks i).quantum = schedQuantumDefault := by
  rw [schedLoad] at h
  split at h
  · cases h
  simp only [Option.bind_eq_bind, Option.bind_eq_some_iff] at h
  obtain ⟨i, -, h⟩ := h
  refine ⟨i, ?_⟩
  split at h
  · cases h
    refine ⟨rfl, fun j hj => ?_, ?_⟩
    · rw [modify_of_ne hj, modify_of_ne hj]
      exact ⟨rfl, rfl⟩
    · rw [modify_self, modify_self]
  · simp only [Option.bind_eq_some_iff] at h
    obtain ⟨last, -, first, -, h⟩ := h
    cases h
    have hprev : ∀ (s : Sched) (c : Prop) [Decidable c] j,
        ((if c then s.modify last fun t => { t with prev := some i } else s).tasks j).pd =
            (s.tasks j).pd ∧
          ((if c then s.modify last fun t => { t with prev := some i } else s).tasks j).quantum =
            (s.tasks j).quantum := fun s c _ j => by
      split
      · exact ⟨modify_prev_pd _, modify_prev_quantum _⟩
      · exact ⟨rfl, rfl⟩
    refine ⟨?_, fun j hj => ?_, ?_⟩
    · dsimp only
      split_ifs <;> rfl
    · dsimp only
      rw [modify_prev_pd, modify_prev_quantum, (hprev ..).1, (hprev ..).2, modify_next_pd,
        modify_next_quantum, modify_of_ne hj, modify_of_ne hj]
      exact ⟨rfl, rfl⟩
    · dsimp only
      rw [modify_prev_quantum, (hprev ..).2, modify_next_quantum, modify_self, modify_self]

/-- The tasks that stay keep theirs. -/
theorem schedExit_quantum (h : schedExit s = some (v, s')) : ∃ a, s.actual = some a ∧
    (s'.tasks a).pd = none ∧
    ∀ j ≠ a, (s'.tasks j).pd = (s.tasks j).pd ∧ (s'.tasks j).quantum = (s.tasks j).quantum := by
  rw [schedExit] at h
  split at h
  · cases h
  split at h
  · simp only [Option.bind_eq_bind, Option.bind_eq_some_iff] at h
    obtain ⟨first, -, last, -, a, ha, tmpNext, -, prev, -, next, -, pd, -, h⟩ := h
    cases h
    refine ⟨a, ha, ?_, fun j hj => ?_⟩
    · dsimp only
      rw [modify_self]
    · dsimp only
      rw [modify_of_ne hj, modify_of_ne hj, modify_prev_pd, modify_prev_quantum, modify_next_pd,
        modify_next_quantum]
      split_ifs <;> exact ⟨rfl, rfl⟩
  · simp only [Option.bind_eq_bind, Option.bind_eq_some_iff] at h
    obtain ⟨a, ha, h⟩ := h
    cases h
    refine ⟨a, ha, ?_, fun j hj => ?_⟩
    · rw [modify_self]
    · rw [modify_of_ne hj, modify_of_ne hj]
      exact ⟨rfl, rfl⟩

theorem modify_quantum_self (q : SchedTask → Nat) :
    ((s.modify i fun t => { t with quantum := q t }).tasks i).quantum = q (s.tasks i) := by
  rw [modify_self]

theorem Rested.load (hr : s.Rested) (h : schedLoad p s = some s') : s'.Rested := by
  obtain ⟨i, hactual, hkeep, hi⟩ := schedLoad_quantum h
  refine ⟨fun j hj ha => ?_, fun j hj => ?_⟩
  · rcases eq_or_ne j i with rfl | hne
    · exact hi
    · rw [(hkeep j hne).1] at hj
      rw [(hkeep j hne).2]
      exact hr.others j hj (hactual ▸ ha)
  · rcases eq_or_ne j i with rfl | hne
    · exact Nat.le_of_eq hi
    · rw [(hkeep j hne).1] at hj
      rw [(hkeep j hne).2]
      exact hr.le j hj

theorem Rested.exit (hr : s.Rested) (h : schedExit s = some (v, s')) : s'.Rested := by
  obtain ⟨a, ha, hnone, hkeep⟩ := schedExit_quantum h
  have hfull : ∀ j, (s'.tasks j).pd ≠ none → (s'.tasks j).quantum = schedQuantumDefault := by
    intro j hj
    have hne : j ≠ a := fun he => hj (he ▸ hnone)
    rw [(hkeep j hne).1] at hj
    rw [(hkeep j hne).2]
    exact hr.others j hj fun he => hne (Option.some.inj (he.symm.trans ha))
  exact ⟨fun j hj _ => hfull j hj, fun j hj => Nat.le_of_eq (hfull j hj)⟩

theorem Rested.tick (hr : s.Rested) (h : schedTick s = some (v, s')) : s'.Rested := by
  rw [schedTick] at h
  split at h
  next ha =>
    split at h
    · cases h
      exact hr
    · simp only [Option.bind_eq_bind, Option.bind_eq_some_iff] at h
      obtain ⟨first, -, pd, -, h⟩ := h
      cases h
      exact ⟨fun j hj _ => hr.others j hj fun he => Option.some_ne_none j (he.symm.trans ha),
        hr.le⟩
  next a ha =>
    have hother : ∀ {q : SchedTask → Nat} {j}, j ≠ a →
        ((s.modify a fun t => { t with quantum := q t }).tasks j).pd ≠ none →
        ((s.modify a fun t => { t with quantum := q t }).tasks j).quantum =
          schedQuantumDefault := by
      intro q j hne hj
      rw [modify_of_ne hne] at hj ⊢
      exact hr.others j hj fun he => hne (Option.some.inj (he.symm.trans ha))
    split at h
    · simp only [Option.bind_eq_bind, Option.bind_eq_some_iff] at h
      obtain ⟨pd, hpd, h⟩ := h
      cases h
      refine ⟨fun j hj hne => hother (fun he => hne (he ▸ ha)) hj, fun j hj => ?_⟩
      rcases eq_or_ne j a with rfl | hne
      · rw [modify_quantum_self]
        rw [(s.modify_quantum j _ j).1] at hj
        exact Nat.le_trans (Nat.sub_le ..) (hr.le j hj)
      · exact Nat.le_of_eq (hother hne hj)
    · simp only [Option.bind_eq_bind, Option.bind_eq_some_iff] at h
      obtain ⟨next, -, pd, -, h⟩ := h
      cases h
      have hfull : ∀ j, ((s.modify a fun t =>
          { t with quantum := schedQuantumDefault }).tasks j).pd ≠ none →
          ((s.modify a fun t => { t with quantum := schedQuantumDefault }).tasks j).quantum =
            schedQuantumDefault := by
        intro j hj
        rcases eq_or_ne j a with rfl | hne
        · exact modify_quantum_self _
        · exact hother hne hj
      exact ⟨fun j hj _ => hfull j hj, fun j hj => Nat.le_of_eq (hfull j hj)⟩

theorem Initial.rested (h : s.Initial) : s.Rested :=
  ⟨fun i hi => absurd (h.tasks i) hi, fun i hi => absurd (h.tasks i) hi⟩

/-- In every run, whatever the calls are. -/
theorem rested_of_reach (h : Reach schedCalls anyStep s) : s.Rested := by
  refine h.invariant (I := Rested) Initial.rested fun hr _ hs => ?_
  cases hs with
  | load h => exact hr.load h
  | exit h => exact hr.exit h
  | tick h => exact hr.tick h

/-! ## Around the ring

Where the scheduler is between loads and exits is the number of ticks since `actual`, the head of
the ring, got its quantum. -/

/-- The task in slot `a` runs, and has `q` ticks left. -/
def turn (t : Sched) (a q : Nat) : Sched :=
  { t.modify a fun x => { x with quantum := q } with actual := some a }

/-- The slot that runs `c` ticks after the head of the ring got its quantum. -/
def runs (r : List Nat) (c : Nat) : Nat := r.getD (c / (schedQuantumDefault + 1) % r.length) 0

/-- The scheduler then, if every task of the ring has its quantum in `t`. -/
def clock (t : Sched) (r : List Nat) (c : Nat) : Sched :=
  t.turn (runs r c) (schedQuantumDefault - c % (schedQuantumDefault + 1))

/-- The tasks of the ring `r` all have their quantum. -/
structure Fresh (t : Sched) (r : List Nat) : Prop where
  ne_nil : r ≠ []
  cycle : Linked.Cycle (fun i => (t.tasks i).next) r
  pd : ∀ i ∈ r, (t.tasks i).pd ≠ none
  quantum : ∀ i ∈ r, (t.tasks i).quantum = schedQuantumDefault

theorem modify_modify (f g : SchedTask → SchedTask) :
    (s.modify i f).modify i g = s.modify i fun t => g (f t) := by
  simp only [modify, Function.update_self, Function.update_idem]

theorem modify_eq_self {f : SchedTask → SchedTask} (h : f (s.tasks i) = s.tasks i) :
    s.modify i f = s := by
  rw [modify, h, Function.update_eq_self]

theorem turn_pd (t : Sched) (a q i : Nat) : ((t.turn a q).tasks i).pd = (t.tasks i).pd :=
  (t.modify_quantum a (fun _ => q) i).1

theorem turn_next (t : Sched) (a q i : Nat) : ((t.turn a q).tasks i).next = (t.tasks i).next :=
  (t.modify_quantum a (fun _ => q) i).2.1

theorem turn_self (t : Sched) (a q : Nat) : ((t.turn a q).tasks a).quantum = q :=
  modify_quantum_self fun _ => q

theorem turn_quantum (h : (t.tasks a).quantum = q) : t.turn a q = { t with actual := some a } := by
  subst h
  rw [turn, modify_eq_self rfl]

/-- Its quantum is set again. -/
theorem turn_modify (f : SchedTask → Nat) :
    { (t.turn a q).modify a fun x => { x with quantum := f x } with actual := some i } =
      { t.modify a fun x => { x with quantum := f { x with quantum := q } } with
        actual := some i } :=
  congrArg (fun u : Sched => { u with actual := some i })
    (modify_modify (fun x => { x with quantum := q }) fun x => { x with quantum := f x })

/-- As long as it has ticks left. -/
theorem schedTick_turn_succ (h : (t.tasks a).pd = some v) :
    schedTick (t.turn a (q + 1)) = some (v, t.turn a q) := by
  have hpos : 0 < ((t.turn a (q + 1)).tasks a).quantum := by
    rw [turn_self]
    exact q.succ_pos
  rw [schedTick]
  simp only [show (t.turn a (q + 1)).actual = some a from rfl]
  rw [if_pos hpos, Option.bind_eq_bind, (modify_quantum _ a (fun x => x.quantum - 1) a).1, turn_pd,
    h, Option.bind_some]
  exact congrArg (fun u : Sched => some (v, u)) (turn_modify fun x => x.quantum - 1)

/-- And when it has none, the next one gets its turn. -/
theorem schedTick_turn_zero {y : Nat} (hq : (t.tasks a).quantum = schedQuantumDefault)
    (hnext : (t.tasks a).next = some y) (hy : (t.tasks y).quantum = schedQuantumDefault)
    (h : (t.tasks y).pd = some v) :
    schedTick (t.turn a 0) = some (v, t.turn y schedQuantumDefault) := by
  have hzero : ¬0 < ((t.turn a 0).tasks a).quantum := by
    rw [turn_self]
    exact Nat.lt_irrefl 0
  rw [schedTick]
  simp only [show (t.turn a 0).actual = some a from rfl]
  rw [if_neg hzero, Option.bind_eq_bind, (modify_quantum _ a (fun _ => schedQuantumDefault) a).2.1,
    turn_next, hnext, Option.bind_some]
  rw [(modify_quantum _ a (fun _ => schedQuantumDefault) y).1, turn_pd, h,
    Option.bind_some, turn_quantum hy]
  refine congrArg (fun u : Sched => some (v, u))
    ((turn_modify fun _ => schedQuantumDefault).trans ?_)
  rw [modify_eq_self]
  rw [← hq]

theorem Fresh.getElem? (h : t.Fresh r) (c : Nat) :
    r[c / (schedQuantumDefault + 1) % r.length]? = some (runs r c) := by
  have hlt := Nat.mod_lt (c / (schedQuantumDefault + 1)) (List.length_pos_iff.2 h.ne_nil)
  rw [runs, List.getD_eq_getElem?_getD, List.getElem?_eq_getElem hlt]
  rfl

theorem Fresh.runs_mem (h : t.Fresh r) (c : Nat) : runs r c ∈ r :=
  List.mem_of_getElem? (h.getElem? c)

/-- A tick on the clock. -/
theorem Fresh.tick (h : t.Fresh r) (c : Nat) :
    schedTick (t.clock r c) = some (t.pidOf (runs r (c + 1)), t.clock r (c + 1)) := by
  have hpd : (t.tasks (runs r (c + 1))).pd = some (t.pidOf (runs r (c + 1))) := by
    obtain ⟨p, hp⟩ := Option.ne_none_iff_exists'.1 (h.pd _ (h.runs_mem (c + 1)))
    rw [pidOf, hp]
    rfl
  by_cases hc : (c + 1) % (schedQuantumDefault + 1) = 0
  · have hnext := Linked.Cycle.getElem? h.cycle (c / (schedQuantumDefault + 1)) (h.getElem? c)
    have hdiv : c / (schedQuantumDefault + 1) + 1 = (c + 1) / (schedQuantumDefault + 1) := by
      rw [schedQuantumDefault] at hc ⊢
      omega
    rw [hdiv, h.getElem?] at hnext
    rw [clock, clock, hc, show schedQuantumDefault - c % (schedQuantumDefault + 1) = 0 by
      rw [schedQuantumDefault] at hc ⊢
      omega]
    exact schedTick_turn_zero (h.quantum _ (h.runs_mem c)) hnext
      (h.quantum _ (h.runs_mem (c + 1))) hpd
  · have hruns : runs r (c + 1) = runs r c := by
      rw [runs, runs, show (c + 1) / (schedQuantumDefault + 1) = c / (schedQuantumDefault + 1) by
        rw [schedQuantumDefault] at hc ⊢
        omega]
    rw [hruns] at hpd
    rw [clock, clock, hruns, show schedQuantumDefault - c % (schedQuantumDefault + 1) =
      schedQuantumDefault - (c + 1) % (schedQuantumDefault + 1) + 1 by
        rw [schedQuantumDefault] at hc ⊢
        omega]
    exact schedTick_turn_succ hpd

theorem Fresh.ticks (h : t.Fresh r) (n c : Nat) : ticks n (t.clock r c) =
    some ((List.range' (c + 1) n).map fun i => t.pidOf (runs r i), t.clock r (c + n)) := by
  induction n generalizing c with
  | zero => rfl
  | succ n ih =>
    rw [SpuriOS.ticks, h.tick, Option.bind_eq_bind, Option.bind_some]
    dsimp only
    rw [ih, Option.bind_eq_bind, Option.bind_some, List.range'_succ,
      show c + 1 + n = c + (n + 1) by omega]
    rfl

theorem Fresh.pidOf_runs (h : t.Fresh r) (c : Nat) : t.pidOf (runs r c) =
    (r.map t.pidOf).getD (c / (schedQuantumDefault + 1) % r.length) 0 := by
  rw [List.getD_eq_getElem?_getD, List.getElem?_map, h.getElem?]
  rfl

theorem runs_add (r : List Nat) (c : Nat) :
    runs r (c + (schedQuantumDefault + 1) * r.length) = runs r c := by
  rw [runs, runs, Nat.add_mul_div_left _ _ (Nat.succ_pos _), Nat.add_mod_right]

theorem clock_add (t : Sched) (r : List Nat) (c : Nat) :
    t.clock r (c + (schedQuantumDefault + 1) * r.length) = t.clock r c := by
  rw [clock, clock, runs_add, Nat.add_mul_mod_self_left]

/-- The rest of the turn, and then one after the other. -/
theorem Fresh.turns (h : t.Fresh r) (hq : q ≤ schedQuantumDefault) (n : Nat) :
    ∃ u, SpuriOS.ticks (q + (schedQuantumDefault + 1) * n) (t.clock r (schedQuantumDefault - q)) =
      some (List.replicate q ((r.map t.pidOf).headD 0) ++ (List.range' 1 n).flatMap fun j =>
        List.replicate (schedQuantumDefault + 1) ((r.map t.pidOf).getD (j % r.length) 0), u) := by
  refine ⟨_, (h.ticks _ _).trans (congrArg (fun l => some (l, _)) ?_)⟩
  simp only [h.pidOf_runs]
  rw [← List.range'_append_1, List.map_append,
    show schedQuantumDefault - q + 1 + q = 1 * (schedQuantumDefault + 1) by omega,
    Rotation.map_range'_turns (f := fun j => (r.map t.pidOf).getD (j % r.length) 0)]
  refine congrArg (· ++ _) (List.eq_replicate_iff.2 ⟨?_, fun p hp => ?_⟩)
  · rw [List.length_map, List.length_range']
  · obtain ⟨i, hi, rfl⟩ := List.mem_map.1 hp
    rw [List.mem_range'_1] at hi
    rw [Nat.div_eq_of_lt (by omega), Nat.zero_mod]
    cases r.map t.pidOf <;> rfl

/-- Once around the ring from any time. -/
theorem Fresh.lap (h : t.Fresh r) (c : Nat) : ∃ l,
    SpuriOS.ticks ((schedQuantumDefault + 1) * r.length) (t.clock r c) = some (l, t.clock r c) ∧
      ∀ p, l.count p = (schedQuantumDefault + 1) * (r.map t.pidOf).count p := by
  refine ⟨_, (h.ticks _ _).trans (by rw [clock_add]), fun p => ?_⟩
  have hperm := Rotation.map_range'_perm (f := fun i => t.pidOf (runs r i))
    (N := (schedQuantumDefault + 1) * r.length) (fun i => by rw [runs_add]) (c + 1)
  have hturns := Rotation.map_range'_turns (f := fun j => (r.map t.pidOf).getD (j % r.length) 0)
    (schedQuantumDefault + 1) r.length 0
  simp only [h.pidOf_runs] at hperm ⊢
  rw [Nat.zero_mul] at hturns
  rw [hperm.count_eq, hturns, Rotation.count_turns]
  refine congrArg (fun l : List Pid => (schedQuantumDefault + 1) * l.count p) ?_
  refine List.ext_getElem? fun i => ?_
  rw [List.getElem?_map]
  by_cases hi : i < r.length
  · rw [List.getElem?_range' hi]
    simp [Nat.mod_eq_of_lt hi, hi]
  · rw [List.getElem?_eq_none (by simpa using hi), List.getElem?_eq_none (by simpa using hi)]
    rfl

/-- The scheduler is on the clock, as many ticks before its end as `actual` has left. -/
theorem RingAt.exists_fresh (h : s.RingAt r) (hr : s.Rested) : ∃ t : Sched, t.Fresh r ∧
    t.pidOf = s.pidOf ∧ s.remaining ≤ schedQuantumDefault ∧
    s = t.clock r (schedQuantumDefault - s.remaining) := by
  obtain ⟨a, l, rfl⟩ := List.exists_cons_of_ne_nil h.ne_nil
  have ha : s.actual = some a := h.actual
  have hq : s.remaining = (s.tasks a).quantum := by
    rw [remaining, ha]
    rfl
  have hle : s.remaining ≤ schedQuantumDefault := hq ▸ hr.le a (h.pd a List.mem_cons_self)
  have hkeep := s.modify_quantum a fun _ => schedQuantumDefault
  refine ⟨s.modify a fun x => { x with quantum := schedQuantumDefault },
    ⟨h.ne_nil, h.cycle.congr fun j _ => (hkeep j).2.1, fun j hj => ?_, fun j hj => ?_⟩,
    funext fun j => congrArg (·.getD 0) (hkeep j).1, hle, ?_⟩
  · rw [(hkeep j).1]
    exact h.pd j hj
  · rcases eq_or_ne j a with rfl | hne
    · exact modify_quantum_self fun _ => schedQuantumDefault
    · rw [modify_of_ne hne]
      exact hr.others j (h.pd j hj) fun he => hne (Option.some.inj (he.symm.trans ha))
  · have hlt : schedQuantumDefault - s.remaining < schedQuantumDefault + 1 := by omega
    rw [clock, runs, Nat.mod_eq_of_lt hlt, Nat.div_eq_of_lt hlt, Nat.zero_mod, Nat.sub_sub_self hle]
    change s = { (s.modify a _).modify a _ with actual := some a }
    rw [modify_modify, modify_eq_self (by rw [hq])]
    rw [← ha]

/-- A ring whose tasks have rested is a round robin. -/
theorem RingAt.roundRobin (h : s.RingAt r) (hr : s.Rested) : s.RoundRobin r := by
  obtain ⟨t, ht, hpid, hle, hs⟩ := h.exists_fresh hr
  refine ⟨fun n => ?_, fun n => ?_⟩
  · obtain ⟨u, hu⟩ := ht.turns hle n
    rw [← hs, hpid] at hu
    exact ⟨u, hu⟩
  · obtain ⟨l, hl, hcount⟩ := ht.lap (schedQuantumDefault - s.remaining + n)
    have hn := ht.ticks n (schedQuantumDefault - s.remaining)
    rw [← hs] at hn
    rw [hpid] at hcount
    exact ⟨_, _, l, hn, hl, hcount⟩

end

end Sched

/-! ## In every run -/

/-- The ring of the processes in the order of their loading, from the one that runs. -/
structure SchedRun.Rotates (s : SchedRun) (r : List Nat) : Prop where
  ring : s.sched.RingAt r
  nodup : s.order.Nodup
  order : ∃ l m, s.order = l ++ m ∧ r.map s.sched.pidOf = m ++ l

section
variable {s s' : SchedRun} {a : SchedLabel}

theorem SchedStep.call (h : SchedStep s a s') : SchedMove s.sched a s'.sched := by
  cases h with
  | load _ _ h => exact .load h
  | exit _ _ h => exact .exit h
  | tick h => exact .tick h

theorem SchedRun.reach_calls (h : Reach schedSystem anyStep s) :
    Reach schedCalls anyStep s.sched := by
  induction h with
  | init h => exact .init h.1
  | step _ _ hs ih => exact .step ih trivial hs.call

theorem Sched.Spells.rotates {r : List Nat} (h : s.sched.Spells r s.order)
    (ha : s.sched.actual ≠ none) : ∃ r', s.Rotates r' := by
  obtain ⟨x, hx⟩ := Option.ne_none_iff_exists'.1 ha
  obtain ⟨b, c, rfl⟩ := List.append_of_mem (h.holds.actual x hx)
  have hpds : (b ++ x :: c).map s.sched.pidOf = s.order := by
    have hmap := congrArg (List.map fun o : Option Pid => o.getD 0) h.pds
    rw [List.map_map, List.map_map] at hmap
    exact hmap.trans (List.map_id _)
  refine ⟨x :: c ++ b, ⟨List.cons_ne_nil _ _, hx, h.holds.ring.next.rotate, fun i hi => ?_⟩,
    h.nodup, b.map s.sched.pidOf, (x :: c).map s.sched.pidOf, ?_, List.map_append⟩
  · refine ((h.holds.used i).1 ?_).2
    rwa [List.mem_append, or_comm, ← List.mem_append] at hi
  · rw [← hpds, List.map_append]

end

/-- In every run the tasks take turns, and every one has the same share. -/
theorem sched_round_robin :
    (∀ s, Reach schedCalls anyStep s → s.Rested ∧ ∀ r, s.RingAt r → s.RoundRobin r) ∧
      ∀ s, Reach schedSystem anyStep s → s.sched.actual ≠ none →
        Reach schedCalls anyStep s.sched ∧ ∃ r, s.Rotates r := by
  refine ⟨fun s h => ?_, fun s h ha => ⟨SchedRun.reach_calls h, ?_⟩⟩
  · have hr := Sched.rested_of_reach h
    exact ⟨hr, fun r hring => hring.roundRobin hr⟩
  · obtain ⟨r, hr⟩ : ∃ r, s.sched.Spells r s.order :=
      h.invariant (I := fun s => ∃ r, s.sched.Spells r s.order)
        (fun hinit => ⟨[], hinit.2 ▸ hinit.1.spells⟩) fun ⟨_, hk⟩ _ hs => hk.step hs
    exact hr.rotates ha

/-- Two processes are loaded, and the first one runs. -/
theorem sched_round_robin_tick : ∃ s : SchedRun, s.order = [3, 5] ∧ s.sched.Rested ∧
    ∃ r, s.Rotates r ∧ s.sched.RoundRobin r := by
  obtain ⟨s₁, s₂, s₃, h₁, hfree, h₂, htick, hactual⟩ : ∃ s₁ s₂ s₃ : Sched,
      schedLoad 3 .empty = some s₁ ∧ freeTask s₁ = some 1 ∧ schedLoad 5 s₁ = some s₂ ∧
        schedTick s₂ = some (3, s₃) ∧ s₃.actual = some 0 :=
    ⟨_, _, _, rfl, rfl, rfl, rfl, rfl⟩
  have hinit : Reach schedSystem anyStep ⟨.empty, []⟩ := .init ⟨Sched.empty_initial, rfl⟩
  have hload : Reach schedSystem anyStep ⟨s₁, [3]⟩ :=
    .step hinit trivial (.load List.not_mem_nil rfl h₁)
  have hload' : Reach schedSystem anyStep ⟨s₂, [3, 5]⟩ :=
    .step hload trivial (.load (s := ⟨s₁, [3]⟩) (show 5 ∉ [3] by decide) hfree h₂)
  have hrun : Reach schedSystem anyStep ⟨s₃, [3, 5]⟩ := .step hload' trivial (.tick htick)
  obtain ⟨hcalls, r, hr⟩ := sched_round_robin.2 _ hrun (hactual ▸ Option.some_ne_none 0)
  obtain ⟨hrested, hround⟩ := sched_round_robin.1 _ hcalls
  exact ⟨⟨s₃, [3, 5]⟩, rfl, hrested, r, hr, hround r hr.ring⟩

end SpuriOS
