import SpuriOS.Sched
import SpuriOS.Lib.Transition

/-! # The scheduler is a list of processes (`kernel/sched.c`)

The abstract state is the list of the processes in the order of their loading. `sched_load` puts a
process at its end, `sched_exit` takes the current one out and names the one behind it, and
`sched_tick` leaves it. -/

namespace SpuriOS

open Transition

/-- The scheduler, with the processes that were loaded and have not left, in that order. -/
structure SchedRun where
  sched : Sched
  order : List Pid

inductive SchedLabel where
  | load (pd : Pid)
  | exit
  | tick

inductive SchedStep : SchedRun → SchedLabel → SchedRun → Prop
  | load {s : SchedRun} {pd i s'} : pd ∉ s.order → freeTask s.sched = some i →
    schedLoad pd s.sched = some s' → SchedStep s (.load pd) ⟨s', s.order ++ [pd]⟩
  | exit {s : SchedRun} {a p v s'} : s.sched.actual = some a → (s.sched.tasks a).pd = some p →
    schedExit s.sched = some (v, s') → SchedStep s .exit ⟨s', s.order.erase p⟩
  | tick {s : SchedRun} {v s'} : schedTick s.sched = some (v, s') →
    SchedStep s .tick ⟨s', s.order⟩

/-- After `sched_init`. -/
structure Sched.Initial (s : Sched) : Prop where
  tasks : ∀ i, (s.tasks i).pd = none
  actual : s.actual = none
  first : s.first = none
  last : s.last = none
  running : s.runningTasks = 0

def schedSystem : System SchedRun SchedLabel where
  init s := s.sched.Initial ∧ s.order = []
  step := SchedStep

/-- The ring has the slots `r`, and they hold the processes `order`. -/
structure Sched.Spells (s : Sched) (r : List Nat) (order : List Pid) : Prop where
  holds : s.Holds r
  pds : r.map (fun i => (s.tasks i).pd) = order.map some
  lt : ∀ p ∈ order, p < maxPid

section
variable {s : Sched} {r : List Nat} {order : List Pid} {p : Pid}

namespace Sched.Spells

theorem runs_iff (h : s.Spells r order) : s.Runs p ↔ p ∈ order := by
  have hmem : p ∈ order ↔ some p ∈ r.map fun i => (s.tasks i).pd := by
    rw [h.pds, List.mem_map]
    exact ⟨fun hp => ⟨p, hp, rfl⟩, fun ⟨q, hq, he⟩ => Option.some.inj he ▸ hq⟩
  rw [hmem, List.mem_map]
  constructor
  · rintro ⟨i, hi, hp⟩
    exact ⟨i, (h.holds.used i).2 ⟨hi, by rw [hp]; exact Option.some_ne_none p⟩, hp⟩
  · rintro ⟨i, hi, hp⟩
    exact ⟨i, ((h.holds.used i).1 hi).1, hp⟩

theorem nodup (h : s.Spells r order) : order.Nodup := by
  have hmap : (r.map fun i => (s.tasks i).pd).Nodup :=
    (List.nodup_map_iff_inj_on h.holds.ring.nodup).2 h.holds.distinct
  rw [h.pds] at hmap
  exact hmap.of_map some

/-- `sched_load` puts the process at the end. -/
theorem load (h : s.Spells r order) (hp : p < maxPid) (hn : p ∉ order) :
    ∃ i s', schedLoad p s = some s' ∧ s'.Spells (r ++ [i]) (order ++ [p]) ∧
      s'.actual = s.actual := by
  have hn' : ¬s.Runs p := fun hr => hn (h.runs_iff.1 hr)
  have hroom := h.holds.length_lt hp hn' fun q hq => h.lt q (h.runs_iff.1 hq)
  obtain ⟨i, s', hs', hholds, hactual, -, hpd⟩ := schedLoad_slot h.holds hp hn' hroom
  have hir : i ∉ r := fun hir =>
    List.disjoint_of_nodup_append hholds.ring.nodup hir (List.mem_singleton_self i)
  refine ⟨i, s', hs', ⟨hholds, ?_, fun q hq => ?_⟩, hactual⟩
  · rw [List.map_append, List.map_append, ← h.pds, List.map_singleton, hpd, if_pos rfl]
    refine congrArg (· ++ [some p]) (List.map_congr_left fun j hj => ?_)
    rw [hpd, if_neg (ne_of_mem_of_not_mem hj hir)]
  · rcases List.mem_append.1 hq with hq | hq
    · exact h.lt q hq
    · rwa [List.mem_singleton.1 hq]

/-- `sched_exit` takes the current process out and names the one behind it. -/
theorem exit (h : s.Spells r order) {a : Nat} (ha : s.actual = some a) :
    ∃ p l m v s' r', (s.tasks a).pd = some p ∧ order = l ++ p :: m ∧
      schedExit s = some (v, s') ∧ s'.Spells r' (l ++ m) ∧ v = (m ++ l).head?.getD 0 ∧
      (s'.actual.bind fun i => (s'.tasks i).pd) = (m ++ l).head? := by
  obtain ⟨b, c, rfl⟩ := List.append_of_mem (h.holds.actual a ha)
  obtain ⟨v, s', hs', hholds, hpd, hactual, hv⟩ := schedExit_slot h.holds ha
  have hpds := h.pds
  rw [List.map_append, List.map_cons] at hpds
  obtain ⟨l, m, rfl, hl, hm⟩ := List.append_eq_map_iff.1 hpds
  obtain ⟨p, m, rfl, hp, hm⟩ := List.map_eq_cons_iff.1 hm
  have hac : a ∉ b ++ c := (List.nodup_cons.1 (List.nodup_middle.1 h.holds.ring.nodup)).1
  have hb : b.map (fun i => (s'.tasks i).pd) = l.map some := hl ▸ List.map_congr_left fun j hj => by
    rw [hpd, if_neg (ne_of_mem_of_not_mem (List.mem_append_left _ hj) hac)]
  have hc : c.map (fun i => (s'.tasks i).pd) = m.map some := hm ▸ List.map_congr_left fun j hj => by
    rw [hpd, if_neg (ne_of_mem_of_not_mem (List.mem_append_right _ hj) hac)]
  have hnext : (s'.actual.bind fun i => (s'.tasks i).pd) = (m ++ l).head? := by
    have hmap : (c ++ b).map (fun i => (s'.tasks i).pd) = (m ++ l).map some := by
      rw [List.map_append, List.map_append, hb, hc]
    have hhead := congrArg List.head? hmap
    rw [List.head?_map, List.head?_map, ← hactual] at hhead
    generalize (m ++ l).head? = o at hhead ⊢
    generalize s'.actual = o' at hhead ⊢
    cases o' <;> cases o <;> simp_all
  refine ⟨p, l, m, v, s', b ++ c, hp.symm, rfl, hs', ⟨hholds, ?_, fun q hq => h.lt q ?_⟩, ?_, hnext⟩
  · rw [List.map_append, List.map_append, hb, hc]
  · rcases List.mem_append.1 hq with hq | hq
    · exact List.mem_append_left _ hq
    · exact List.mem_append_right _ (List.mem_cons_of_mem _ hq)
  · rw [← hnext]
    rcases hv with ⟨hnone, rfl⟩ | ⟨y, hy, hpy⟩
    · rw [hnone]
      rfl
    · rw [hy, Option.bind_some, hpy]
      rfl

/-- `sched_tick` leaves the list. -/
theorem tick (h : s.Spells r order) : ∃ v s', schedTick s = some (v, s') ∧ s'.Spells r order := by
  obtain ⟨v, s', hs', hholds, hpd, -⟩ := schedTick_spec h.holds
  exact ⟨v, s', hs', hholds, by simp only [hpd, h.pds], h.lt⟩

end Sched.Spells

theorem Sched.Initial.spells (h : s.Initial) : s.Spells [] [] where
  holds :=
    { ring := .nil
      first := h.first
      last := h.last
      running := h.running
      used := fun i => ⟨fun hi => (nomatch hi), fun hi => absurd (h.tasks i) hi.2⟩
      distinct := fun _ hi => nomatch hi
      actual := fun _ ha => nomatch h.actual.symm.trans ha }
  pds := rfl
  lt := fun _ hp => nomatch hp

/-- The scheduler is the list `order`, and its functions are the operations on it. -/
structure SchedRun.Faithful (s : SchedRun) : Prop where
  spells : ∃ r, s.sched.Spells r s.order
  count : ((List.range maxPid).filter fun i => (s.sched.tasks i).pd ≠ none).length =
    s.sched.runningTasks
  empty : s.sched.runningTasks = 0 →
    s.sched.first = none ∧ s.sched.last = none ∧ s.sched.actual = none
  load : ∀ p < maxPid, p ∉ s.order → ∃ s' r', schedLoad p s.sched = some s' ∧
    s'.Spells r' (s.order ++ [p]) ∧ s'.actual = s.sched.actual
  exit : s.sched.actual ≠ none → ∃ p l m v s' r',
    (s.sched.actual.bind fun i => (s.sched.tasks i).pd) = some p ∧ s.order = l ++ p :: m ∧
      schedExit s.sched = some (v, s') ∧ s'.Spells r' (l ++ m) ∧ v = (m ++ l).head?.getD 0 ∧
      (s'.actual.bind fun i => (s'.tasks i).pd) = (m ++ l).head?
  tick : ∃ v s' r', schedTick s.sched = some (v, s') ∧ s'.Spells r' s.order

theorem Sched.Spells.step {s s' : SchedRun} {a : SchedLabel} (h : s.sched.Spells r s.order)
    (hs : SchedStep s a s') : ∃ r', s'.sched.Spells r' s'.order := by
  cases hs with
  | @load pd i s' hn hfree hload =>
    have hp : pd < maxPid := by
      by_contra hp
      rw [schedLoad, if_pos hp] at hload
      cases hload
    obtain ⟨i, s'', hs'', h', -⟩ := h.load hp hn
    obtain rfl : s'' = s' := Option.some.inj (hs''.symm.trans hload)
    exact ⟨_, h'⟩
  | @exit a p v s' ha hp hexit =>
    obtain ⟨p', l, m, v', s'', r', hp', horder, hs'', h', -⟩ := h.exit ha
    obtain rfl : p' = p := Option.some.inj (hp'.symm.trans hp)
    obtain ⟨rfl, rfl⟩ := Prod.mk.inj (Option.some.inj (hs''.symm.trans hexit))
    have hpl : p' ∉ l := fun hpl => by
      have hnd := h.nodup
      rw [horder] at hnd
      exact List.disjoint_of_nodup_append hnd hpl List.mem_cons_self
    refine ⟨r', ?_⟩
    dsimp only
    rwa [horder, List.erase_append_right _ hpl, List.erase_cons_head]
  | @tick v s' htick =>
    obtain ⟨v', s'', hs'', h'⟩ := h.tick
    obtain ⟨rfl, rfl⟩ := Prod.mk.inj (Option.some.inj (hs''.symm.trans htick))
    exact ⟨r, h'⟩

/-- In every run the scheduler is a faithful circular list. -/
theorem sched_faithful {s : SchedRun} (h : Reach schedSystem anyStep s) : s.Faithful := by
  obtain ⟨r, hr⟩ : ∃ r, s.sched.Spells r s.order := by
    refine h.invariant (I := fun s => ∃ r, s.sched.Spells r s.order)
      (fun {s} hinit => ⟨[], ?_⟩) (fun {s a s'} hk _ hs => ?_)
    · rw [hinit.2]
      exact hinit.1.spells
    · obtain ⟨r, hr⟩ := hk
      exact hr.step hs
  refine ⟨⟨r, hr⟩, ?_, fun hrun => ?_, fun p hp hn => ?_, fun ha => ?_, ?_⟩
  · rw [hr.holds.running]
    refine ((List.perm_ext_iff_of_nodup (List.nodup_range.filter _) hr.holds.ring.nodup).2
      fun i => ?_).length_eq
    rw [List.mem_filter, List.mem_range, hr.holds.used, decide_eq_true_iff]
  · obtain rfl := hr.holds.eq_nil.1 hrun
    refine ⟨hr.holds.first, hr.holds.last, Option.eq_none_iff_forall_ne_some.2 fun a ha => ?_⟩
    exact nomatch hr.holds.actual a ha
  · obtain ⟨i, s', hs', h', hactual⟩ := hr.load hp hn
    exact ⟨s', _, hs', h', hactual⟩
  · obtain ⟨a, ha⟩ := Option.ne_none_iff_exists'.1 ha
    obtain ⟨p, l, m, v, s', r', hp, hrest⟩ := hr.exit ha
    exact ⟨p, l, m, v, s', r', by rw [ha]; exact hp, hrest⟩
  · obtain ⟨v, s', hs', h'⟩ := hr.tick
    exact ⟨v, s', r, hs', h'⟩

end

/-- After `sched_init`. -/
def Sched.empty : Sched where
  tasks _ := ⟨none, 0, none, none⟩
  actual := none
  first := none
  last := none
  runningTasks := 0

theorem Sched.empty_initial : Sched.empty.Initial := ⟨fun _ => rfl, rfl, rfl, rfl, rfl⟩

/-- Two processes are loaded. -/
theorem sched_faithful_load : ∃ s : SchedRun, s.order = [3, 5] ∧ s.Faithful := by
  have hinit : Reach schedSystem anyStep ⟨.empty, []⟩ := .init ⟨Sched.empty_initial, rfl⟩
  obtain ⟨s₁, h₁, hf₁⟩ : ∃ s₁, schedLoad 3 .empty = some s₁ ∧ freeTask s₁ = some 1 :=
    ⟨_, rfl, rfl⟩
  have hload : Reach schedSystem anyStep ⟨s₁, [3]⟩ :=
    .step hinit trivial (.load List.not_mem_nil rfl h₁)
  have hn : 5 ∉ [3] := by decide
  obtain ⟨s₂, r, h₂, -⟩ := (sched_faithful hload).load 5 (by decide) hn
  exact ⟨⟨s₂, [3, 5]⟩, rfl, sched_faithful (.step hload trivial (.load hn hf₁ h₂))⟩

end SpuriOS
