import SpuriOS.Common
import SpuriOS.Lib.Linked
import Mathlib.Data.List.Perm.Subperm
import Mathlib.Tactic.Common
import Mathlib.Tactic.SplitIfs

/-! # The scheduler (`kernel/sched.c`)

A pointer to a slot of `tasks` is the index of the slot, `NULL` is `none`, and so is `FREE_PID`. A
function that a `kassert` stops, or that follows `NULL`, yields `none`. -/

namespace SpuriOS

def schedQuantumDefault : Nat := 10

structure SchedTask where
  pd : Option Pid
  quantum : Nat
  next : Option Nat
  prev : Option Nat

structure Sched where
  tasks : Nat → SchedTask
  actual : Option Nat
  first : Option Nat
  last : Option Nat
  runningTasks : Nat

namespace Sched

def modify (s : Sched) (i : Nat) (f : SchedTask → SchedTask) : Sched :=
  { s with tasks := Function.update s.tasks i (f (s.tasks i)) }

variable {s : Sched} {i j : Nat} {f : SchedTask → SchedTask}

@[simp] theorem modify_self : (s.modify i f).tasks i = f (s.tasks i) := Function.update_self ..

@[simp] theorem modify_of_ne (h : j ≠ i) : (s.modify i f).tasks j = s.tasks j :=
  Function.update_of_ne h ..

@[simp] theorem modify_actual : (s.modify i f).actual = s.actual := rfl

@[simp] theorem modify_first : (s.modify i f).first = s.first := rfl

@[simp] theorem modify_last : (s.modify i f).last = s.last := rfl

@[simp] theorem modify_runningTasks : (s.modify i f).runningTasks = s.runningTasks := rfl

@[simp] theorem modify_next_pd (o : Option Nat) :
    ((s.modify i fun t => { t with next := o }).tasks j).pd = (s.tasks j).pd := by
  rcases eq_or_ne j i with rfl | hne
  · rw [modify_self]
  · rw [modify_of_ne hne]

theorem modify_next_next (o : Option Nat) :
    ((s.modify i fun t => { t with next := o }).tasks j).next =
      if j = i then o else (s.tasks j).next := by
  split_ifs with hj
  · rw [hj, modify_self]
  · rw [modify_of_ne hj]

theorem modify_next_prev (o : Option Nat) :
    ((s.modify i fun t => { t with next := o }).tasks j).prev = (s.tasks j).prev := by
  rcases eq_or_ne j i with rfl | hne
  · rw [modify_self]
  · rw [modify_of_ne hne]

theorem modify_prev_pd (o : Option Nat) :
    ((s.modify i fun t => { t with prev := o }).tasks j).pd = (s.tasks j).pd := by
  rcases eq_or_ne j i with rfl | hne
  · rw [modify_self]
  · rw [modify_of_ne hne]

theorem modify_prev_next (o : Option Nat) :
    ((s.modify i fun t => { t with prev := o }).tasks j).next = (s.tasks j).next := by
  rcases eq_or_ne j i with rfl | hne
  · rw [modify_self]
  · rw [modify_of_ne hne]

theorem modify_prev_prev (o : Option Nat) :
    ((s.modify i fun t => { t with prev := o }).tasks j).prev =
      if j = i then o else (s.tasks j).prev := by
  split_ifs with hj
  · rw [hj, modify_self]
  · rw [modify_of_ne hj]

end Sched

/-- The slot that the loop of `sched_load` stops at. -/
def freeTask (s : Sched) : Option Nat :=
  (List.range maxPid).find? fun i => (s.tasks i).pd = none

def schedLoad (pd : Pid) (s : Sched) : Option Sched :=
  if ¬pd < maxPid then none
  else do
    let i ← freeTask s
    let s := s.modify i fun t => { t with pd := some pd, quantum := schedQuantumDefault }
    if s.runningTasks = 0 then
      let s := s.modify i fun t => { t with next := some i, prev := some i }
      some { s with last := some i, first := some i, runningTasks := s.runningTasks + 1 }
    else
      let s := s.modify i fun t => { t with next := s.first, prev := s.last }
      let last ← s.last
      let s := s.modify last fun t => { t with next := some i }
      let s := if (s.tasks last).prev = some last then
        s.modify last fun t => { t with prev := some i } else s
      let first ← s.first
      let s := s.modify first fun t => { t with prev := some i }
      some { s with last := some i, runningTasks := s.runningTasks + 1 }

def schedUnblock : Pid → Sched → Option Sched := schedLoad

/-- `memset(actual, 0, sizeof(sched_task))`. -/
def SchedTask.zero : SchedTask := ⟨some 0, 0, none, none⟩

def schedExit (s : Sched) : Option (Pid × Sched) :=
  if ¬0 < s.runningTasks then none
  else if 1 < s.runningTasks then do
    let first ← s.first
    let last ← s.last
    let actual ← s.actual
    let s := if (s.tasks first).pd = (s.tasks actual).pd then
      { s with first := (s.tasks actual).next } else s
    let s := if (s.tasks last).pd = (s.tasks actual).pd then
      { s with last := (s.tasks actual).prev } else s
    let tmpNext ← (s.tasks actual).next
    let prev ← (s.tasks actual).prev
    let s := s.modify prev fun t => { t with next := (s.tasks actual).next }
    let next ← (s.tasks actual).next
    let s := s.modify next fun t => { t with prev := (s.tasks actual).prev }
    let s := s.modify actual fun _ => .zero
    let pd ← (s.tasks tmpNext).pd
    let s := s.modify actual fun t => { t with pd := none }
    some (pd, { s with actual := some tmpNext, runningTasks := s.runningTasks - 1 })
  else do
    let actual ← s.actual
    let s := s.modify actual fun _ => .zero
    let s := s.modify actual fun t => { t with pd := none }
    some (0, { s with
      first := none, last := none, actual := none, runningTasks := s.runningTasks - 1 })

def schedBlock : Sched → Option (Pid × Sched) := schedExit

def schedTick (s : Sched) : Option (Pid × Sched) :=
  match s.actual with
  | none =>
    if s.runningTasks ≤ 0 then some (0, s)
    else do
      let first ← s.first
      let pd ← (s.tasks first).pd
      some (pd, { s with actual := some first })
  | some actual =>
    if 0 < (s.tasks actual).quantum then do
      let s := s.modify actual fun t => { t with quantum := t.quantum - 1 }
      let pd ← (s.tasks actual).pd
      some (pd, s)
    else do
      let s := s.modify actual fun t => { t with quantum := schedQuantumDefault }
      let next ← (s.tasks actual).next
      let pd ← (s.tasks next).pd
      some (pd, { s with actual := some next })

/-! ## The ring -/

/-- The slots in use are those of the ring `r`, from `first` to `last`. -/
structure Sched.Holds (s : Sched) (r : List Nat) : Prop where
  ring : Linked.Ring (fun i => (s.tasks i).next) (fun i => (s.tasks i).prev) r
  first : s.first = r.head?
  last : s.last = r.getLast?
  running : s.runningTasks = r.length
  used : ∀ i, i ∈ r ↔ i < maxPid ∧ (s.tasks i).pd ≠ none
  distinct : ∀ i ∈ r, ∀ j ∈ r, (s.tasks i).pd = (s.tasks j).pd → i = j
  actual : ∀ a, s.actual = some a → a ∈ r

/-- A process has a slot. -/
def Sched.Runs (s : Sched) (p : Pid) : Prop := ∃ i < maxPid, (s.tasks i).pd = some p

section
variable {s : Sched} {r : List Nat} {p : Pid}

/-- As long as some process has no slot, there is a free one. -/
theorem Sched.Holds.length_lt (h : s.Holds r) (hp : p < maxPid) (hn : ¬s.Runs p)
    (hlt : ∀ q, s.Runs q → q < maxPid) : r.length < maxPid := by
  have hmem : ∀ i ∈ r, ∃ q, (s.tasks i).pd = some q := fun i hi =>
    Option.ne_none_iff_exists'.1 ((h.used i).1 hi).2
  let pds := p :: r.map fun i => (s.tasks i).pd.getD 0
  have hnd : pds.Nodup := by
    refine List.nodup_cons.2 ⟨fun hp' => ?_, ?_⟩
    · obtain ⟨i, hi, rfl⟩ := List.mem_map.1 hp'
      obtain ⟨q, hq⟩ := hmem i hi
      exact hn ⟨i, ((h.used i).1 hi).1, by rw [hq]; rfl⟩
    · refine (List.nodup_map_iff_inj_on h.ring.nodup).2 fun i hi j hj he => ?_
      obtain ⟨q, hq⟩ := hmem i hi
      obtain ⟨q', hq'⟩ := hmem j hj
      refine h.distinct i hi j hj ?_
      rw [hq, hq'] at he ⊢
      exact congrArg some he
  have hsub : pds ⊆ List.range maxPid := by
    intro q hq
    rcases List.mem_cons.1 hq with rfl | hq
    · exact List.mem_range.2 hp
    · obtain ⟨i, hi, rfl⟩ := List.mem_map.1 hq
      obtain ⟨q, hq⟩ := hmem i hi
      rw [hq]
      exact List.mem_range.2 (hlt q ⟨i, ((h.used i).1 hi).1, hq⟩)
  have := (hnd.subperm hsub).length_le
  simp only [pds, List.length_cons, List.length_map, List.length_range] at this
  omega

theorem Sched.Holds.freeTask (h : s.Holds r) (hroom : r.length < maxPid) :
    ∃ i, SpuriOS.freeTask s = some i ∧ i < maxPid ∧ i ∉ r := by
  cases hf : SpuriOS.freeTask s with
  | none =>
    exfalso
    rw [SpuriOS.freeTask, List.find?_eq_none] at hf
    have hsub : List.range maxPid ⊆ r := fun i hi =>
      (h.used i).2 ⟨List.mem_range.1 hi, by simpa using hf i hi⟩
    have := (List.nodup_range.subperm hsub).length_le
    rw [List.length_range] at this
    omega
  | some i =>
    have hpd := List.find?_some hf
    have hi := List.mem_range.1 (List.mem_of_find?_eq_some hf)
    exact ⟨i, rfl, hi, fun hmem => ((h.used i).1 hmem).2 (by simpa using hpd)⟩

theorem Sched.Holds.eq_nil (h : s.Holds r) : s.runningTasks = 0 ↔ r = [] := by
  rw [h.running, List.length_eq_zero_iff]

/-- The slot `i` is linked between the last slot `z` and the first slot `y`. -/
structure Sched.Pushed (s s' : Sched) (i y z : Nat) (p : Pid) : Prop where
  pd : ∀ j, (s'.tasks j).pd = if j = i then some p else (s.tasks j).pd
  next : ∀ j, (s'.tasks j).next = if j = z then some i else if j = i then some y
    else (s.tasks j).next
  prev : ∀ j, (s'.tasks j).prev = if j = y then some i else if j = i then some z
    else (s.tasks j).prev
  first : s'.first = s.first
  last : s'.last = some i
  running : s'.runningTasks = s.runningTasks + 1
  actual : s'.actual = s.actual

theorem schedLoad_pushed {l : List Nat} {i y z : Nat} (h : s.Holds (l ++ [z])) (hp : p < maxPid)
    (hy : (l ++ [z]).head? = some y) (hfree : freeTask s = some i) (hi : i ∉ l ++ [z]) :
    ∃ s', schedLoad p s = some s' ∧ s.Pushed s' i y z p := by
  have hyr : y ∈ l ++ [z] := List.mem_of_head? hy
  have hzr : z ∈ l ++ [z] := List.mem_append_right _ (List.mem_singleton_self z)
  have hiy : y ≠ i := ne_of_mem_of_not_mem hyr hi
  have hiz : z ≠ i := ne_of_mem_of_not_mem hzr hi
  have hfirst : s.first = some y := h.first.trans hy
  have hlast : s.last = some z := h.last.trans List.getLast?_concat
  have hrun : s.runningTasks ≠ 0 := fun h0 => by simpa using h.eq_nil.1 h0
  have hprev : (s.tasks z).prev = some z ↔ y = z := by
    cases l with
    | nil =>
      obtain rfl : z = y := by simpa using hy
      exact iff_of_true h.ring.prev.1 rfl
    | cons w l =>
      obtain rfl : w = y := by simpa using hy
      obtain ⟨w', hw', hpw⟩ := h.ring.prev_last
      have hnd := h.ring.nodup
      refine iff_of_false (fun he => ?_) (fun he => ?_)
      · rw [hpw] at he
        cases he
        exact List.disjoint_of_nodup_append hnd hw' (List.mem_singleton_self _)
      · exact List.disjoint_of_nodup_append hnd List.mem_cons_self (he ▸ List.mem_singleton_self _)
  rw [schedLoad, if_neg (by rwa [Decidable.not_not]), hfree, Option.bind_eq_bind, Option.bind_some]
  simp only [Sched.modify_runningTasks, Sched.modify_first, Sched.modify_last, hfirst, hlast,
    Option.bind_some, if_neg hrun, Sched.modify_self, Sched.modify_of_ne hiz, hprev]
  by_cases hyz : y = z
  · simp only [if_pos hyz, Sched.modify_first, hfirst, Option.bind_some]
    refine ⟨_, rfl, fun j => ?_, fun j => ?_, fun j => ?_, hfirst.symm, rfl, rfl, rfl⟩ <;>
      simp only [Sched.modify, Function.update_apply] <;> split_ifs <;> simp_all
  · simp only [if_neg hyz, Sched.modify_first, hfirst, Option.bind_some]
    refine ⟨_, rfl, fun j => ?_, fun j => ?_, fun j => ?_, hfirst.symm, rfl, rfl, rfl⟩ <;>
      simp only [Sched.modify, Function.update_apply] <;> split_ifs <;> simp_all

/-- What is known of the slots when the ring takes in the slot of a process without one. -/
theorem Sched.Holds.of_load {s' : Sched} {i : Nat} (h : s.Holds r) (hn : ¬s.Runs p) (hi : i ∉ r)
    (hlt : i < maxPid) (hpd : ∀ j, (s'.tasks j).pd = if j = i then some p else (s.tasks j).pd)
    (hring : Linked.Ring (fun j => (s'.tasks j).next) (fun j => (s'.tasks j).prev) (r ++ [i]))
    (hfirst : s'.first = (r ++ [i]).head?) (hlast : s'.last = some i)
    (hrunning : s'.runningTasks = s.runningTasks + 1) (hactual : s'.actual = s.actual) :
    s'.Holds (r ++ [i]) where
  ring := hring
  first := hfirst
  last := hlast.trans List.getLast?_concat.symm
  running := by rw [hrunning, h.running, List.length_append, List.length_singleton]
  used j := by
    rw [List.mem_append, List.mem_singleton, hpd]
    split_ifs with hj
    · subst hj
      exact iff_of_true (.inr rfl) ⟨hlt, Option.some_ne_none _⟩
    · rw [or_iff_left hj]
      exact h.used j
  distinct j hj k hk he := by
    have hnot : ∀ m ∈ r, (s.tasks m).pd ≠ some p := fun m hm hpm =>
      hn ⟨m, ((h.used m).1 hm).1, hpm⟩
    have hne : ∀ m ∈ r, m ≠ i := fun m hm => ne_of_mem_of_not_mem hm hi
    rw [hpd, hpd] at he
    rcases List.mem_append.1 hj with hj | hj <;> rcases List.mem_append.1 hk with hk | hk
    · rw [if_neg (hne j hj), if_neg (hne k hk)] at he
      exact h.distinct j hj k hk he
    · rw [if_neg (hne j hj), if_pos (List.mem_singleton.1 hk)] at he
      exact absurd he (hnot j hj)
    · rw [if_neg (hne k hk), if_pos (List.mem_singleton.1 hj)] at he
      exact absurd he.symm (hnot k hk)
    · rw [List.mem_singleton.1 hj, List.mem_singleton.1 hk]
  actual a ha := List.mem_append_left _ (h.actual a (hactual ▸ ha))

/-- `sched_load` puts a process at the end of the ring. -/
theorem schedLoad_slot (h : s.Holds r) (hp : p < maxPid) (hn : ¬s.Runs p)
    (hroom : r.length < maxPid) : ∃ i s', schedLoad p s = some s' ∧ s'.Holds (r ++ [i]) ∧
      s'.actual = s.actual ∧ i < maxPid ∧
      ∀ j, (s'.tasks j).pd = if j = i then some p else (s.tasks j).pd := by
  obtain ⟨i, hfree, hi, hir⟩ := h.freeTask hroom
  rcases List.eq_nil_or_concat r with rfl | ⟨l, z, rfl⟩
  · rw [schedLoad, if_neg (by rwa [Decidable.not_not]), hfree, Option.bind_eq_bind,
      Option.bind_some]
    have hrun : s.runningTasks = 0 := h.eq_nil.2 rfl
    simp only [Sched.modify_runningTasks, hrun, if_true]
    refine ⟨i, _, rfl, h.of_load hn hir hi (fun j => ?_) (.singleton ?_ ?_) rfl rfl
      (by rw [hrun]) rfl, rfl, hi, fun j => ?_⟩
    · simp only [Sched.modify, Function.update_apply]
      split_ifs <;> simp_all
    · simp only [Sched.modify_self]
    · simp only [Sched.modify_self]
    · simp only [Sched.modify, Function.update_apply]
      split_ifs <;> simp_all
  · rw [List.concat_eq_append] at h hir ⊢
    obtain ⟨y, hy⟩ : ∃ y, (l ++ [z]).head? = some y := Option.ne_none_iff_exists'.1 (by simp)
    obtain ⟨s', hs', hpush⟩ := schedLoad_pushed h hp hy hfree hir
    have hyr : y ∈ l ++ [z] := List.mem_of_head? hy
    have hbase : Linked.Ring (fun j => if j = i then some y else (s.tasks j).next)
        (fun j => if j = i then some z else (s.tasks j).prev) (l ++ [z]) :=
      h.ring.congr (fun j hj => if_neg (ne_of_mem_of_not_mem hj hir))
        fun j hj => if_neg (ne_of_mem_of_not_mem hj hir)
    have hring := hbase.push hir ((if_pos rfl).trans hy.symm) (if_pos rfl) hy
    refine ⟨i, s', hs', h.of_load hn hir hi hpush.pd (hring.congr (fun j _ => ?_) fun j _ => ?_)
      ?_ hpush.last hpush.running hpush.actual, hpush.actual, hi, hpush.pd⟩
    · rw [hpush.next, Function.update_apply]
    · rw [hpush.prev, Function.update_apply]
    · rw [hpush.first, h.first, hy, List.head?_append, hy]
      rfl

/-- The processes with a slot and the current one, as `sched_load` leaves them. -/
theorem schedLoad_spec (h : s.Holds r) (hp : p < maxPid) (hn : ¬s.Runs p)
    (hroom : r.length < maxPid) : ∃ i s', schedLoad p s = some s' ∧ s'.Holds (r ++ [i]) ∧
      s'.actual = s.actual ∧ (∀ q, s'.Runs q ↔ s.Runs q ∨ q = p) ∧
      ∀ a ∈ r, (s'.tasks a).pd = (s.tasks a).pd := by
  obtain ⟨i, s', hs', hholds, hactual, hi, hpd⟩ := schedLoad_slot h hp hn hroom
  have hir : i ∉ r := fun hir =>
    List.disjoint_of_nodup_append hholds.ring.nodup hir (List.mem_singleton_self i)
  refine ⟨i, s', hs', hholds, hactual, fun q => ⟨?_, ?_⟩, fun a ha => ?_⟩
  · rintro ⟨j, hj, hq⟩
    rw [hpd] at hq
    split_ifs at hq with hji
    · exact .inr (Option.some.inj hq).symm
    · exact .inl ⟨j, hj, hq⟩
  · rintro (⟨j, hj, hq⟩ | rfl)
    · have hjr : j ∈ r := (h.used j).2 ⟨hj, by rw [hq]; exact Option.some_ne_none _⟩
      exact ⟨j, hj, by rw [hpd, if_neg (ne_of_mem_of_not_mem hjr hir), hq]⟩
    · exact ⟨i, hi, by rw [hpd, if_pos rfl]⟩
  · rw [hpd, if_neg (ne_of_mem_of_not_mem ha hir)]

theorem Sched.Holds.exists_pd (h : s.Holds r) {i : Nat} (hi : i ∈ r) :
    ∃ q, (s.tasks i).pd = some q :=
  Option.ne_none_iff_exists'.1 ((h.used i).1 hi).2

/-- What is known of the slots when `actual` leaves the ring `b ++ a :: c`. -/
theorem Sched.Holds.of_exit {s' : Sched} {a : Nat} {b c : List Nat} (h : s.Holds (b ++ a :: c))
    (hpd : ∀ j, (s'.tasks j).pd = if j = a then none else (s.tasks j).pd)
    (hring : Linked.Ring (fun j => (s'.tasks j).next) (fun j => (s'.tasks j).prev) (b ++ c))
    (hfirst : s'.first = (b ++ c).head?) (hlast : s'.last = (b ++ c).getLast?)
    (hrunning : s'.runningTasks = s.runningTasks - 1)
    (hactual : ∀ x, s'.actual = some x → x ∈ b ++ c) : s'.Holds (b ++ c) where
  ring := hring
  first := hfirst
  last := hlast
  running := by
    rw [hrunning, h.running, List.length_append, List.length_append, List.length_cons]
    omega
  used j := by
    have hnd := h.ring.nodup
    have hmem : j ∈ b ++ a :: c ↔ j = a ∨ j ∈ b ++ c := by
      simp only [List.mem_append, List.mem_cons]; tauto
    have hac : a ∉ b ++ c := (List.nodup_middle.1 hnd |> List.nodup_cons.1).1
    rw [hpd]
    split_ifs with hj
    · subst hj
      exact iff_of_false hac (fun hj => hj.2 rfl)
    · rw [← h.used j, hmem, or_iff_right hj]
  distinct j hj k hk he := by
    have hac : a ∉ b ++ c := (List.nodup_middle.1 h.ring.nodup |> List.nodup_cons.1).1
    have hmem : ∀ m ∈ b ++ c, m ∈ b ++ a :: c := fun m hm => by
      simp only [List.mem_append, List.mem_cons] at hm ⊢; tauto
    rw [hpd, hpd, if_neg (ne_of_mem_of_not_mem hj hac), if_neg (ne_of_mem_of_not_mem hk hac)] at he
    exact h.distinct j (hmem j hj) k (hmem k hk) he
  actual := hactual

/-- The slots when `sched_exit` has taken slot `a` out between the slots `z` and `y`. -/
def Sched.unlink (s : Sched) (a y z : Nat) : Sched :=
  (((s.modify z fun t => { t with next := some y }).modify y fun t =>
    { t with prev := some z }).modify a fun _ => .zero).modify a fun t => { t with pd := none }

theorem Sched.unlink_pd (s : Sched) (a y z j : Nat) :
    ((s.unlink a y z).tasks j).pd = if j = a then none else (s.tasks j).pd := by
  split_ifs with hj
  · rw [Sched.unlink, hj, Sched.modify_self]
  · rw [Sched.unlink, Sched.modify_of_ne hj, Sched.modify_of_ne hj, Sched.modify_prev_pd,
      Sched.modify_next_pd]

theorem Sched.unlink_next (s : Sched) (y z : Nat) {a j : Nat} (hj : j ≠ a) :
    ((s.unlink a y z).tasks j).next = if j = z then some y else (s.tasks j).next := by
  rw [Sched.unlink, Sched.modify_of_ne hj, Sched.modify_of_ne hj, Sched.modify_prev_next,
    Sched.modify_next_next]

theorem Sched.unlink_prev (s : Sched) (y z : Nat) {a j : Nat} (hj : j ≠ a) :
    ((s.unlink a y z).tasks j).prev = if j = y then some z else (s.tasks j).prev := by
  rw [Sched.unlink, Sched.modify_of_ne hj, Sched.modify_of_ne hj, Sched.modify_prev_prev,
    Sched.modify_next_prev]

/-- The slot `a` is taken out between the slots `z` and `y`. -/
structure Sched.Popped (s s' : Sched) (a y z : Nat) : Prop where
  pd : ∀ j, (s'.tasks j).pd = if j = a then none else (s.tasks j).pd
  next : ∀ j ≠ a, (s'.tasks j).next = if j = z then some y else (s.tasks j).next
  prev : ∀ j ≠ a, (s'.tasks j).prev = if j = y then some z else (s.tasks j).prev
  first : s'.first = if s.first = some a then some y else s.first
  last : s'.last = if s.last = some a then some z else s.last
  running : s'.runningTasks = s.runningTasks - 1
  actual : s'.actual = some y

theorem schedExit_popped {a y z : Nat} (h : s.Holds r) (ha : s.actual = some a)
    (hlen : 1 < r.length) (hy : y ∈ r) (hya : y ≠ a) (hza : z ≠ a)
    (hnext : (s.tasks a).next = some y) (hprev : (s.tasks a).prev = some z) :
    ∃ v s', schedExit s = some (v, s') ∧ (s.tasks y).pd = some v ∧ s.Popped s' a y z := by
  have har := h.actual a ha
  have hne : r ≠ [] := fun he => by simp [he] at hlen
  obtain ⟨f, hf⟩ : ∃ f, s.first = some f :=
    ⟨_, h.first.trans (List.head?_eq_some_head hne)⟩
  obtain ⟨w, hw⟩ : ∃ w, s.last = some w :=
    ⟨_, h.last.trans (List.getLast?_eq_some_getLast hne)⟩
  have hfr : f ∈ r := List.mem_of_head? (h.first ▸ hf)
  have hwr : w ∈ r := List.mem_of_getLast? (h.last ▸ hw)
  have hpd : ∀ i ∈ r, ((s.tasks i).pd = (s.tasks a).pd ↔ i = a) := fun i hi =>
    ⟨h.distinct i hi a har, fun he => he ▸ rfl⟩
  obtain ⟨v, hv⟩ := h.exists_pd hy
  have hrun : 1 < s.runningTasks := h.running ▸ hlen
  rw [schedExit, if_neg (by omega), if_pos hrun]
  by_cases hfa : f = a <;> by_cases hwa : w = a <;>
    simp only [hf, hw, ha, Option.bind_eq_bind, Option.bind_some, hpd f hfr, hpd w hwr, hfa, hwa,
      if_true, if_false, hnext, hprev, Sched.modify_of_ne hza.symm, Sched.modify_of_ne hya,
      Sched.modify_self, Sched.modify_next_pd, hv] <;>
    refine ⟨v, _, rfl, rfl, Sched.unlink_pd s a y z, fun j => Sched.unlink_next s y z,
      fun j => Sched.unlink_prev s y z, ?_, ?_, rfl, rfl⟩ <;>
    simp [Sched.modify_first, Sched.modify_last, hf, hw, hfa, hwa]

/-- The neighbours of a slot of the ring, once it is not alone. -/
theorem Sched.Holds.neighbours {a : Nat} {b c : List Nat} (h : s.Holds (b ++ a :: c))
    (hne : b ++ c ≠ []) : ∃ y z, (c ++ b).head? = some y ∧ (c ++ b).getLast? = some z ∧
      (s.tasks a).next = some y ∧ (s.tasks a).prev = some z := by
  have hrot : Linked.Ring (fun i => (s.tasks i).next) (fun i => (s.tasks i).prev)
      (a :: (c ++ b)) := by
    have := h.ring.rotate
    rwa [List.cons_append] at this
  have hcb : c ++ b ≠ [] := fun he => hne (by simp_all)
  obtain ⟨y, m, hym⟩ := List.exists_cons_of_ne_nil hcb
  obtain ⟨n, z, hnz⟩ := (List.eq_nil_or_concat (c ++ b)).resolve_left hcb
  rw [List.concat_eq_append] at hnz
  refine ⟨y, z, by rw [hym]; rfl, by rw [hnz]; exact List.getLast?_concat, ?_, ?_⟩
  · rw [hym] at hrot
    exact hrot.next_head
  · rw [hnz] at hrot
    exact hrot.prev_head

/-- `first`, when a slot leaves the ring whose next one is `y`. -/
theorem head?_remove {a y : Nat} {b c : List Nat} (hab : a ∉ b) (hy : (c ++ b).head? = some y) :
    (if (b ++ a :: c).head? = some a then some y else (b ++ a :: c).head?) = (b ++ c).head? := by
  cases b with
  | nil =>
    rw [List.append_nil] at hy
    exact (if_pos rfl).trans hy.symm
  | cons x b => exact if_neg fun he => hab (by cases he; exact List.mem_cons_self)

/-- `last`, when a slot leaves the ring whose previous one is `z`. -/
theorem getLast?_remove {a z : Nat} {b c : List Nat} (hac : a ∉ c)
    (hz : (c ++ b).getLast? = some z) :
    (if (b ++ a :: c).getLast? = some a then some z else (b ++ a :: c).getLast?) =
      (b ++ c).getLast? := by
  rcases List.eq_nil_or_concat c with rfl | ⟨c, w, rfl⟩
  · rw [List.append_nil, if_pos List.getLast?_concat]
    exact hz.symm
  · rw [List.concat_eq_append, ← List.cons_append, ← List.append_assoc, ← List.append_assoc,
      List.getLast?_concat, List.getLast?_concat]
    exact if_neg fun he => hac (by simp [Option.some.inj he])

/-- `sched_exit` takes the slot of `actual` out of the ring. -/
theorem schedExit_slot {a : Nat} {b c : List Nat} (h : s.Holds (b ++ a :: c))
    (ha : s.actual = some a) : ∃ v s', schedExit s = some (v, s') ∧ s'.Holds (b ++ c) ∧
      (∀ j, (s'.tasks j).pd = if j = a then none else (s.tasks j).pd) ∧
      s'.actual = (c ++ b).head? ∧
      (s'.actual = none ∧ v = 0 ∨ ∃ y, s'.actual = some y ∧ (s'.tasks y).pd = some v) := by
  by_cases hne : b ++ c = []
  · obtain ⟨rfl, rfl⟩ := List.append_eq_nil_iff.1 hne
    have hrun : s.runningTasks = 1 := h.running
    rw [schedExit, if_neg (by omega), if_neg (by omega), ha, Option.bind_eq_bind,
      Option.bind_some]
    have hpd : ∀ j, (((s.modify a fun _ => .zero).modify a fun t => { t with pd := none }).tasks
        j).pd = if j = a then none else (s.tasks j).pd := fun j => by
      simp only [Sched.modify, Function.update_apply]
      split_ifs <;> rfl
    refine ⟨0, _, rfl, h.of_exit hpd .nil rfl rfl rfl (fun x hx => nomatch hx), hpd, rfl,
      .inl ⟨rfl, rfl⟩⟩
  · obtain ⟨y, z, hy, hz, hnext, hprev⟩ := h.neighbours hne
    have hac : a ∉ c ++ b := by
      have := (List.nodup_cons.1 (List.nodup_middle.1 h.ring.nodup)).1
      rwa [List.mem_append, or_comm, ← List.mem_append] at this
    have hac' : a ∉ c := fun hc => hac (List.mem_append_left _ hc)
    have hab : a ∉ b := fun hb => hac (List.mem_append_right _ hb)
    have hyc : y ∈ c ++ b := List.mem_of_head? hy
    have hzc : z ∈ c ++ b := List.mem_of_getLast? hz
    have hya : y ≠ a := ne_of_mem_of_not_mem hyc hac
    have hlen : 1 < (b ++ a :: c).length := by
      have := List.length_pos_of_mem hyc
      simp only [List.length_append, List.length_cons] at this ⊢
      omega
    obtain ⟨v, s', hs', hv, hpop⟩ := schedExit_popped h ha hlen (by simp_all; tauto) hya
      (ne_of_mem_of_not_mem hzc hac) hnext hprev
    have hrot : Linked.Ring (fun i => (s.tasks i).next) (fun i => (s.tasks i).prev)
        (a :: (c ++ b)) := by
      have := h.ring.rotate
      rwa [List.cons_append] at this
    have hring : Linked.Ring (fun i => (s'.tasks i).next) (fun i => (s'.tasks i).prev)
        (c ++ b) := by
      refine (hrot.pop hy hz).congr (fun j hj => ?_) fun j hj => ?_
      · rw [hpop.next j (ne_of_mem_of_not_mem hj hac), Function.update_apply, hnext]
      · rw [hpop.prev j (ne_of_mem_of_not_mem hj hac), Function.update_apply, hprev]
    refine ⟨v, s', hs', h.of_exit hpop.pd hring.rotate ?_ ?_ hpop.running (fun x hx => ?_), hpop.pd,
      hpop.actual.trans hy.symm, .inr ⟨y, hpop.actual, ?_⟩⟩
    · rw [hpop.first, h.first, head?_remove hab hy]
    · rw [hpop.last, h.last, getLast?_remove hac' hz]
    · obtain rfl : y = x := Option.some.inj (hpop.actual.symm.trans hx)
      rwa [List.mem_append, or_comm, ← List.mem_append]
    · rw [hpop.pd, if_neg hya, hv]

/-- The processes with a slot and the next one to run, as `sched_exit` leaves them. -/
theorem schedExit_spec {a : Nat} (h : s.Holds r) (ha : s.actual = some a)
    (hp : (s.tasks a).pd = some p) : ∃ v s' r', schedExit s = some (v, s') ∧ s'.Holds r' ∧
      (∀ q, s'.Runs q ↔ s.Runs q ∧ q ≠ p) ∧
      (s'.actual = none ∧ v = 0 ∨ ∃ y, s'.actual = some y ∧ (s'.tasks y).pd = some v) := by
  have har := h.actual a ha
  have hused : ∀ {j q}, j < maxPid → (s.tasks j).pd = some q → j ∈ r := fun hj hq =>
    (h.used _).2 ⟨hj, by rw [hq]; exact Option.some_ne_none _⟩
  obtain ⟨b, c, rfl⟩ := List.append_of_mem har
  obtain ⟨v, s', hs', hholds, hpd, -, hv⟩ := schedExit_slot h ha
  refine ⟨v, s', b ++ c, hs', hholds, fun q => ⟨?_, ?_⟩, hv⟩
  · rintro ⟨j, hj, hq⟩
    rw [hpd] at hq
    split_ifs at hq with hja
    refine ⟨⟨j, hj, hq⟩, ?_⟩
    rintro rfl
    exact hja (h.distinct j (hused hj hq) a har (hq.trans hp.symm))
  · rintro ⟨⟨j, hj, hq⟩, hne⟩
    refine ⟨j, hj, ?_⟩
    rw [hpd, if_neg, hq]
    rintro rfl
    exact hne (Option.some.inj (hq.symm.trans hp))

theorem Sched.Holds.of_tick {s' : Sched} (h : s.Holds r)
    (htasks : ∀ j, (s'.tasks j).pd = (s.tasks j).pd ∧ (s'.tasks j).next = (s.tasks j).next ∧
      (s'.tasks j).prev = (s.tasks j).prev) (hfirst : s'.first = s.first) (hlast : s'.last = s.last)
    (hrun : s'.runningTasks = s.runningTasks) (hactual : ∀ a, s'.actual = some a → a ∈ r) :
    s'.Holds r where
  ring := h.ring.congr (fun j _ => (htasks j).2.1) fun j _ => (htasks j).2.2
  first := hfirst.trans h.first
  last := hlast.trans h.last
  running := hrun.trans h.running
  used i := by rw [h.used i, (htasks i).1]
  distinct i hi j hj he := h.distinct i hi j hj (by rwa [(htasks i).1, (htasks j).1] at he)
  actual := hactual

/-- The ring goes on from every slot. -/
theorem Sched.Holds.exists_next {a : Nat} (h : s.Holds r) (ha : a ∈ r) :
    ∃ y ∈ r, (s.tasks a).next = some y := by
  obtain ⟨b, c, rfl⟩ := List.append_of_mem ha
  by_cases hne : b ++ c = []
  · obtain ⟨rfl, rfl⟩ := List.append_eq_nil_iff.1 hne
    exact ⟨a, List.mem_cons_self, h.ring.next.1⟩
  · obtain ⟨y, z, hy, -, hnext, -⟩ := h.neighbours hne
    refine ⟨y, ?_, hnext⟩
    have := List.mem_of_head? hy
    simp only [List.mem_append, List.mem_cons] at this ⊢
    tauto

/-- A new quantum leaves the rest of the slots as it was. -/
theorem Sched.modify_quantum (s : Sched) (a : Nat) (q : SchedTask → Nat) (j : Nat) :
    ((s.modify a fun t => { t with quantum := q t }).tasks j).pd = (s.tasks j).pd ∧
    ((s.modify a fun t => { t with quantum := q t }).tasks j).next = (s.tasks j).next ∧
    ((s.modify a fun t => { t with quantum := q t }).tasks j).prev = (s.tasks j).prev := by
  rcases eq_or_ne j a with rfl | hj
  · rw [modify_self]; exact ⟨rfl, rfl, rfl⟩
  · rw [modify_of_ne hj]; exact ⟨rfl, rfl, rfl⟩

/-- `sched_tick` moves `actual` along the ring at most. -/
theorem schedTick_spec (h : s.Holds r) : ∃ v s', schedTick s = some (v, s') ∧ s'.Holds r ∧
    (∀ j, (s'.tasks j).pd = (s.tasks j).pd) ∧
    (s'.actual = none ∧ v = 0 ∨ ∃ y, s'.actual = some y ∧ (s'.tasks y).pd = some v) := by
  rw [schedTick]
  cases ha : s.actual with
  | none =>
    simp only
    split
    · exact ⟨0, s, rfl, h, fun _ => rfl, .inl ⟨ha, rfl⟩⟩
    next hrun =>
      obtain ⟨y, l, rfl⟩ := List.exists_cons_of_ne_nil (l := r)
        fun he => hrun (by simp [h.eq_nil.2 he])
      obtain ⟨v, hv⟩ := h.exists_pd List.mem_cons_self
      have hfirst : s.first = some y := h.first
      simp only [hfirst, Option.bind_eq_bind, Option.bind_some, hv]
      exact ⟨v, _, rfl, h.of_tick (fun _ => ⟨rfl, rfl, rfl⟩) hfirst.symm rfl rfl
        fun a ha => Option.some.inj ha ▸ List.mem_cons_self, fun _ => rfl, .inr ⟨y, rfl, hv⟩⟩
  | some a =>
    have har := h.actual a ha
    simp only
    split
    · obtain ⟨v, hv⟩ := h.exists_pd har
      have hkeep := s.modify_quantum a fun t => t.quantum - 1
      simp only [Option.bind_eq_bind, (hkeep a).1, hv, Option.bind_some]
      exact ⟨v, _, rfl, h.of_tick hkeep rfl rfl rfl h.actual, fun j => (hkeep j).1,
        .inr ⟨a, ha, (hkeep a).1.trans hv⟩⟩
    · obtain ⟨y, hyr, hnext⟩ := h.exists_next har
      obtain ⟨v, hv⟩ := h.exists_pd hyr
      have hkeep := s.modify_quantum a fun _ => schedQuantumDefault
      simp only [Option.bind_eq_bind, (hkeep a).2.1, hnext, (hkeep y).1, hv, Option.bind_some]
      exact ⟨v, _, rfl, h.of_tick hkeep rfl rfl rfl fun x hx => Option.some.inj hx ▸ hyr,
        fun j => (hkeep j).1, .inr ⟨y, rfl, (hkeep y).1.trans hv⟩⟩

end

end SpuriOS
