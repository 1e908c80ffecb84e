import SpuriOS.Loader.Model

/-! # The place of every process (`kernel/loader.c`, `kernel/sched.c`)

A live process other than the idle one has a slot of the scheduler, or is linked in one wait
queue, or is among the sleepers. While a call moves processes they are in transit. There is one
lemma for each function of the loader, which says what it does to the ring, to the queues and to
the sleepers. -/

namespace SpuriOS

open Transition

/-! ## Being in one place -/

section
variable {α β : Type} {inPlace inPlace' : α → β → Prop} {live live' : α → Prop} {transit : List α}
  {p : α} {a : β}

/-- Each of the `live` is in exactly one place, except for those in `transit`, who are in none. -/
structure Placed (inPlace : α → β → Prop) (live : α → Prop) (transit : List α) : Prop where
  alive : ∀ {p a}, inPlace p a → live p ∧ p ∉ transit
  place : ∀ {p}, live p → p ∉ transit → ∃! a, inPlace p a

theorem Placed.enter (h : Placed inPlace live (p :: transit)) (hp : live p) (ht : p ∉ transit)
    (hin : ∀ q b, inPlace' q b ↔ inPlace q b ∨ q = p ∧ b = a) :
    Placed inPlace' live transit where
  alive {q b} hq := by
    rcases (hin q b).1 hq with hq | ⟨rfl, -⟩
    · obtain ⟨hl, hn⟩ := h.alive hq
      exact ⟨hl, fun hm => hn (List.mem_cons_of_mem _ hm)⟩
    · exact ⟨hp, ht⟩
  place {q} hl hq := by
    by_cases hqp : q = p
    · subst hqp
      refine ⟨a, (hin q a).2 (.inr ⟨rfl, rfl⟩), fun b hb => ?_⟩
      rcases (hin q b).1 hb with hb | ⟨-, rfl⟩
      · exact absurd List.mem_cons_self (h.alive hb).2
      · rfl
    · obtain ⟨b, hb, huniq⟩ := h.place hl (by simp [hqp, hq])
      refine ⟨b, (hin q b).2 (.inl hb), fun b' hb' => ?_⟩
      rcases (hin q b').1 hb' with hb' | ⟨rfl, -⟩
      · exact huniq b' hb'
      · exact absurd rfl hqp

theorem Placed.leave (h : Placed inPlace live transit) (hp : inPlace p a)
    (hin : ∀ q b, inPlace' q b ↔ inPlace q b ∧ (q = p → b ≠ a)) :
    Placed inPlace' live (p :: transit) where
  alive {q b} hq := by
    obtain ⟨hq, hne⟩ := (hin q b).1 hq
    obtain ⟨hl, hn⟩ := h.alive hq
    refine ⟨hl, ?_⟩
    rw [List.mem_cons, not_or]
    refine ⟨fun he => hne he ?_, hn⟩
    subst he
    exact (h.place hl hn).unique hq hp
  place {q} hl hq := by
    rw [List.mem_cons, not_or] at hq
    obtain ⟨b, hb, huniq⟩ := h.place hl hq.2
    exact ⟨b, (hin q b).2 ⟨hb, fun he => absurd he hq.1⟩,
      fun b' hb' => huniq b' ((hin q b').1 hb').1⟩

theorem Placed.born (h : Placed inPlace live transit) (hp : ¬live p)
    (hl : ∀ q, live' q ↔ live q ∨ q = p) : Placed inPlace live' (p :: transit) where
  alive {q b} hq := by
    obtain ⟨hlq, hn⟩ := h.alive hq
    refine ⟨(hl q).2 (.inl hlq), ?_⟩
    rw [List.mem_cons, not_or]
    exact ⟨fun he => hp (he ▸ hlq), hn⟩
  place {q} hlq hq := by
    rw [List.mem_cons, not_or] at hq
    exact h.place (((hl q).1 hlq).resolve_right hq.1) hq.2

theorem Placed.die (h : Placed inPlace live (p :: transit))
    (hl : ∀ q, live' q ↔ live q ∧ q ≠ p) : Placed inPlace live' transit where
  alive {q b} hq := by
    obtain ⟨hlq, hn⟩ := h.alive hq
    rw [List.mem_cons, not_or] at hn
    exact ⟨(hl q).2 ⟨hlq, hn.1⟩, hn.2⟩
  place {q} hlq hq := by
    obtain ⟨hlq, hne⟩ := (hl q).1 hlq
    exact h.place hlq (by simp [hne, hq])

end

/-! ## The places of a process -/

inductive Place (Q : Type) where
  | ring
  | queue (q : Q)
  | asleep

section
variable {Q : Type}

def Kernel.Live (k : Kernel Q) (p : Pid) : Prop := (k.processes p).id ≠ none ∧ p ≠ idlePid

/-- Process `p` is in a place, where `w` are the wait queues and `z` the sleepers. -/
def Kernel.At (k : Kernel Q) (w : Q → List Pid) (z : List Pid) (p : Pid) : Place Q → Prop
  | .ring => k.sched.Runs p
  | .queue q => p ∈ w q
  | .asleep => p ∈ z

/-- The ring of the scheduler has the slots `r`, the wait queues link the processes `w`, those
asleep are `z`, and no process is in a list twice or in two places. -/
structure Kernel.Placement (k : Kernel Q) (r : List Nat) (w : Q → List Pid) (z transit : List Pid) :
    Prop where
  holds : k.sched.Holds r
  head : ∀ q, k.queue q = (w q).head?
  line : ∀ q, Linked.Line (fun p => (k.processes p).next) (fun p => (k.processes p).prev) (w q)
  firstSlept : k.firstSlept = z.head?
  chain : Linked.Chain (fun p => (k.sleeping p).next) z none
  nodup : z.Nodup
  placed : Placed (k.At w z) k.Live transit

/-- What `sched_exit` relies on: it is called for the process whose slot is `actual`. -/
def SchedCall.Ok (c : SchedCall) : Prop := c.node = some c.pid ∧ 0 < c.running

/-- The invariant with processes in `transit`, when the process to run next is `v`. -/
structure Kernel.Inv (k : Kernel Q) (r : List Nat) (w : Q → List Pid) (z transit : List Pid)
    (v : Pid) : Prop extends k.Placement r w z transit where
  transitLive : ∀ p ∈ transit, k.Live p
  transitNodup : transit.Nodup
  unlinked : ∀ p, k.Live p → (∀ q, p ∉ w q) →
    (k.processes p).prev = none ∧ (k.processes p).next = none
  lt : ∀ p, k.Live p → p < maxPid
  idle : (k.processes idlePid).id ≠ none
  exiting : ∀ p, k.exiting p = none
  running : k.halted = false
  schedCalls : ∀ c ∈ k.schedCalls, c.Ok
  current : k.sched.actual = none ∧ v = idlePid ∨
    ∃ a, k.sched.actual = some a ∧ (k.sched.tasks a).pd = some v

namespace Kernel.Inv
variable {k : Kernel Q} {r : List Nat} {w : Q → List Pid} {z t : List Pid} {p v : Pid}

theorem not_at (h : k.Inv r w z t v) (hp : p ∈ t) (a : Place Q) : ¬k.At w z p a :=
  fun ha => (h.placed.alive ha).2 hp

/-- A process in transit gets a slot. -/
theorem schedLoad (h : k.Inv r w z (p :: t) v) : ∃ i sched,
    k.schedLoad p = .ret 0 { k with sched, schedLoads := k.schedLoads ++ [p] } ∧
      Kernel.Inv { k with sched, schedLoads := k.schedLoads ++ [p] } (r ++ [i]) w z t v := by
  have hp := h.transitLive p List.mem_cons_self
  have hn : ¬k.sched.Runs p := h.not_at List.mem_cons_self .ring
  have hroom := h.holds.length_lt (h.lt p hp) hn fun q hq =>
    h.lt q (h.placed.alive (a := .ring) hq).1
  obtain ⟨i, s', hs', hholds, hactual, hruns, hpd⟩ := schedLoad_spec h.holds (h.lt p hp) hn hroom
  refine ⟨i, s', by rw [Kernel.schedLoad, hs'], { h with
    holds := hholds
    placed := h.placed.enter hp (List.nodup_cons.1 h.transitNodup).1 (a := .ring) fun q b => ?_
    transitLive := fun q hq => h.transitLive q (List.mem_cons_of_mem _ hq)
    transitNodup := (List.nodup_cons.1 h.transitNodup).2
    current := ?_ }⟩
  · cases b with
    | ring => exact (hruns q).trans (by simp [Kernel.At])
    | queue q' => exact (by simp [Kernel.At])
    | asleep => exact (by simp [Kernel.At])
  · show s'.actual = none ∧ _ ∨ ∃ a, s'.actual = some a ∧ (s'.tasks a).pd = some v
    rw [hactual]
    refine h.current.imp_right fun ⟨a, ha, hpa⟩ => ⟨a, ha, ?_⟩
    rw [hpd a (h.holds.actual a ha), hpa]

/-- The slot of the current process is given up. -/
theorem schedExit (h : k.Inv r w z t k.curPid) (hcur : k.curPid ≠ idlePid) :
    ∃ v r' sched schedCalls, k.schedExit = .ret (v : Nat) { k with sched, schedCalls } ∧
      Kernel.Inv { k with sched, schedCalls } r' w z (k.curPid :: t) v := by
  obtain ⟨a, ha, hpa⟩ := h.current.resolve_left fun hc => hcur hc.2
  have har := h.holds.actual a ha
  have hruns : k.sched.Runs k.curPid := ⟨a, ((h.holds.used a).1 har).1, hpa⟩
  obtain ⟨hlive, hnt⟩ := h.placed.alive (a := .ring) hruns
  obtain ⟨v, s', r', hs', hholds, hruns', hv⟩ := schedExit_spec h.holds ha hpa
  refine ⟨v, r', s', k.schedCalls ++ [⟨k.curPid, some k.curPid, k.sched.runningTasks⟩],
    by simp only [Kernel.schedExit, hs', ha, Option.bind_some, hpa], { h with
    holds := hholds
    placed := h.placed.leave (a := .ring) hruns fun q b => ?_
    transitLive := fun q hq => ?_
    transitNodup := List.nodup_cons.2 ⟨hnt, h.transitNodup⟩
    schedCalls := fun c hc => ?_
    current := hv }⟩
  · cases b with
    | ring => exact (hruns' q).trans (and_congr_right fun _ => by simp)
    | queue q' => exact (by simp [Kernel.At])
    | asleep => exact (by simp [Kernel.At])
  · rcases List.mem_cons.1 hq with rfl | hq
    · exact hlive
    · exact h.transitLive q hq
  · rcases List.mem_append.1 hc with hc | hc
    · exact h.schedCalls c hc
    · rw [List.mem_singleton.1 hc]
      refine ⟨rfl, ?_⟩
      show 0 < k.sched.runningTasks
      rw [h.holds.running]
      exact List.length_pos_of_mem har

theorem queue_unique (h : k.Inv r w z t v) {q q' : Q} (hq : p ∈ w q) (hq' : p ∈ w q') : q = q' := by
  have hat : k.At w z p (.queue q) := hq
  have hat' : k.At w z p (.queue q') := hq'
  obtain ⟨hl, hn⟩ := h.placed.alive hat
  exact Place.queue.inj ((h.placed.place hl hn).unique hat hat')

theorem not_asleep (h : k.Inv r w z t v) {q : Q} (hq : p ∈ w q) : p ∉ z := fun hz => by
  have hat : k.At w z p (.queue q) := hq
  have hat' : k.At w z p .asleep := hz
  obtain ⟨hl, hn⟩ := h.placed.alive hat
  exact nomatch (h.placed.place hl hn).unique hat hat'

variable [DecidableEq Q] {q : Q} {l : List Pid} {t' : List Pid}

/-- A queue takes or loses a process; only links of its processes and of those in transit change. -/
theorem relink (h : k.Inv r w z t v) {processes : Pid → Pcb}
    (hid : ∀ x, (processes x).id = (k.processes x).id)
    (hline : Linked.Line (fun p => (processes p).next) (fun p => (processes p).prev) l)
    (hout : ∀ x, x ∉ w q → x ∉ t → processes x = k.processes x)
    (hun : ∀ x, x ∈ w q ∨ x ∈ t → x ∉ l → (processes x).prev = none ∧ (processes x).next = none)
    (hplaced : Placed (k.At (Function.update w q l) z) k.Live t')
    (htransit : ∀ x ∈ t', k.Live x) (hnodup : t'.Nodup) :
    Kernel.Inv { k with processes, queue := Function.update k.queue q l.head? } r
      (Function.update w q l) z t' v := by
  have hlive : ∀ x, Kernel.Live { k with
      processes, queue := Function.update k.queue q l.head? } x ↔ k.Live x := fun x => by
    rw [Kernel.Live, Kernel.Live, hid]
  refine { h with
    head := fun q' => ?_
    line := fun q' => ?_
    placed := ⟨fun ha => ⟨(hlive _).2 (hplaced.alive ha).1, (hplaced.alive ha).2⟩,
      fun hl => hplaced.place ((hlive _).1 hl)⟩
    transitLive := fun x hx => (hlive x).2 (htransit x hx)
    transitNodup := hnodup
    unlinked := fun x hx hw => ?_
    lt := fun x hx => h.lt x ((hlive x).1 hx)
    idle := by dsimp only; rw [hid]; exact h.idle }
  · dsimp only
    rcases eq_or_ne q' q with rfl | hq
    · rw [Function.update_self, Function.update_self]
    · rw [Function.update_of_ne hq, Function.update_of_ne hq, h.head]
  · rcases eq_or_ne q' q with rfl | hq
    · rw [Function.update_self]
      exact hline
    · rw [Function.update_of_ne hq]
      have hsame : ∀ x ∈ w q', processes x = k.processes x := fun x hx =>
        hout x (fun hx' => hq (h.queue_unique hx hx')) (h.placed.alive (a := .queue q') hx).2
      exact (h.line q').congr (fun x hx => congrArg Pcb.next (hsame x hx))
        fun x hx => congrArg Pcb.prev (hsame x hx)
  · have hxl : x ∉ l := fun hm => hw q (by rwa [Function.update_self])
    by_cases hold : x ∈ w q ∨ x ∈ t
    · exact hun x hold hxl
    · rw [not_or] at hold
      dsimp only
      rw [hout x hold.1 hold.2]
      refine h.unlinked x ((hlive x).1 hx) fun q' hm => ?_
      rcases eq_or_ne q' q with rfl | hq
      · exact hold.1 hm
      · exact hw q' (by rwa [Function.update_of_ne hq])

/-- A process in transit joins the end of a queue. -/
theorem enqueue (h : k.Inv r w z (p :: t) v) {processes : Pid → Pcb}
    (hid : ∀ x, (processes x).id = (k.processes x).id)
    (hline : Linked.Line (fun p => (processes p).next) (fun p => (processes p).prev) (w q ++ [p]))
    (hout : ∀ x, x ∉ w q → x ≠ p → processes x = k.processes x) :
    Kernel.Inv { k with processes, queue := Function.update k.queue q (w q ++ [p]).head? } r
      (Function.update w q (w q ++ [p])) z t v := by
  have hp := h.transitLive p List.mem_cons_self
  obtain ⟨hpt, hnd⟩ := List.nodup_cons.1 h.transitNodup
  refine h.relink hid hline (fun x hx hxt => hout x hx (List.ne_of_not_mem_cons hxt))
    (fun x hx hxl => ?_) (h.placed.enter hp hpt (a := .queue q) fun x b => ?_)
    (fun x hx => h.transitLive x (List.mem_cons_of_mem _ hx)) hnd
  · rw [List.mem_append, not_or, List.mem_singleton] at hxl
    rw [hout x hxl.1 hxl.2]
    have hxt := hx.resolve_left hxl.1
    exact h.unlinked x (h.transitLive x hxt) fun q' => h.not_at hxt (.queue q')
  · cases b with
    | ring => simp [Kernel.At]
    | queue q' =>
      rcases eq_or_ne q' q with rfl | hq
      · simp [Kernel.At]
      · simp [Kernel.At, hq]
    | asleep => simp [Kernel.At]

/-- The first process of a queue leaves it. -/
theorem dequeue (h : k.Inv r w z t v) (hw : w q = p :: l) (processes : Pid → Pcb)
    (hid : ∀ x, (processes x).id = (k.processes x).id)
    (hline : Linked.Line (fun p => (processes p).next) (fun p => (processes p).prev) l)
    (hp : (processes p).prev = none ∧ (processes p).next = none)
    (hout : ∀ x, x ∉ w q → processes x = k.processes x) :
    Kernel.Inv { k with processes, queue := Function.update k.queue q l.head? } r
      (Function.update w q l) z (p :: t) v := by
  have hpq : p ∈ w q := hw ▸ List.mem_cons_self
  obtain ⟨hlive, hnt⟩ := h.placed.alive (a := .queue q) hpq
  have hpl : p ∉ l := (List.nodup_cons.1 (hw ▸ (h.line q).nodup)).1
  refine h.relink hid hline (fun x hx _ => hout x hx) (fun x hx hxl => ?_)
    (h.placed.leave (a := .queue q) hpq fun x b => ?_) (fun x hx => ?_)
    (List.nodup_cons.2 ⟨hnt, h.transitNodup⟩)
  · rcases hx with hx | hx
    · rw [hw, List.mem_cons, or_iff_left hxl] at hx
      rwa [hx]
    · have hnot : ∀ q', x ∉ w q' := fun q' => h.not_at hx (.queue q')
      rw [hout x (hnot q)]
      exact h.unlinked x (h.transitLive x hx) hnot
  · cases b with
    | ring => simp [Kernel.At]
    | queue q' =>
      rcases eq_or_ne q' q with rfl | hq
      · simp only [Kernel.At, Function.update_self, hw, List.mem_cons, ne_eq, not_true_eq_false]
        grind
      · simp [Kernel.At, hq]
    | asleep => simp [Kernel.At]
  · rcases List.mem_cons.1 hx with rfl | hx
    · exact hlive
    · exact h.transitLive x hx

omit [DecidableEq Q] in
theorem length_le (h : k.Inv r w z t v) {l : List Pid} (hl : l.Nodup) (hlive : ∀ x ∈ l, k.Live x) :
    l.length ≤ maxPid := by
  have := (hl.subperm fun x hx => List.mem_range.2 (h.lt x (hlive x hx))).length_le
  rwa [List.length_range] at this

end Kernel.Inv

/-! ## The wait queues -/

section
variable {k : Kernel Q} {l : List Pid} {p y : Pid} {fuel : Nat}

theorem queueTail_spec (hl : Linked.Chain (fun p => (k.processes p).next) (l ++ [y]) none)
    (hp : (l ++ [y]).head? = some p) (hfuel : l.length < fuel) : queueTail k fuel p = some y := by
  induction l generalizing p fuel with
  | nil =>
    obtain rfl : y = p := by simpa using hp
    obtain ⟨n, rfl⟩ := Nat.exists_eq_succ_of_ne_zero (Nat.ne_of_gt hfuel)
    have hy : (k.processes y).next = none := hl.1
    rw [queueTail, hy]
  | cons x l ih =>
    obtain rfl : x = p := by simpa using hp
    obtain ⟨n, rfl⟩ := Nat.exists_eq_succ_of_ne_zero (Nat.ne_of_gt (Nat.zero_lt_of_lt hfuel))
    obtain ⟨q, hq⟩ : ∃ q, (l ++ [y]).head? = some q := Option.ne_none_iff_exists'.1 (by simp)
    rw [List.cons_append, Linked.chain_cons, hq, Option.some_or] at hl
    rw [queueTail, hl.1]
    exact ih hl.2 hq (Nat.lt_of_succ_lt_succ hfuel)

end

namespace Kernel.Inv
variable [DecidableEq Q] {k : Kernel Q} {r : List Nat} {w : Q → List Pid} {z t : List Pid}
  {p v : Pid} {q : Q}

/-- `loader_enqueue` puts the current process behind the last one of the queue. -/
theorem linkInto (h : k.Inv r w z t v) (hcur : k.curPid ∉ w q)
    (hprev : (k.processes k.curPid).prev = none) (hnext : (k.processes k.curPid).next = none) :
    ∃ processes, linkInto q k = some { k with
        processes, queue := Function.update k.queue q (w q ++ [k.curPid]).head? } ∧
      (∀ x, (processes x).id = (k.processes x).id) ∧
      Linked.Line (fun p => (processes p).next) (fun p => (processes p).prev) (w q ++ [k.curPid]) ∧
      ∀ x, x ∉ w q → x ≠ k.curPid → processes x = k.processes x := by
  have hhead := h.head q
  have hline := h.line q
  have hlen := h.length_le hline.nodup fun x hx => (h.placed.alive (a := .queue q) hx).1
  rcases List.eq_nil_or_concat (w q) with hw | ⟨l, y, hw⟩
  · rw [hw] at hhead ⊢
    refine ⟨k.processes, ?_, fun _ => rfl, .singleton hnext hprev, fun _ _ _ => rfl⟩
    rw [SpuriOS.linkInto, hhead]
    rfl
  · rw [List.concat_eq_append] at hw
    rw [hw] at hhead hline hcur hlen ⊢
    obtain ⟨hd, hhd⟩ : ∃ hd, (l ++ [y]).head? = some hd := Option.ne_none_iff_exists'.1 (by simp)
    rw [hhd] at hhead
    have hyc : y ≠ k.curPid := fun he => hcur (by simp [he])
    rw [List.length_append, List.length_singleton] at hlen
    have htail := queueTail_spec hline.next hhd (Nat.lt_of_succ_le hlen)
    refine ⟨((k.modifyPcb y fun t => { t with next := some k.curPid }).modifyPcb k.curPid
        fun t => { t with prev := some y }).processes, ?_, fun x => ?_,
      (hline.push hcur hnext).congr (fun x _ => ?_) fun x _ => ?_, fun x hx hxc => ?_⟩
    · rw [SpuriOS.linkInto, hhead]
      simp only [htail, Option.bind_eq_bind, Option.bind_some, Kernel.modifyPcb]
      have hqueue : Function.update k.queue q (some hd) = k.queue :=
        Function.update_eq_self_iff.2 hhead.symm
      rw [List.head?_append, hhd, Option.some_or, hqueue]
    · simp only [Kernel.modifyPcb, Function.update_apply]
      split_ifs <;> simp_all
    · simp only [Kernel.modifyPcb, Function.update_apply]
      split_ifs <;> simp_all
    · simp only [Kernel.modifyPcb, Function.update_apply]
      split_ifs <;> simp_all
    · have hxy : x ≠ y := fun he => hx (by simp [he])
      simp only [Kernel.modifyPcb, Function.update_of_ne hxc, Function.update_of_ne hxy]

end Kernel.Inv

/-! ## The calls of the loader -/

section
variable {k : Kernel Q} {p : Pid} {v : Int} {sched : Sched} {schedLoads : List Pid}
  {schedCalls : List SchedCall}

/-- Only the scheduler matters to `sched_load`. -/
theorem Kernel.schedLoad_frame (h : k.schedLoad p = .ret v { k with sched, schedLoads })
    (processes : Pid → Pcb) (sleeping : Pid → SleptTask) (firstSlept : Option Pid)
    (queue : Q → Option Pid) :
    Kernel.schedLoad { k with processes, sleeping, firstSlept, queue } p =
      .ret v { k with processes, sleeping, firstSlept, queue, sched, schedLoads } := by
  rw [Kernel.schedLoad] at h ⊢
  dsimp only at h ⊢
  cases hs : SpuriOS.schedLoad p k.sched with
  | none =>
    rw [hs] at h
    cases h
  | some s =>
    rw [hs] at h
    injection h with hv hk
    injection hk with _ _ hs' _ _ _ _ _ _ hl
    dsimp only at hv ⊢
    rw [hv, hs', hl]

theorem Kernel.schedExit_frame (h : k.schedExit = .ret v { k with sched, schedCalls })
    (processes : Pid → Pcb) (sleeping : Pid → SleptTask) (firstSlept : Option Pid)
    (queue : Q → Option Pid) :
    Kernel.schedExit { k with processes, sleeping, firstSlept, queue } =
      .ret v { k with processes, sleeping, firstSlept, queue, sched, schedCalls } := by
  rw [Kernel.schedExit] at h ⊢
  dsimp only at h ⊢
  cases hs : SpuriOS.schedExit k.sched with
  | none =>
    rw [hs] at h
    cases h
  | some s =>
    rw [hs] at h
    injection h with hv hk
    injection hk with _ _ hs' _ _ _ _ _ hc
    dsimp only at hv ⊢
    rw [hv, hs', hc]

end

/-- A call leaves the times of the sleepers and hands the processes `l` to the scheduler. -/
structure Kernel.Wakes (k k' : Kernel Q) (l : List Pid) : Prop where
  sleeping : k'.sleeping = k.sleeping
  schedLoads : k'.schedLoads = k.schedLoads ++ l

theorem Kernel.Wakes.none {k k' : Kernel Q} (hs : k'.sleeping = k.sleeping)
    (hl : k'.schedLoads = k.schedLoads) : k.Wakes k' [] :=
  ⟨hs, hl.trans (List.append_nil _).symm⟩

theorem Kernel.Wakes.trans {k k' k'' : Kernel Q} {l l' : List Pid} (h : k.Wakes k' l)
    (h' : k'.Wakes k'' l') : k.Wakes k'' (l ++ l') :=
  ⟨h'.sleeping.trans h.sleeping, by rw [h'.schedLoads, h.schedLoads, List.append_assoc]⟩

namespace Kernel.Inv
variable {k : Kernel Q} {r : List Nat} {w : Q → List Pid} {z t : List Pid} {p v : Pid}

theorem taskSwitch (h : k.Inv r w z t v) (p : Pid) : (k.taskSwitch p).Inv r w z t v :=
  { h with holds := h.holds, placed := h.placed }

variable [DecidableEq Q] {q : Q}

/-- `loader_enqueue` moves the current process from the ring to the end of a queue. -/
theorem loaderEnqueue (h : k.Inv r w z [] k.curPid) (hcur : k.curPid ≠ idlePid) (q : Q) :
    ∃ k' r', loaderEnqueue q k = .ret 0 k' ∧
      k'.Inv r' (Function.update w q (w q ++ [k.curPid])) z [] k'.curPid ∧ k.Wakes k' [] := by
  obtain ⟨v, r', sched, calls, hexit, h'⟩ := h.schedExit hcur
  have hw : ∀ q, k.curPid ∉ w q := fun q => h'.not_at List.mem_cons_self (.queue q)
  obtain ⟨hprev, hnext⟩ := h.unlinked k.curPid (h'.transitLive _ List.mem_cons_self) hw
  obtain ⟨processes, hlink, hid, hline, hout⟩ := h.linkInto (hw q) hprev hnext
  rw [SpuriOS.loaderEnqueue, if_neg (by simp [hprev]), if_neg (by simp [hnext]), hlink]
  dsimp only
  rw [Kernel.block, Kernel.schedExit_frame hexit]
  exact ⟨_, r', rfl, (h'.enqueue hid hline hout).taskSwitch v, .none rfl rfl⟩

/-- `loader_unqueue` moves the first process of a queue, if there is one, to the ring. -/
theorem loaderUnqueue (h : k.Inv r w z t v) (q : Q) :
    ∃ k' r', loaderUnqueue q k = .ret 0 k' ∧ k'.curPid = k.curPid ∧
      k'.Inv r' (Function.update w q (w q).tail) z t v ∧ k.Wakes k' (w q).head?.toList := by
  have hhead := h.head q
  have hline := h.line q
  rw [SpuriOS.loaderUnqueue]
  cases hw : w q with
  | nil =>
    rw [hw] at hhead
    rw [hhead, List.tail_nil, Function.update_eq_self_iff.2 hw.symm]
    exact ⟨k, r, rfl, rfl, h, .none rfl rfl⟩
  | cons p l =>
    rw [hw] at hhead hline
    rw [hhead]
    have hprev : (k.processes p).prev = none := hline.prev_head
    cases l with
    | nil =>
      have hnext : (k.processes p).next = none := hline.next.1
      have h' := h.dequeue hw k.processes (fun _ => rfl) .nil ⟨hprev, hnext⟩ fun _ _ => rfl
      obtain ⟨i, sched, hload, h'⟩ := h'.schedLoad
      have hload := Kernel.schedLoad_frame hload k.processes k.sleeping k.firstSlept k.queue
      dsimp only [List.head?_cons] at hload ⊢
      rw [hnext]
      dsimp only
      rw [hload]
      exact ⟨_, _, rfl, rfl, h', rfl, rfl⟩
    | cons y l =>
      have hnext : (k.processes p).next = some y := hline.next.1
      have hpy : p ≠ y := fun he => (List.nodup_cons.1 hline.nodup).1 (he ▸ List.mem_cons_self)
      let k₁ := (k.modifyPcb y fun t => { t with prev := none }).modifyPcb p
        fun t => { t with next := none }
      have happly : ∀ x, k₁.processes x = ⟨(k.processes x).id,
          if x = y then none else (k.processes x).prev,
          if x = p then none else (k.processes x).next⟩ := fun x => by
        simp only [k₁, Kernel.modifyPcb, Function.update_apply]
        split_ifs <;> simp_all
      have h' := h.dequeue hw k₁.processes (fun x => ?_)
        ((hline.pop none).congr (fun x _ => ?_) fun x _ => ?_) ?_ fun x hx => ?_
      · obtain ⟨i, sched, hload, h'⟩ := h'.schedLoad
        have hload : k₁.schedLoad p = .ret 0 { k₁ with sched, schedLoads := k.schedLoads ++ [p] } :=
          Kernel.schedLoad_frame hload k₁.processes k.sleeping k.firstSlept k.queue
        dsimp only [List.head?_cons]
        rw [hnext]
        show ∃ k' r', (k₁.schedLoad p).andThen _ = _ ∧ _
        rw [hload]
        exact ⟨_, _, rfl, rfl, h', rfl, rfl⟩
      · rw [happly]
      · rw [happly, Function.update_apply]
      · rw [happly, Function.update_apply]
      · rw [happly, hprev]
        simp
      · rw [hw, List.mem_cons, List.mem_cons, not_or, not_or] at hx
        rw [happly, if_neg hx.2.1, if_neg hx.1]

end Kernel.Inv

/-! ## The sleepers -/

def Kernel.time (k : Kernel Q) (p : Pid) : Nat := (k.sleeping p).time

section
variable {k : Kernel Q} {z : List Pid} {fuel time : Nat}

/-- `loader_sleep` stops behind the sleepers `a`, whose times it has taken off. -/
theorem sleepPosition_spec (hz : Linked.Chain (fun p => (k.sleeping p).next) z none)
    (hfuel : z.length < fuel) (time : Nat) (prev : Option Pid) : ∃ a b time', z = a ++ b ∧
      sleepPosition k fuel time prev z.head? = some (time', a.getLast?.or prev, b.head?) ∧
      time = (a.map k.time).sum + time' ∧ (0 < time → 0 < time') ∧
      ∀ y, b.head? = some y → time' ≤ k.time y := by
  induction z generalizing fuel time prev with
  | nil =>
    obtain ⟨n, rfl⟩ := Nat.exists_eq_succ_of_ne_zero (Nat.ne_of_gt hfuel)
    exact ⟨[], [], time, rfl, rfl, (Nat.zero_add _).symm, id, fun y hy => nomatch hy⟩
  | cons x z ih =>
    obtain ⟨n, rfl⟩ := Nat.exists_eq_succ_of_ne_zero (Nat.ne_of_gt (Nat.zero_lt_of_lt hfuel))
    rw [Linked.chain_cons, Option.or_none] at hz
    rw [List.head?_cons, sleepPosition]
    split_ifs with hlt
    · obtain ⟨a, b, time', rfl, hpos, htime, hpos', hb⟩ :=
        ih hz.2 (Nat.lt_of_succ_lt_succ hfuel) (time - k.time x) (some x)
      refine ⟨x :: a, b, time', rfl, ?_, ?_, fun _ => hpos' (Nat.sub_pos_of_lt hlt), hb⟩
      · rw [hz.1]
        refine hpos.trans ?_
        cases ha : a.getLast? <;> simp [List.getLast?_cons, ha]
      · rw [List.map_cons, List.sum_cons, Nat.add_assoc, ← htime]
        exact (Nat.add_sub_cancel' (Nat.le_of_lt hlt)).symm
    · refine ⟨[], x :: z, time, rfl, rfl, (Nat.zero_add _).symm, id, fun y hy => ?_⟩
      obtain rfl : x = y := Option.some.inj hy
      exact Nat.le_of_not_lt hlt

/-- The sleepers `a ++ b` as `loader_sleep` leaves them, with the current process behind `a`. -/
structure Kernel.Slept (k : Kernel Q) (sleeping : Pid → SleptTask) (a b : List Pid) (time : Nat) :
    Prop where
  chain : Linked.Chain (fun p => (sleeping p).next) (a ++ k.curPid :: b) none
  current : (sleeping k.curPid).time = time
  first : ∀ y, b.head? = some y → (sleeping y).time = Word32.sub (k.time y) time
  other : ∀ x ≠ k.curPid, b.head? ≠ some x → (sleeping x).time = k.time x

theorem Kernel.Slept.of_links {a b : List Pid} {sleeping : Pid → SleptTask}
    (hz : Linked.Chain (fun p => (k.sleeping p).next) (a ++ b) none) (hnd : (a ++ b).Nodup)
    (hcur : k.curPid ∉ a ++ b) (hc : sleeping k.curPid = ⟨some k.curPid, time, b.head?⟩)
    (hnext : ∀ x ≠ k.curPid, (sleeping x).next =
      if a.getLast? = some x then some k.curPid else (k.sleeping x).next)
    (htime : ∀ x ≠ k.curPid, (sleeping x).time =
      if b.head? = some x then Word32.sub (k.time x) time else k.time x) :
    k.Slept sleeping a b time where
  chain := by
    have hne : ∀ x ∈ a ++ b, x ≠ k.curPid := fun x hx he => hcur (he ▸ hx)
    refine hz.insert hnd ?_ (fun x hx => ?_) fun x hx hl => ?_
    · rw [hc, Option.or_none]
    · rw [hnext x (hne x (List.mem_append_left _ (List.mem_of_getLast? hx))), if_pos hx]
    · rw [hnext x (hne x hx), if_neg hl]
  current := by rw [hc]
  first y hy := by
    have hne : y ≠ k.curPid := fun he =>
      hcur (he ▸ List.mem_append_right _ (List.mem_of_head? hy))
    rw [htime y hne, if_pos hy]
  other x hx hb := by rw [htime x hx, if_neg hb]

theorem insertSleeper_spec (hz : Linked.Chain (fun p => (k.sleeping p).next) z none)
    (hfirst : k.firstSlept = z.head?) (hnd : z.Nodup) (hcur : k.curPid ∉ z)
    (hlen : z.length ≤ maxPid) (htime : 0 < time) : ∃ a b time' sleeping, z = a ++ b ∧
      insertSleeper time k =
        some { k with firstSlept := (a ++ k.curPid :: b).head?, sleeping } ∧
      k.Slept sleeping a b time' ∧ time = (a.map k.time).sum + time' ∧ 0 < time' ∧
      ∀ y, b.head? = some y → time' ≤ k.time y := by
  obtain ⟨a, b, time', rfl, hpos, hsum, hpos', hb⟩ :=
    sleepPosition_spec hz (Nat.lt_succ_of_le hlen) time none
  have hmem : ∀ x ∈ a ++ b, x ≠ k.curPid := fun x hx he => hcur (he ▸ hx)
  rw [Option.or_none, ← hfirst] at hpos
  rw [insertSleeper]
  rcases List.eq_nil_or_concat a with rfl | ⟨l, p, rfl⟩ <;> rcases b with - | ⟨y, b⟩
  · obtain rfl : time = time' := by simpa using hsum
    have hnone : k.firstSlept = none := hfirst
    rw [hnone]
    refine ⟨[], [], time, (k.modifySlept k.curPid fun _ => ⟨some k.curPid, time, none⟩).sleeping,
      rfl, rfl, .of_links hz hnd hcur ?_ (fun x hx => ?_) (fun x hx => ?_), hsum, htime, hb⟩
    · exact Function.update_self ..
    · simp [Kernel.modifySlept, hx]
    · simp [Kernel.modifySlept, hx, Kernel.time]
  · have hsome : k.firstSlept = some y := hfirst
    have hy := hmem y (by simp)
    rw [hsome] at hpos ⊢
    simp only [hpos, Option.bind_eq_bind, Option.bind_some, List.getLast?_nil, List.head?_cons]
    refine ⟨[], y :: b, time', _, rfl, rfl, .of_links hz hnd hcur ?_ (fun x hx => ?_)
      (fun x hx => ?_), hsum, hpos' htime, hb⟩
    · simp [Kernel.modifySlept, Function.update_apply, hy.symm]
    · simp only [Kernel.modifySlept, Function.update_apply]
      split_ifs <;> simp_all
    · simp only [Kernel.modifySlept, Function.update_apply, Kernel.time]
      split_ifs <;> simp_all
  · rw [List.concat_eq_append] at hz hnd hmem hcur hfirst hpos hsum ⊢
    have hp := hmem p (by simp)
    have hhead : (l ++ [p] ++ [k.curPid]).head? = k.firstSlept := by
      rw [hfirst]
      cases l <;> rfl
    obtain ⟨y, hy⟩ : ∃ y, k.firstSlept = some y := Option.ne_none_iff_exists'.1 (by simp [hfirst])
    refine ⟨l ++ [p], [], time', ((k.modifySlept p fun t => { t with
      next := some k.curPid }).modifySlept k.curPid fun _ => ⟨some k.curPid, time', none⟩).sleeping,
      rfl, ?_, .of_links hz hnd hcur ?_ (fun x hx => ?_) (fun x hx => ?_), hsum, hpos' htime, hb⟩
    · rw [hhead, hy]
      rw [hy] at hpos
      simp only [hpos, Option.bind_eq_bind, Option.bind_some, List.getLast?_concat, List.head?_nil]
      rw [← hy]
      rfl
    · exact Function.update_self ..
    · simp only [Kernel.modifySlept, Function.update_apply, List.getLast?_concat]
      split_ifs <;> simp_all
    · simp only [Kernel.modifySlept, Function.update_apply, Kernel.time]
      split_ifs <;> simp_all
  · rw [List.concat_eq_append] at hz hnd hmem hcur hfirst hpos hsum ⊢
    have hp := hmem p (by simp)
    have hyc := hmem y (by simp)
    have hpy : p ≠ y := fun he =>
      List.disjoint_of_nodup_append hnd (a := p) (by simp) (by simp [he])
    have hhead : (l ++ [p] ++ k.curPid :: y :: b).head? = k.firstSlept := by
      rw [hfirst]
      cases l <;> rfl
    obtain ⟨x, hx⟩ : ∃ x, k.firstSlept = some x := Option.ne_none_iff_exists'.1 (by simp [hfirst])
    refine ⟨l ++ [p], y :: b, time', (((k.modifySlept p fun t => { t with
      next := some k.curPid }).modifySlept k.curPid fun _ =>
        ⟨some k.curPid, time', some y⟩).modifySlept y fun t =>
          { t with time := Word32.sub t.time time' }).sleeping,
      rfl, ?_, .of_links hz hnd hcur ?_ (fun x hx => ?_) (fun x hx => ?_), hsum, hpos' htime, hb⟩
    · rw [hhead, hx]
      rw [hx] at hpos
      simp only [hpos, Option.bind_eq_bind, Option.bind_some, List.getLast?_concat, List.head?_cons]
      rw [← hx]
      rfl
    · simp [Kernel.modifySlept, Function.update_apply, hyc.symm]
    · simp only [Kernel.modifySlept, Function.update_apply, List.getLast?_concat]
      split_ifs <;> simp_all
    · simp only [Kernel.modifySlept, Function.update_apply, Kernel.time, List.head?_cons]
      split_ifs <;> simp_all

end

namespace Kernel.Inv
variable {k : Kernel Q} {r : List Nat} {w : Q → List Pid} {z t : List Pid} {p v : Pid}

theorem length_asleep (h : k.Inv r w z t v) : z.length ≤ maxPid :=
  h.length_le h.nodup fun _ hx => (h.placed.alive (a := .asleep) hx).1

/-- The list of sleepers changes. -/
theorem resleep (h : k.Inv r w z t v) {sleeping : Pid → SleptTask} {z' t' : List Pid}
    (hchain : Linked.Chain (fun p => (sleeping p).next) z' none) (hnd : z'.Nodup)
    (hplaced : Placed (k.At w z') k.Live t') (htransit : ∀ x ∈ t', k.Live x)
    (hnodup : t'.Nodup) :
    Kernel.Inv { k with sleeping, firstSlept := z'.head? } r w z' t' v :=
  { h with
    holds := h.holds
    firstSlept := rfl
    chain := hchain
    nodup := hnd
    placed := hplaced
    transitLive := htransit
    transitNodup := hnodup }

theorem not_asleep_of_current (h : k.Inv r w z [] k.curPid) (hcur : k.curPid ≠ idlePid) :
    k.curPid ∉ z := by
  obtain ⟨v, r', sched, calls, -, h'⟩ := h.schedExit hcur
  exact h'.not_at List.mem_cons_self .asleep

/-- `loader_sleep` moves the current process from the ring to the sleepers. -/
theorem loaderSleep (h : k.Inv r w z [] k.curPid) (hcur : k.curPid ≠ idlePid) {time : Nat}
    (htime : 0 < time) : ∃ a b time' k' r', z = a ++ b ∧ loaderSleep time k = .ret 0 k' ∧
      k'.Inv r' w (a ++ k.curPid :: b) [] k'.curPid ∧ k.Slept k'.sleeping a b time' ∧
      time = (a.map k.time).sum + time' ∧ 0 < time' ∧
      (∀ y, b.head? = some y → time' ≤ k.time y) ∧ k'.schedLoads = k.schedLoads := by
  obtain ⟨v, r', sched, calls, hexit, h'⟩ := h.schedExit hcur
  have hz := h.not_asleep_of_current hcur
  obtain ⟨a, b, time', sleeping, rfl, hinsert, hslept, hsum, hpos, hb⟩ :=
    insertSleeper_spec h.chain h.firstSlept h.nodup hz h.length_asleep htime
  rw [SpuriOS.loaderSleep, if_neg (Nat.not_le.2 htime), hinsert]
  dsimp only
  rw [Kernel.block, Kernel.schedExit_frame hexit]
  have hperm : (a ++ k.curPid :: b).Nodup :=
    List.nodup_middle.2 (List.nodup_cons.2 ⟨hz, h.nodup⟩)
  refine ⟨a, b, time', _, r', rfl, rfl, (h'.resleep hslept.chain hperm
    (h'.placed.enter (h'.transitLive _ List.mem_cons_self) List.not_mem_nil (a := .asleep)
      fun q c => ?_) (fun _ hx => nomatch hx) List.nodup_nil).taskSwitch v,
    hslept, hsum, hpos, hb, rfl⟩
  cases c with
  | ring => simp [Kernel.At]
  | queue q => simp [Kernel.At]
  | asleep =>
    simp only [Kernel.At, List.mem_append, List.mem_cons, and_true]
    tauto

/-- The first sleeper is woken up. -/
theorem wake (h : k.Inv r w (p :: z) t v) : ∃ i sched,
    k.schedLoad p = .ret 0 { k with sched, schedLoads := k.schedLoads ++ [p] } ∧
      ∀ sleeping, (∀ x, (sleeping x).next = (k.sleeping x).next) →
        Kernel.Inv { k with
          sched, schedLoads := k.schedLoads ++ [p], sleeping, firstSlept := (k.sleeping p).next }
          (r ++ [i]) w z t v := by
  have hp : k.At w (p :: z) p .asleep := List.mem_cons_self
  obtain ⟨hlive, hnt⟩ := h.placed.alive hp
  obtain ⟨hpz, hnd⟩ := List.nodup_cons.1 h.nodup
  have hchain := h.chain
  rw [Linked.chain_cons, Option.or_none] at hchain
  have hplaced : Placed (k.At w z) k.Live (p :: t) := h.placed.leave hp fun q b => by
    cases b with
    | ring => simp [Kernel.At]
    | queue q' => simp [Kernel.At]
    | asleep =>
      simp only [Kernel.At, List.mem_cons]
      grind
  have htransit : ∀ x ∈ p :: t, k.Live x := fun x hx => by
    rcases List.mem_cons.1 hx with rfl | hx
    · exact hlive
    · exact h.transitLive x hx
  have h' := h.resleep hchain.2 hnd hplaced htransit (List.nodup_cons.2 ⟨hnt, h.transitNodup⟩)
  obtain ⟨i, sched, hload, h'⟩ := h'.schedLoad
  refine ⟨i, sched,
    Kernel.schedLoad_frame hload k.processes k.sleeping k.firstSlept k.queue, fun sleeping hs => ?_⟩
  rw [hchain.1]
  exact h'.resleep (hchain.2.congr fun x _ => hs x) hnd h'.placed h'.transitLive h'.transitNodup

/-- The loop of `loader_tick` wakes the sleepers `a` up, who have no time left. -/
theorem wakeSleepers {fuel : Nat} (h : k.Inv r w z t v) (hfuel : z.length < fuel) :
    ∃ a b k' r', z = a ++ b ∧ wakeSleepers fuel k = .ret 0 k' ∧ k'.Inv r' w b t v ∧
      k'.curPid = k.curPid ∧ k'.schedLoads = k.schedLoads ++ a ∧ k'.time = k.time ∧
      (∀ x ∈ a, k.time x = 0) ∧ ∀ y, b.head? = some y → k.time y ≠ 0 := by
  induction z generalizing k r fuel with
  | nil =>
    obtain ⟨n, rfl⟩ := Nat.exists_eq_succ_of_ne_zero (Nat.ne_of_gt hfuel)
    have hnone : k.firstSlept = none := h.firstSlept
    rw [SpuriOS.wakeSleepers, hnone]
    exact ⟨[], [], k, r, rfl, rfl, h, rfl, (List.append_nil _).symm, rfl,
      fun x hx => (nomatch hx), fun y hy => (nomatch hy)⟩
  | cons p z ih =>
    obtain ⟨n, rfl⟩ := Nat.exists_eq_succ_of_ne_zero (Nat.ne_of_gt (Nat.zero_lt_of_lt hfuel))
    have hsome : k.firstSlept = some p := h.firstSlept
    rw [SpuriOS.wakeSleepers, hsome]
    dsimp only
    split_ifs with htime
    · obtain ⟨i, sched, hload, h'⟩ := h.wake
      rw [hload, Outcome.andThen_ret]
      let sleeping := Function.update k.sleeping p { k.sleeping p with id := none }
      have hs : ∀ x, (sleeping x).next = (k.sleeping x).next ∧
          (sleeping x).time = (k.sleeping x).time := fun x => by
        simp only [sleeping, Function.update_apply]
        split_ifs with hx
        · exact ⟨congrArg (fun y => (k.sleeping y).next) hx.symm,
            congrArg (fun y => (k.sleeping y).time) hx.symm⟩
        · exact ⟨rfl, rfl⟩
      obtain ⟨a, b, k', r', rfl, hret, hinv, hcur, hloads, htimes, ha, hb⟩ :=
        ih (h' sleeping fun x => (hs x).1) (Nat.lt_of_succ_lt_succ hfuel)
      have htimes : k'.time = k.time := htimes.trans (funext fun x => (hs x).2)
      refine ⟨p :: a, b, k', r', rfl, ?_, hinv, hcur, ?_, htimes, fun x hx => ?_, fun y hy => ?_⟩
      · rw [← hret]
        simp only [Kernel.modifySlept, Function.update_self]
        rfl
      · rw [hloads, List.append_assoc]
        rfl
      · rcases List.mem_cons.1 hx with rfl | hx
        · exact htime
        · exact (hs x).2.symm.trans (ha x hx)
      · exact fun he => hb y hy ((hs y).2.trans he)
    · refine ⟨[], p :: z, k, r, rfl, rfl, h, rfl, (List.append_nil _).symm, rfl,
        fun x hx => (nomatch hx), fun y hy => ?_⟩
      obtain rfl : p = y := Option.some.inj hy
      exact htime

/-- `loader_tick` takes one off the time of the first sleeper and wakes the sleepers `a` up. -/
theorem loaderTick (h : k.Inv r w z t v) : ∃ a b k' r', z = a ++ b ∧
    loaderTick k = .ret 0 k' ∧ k'.Inv r' w b t v ∧ k'.curPid = k.curPid ∧
      k'.schedLoads = k.schedLoads ++ a ∧
      (∀ x, k'.time x = if z.head? = some x then Word32.sub (k.time x) 1 else k.time x) ∧
      (∀ x ∈ a, k'.time x = 0) ∧ ∀ y, b.head? = some y → k'.time y ≠ 0 := by
  rw [SpuriOS.loaderTick, h.firstSlept]
  cases z with
  | nil =>
    exact ⟨[], [], k, r, rfl, rfl, h, rfl, (List.append_nil _).symm, fun x => rfl,
      fun x hx => (nomatch hx), fun y hy => (nomatch hy)⟩
  | cons p z =>
    let k₁ := k.modifySlept p fun t => { t with time := Word32.sub t.time 1 }
    have hs : ∀ x, (k₁.sleeping x).next = (k.sleeping x).next ∧ k₁.time x =
        if (p :: z).head? = some x then Word32.sub (k.time x) 1 else k.time x := fun x => by
      simp only [k₁, Kernel.time, Kernel.modifySlept, Function.update_apply, List.head?_cons]
      split_ifs <;> simp_all
    have h₁ : k₁.Inv r w (p :: z) t v := by
      have hchain : Linked.Chain (fun x => (k₁.sleeping x).next) (p :: z) none :=
        h.chain.congr fun x _ => (hs x).1
      have := h.resleep hchain h.nodup h.placed h.transitLive h.transitNodup
      rw [← h.firstSlept] at this
      exact this
    obtain ⟨a, b, k', r', hab, hret, hinv, hcur, hloads, htimes, ha, hb⟩ :=
      h₁.wakeSleepers (Nat.lt_succ_of_le h₁.length_asleep)
    refine ⟨a, b, k', r', hab, hret, hinv, hcur, hloads, fun x => ?_, fun x hx => ?_,
      fun y hy => ?_⟩
    · rw [htimes, (hs x).2]
    · rw [htimes, ha x hx]
    · rw [htimes]
      exact hb y hy

/-- `loader_load` puts a new process at the end of the ring, if there is a free pid. -/
theorem loaderLoad (h : k.Inv r w z t v) : loaderLoad k = .halt k ∧ getNewPid k = none ∨
    ∃ pid k' r', loaderLoad k = .ret 0 k' ∧ ¬k.Live pid ∧ k'.Inv r' w z t v ∧
      k'.curPid = k.curPid ∧ k.Wakes k' [pid] := by
  rw [SpuriOS.loaderLoad]
  cases hpid : getNewPid k with
  | none => exact .inl ⟨rfl, rfl⟩
  | some pid =>
    have hfree : (k.processes pid).id = none := by simpa using List.find?_some hpid
    have hlt : pid < maxPid := List.mem_range.1 (List.mem_of_find?_eq_some hpid)
    have hidle : pid ≠ idlePid := fun he => h.idle (he ▸ hfree)
    have hdead : ¬k.Live pid := fun hl => hl.1 hfree
    let k₁ := k.modifyPcb pid fun _ => { id := some pid, prev := none, next := none }
    have hout : ∀ x, x ≠ pid → k₁.processes x = k.processes x := fun x hx =>
      Function.update_of_ne hx ..
    have hself : k₁.processes pid = ⟨some pid, none, none⟩ := Function.update_self ..
    have hlive : ∀ x, k₁.Live x ↔ k.Live x ∨ x = pid := fun x => by
      rcases eq_or_ne x pid with rfl | hx
      · rw [Kernel.Live, hself]
        simp [hidle]
      · rw [Kernel.Live, hout x hx, or_iff_left hx, Kernel.Live]
    have hne : ∀ q, ∀ x ∈ w q, x ≠ pid := fun q x hx he =>
      hdead (he ▸ (h.placed.alive (a := .queue q) hx).1)
    have hnt : pid ∉ t := fun hm => hdead (h.transitLive pid hm)
    have h₁ : k₁.Inv r w z (pid :: t) v := { h with
      holds := h.holds
      line := fun q => (h.line q).congr (fun x hx => congrArg Pcb.next (hout x (hne q x hx)))
        fun x hx => congrArg Pcb.prev (hout x (hne q x hx))
      placed := h.placed.born hdead hlive
      transitLive := fun x hx => by
        rw [hlive]
        rcases List.mem_cons.1 hx with hx | hx
        · exact .inr hx
        · exact .inl (h.transitLive x hx)
      transitNodup := List.nodup_cons.2 ⟨hnt, h.transitNodup⟩
      unlinked := fun x hx hw => by
        rcases eq_or_ne x pid with rfl | hxp
        · rw [hself]
          exact ⟨rfl, rfl⟩
        · rw [hout x hxp]
          exact h.unlinked x (((hlive x).1 hx).resolve_right hxp) hw
      lt := fun x hx => by
        rcases (hlive x).1 hx with hx | rfl
        · exact h.lt x hx
        · exact hlt
      idle := by
        rw [hout _ hidle.symm]
        exact h.idle }
    obtain ⟨i, sched, hload, h'⟩ := h₁.schedLoad
    exact .inr ⟨pid, _, _, hload, hdead, h', rfl, rfl, rfl⟩

/-- The timer interrupt switches to the process that `sched_tick` names. -/
theorem timerSwitch (h : k.Inv r w z [] v) : ∃ k', timerSwitch k = .ret 0 k' ∧
    k'.Inv r w z [] k'.curPid ∧ k.Wakes k' [] := by
  obtain ⟨v', s', htick, hholds, hpd, hv⟩ := schedTick_spec h.holds
  rw [SpuriOS.timerSwitch, htick]
  have hruns : ∀ p, s'.Runs p ↔ k.sched.Runs p := fun p =>
    exists_congr fun i => and_congr_right fun _ => by rw [hpd]
  refine ⟨_, rfl, { h with holds := hholds, placed := ?_, current := hv }, .none rfl rfl⟩
  have hat : ∀ p a, Kernel.At ({ k with sched := s' }.taskSwitch v') w z p a ↔ k.At w z p a := by
    intro p a
    cases a with
    | ring => exact hruns p
    | queue q => exact Iff.rfl
    | asleep => exact Iff.rfl
  exact ⟨fun ha => h.placed.alive ((hat _ _).1 ha), fun hl hn =>
    (existsUnique_congr fun a => hat _ a).2 (h.placed.place hl hn)⟩

/-- The end of `loader_exit`, for a process that is linked in no queue. -/
theorem finishExit (h : k.Inv r w z [k.curPid] v) : (finishExit v k).Inv r w z [] v ∧
    (finishExit v k).curPid = v ∧ k.Wakes (finishExit v k) [] := by
  have hlive := h.transitLive _ List.mem_cons_self
  obtain ⟨hprev, hnext⟩ := h.unlinked k.curPid hlive fun q =>
    h.not_at List.mem_cons_self (.queue q)
  have hfinish : SpuriOS.finishExit v k =
      (k.modifyPcb k.curPid fun t => { t with id := none }).taskSwitch v := by
    simp only [SpuriOS.finishExit, hprev, hnext]
  rw [hfinish]
  let k₁ := (k.modifyPcb k.curPid fun t => { t with id := none }).taskSwitch v
  have hout : ∀ x, x ≠ k.curPid → k₁.processes x = k.processes x := fun x hx =>
    Function.update_of_ne hx ..
  have hself : k₁.processes k.curPid = { k.processes k.curPid with id := none } :=
    Function.update_self ..
  have hlinks : ∀ x, (k₁.processes x).next = (k.processes x).next ∧
      (k₁.processes x).prev = (k.processes x).prev := fun x => by
    rcases eq_or_ne x k.curPid with rfl | hx
    · rw [hself]
      exact ⟨rfl, rfl⟩
    · rw [hout x hx]
      exact ⟨rfl, rfl⟩
  have hlive' : ∀ x, k₁.Live x ↔ k.Live x ∧ x ≠ k.curPid := fun x => by
    rcases eq_or_ne x k.curPid with rfl | hx
    · rw [Kernel.Live, hself]
      simp
    · rw [Kernel.Live, hout x hx, and_iff_left hx, Kernel.Live]
  refine ⟨{ h with
    holds := h.holds
    line := fun q => (h.line q).congr (fun x _ => (hlinks x).1) fun x _ => (hlinks x).2
    placed := h.placed.die hlive'
    transitLive := fun x hx => nomatch hx
    transitNodup := List.nodup_nil
    unlinked := fun x hx hw => by
      rw [(hlinks x).1, (hlinks x).2]
      exact h.unlinked x ((hlive' x).1 hx).1 hw
    lt := fun x hx => h.lt x ((hlive' x).1 hx).1
    idle := by
      rw [hout _ hlive.2.symm]
      exact h.idle }, rfl, .none rfl rfl⟩

end Kernel.Inv

/-- A call that returns leaves `P`; one that halts found no free pid, and has called the scheduler
as it should. -/
def Outcome.Leaves (P : Kernel Q → Prop) : Outcome (Kernel Q) → Prop
  | .halt k => getNewPid k = none ∧ ∀ c ∈ k.schedCalls, c.Ok
  | .ret _ k => P k

/-- What the end of `loader_exit` leaves: nothing is in transit, and none of the sleepers was
handed to the scheduler. -/
def Kernel.Exited (k : Kernel Q) (z : List Pid) (k' : Kernel Q) : Prop :=
  ∃ r w l, k'.Inv r w z [] k'.curPid ∧ k.Wakes k' l ∧ ∀ p ∈ l, p ∉ z

/-- A list of what flush functions do is without a wait. -/
def noWait (ops : List (FlushOp Q)) : Prop := ∀ q, .enqueue q ∉ ops

theorem Kernel.Exited.of_wakes {k k₁ k' : Kernel Q} {z l : List Pid} (h : k₁.Exited z k')
    (hk : k.Wakes k₁ l) (hl : ∀ p ∈ l, p ∉ z) : k.Exited z k' := by
  obtain ⟨r, w, l', hinv, hk', hl'⟩ := h
  refine ⟨r, w, l ++ l', hinv, hk.trans hk', fun p hp => ?_⟩
  exact (List.mem_append.1 hp).elim (hl p) (hl' p)

theorem Outcome.Leaves.mono {P P' : Kernel Q → Prop} {o : Outcome (Kernel Q)} (h : o.Leaves P)
    (hP : ∀ k, P k → P' k) : o.Leaves P' := by
  cases o with
  | halt k => exact h
  | ret v k => exact hP k h

namespace Kernel.Inv
variable [DecidableEq Q] {k : Kernel Q} {r : List Nat} {w : Q → List Pid} {z t : List Pid}
  {v : Pid} {ops : List (FlushOp Q)}

/-- The rest of `loader_exit`, when no flush function waits. -/
theorem closeFds (h : k.Inv r w z [k.curPid] v) (hops : noWait ops) :
    (closeFds v ops k).Leaves (k.Exited z) := by
  induction ops generalizing k r w with
  | nil =>
    obtain ⟨hinv, hcur, hwakes⟩ := h.finishExit
    exact ⟨r, w, [], by rwa [hcur], hwakes, fun p hp => nomatch hp⟩
  | cons op ops ih =>
    have hops' : noWait ops := fun q hq => hops q (List.mem_cons_of_mem _ hq)
    cases op with
    | unqueue q =>
      obtain ⟨k', r', hret, hcur, hinv, hwakes⟩ := h.loaderUnqueue q
      rw [SpuriOS.closeFds, hret, Outcome.andThen_ret]
      refine (ih (by rwa [hcur]) hops').mono fun k'' hk'' => hk''.of_wakes hwakes fun p hp hz => ?_
      exact h.not_asleep (List.mem_of_head? (Option.mem_toList.1 hp)) hz
    | load =>
      rw [SpuriOS.closeFds]
      rcases h.loaderLoad with ⟨hhalt, hfree⟩ | ⟨pid, k', r', hret, hdead, hinv, hcur, hwakes⟩
      · rw [hhalt]
        exact ⟨hfree, h.schedCalls⟩
      · rw [hret, Outcome.andThen_ret]
        refine (ih (by rwa [hcur]) hops').mono fun k'' hk'' =>
          hk''.of_wakes hwakes fun p hp hz => ?_
        rw [List.mem_singleton.1 hp] at hz
        exact hdead (h.placed.alive (a := .asleep) hz).1
    | enqueue q => exact absurd List.mem_cons_self (hops q)

theorem loaderExit (h : k.Inv r w z [] k.curPid) (hcur : k.curPid ≠ idlePid)
    (hops : noWait ops) : (loaderExit ops k).Leaves (k.Exited z) := by
  obtain ⟨v, r', sched, calls, hexit, h'⟩ := h.schedExit hcur
  rw [SpuriOS.loaderExit, hexit]
  exact (closeFds h' hops).mono fun k' hk' =>
    hk'.of_wakes (l := []) (.none rfl rfl) fun p hp => nomatch hp

end Kernel.Inv

/-! ## One step -/

section
variable {k k' : Kernel Q} {r : List Nat} {w : Q → List Pid} {z : List Pid} {v : Pid}

theorem Kernel.Initial.inv (h : k.Initial) : k.Inv [] (fun _ => []) [] [] k.curPid where
  holds :=
    { ring := .nil
      first := h.first
      last := h.last
      running := h.running
      used := fun i => ⟨fun hi => (nomatch hi), fun hi => absurd (h.tasks i) hi.2⟩
      distinct := fun i hi => nomatch hi
      actual := fun a ha => nomatch h.actual.symm.trans ha }
  head := h.queue
  line := fun _ => .nil
  firstSlept := h.firstSlept
  chain := trivial
  nodup := List.nodup_nil
  placed :=
    { alive := fun {p a} ha => by
        cases a with
        | ring =>
          obtain ⟨i, -, hi⟩ := ha
          exact nomatch (h.tasks i).symm.trans hi
        | queue q => exact nomatch ha
        | asleep => exact nomatch ha
      place := fun hl _ => absurd (h.free _ hl.2) hl.1 }
  transitLive := fun p hp => nomatch hp
  transitNodup := List.nodup_nil
  unlinked := fun p hp => absurd (h.free p hp.2) hp.1
  lt := fun p hp => absurd (h.free p hp.2) hp.1
  idle := by
    rw [h.idle]
    exact Option.some_ne_none _
  exiting := h.exiting
  running := h.halted
  schedCalls := by
    rw [h.schedCalls]
    exact fun c hc => nomatch hc
  current := .inl ⟨h.actual, h.cur⟩

end

/-- The flush functions called by `loader_exit` do not wait. -/
def noFlushWaits (_ : Kernel Q) : KernelLabel Q → Prop
  | .exit ops => noWait ops
  | _ => True

/-- Between two calls everything is in its place; else the machine halted for want of a pid. -/
def Kernel.Settled (k : Kernel Q) : Prop :=
  (∃ r w z, k.Inv r w z [] k.curPid) ∨
    k.halted = true ∧ getNewPid k = none ∧ ∀ c ∈ k.schedCalls, c.Ok

section
variable {k k' : Kernel Q} {r : List Nat} {w : Q → List Pid} {z : List Pid}
  {a : KernelLabel Q}

theorem Outcome.Leaves.settled {o : Outcome (Kernel Q)} (h : o.Leaves (k.Exited z)) :
    (Kernel.after o).Settled := by
  cases o with
  | halt k' => exact .inr ⟨rfl, h⟩
  | ret v k' =>
    obtain ⟨r, w, l, hinv, -⟩ := h
    exact .inl ⟨r, w, z, hinv⟩

variable [DecidableEq Q]

theorem Kernel.Inv.step (h : k.Inv r w z [] k.curPid) (hok : noFlushWaits k a)
    (hs : KernelStep k a k') : k'.Settled := by
  cases hs with
  | load hrun hex =>
    rcases h.loaderLoad with ⟨hhalt, hfree⟩ | ⟨pid, k', r', hret, -, hinv, hcur, -⟩
    · rw [hhalt]
      exact .inr ⟨rfl, hfree, h.schedCalls⟩
    · rw [hret]
      exact .inl ⟨r', w, z, by rwa [Kernel.after, hcur]⟩
  | @enqueue q hrun hcalls =>
    obtain ⟨k', r', hret, hinv, -⟩ := h.loaderEnqueue hcalls.1 q
    rw [hret]
    exact .inl ⟨r', _, z, hinv⟩
  | @unqueue q hrun =>
    obtain ⟨k', r', hret, hcur, hinv, -⟩ := h.loaderUnqueue q
    rw [hret]
    exact .inl ⟨r', _, z, by rwa [Kernel.after, hcur]⟩
  | @sleep time hrun hcalls hlt =>
    rcases Nat.eq_zero_or_pos time with rfl | htime
    · exact .inl ⟨r, w, z, h⟩
    · obtain ⟨a, b, time', k', r', rfl, hret, hinv, -⟩ := h.loaderSleep hcalls.1 htime
      rw [hret]
      exact .inl ⟨r', w, _, hinv⟩
  | tick hrun =>
    obtain ⟨a, b, k', r', rfl, hret, hinv, hcur, -⟩ := h.loaderTick
    rw [hret]
    exact .inl ⟨r', w, b, by rwa [Kernel.after, hcur]⟩
  | timerSwitch hrun =>
    obtain ⟨k', hret, hinv, -⟩ := h.timerSwitch
    rw [hret]
    exact .inl ⟨r, w, z, hinv⟩
  | exit hrun hcalls => exact (h.loaderExit hcalls.1 hok).settled
  | resume hrun hex => exact nomatch (h.exiting k.curPid).symm.trans hex

/-- In the runs without a flush function that waits, everything is in its place. -/
theorem Kernel.settled (h : Reach (kernelSystem Q) noFlushWaits k) : k.Settled := by
  refine Reach.invariant (fun hinit => .inl ⟨_, _, _, Kernel.Initial.inv hinit⟩)
    (fun {k a k'} hk hok hs => ?_) h
  rcases hk with ⟨r, w, z, hinv⟩ | ⟨hhalt, -⟩
  · exact hinv.step hok hs
  · cases hs <;> simp_all

end

end

/-- The state after the boot of a machine with one wait queue. -/
def Kernel.boot : Kernel Unit where
  processes p := if p = idlePid then ⟨some idlePid, some 0, some 0⟩ else ⟨none, some 0, some 0⟩
  curPid := idlePid
  sched := { tasks := fun _ => ⟨none, 0, none, none⟩, actual := none, first := none, last := none,
             runningTasks := 0 }
  sleeping _ := ⟨none, 0, none⟩
  firstSlept := none
  queue _ := none
  exiting _ := none
  halted := false
  schedCalls := []
  schedLoads := []

theorem Kernel.boot_initial : Kernel.boot.Initial where
  idle := rfl
  free p hp := by simp only [Kernel.boot, if_neg hp]
  cur := rfl
  tasks _ := rfl
  actual := rfl
  first := rfl
  last := rfl
  running := rfl
  firstSlept := rfl
  queue _ := rfl
  exiting _ := rfl
  halted := rfl
  schedCalls := rfl
  schedLoads := rfl

end SpuriOS
