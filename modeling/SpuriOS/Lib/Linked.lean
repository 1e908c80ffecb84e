import Mathlib.Data.List.Basic
import Mathlib.Data.List.Nodup
import Mathlib.Logic.Function.Basic

/-! # Linked lists

Nodes whose links are a function to optional nodes. `Chain f l e` says that `f` leads through `l`
one node after the other, and from its last node to `e`; `Cycle f l` that it leads from the last
node back to the first. A doubly linked list is a chain forward and one backward: the links back
form a chain or cycle of the reversed list. -/

universe u

namespace Linked

variable {ν : Type u} {f g : ν → Option ν} {l a b : List ν} {x y z : ν} {e : Option ν}

def Chain (f : ν → Option ν) : List ν → Option ν → Prop
  | [], _ => True
  | x :: l, e => f x = l.head?.or e ∧ Chain f l e

def Cycle (f : ν → Option ν) (l : List ν) : Prop := Chain f l l.head?

@[simp] theorem chain_nil : Chain f [] e := trivial

@[simp] theorem chain_cons : Chain f (x :: l) e ↔ f x = l.head?.or e ∧ Chain f l e := Iff.rfl

theorem Chain.congr (h : Chain f l e) (hfg : ∀ x ∈ l, g x = f x) : Chain g l e := by
  induction l with
  | nil => trivial
  | cons x l ih =>
    exact ⟨(hfg x List.mem_cons_self).trans h.1,
      ih h.2 fun y hy => hfg y (List.mem_cons_of_mem _ hy)⟩

theorem chain_append :
    Chain f (a ++ b) e ↔ Chain f a (b.head?.or e) ∧ Chain f b e := by
  induction a with
  | nil => simp
  | cons x a ih =>
    rw [List.cons_append]
    simp only [chain_cons, ih, List.head?_append, Option.or_assoc, and_assoc]

/-- A node is put between two parts of the chain. -/
theorem Chain.insert (h : Chain f (a ++ b) e) (hnd : (a ++ b).Nodup)
    (hx : g x = b.head?.or e) (hlast : ∀ z, a.getLast? = some z → g z = some x)
    (hout : ∀ y ∈ a ++ b, a.getLast? ≠ some y → g y = f y) : Chain g (a ++ x :: b) e := by
  rw [chain_append] at h
  have hb : Chain g b e := h.2.congr fun y hy => hout y (List.mem_append_right _ hy) fun he =>
    List.disjoint_of_nodup_append hnd (List.mem_of_getLast? he) hy
  rw [chain_append]
  refine ⟨?_, hx, hb⟩
  rcases List.eq_nil_or_concat a with rfl | ⟨l, z, rfl⟩
  · trivial
  · rw [List.concat_eq_append] at h hnd hlast hout ⊢
    obtain ⟨h, -⟩ := chain_append.1 h.1
    have hz : z ∉ l := fun hz =>
      List.disjoint_of_nodup_append (List.nodup_append.1 hnd).1 hz (List.mem_singleton_self z)
    refine chain_append.2 ⟨h.congr fun y hy => ?_, ?_, trivial⟩
    · refine hout y (by simp [hy]) fun he => hz ?_
      rw [List.getLast?_concat] at he
      rwa [Option.some.inj he]
    · exact hlast z List.getLast?_concat

section
variable [DecidableEq ν]

/-- The last node is linked to something else. -/
theorem Chain.update_last {o : Option ν} (h : Chain f (l ++ [z]) o) (hz : z ∉ l) (e : Option ν) :
    Chain (Function.update f z e) (l ++ [z]) e := by
  rw [chain_append] at h ⊢
  refine ⟨h.1.congr fun x hx => ?_, ?_, trivial⟩
  · exact Function.update_of_ne (ne_of_mem_of_not_mem hx hz) ..
  · rw [Function.update_self]
    rfl

theorem Chain.update_of_not_mem (h : Chain f l e) (hz : z ∉ l) (o : Option ν) :
    Chain (Function.update f z o) l e :=
  h.congr fun _ hx => Function.update_of_ne (ne_of_mem_of_not_mem hx hz) ..

/-- A node is put behind the last one. -/
theorem Chain.push {o : Option ν} (h : Chain f (l ++ [z]) o) (hz : z ∉ l) (hx : x ∉ l ++ [z])
    (hfx : f x = e) : Chain (Function.update f z (some x)) (l ++ [z] ++ [x]) e := by
  rw [chain_append]
  refine ⟨h.update_last hz (some x), ?_, trivial⟩
  rw [Function.update_of_ne fun he => hx (by simp [he])]
  exact hfx

end

theorem Cycle.rotate (h : Cycle f (a ++ b)) : Cycle f (b ++ a) := by
  cases a with
  | nil => rwa [List.nil_append, ← List.append_nil b] at h
  | cons x a =>
    cases b with
    | nil => rwa [List.append_nil] at h
    | cons y b =>
      rw [Cycle, chain_append] at h ⊢
      exact ⟨h.2, h.1⟩

theorem Chain.getElem? {i : Nat} (h : Chain f l e) (hx : l[i]? = some x) :
    f x = l[i + 1]?.or e := by
  induction l generalizing i with
  | nil => cases hx
  | cons y l ih =>
    cases i with
    | zero =>
      cases hx
      rw [h.1, List.head?_eq_getElem?]
      rfl
    | succ i => exact ih h.2 hx

/-- Around a cycle one node comes after the other. -/
theorem Cycle.getElem? (h : Cycle f l) (i : Nat) (hx : l[i % l.length]? = some x) :
    f x = l[(i + 1) % l.length]? := by
  have hlt : i % l.length < l.length := (List.getElem?_eq_some_iff.1 hx).1
  rw [Chain.getElem? h hx, List.head?_eq_getElem?, ← Nat.mod_add_mod]
  by_cases hlast : i % l.length + 1 = l.length
  · rw [hlast, Nat.mod_self, List.getElem?_eq_none (Nat.le_refl _), Option.none_or]
  · have hlt' : i % l.length + 1 < l.length := by omega
    rw [Nat.mod_eq_of_lt hlt', List.getElem?_eq_getElem hlt', Option.some_or]

theorem Cycle.congr (h : Cycle f l) (hfg : ∀ x ∈ l, g x = f x) : Cycle g l := Chain.congr h hfg

section
variable [DecidableEq ν]

/-- A node is put between the last and the first one. -/
theorem Cycle.push (h : Cycle f (l ++ [z])) (hz : z ∉ l) (hx : x ∉ l ++ [z])
    (hfx : f x = (l ++ [z]).head?) : Cycle (Function.update f z (some x)) (l ++ [z] ++ [x]) := by
  have := Chain.push h hz hx hfx
  rwa [Cycle, List.head?_append, Option.or_of_isSome (by cases l <;> rfl)]

/-- The first node is taken out: the last one is linked to the one behind it. -/
theorem Cycle.pop (h : Cycle f (x :: (l ++ [z]))) (hz : z ∉ l) :
    Cycle (Function.update f z (f x)) (l ++ [z]) := by
  have hfx : f x = (l ++ [z]).head? := by
    rw [h.1, Option.or_of_isSome (by cases l <;> rfl)]
  rw [hfx]
  exact Chain.update_last h.2 hz _

end

/-! ## Doubly linked lists -/

variable {next prev : ν → Option ν}

/-- A list from a first node without a predecessor to a last one without a successor. -/
structure Line (next prev : ν → Option ν) (l : List ν) : Prop where
  next : Chain next l none
  prev : Chain prev l.reverse none
  nodup : l.Nodup

structure Ring (next prev : ν → Option ν) (l : List ν) : Prop where
  next : Cycle next l
  prev : Cycle prev l.reverse
  nodup : l.Nodup

theorem Line.nil : Line next prev [] := ⟨trivial, trivial, List.nodup_nil⟩

theorem Ring.nil : Ring next prev [] := ⟨trivial, trivial, List.nodup_nil⟩

theorem Ring.singleton (hn : next x = some x) (hp : prev x = some x) : Ring next prev [x] :=
  ⟨⟨hn, trivial⟩, ⟨hp, trivial⟩, List.nodup_singleton x⟩

theorem Ring.rotate (h : Ring next prev (a ++ b)) : Ring next prev (b ++ a) := by
  refine ⟨h.next.rotate, ?_, List.nodup_append_comm.1 h.nodup⟩
  have := h.prev
  rw [List.reverse_append] at this ⊢
  exact this.rotate

theorem Ring.next_head (h : Ring next prev (x :: y :: l)) : next x = some y := h.next.1

theorem Ring.prev_head (h : Ring next prev (x :: (l ++ [z]))) : prev x = some z := by
  have hc : Ring next prev ((l ++ [z]) ++ [x]) := h.rotate (a := [x])
  have := hc.prev
  rw [List.reverse_append, List.reverse_append] at this
  exact this.1

/-- In a ring of more than one node the last one comes after another. -/
theorem Ring.prev_last (h : Ring next prev (y :: (l ++ [z]))) : ∃ w ∈ y :: l, prev z = some w := by
  have hrot : Ring next prev (z :: (y :: l)) := h.rotate (a := y :: l) (b := [z])
  rcases List.eq_nil_or_concat l with rfl | ⟨l, w, rfl⟩
  · exact ⟨y, List.mem_cons_self, (hrot.prev_head (l := []))⟩
  · refine ⟨w, by simp, ?_⟩
    rw [List.concat_eq_append, ← List.cons_append] at hrot
    exact hrot.prev_head

section
variable [DecidableEq ν]

/-- A node is put between the last and the first one. -/
theorem Ring.push (h : Ring next prev (l ++ [z])) (hx : x ∉ l ++ [z])
    (hn : next x = (l ++ [z]).head?) (hp : prev x = some z)
    (hy : (l ++ [z]).head? = some y) :
    Ring (Function.update next z (some x)) (Function.update prev y (some x)) (l ++ [z] ++ [x]) := by
  have hz : z ∉ l := fun hz => by
    have := List.disjoint_of_nodup_append h.nodup
    exact this hz (List.mem_singleton_self z)
  refine ⟨h.next.push hz hx hn, ?_, ?_⟩
  · obtain ⟨r, hr⟩ : ∃ r, l ++ [z] = y :: r := by
      cases hl : l ++ [z] with
      | nil => simp at hl
      | cons w r =>
        rw [hl] at hy
        cases hy
        exact ⟨r, rfl⟩
    have hprev := h.prev
    have hnd := h.nodup
    rw [hr] at hprev hnd hx ⊢
    rw [List.reverse_append, List.reverse_singleton]
    refine Cycle.rotate (a := (y :: r).reverse) (b := [x]) ?_
    rw [List.reverse_cons] at hprev ⊢
    refine hprev.push (fun hy => (List.nodup_cons.1 hnd).1 (List.mem_reverse.1 hy))
      (fun hx' => hx ?_) ?_
    · rw [← List.reverse_cons] at hx'
      exact List.mem_reverse.1 hx'
    · rw [hp, ← List.reverse_cons, ← hr]
      simp
  · rw [List.nodup_append_comm]
    exact List.nodup_cons.2 ⟨hx, h.nodup⟩

/-- The first node is taken out. -/
theorem Ring.pop (h : Ring next prev (x :: l)) (hy : l.head? = some y) (hz : l.getLast? = some z) :
    Ring (Function.update next z (next x)) (Function.update prev y (prev x)) l := by
  have hnd := (List.nodup_cons.1 h.nodup).2
  refine ⟨?_, ?_, hnd⟩
  · obtain ⟨r, rfl⟩ : ∃ r, l = r ++ [z] := List.getLast?_eq_some_iff.1 hz
    exact h.next.pop fun hz => List.disjoint_of_nodup_append hnd hz (List.mem_singleton_self z)
  · obtain ⟨r, rfl⟩ : ∃ r, l = y :: r := by
      cases l with
      | nil => cases hy
      | cons w r =>
        cases hy
        exact ⟨r, rfl⟩
    have hprev := h.prev
    rw [List.reverse_cons] at hprev
    have hrot := hprev.rotate
    rw [List.reverse_cons] at hrot ⊢
    exact hrot.pop fun hy => (List.nodup_cons.1 hnd).1 (List.mem_reverse.1 hy)

end

theorem Ring.congr {next' prev' : ν → Option ν} (h : Ring next prev l)
    (hn : ∀ x ∈ l, next' x = next x) (hp : ∀ x ∈ l, prev' x = prev x) : Ring next' prev' l :=
  ⟨h.next.congr hn, h.prev.congr fun x hx => hp x (List.mem_reverse.1 hx), h.nodup⟩

theorem Line.congr {next' prev' : ν → Option ν} (h : Line next prev l)
    (hn : ∀ x ∈ l, next' x = next x) (hp : ∀ x ∈ l, prev' x = prev x) : Line next' prev' l :=
  ⟨h.next.congr hn, h.prev.congr fun x hx => hp x (List.mem_reverse.1 hx), h.nodup⟩

theorem Line.singleton (hn : next x = none) (hp : prev x = none) : Line next prev [x] :=
  ⟨⟨hn, trivial⟩, ⟨hp, trivial⟩, List.nodup_singleton x⟩

section
variable [DecidableEq ν]

/-- A node is put behind the last one. -/
theorem Line.push (h : Line next prev (l ++ [z])) (hx : x ∉ l ++ [z]) (hn : next x = none) :
    Line (Function.update next z (some x)) (Function.update prev x (some z)) (l ++ [z] ++ [x]) := by
  have hz : z ∉ l := fun hz =>
    List.disjoint_of_nodup_append h.nodup hz (List.mem_singleton_self z)
  refine ⟨h.next.push hz hx hn, ?_, ?_⟩
  · rw [List.reverse_append, List.reverse_singleton, List.singleton_append, chain_cons]
    refine ⟨?_, h.prev.update_of_not_mem (fun hx' => hx (List.mem_reverse.1 hx')) _⟩
    rw [Function.update_self, List.reverse_append]
    rfl
  · rw [List.nodup_append_comm]
    exact List.nodup_cons.2 ⟨hx, h.nodup⟩

/-- The first node is taken out, and the one behind it has no predecessor any more. -/
theorem Line.pop (h : Line next prev (x :: y :: l)) (o : Option ν) :
    Line (Function.update next x o) (Function.update prev y none) (y :: l) := by
  obtain ⟨hx, hnd⟩ := List.nodup_cons.1 h.nodup
  refine ⟨h.next.2.update_of_not_mem hx _, ?_, hnd⟩
  have hprev := h.prev
  rw [List.reverse_cons, chain_append] at hprev
  have hl := hprev.1
  rw [List.reverse_cons] at hl ⊢
  exact hl.update_last (fun hy => (List.nodup_cons.1 hnd).1 (List.mem_reverse.1 hy)) _

end

/-- The first node has no predecessor. -/
theorem Line.prev_head (h : Line next prev (x :: l)) : prev x = none := by
  have := h.prev
  rw [List.reverse_cons, chain_append] at this
  exact this.2.1

end Linked
