import Mathlib.Data.List.Basic
import Mathlib.Tactic.Common

/-! # Counting semaphores with a queue

A token goes to the first waiter of the queue, or it is counted. The account of a semaphore is the
history of its operations; that they conserve tokens is `Account.Conserved`. -/

universe u

structure Semaphore (π : Type u) where
  value : Nat
  queue : List π

namespace Semaphore
variable {π : Type u}

def wait (p : π) (s : Semaphore π) : Semaphore π :=
  if s.value = 0 then { s with queue := s.queue ++ [p] } else { s with value := s.value - 1 }

def signal (s : Semaphore π) : Semaphore π :=
  match s.queue with
  | [] => { s with value := s.value + 1 }
  | _ :: queue => { s with queue }

/-- Those who had to wait, and those of them who were let through, are in the order of the calls. -/
structure Account (π : Type u) where
  signals : Nat
  /-- The waits that were let through at once. -/
  passed : Nat
  blocked : List π
  woken : List π

namespace Account

def empty : Account π := ⟨0, 0, [], []⟩

def pass (a : Account π) : Account π := { a with passed := a.passed + 1 }

def block (a : Account π) (p : π) : Account π := { a with blocked := a.blocked ++ [p] }

/-- A signal that lets `l` through. -/
def signal (a : Account π) (l : List π) : Account π :=
  { a with signals := a.signals + 1, woken := a.woken ++ l }

/-- The number of waits. -/
def waits (a : Account π) : Nat := a.passed + a.blocked.length

/-- The number of waits that were let through. -/
def through (a : Account π) : Nat := a.passed + a.woken.length

/-- Of a semaphore that began with `v` tokens, none are lost or made up. -/
structure Conserved (a : Account π) (v : Nat) (s : Semaphore π) : Prop where
  tokens : s.value + a.through = v + a.signals
  order : a.blocked = a.woken ++ s.queue
  excluded : 0 < s.value → s.queue = []

variable {a : Account π} {v : Nat} {s : Semaphore π}

theorem conserved_empty : (empty : Account π).Conserved v ⟨v, []⟩ := ⟨rfl, rfl, fun _ => rfl⟩

theorem Conserved.pass (h : a.Conserved v s) (p : π) (hpos : s.value ≠ 0) :
    a.pass.Conserved v (s.wait p) := by
  have htokens := h.tokens
  rw [Semaphore.wait, if_neg hpos]
  rw [through] at htokens
  refine ⟨?_, h.order, fun _ => h.excluded (Nat.pos_of_ne_zero hpos)⟩
  rw [through, Account.pass]
  dsimp only
  omega

theorem Conserved.block (h : a.Conserved v s) (p : π) (hzero : s.value = 0) :
    (a.block p).Conserved v (s.wait p) := by
  rw [Semaphore.wait, if_pos hzero]
  refine ⟨h.tokens, ?_, fun hpos => absurd hpos (Nat.not_lt.2 (Nat.le_of_eq hzero))⟩
  rw [Account.block, h.order, List.append_assoc]

theorem Conserved.signal (h : a.Conserved v s) :
    (a.signal s.queue.head?.toList).Conserved v s.signal := by
  obtain ⟨value, queue⟩ := s
  have htokens : value + (a.passed + a.woken.length) = v + a.signals := h.tokens
  have horder := h.order
  cases queue with
  | nil =>
    rw [List.head?_nil, Option.toList_none]
    refine ⟨?_, ?_, fun _ => rfl⟩
    · rw [through, Account.signal, List.append_nil, Semaphore.signal]
      dsimp only
      omega
    · rw [Account.signal, List.append_nil]
      exact horder
  | cons p queue =>
    -- somebody waits, so that there is no token to count
    have hzero : value = 0 := by
      by_contra hne
      exact nomatch h.excluded (Nat.pos_of_ne_zero hne)
    rw [List.head?_cons, Option.toList_some]
    refine ⟨?_, ?_, fun hpos => absurd hpos (Nat.not_lt.2 (Nat.le_of_eq hzero))⟩
    · rw [through, Account.signal, List.length_append, List.length_singleton, Semaphore.signal]
      dsimp only
      omega
    · rw [Account.signal, Semaphore.signal, horder, List.append_assoc]
      rfl

/-- As many waits are let through as there are tokens for. -/
theorem Conserved.through_eq (h : a.Conserved v s) : a.through = min a.waits (v + a.signals) := by
  have htokens := h.tokens
  have hlength := congrArg List.length h.order
  rw [List.length_append] at hlength
  rw [through] at htokens
  rw [through, waits]
  rcases Nat.eq_zero_or_pos s.value with hzero | hpos
  · omega
  · have hqueue := h.excluded hpos
    rw [hqueue, List.length_nil] at hlength
    omega

end Account

end Semaphore
