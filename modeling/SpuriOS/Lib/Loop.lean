import Mathlib.Data.List.Range
import Mathlib.Logic.Relation

/-! # Loops

A loop over the numbers from a bound on: what holds before round `lo` and is kept by every round
holds after the last one. And a loop without a bound, whose rounds say whether there is another:
it comes to an end just when every state it reaches has a round that goes on to another state. -/

universe u v

namespace Loop

variable {σ : Type u} {f : σ → Nat → Option σ} {P : Nat → σ → Prop} {lo n : Nat} {s u : σ}

theorem foldlM_range' (h : (List.range' lo n).foldlM f s = some u)
    (hround : ∀ i s t, lo ≤ i → i < lo + n → P i s → f s i = some t → P (i + 1) t) (h₀ : P lo s) :
    P (lo + n) u := by
  induction n generalizing lo s with
  | zero =>
    cases h
    exact h₀
  | succ n ih =>
    rw [List.range'_succ, List.foldlM_cons, Option.bind_eq_bind, Option.bind_eq_some_iff] at h
    obtain ⟨t, ht, h⟩ := h
    rw [Nat.add_comm n 1, ← Nat.add_assoc]
    exact ih h (fun i s t hlo hhi => hround i s t (by omega) (by omega))
      (hround lo s t (Nat.le_refl lo) (by omega) h₀ ht)

theorem foldlM_range (h : (List.range n).foldlM f s = some u)
    (hround : ∀ i s t, i < n → P i s → f s i = some t → P (i + 1) t) (h₀ : P 0 s) : P n u := by
  rw [List.range_eq_range'] at h
  have hn := foldlM_range' h (fun i s t _ hi => hround i s t (by omega)) h₀
  rwa [Nat.zero_add] at hn

/-- A loop comes to its end if every round does. -/
theorem foldlM_range'_total
    (hround : ∀ i s, lo ≤ i → i < lo + n → P i s → ∃ t, f s i = some t ∧ P (i + 1) t)
    (h₀ : P lo s) : ∃ u, (List.range' lo n).foldlM f s = some u ∧ P (lo + n) u := by
  induction n generalizing lo s with
  | zero => exact ⟨s, rfl, h₀⟩
  | succ n ih =>
    obtain ⟨t, ht, hP⟩ := hround lo s (Nat.le_refl lo) (by omega) h₀
    obtain ⟨u, hu, hP'⟩ := ih (fun i s hlo hhi => hround i s (by omega) (by omega)) hP
    refine ⟨u, ?_, ?_⟩
    · rw [List.range'_succ, List.foldlM_cons, ht]
      exact hu
    · rwa [Nat.add_comm n 1, ← Nat.add_assoc]

theorem foldlM_range_total (hround : ∀ i s, i < n → P i s → ∃ t, f s i = some t ∧ P (i + 1) t)
    (h₀ : P 0 s) : ∃ u, (List.range n).foldlM f s = some u ∧ P n u := by
  obtain ⟨u, hu, hP⟩ := foldlM_range'_total (f := f) (n := n)
    (fun i s _ hi => hround i s (by omega)) h₀
  rw [List.range_eq_range']
  exact ⟨u, hu, by rwa [Nat.zero_add] at hP⟩

/-- Loops whose rounds keep states related. -/
theorem foldlM_related {α : Type u} {g : σ → α → Option σ} {R : σ → σ → Prop} {l : List α}
    {s' : σ} (hround : ∀ a s s' t, R s s' → g s a = some t → ∃ t', g s' a = some t' ∧ R t t')
    (hs : R s s') (h : l.foldlM g s = some u) : ∃ u', l.foldlM g s' = some u' ∧ R u u' := by
  induction l generalizing s s' with
  | nil =>
    cases h
    exact ⟨s', rfl, hs⟩
  | cons a l ih =>
    rw [List.foldlM_cons, Option.bind_eq_bind, Option.bind_eq_some_iff] at h
    obtain ⟨t, ht, h⟩ := h
    obtain ⟨t', ht', hR⟩ := hround a s s' t hs ht
    obtain ⟨u', hu', hR'⟩ := ih hR h
    refine ⟨u', ?_, hR'⟩
    rw [List.foldlM_cons, ht']
    exact hu'

/-! ## Loops without a bound -/

/-- How a round ends. -/
inductive Round (σ : Type u) (ρ : Type v) where
  | again (s : σ)
  | done (r : ρ)

/-- At most `n` rounds of a loop; none as well when a round fails. -/
def run {ρ : Type v} (round : σ → Option (Round σ ρ)) : (n : Nat) → σ → Option ρ
  | 0, _ => none
  | n + 1, s =>
    match round s with
    | none => none
    | some (.again t) => run round n t
    | some (.done r) => some r

section
variable {ρ : Type v} {round : σ → Option (Round σ ρ)} {r : ρ} {t : σ}

theorem run_again (h : round s = some (.again t)) : run round (n + 1) s = run round n t := by
  rw [run, h]

theorem run_done (h : round s = some (.done r)) : run round (n + 1) s = some r := by
  rw [run, h]

theorem run_none (h : round s = none) : run round (n + 1) s = none := by
  rw [run, h]

/-- A round goes on to the state `t`. -/
def Next (round : σ → Option (Round σ ρ)) (s t : σ) : Prop := round s = some (.again t)

/-- A loop in a state that its round leaves as it is does not end. -/
theorem run_stuck (h : round s = some (.again s)) : run round n s = none := by
  induction n with
  | zero => rfl
  | succ n ih => rw [run_again h, ih]

theorem run_isSome_iff (measure : σ → Nat)
    (hdecr : ∀ s t, round s = some (.again t) → t ≠ s → measure t < measure s)
    (hn : measure s < n) : (run round n s).isSome ↔
      ∀ t, Relation.ReflTransGen (Next round) s t →
        (round t).isSome ∧ round t ≠ some (.again t) := by
  induction n generalizing s with
  | zero => omega
  | succ n ih =>
    cases hs : round s with
    | none =>
      rw [run_none hs]
      refine iff_of_false (by simp) fun h => ?_
      have := (h s .refl).1
      rw [hs] at this
      cases this
    | some next =>
      cases next with
      | done r =>
        rw [run_done hs]
        refine iff_of_true rfl fun t ht => ?_
        obtain rfl | ⟨s', hs', -⟩ := ht.cases_head
        · rw [hs]
          exact ⟨rfl, nofun⟩
        · rw [Next, hs] at hs'
          cases hs'
      | again s' =>
        by_cases hstuck : s' = s
        · subst hstuck
          rw [run_stuck hs]
          exact iff_of_false (by simp) fun h => (h s' .refl).2 hs
        have hless := hdecr s s' hs hstuck
        rw [run_again hs, ih (by omega)]
        constructor
        · intro h t ht
          obtain rfl | ⟨s'', hs'', ht⟩ := ht.cases_head
          · rw [hs]
            exact ⟨rfl, fun heq => hstuck (by cases heq; rfl)⟩
          · rw [Next, hs] at hs''
            cases hs''
            exact h t ht
        · exact fun h t ht => h t (.head hs ht)

/-- The states that a loop reaches in fewer than `n` rounds, if it ends in `n`, all pass a test. -/
def all (round : σ → Option (Round σ ρ)) (p : σ → Bool) : (n : Nat) → σ → Bool
  | 0, _ => false
  | n + 1, s =>
    p s && match round s with
      | some (.again t) => all round p n t
      | _ => true

end

end Loop
