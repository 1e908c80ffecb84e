import Mathlib.Logic.Basic

/-! # Guarded transition systems

A system is a set of initial states and a labelled step relation. Properties are proved of the
states reached by runs whose steps all satisfy a guard `ok`; the unguarded runs are those of the
guard `fun _ _ => True`. `Reach.invariant` is the induction on runs that every safety theorem
uses. -/

universe u v

namespace Transition

structure System (σ : Type u) (α : Type v) where
  init : σ → Prop
  step : σ → α → σ → Prop

/-- The states at the end of a run whose steps all satisfy `ok` at the state they start from. -/
inductive Reach {σ : Type u} {α : Type v} (M : System σ α) (ok : σ → α → Prop) : σ → Prop
  | init {s} : M.init s → Reach M ok s
  | step {s a s'} : Reach M ok s → ok s a → M.step s a s' → Reach M ok s'

/-- The guard that lets every step pass. -/
def anyStep {σ : Type u} {α : Type v} : σ → α → Prop := fun _ _ => True

section
variable {σ : Type u} {α : Type v} {M : System σ α} {ok : σ → α → Prop}

theorem Reach.invariant {I : σ → Prop} (hinit : ∀ {s}, M.init s → I s)
    (hstep : ∀ {s a s'}, I s → ok s a → M.step s a s' → I s') {s : σ} (h : Reach M ok s) :
    I s := by
  induction h with
  | init h => exact hinit h
  | step _ hok hs ih => exact hstep ih hok hs

/-- The system of a partial step function. -/
def System.ofFun (init : σ → Prop) (f : σ → α → Option σ) : System σ α where
  init := init
  step s a s' := f s a = some s'

/-- The run of a partial step function along a list of labels. -/
def runList (f : σ → α → Option σ) : σ → List α → Option σ
  | s, [] => some s
  | s, a :: as => (f s a).bind (runList f · as)

theorem runList_append {f : σ → α → Option σ} {s : σ} {as bs : List α} :
    runList f s (as ++ bs) = (runList f s as).bind (runList f · bs) := by
  induction as generalizing s with
  | nil => rfl
  | cons a as ih =>
    rw [List.cons_append, runList, runList, Option.bind_assoc]
    exact congrArg _ (funext fun s => ih)

theorem Reach.runList {init : σ → Prop} {f : σ → α → Option σ} {as : List α} {s s' : σ}
    (h : Reach (System.ofFun init f) anyStep s) (hr : runList f s as = some s') :
    Reach (System.ofFun init f) anyStep s' := by
  induction as generalizing s with
  | nil => cases hr; exact h
  | cons a as ih =>
    simp only [Transition.runList, Option.bind_eq_some_iff] at hr
    obtain ⟨s₁, hs, hr⟩ := hr
    exact ih (.step h trivial hs) hr

/-- The runs from one state to another, with the labels of their steps. -/
inductive Run (M : System σ α) (ok : σ → α → Prop) : σ → List α → σ → Prop
  | nil {s} : Run M ok s [] s
  | snoc {s as s₁ a s'} : Run M ok s as s₁ → ok s₁ a → M.step s₁ a s' → Run M ok s (as ++ [a]) s'

theorem Run.single {s s' : σ} {a : α} (hok : ok s a) (hs : M.step s a s') : Run M ok s [a] s' :=
  .snoc .nil hok hs

theorem Run.trans {s s₁ s' : σ} {as bs : List α} (h : Run M ok s as s₁) (h' : Run M ok s₁ bs s') :
    Run M ok s (as ++ bs) s' := by
  induction h' with
  | nil =>
    rw [List.append_nil]
    exact h
  | snoc _ hok hs ih =>
    rw [← List.append_assoc]
    exact .snoc ih hok hs

/-- Where a measure falls with a step that is there as long as the goal is not reached, a run
reaches the goal. -/
theorem Run.reaches {I : σ → Nat → Prop} {goal : σ → Prop}
    (hstep : ∀ {s n}, I s n → ¬goal s →
      ∃ a s' n', ok s a ∧ M.step s a s' ∧ I s' n' ∧ n' < n) {s : σ} {n : Nat} (h : I s n) :
    ∃ as s' n', Run M ok s as s' ∧ I s' n' ∧ goal s' := by
  induction n using Nat.strongRecOn generalizing s with
  | _ n ih =>
    by_cases hgoal : goal s
    · exact ⟨[], s, n, .nil, h, hgoal⟩
    obtain ⟨a, s₁, n₁, hok, hs, h₁, hlt⟩ := hstep h hgoal
    obtain ⟨as, s', n', hrun, h', hgoal'⟩ := ih n₁ hlt h₁
    exact ⟨[a] ++ as, s', n', (Run.single hok hs).trans hrun, h', hgoal'⟩

/-- A run satisfies every guard that its labels and their guards give. -/
theorem Run.imp {ok' : σ → α → Prop} {s s' : σ} {as : List α} (h : Run M ok s as s')
    (himp : ∀ s a, a ∈ as → ok s a → ok' s a) : Run M ok' s as s' := by
  induction h with
  | nil => exact .nil
  | snoc _ hok hs ih =>
    refine .snoc (ih fun s a ha => himp s a (List.mem_append_left _ ha)) (himp _ _ ?_ hok) hs
    exact List.mem_append_right _ (List.mem_singleton_self _)

/-- A run of a step function, with the guard tested before every step. -/
theorem Run.of_runList {init : σ → Prop} {f : σ → α → Option σ} [∀ s a, Decidable (ok s a)]
    {s s' : σ} {as : List α}
    (h : Transition.runList (fun s a => if ok s a then f s a else none) s as = some s') :
    Run (System.ofFun init f) ok s as s' := by
  suffices H : ∀ {bs s₁}, Run (System.ofFun init f) ok s bs s₁ →
      Transition.runList (fun s a => if ok s a then f s a else none) s₁ as = some s' →
      Run (System.ofFun init f) ok s (bs ++ as) s' from H .nil h
  clear h
  induction as with
  | nil =>
    intro bs s₁ hrun h
    cases h
    rwa [List.append_nil]
  | cons a as ih =>
    intro bs s₁ hrun h
    rw [Transition.runList, Option.bind_eq_some_iff] at h
    obtain ⟨s₂, hs, h⟩ := h
    split at hs
    next hok =>
      rw [← List.singleton_append, ← List.append_assoc]
      exact ih (.snoc hrun hok hs) h
    next => cases hs

/-- Forward simulation: a run of the system gives one of the other system with the same labels. -/
theorem Run.simulates {τ : Type v} {N : System τ α} {R : σ → τ → Prop}
    (hstep : ∀ {s t a s'}, R s t → ok s a → M.step s a s' → ∃ t', N.step t a t' ∧ R s' t')
    {s s' : σ} {t : τ} {as : List α} (h : Run M ok s as s') (hR : R s t) :
    ∃ t', Run N anyStep t as t' ∧ R s' t' := by
  induction h with
  | nil => exact ⟨t, .nil, hR⟩
  | snoc _ hok hs ih =>
    obtain ⟨t₁, hrun, hR₁⟩ := ih
    obtain ⟨t', ht, hR'⟩ := hstep hR₁ hok hs
    exact ⟨t', .snoc hrun trivial ht, hR'⟩

end

end Transition
