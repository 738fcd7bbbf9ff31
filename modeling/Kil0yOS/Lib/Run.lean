/-
Runs of a transition system whose steps may be guarded.

A component is a state, a set of labelled steps, and a predicate that holds of
its initial states.  `Reach` collects the states that a run reaches when every
step of it meets a guard, so a safety property "in every run whose steps all
meet the condition" is a statement about `Reach`, and the unguarded runs are
the ones under the guard that is always true.
-/
import Mathlib.Logic.Basic

namespace Kil0yOS.Lib

variable {σ α : Type}

/-- The states reached from an initial state by steps that meet `ok`. -/
inductive Reach (init : σ → Prop) (ok : σ → α → Prop) (step : σ → α → σ → Prop) : σ → Prop
  | start {s : σ} : init s → Reach init ok step s
  | next {s t : σ} (a : α) : Reach init ok step s → ok s a → step s a t → Reach init ok step t

variable {init : σ → Prop} {ok : σ → α → Prop} {step : σ → α → σ → Prop}

/-- A property that holds initially and that every guarded step keeps holds in
every state reached. -/
theorem Reach.invariant {I : σ → Prop} (hinit : ∀ s, init s → I s)
    (hstep : ∀ s a t, I s → ok s a → step s a t → I t) {s : σ}
    (h : Reach init ok step s) : I s := by
  induction h with
  | start hs => exact hinit _ hs
  | next a _ hok hst ih => exact hstep _ a _ ih hok hst

/-- A condition on the steps of the run of `f` through a list of actions. -/
def Along (P : σ → α → Prop) (f : σ → α → σ) : σ → List α → Prop
  | _, [] => True
  | s, a :: as => P s a ∧ Along P f (f s a) as

instance Along.decidable {P : σ → α → Prop} {f : σ → α → σ} [∀ s a, Decidable (P s a)] :
    ∀ (s : σ) (as : List α), Decidable (Along P f s as)
  | _, [] => isTrue trivial
  | s, a :: as => @instDecidableAnd _ _ _ (Along.decidable (f s a) as)

/-- A step function whose steps are allowed along a list of actions reaches the
state at its end. -/
theorem Reach.foldl {P : σ → α → Prop} {f : σ → α → σ} {s : σ}
    (hstep : ∀ s a, P s a → ok s a ∧ step s a (f s a)) (h : Reach init ok step s) (as : List α)
    (hall : Along P f s as) : Reach init ok step (as.foldl f s) := by
  induction as generalizing s with
  | nil => exact h
  | cons a as ih =>
    obtain ⟨hok, hst⟩ := hstep s a hall.1
    exact ih (h.next a hok hst) hall.2

/-! ## What a run shows

A renaming of states and inputs commutes with a step where a condition on the state and the
input holds, and where it does not hold the step itself shows the difference.  Then the
renaming commutes with a whole run exactly if the condition holds at each of its steps.
-/

def outputs {ο : Type} (step : σ → α → σ × ο) : σ → List α → List ο
  | _, [] => []
  | s, a :: as => (step s a).2 :: outputs step (step s a).1 as

theorem outputs_map_iff {ο : Type} {step : σ → α → σ × ο} {f : σ → σ} {g : α → α} {k : ο → ο}
    {ok : σ → α → Prop} (hok : ∀ s a, ok s a → step (f s) (g a) = (f (step s a).1, k (step s a).2))
    (hno : ∀ s a, ¬ ok s a → (step (f s) (g a)).2 ≠ k (step s a).2) (s : σ) (as : List α) :
    outputs step (f s) (as.map g) = (outputs step s as).map k ↔
      Along ok (fun s a => (step s a).1) s as := by
  induction as generalizing s with
  | nil => exact iff_of_true rfl trivial
  | cons a as ih =>
    rw [List.map_cons, outputs, outputs, List.map_cons, Along]
    by_cases h : ok s a
    · rw [hok s a h, List.cons.injEq, ih]
      simp [h]
    constructor
    · intro heq
      exact absurd (List.cons.inj heq).1 (hno s a h)
    · intro hall
      exact absurd hall.1 h

end Kil0yOS.Lib
