/-
Pre- and postconditions of computations that may stop.

A triple says what holds when a computation returns and what holds when it stops with
an error, from every state that meets the precondition.  The state is kept when a
computation stops: what was done before the error stays done.
-/
import Mathlib.Logic.Basic

namespace Kil0yOS.Lib

variable {ε σ α β : Type}

/-- From every state in `P`, `x` returns into `Q` or stops in `F`. -/
def Triple (P : σ → Prop) (x : EStateM ε σ α) (Q : α → σ → Prop) (F : σ → Prop) : Prop :=
  ∀ s, P s → match x s with
    | .ok a s' => Q a s'
    | .error _ s' => F s'

/-- Runs `x` and goes on when it stops, in the state it stopped in. -/
def attempt (x : EStateM ε σ α) : EStateM ε σ (Option α) := fun s =>
  match x s with
  | .ok a s' => .ok (some a) s'
  | .error _ s' => .ok none s'

namespace Triple

variable {P P' : σ → Prop} {Q Q' : α → σ → Prop} {F F' : σ → Prop} {x : EStateM ε σ α}
  {f : β → EStateM ε σ α} {R : β → σ → Prop} {y : EStateM ε σ β} {p : Prop} {a : α} {e : ε}

theorem ok (h : Triple P x Q F) {s s' : σ} (hs : P s) (hx : x s = .ok a s') : Q a s' := by
  have := h s hs
  rw [hx] at this
  exact this

theorem error (h : Triple P x Q F) {s s' : σ} (hs : P s) (hx : x s = .error e s') : F s' := by
  have := h s hs
  rw [hx] at this
  exact this

theorem conseq (h : Triple P' x Q' F') (hP : ∀ s, P s → P' s) (hQ : ∀ a s, Q' a s → Q a s)
    (hF : ∀ s, F' s → F s) : Triple P x Q F := by
  intro s hs
  have := h s (hP s hs)
  cases hx : x s with
  | ok a s' =>
    rw [hx] at this
    exact hQ a s' this
  | error e s' =>
    rw [hx] at this
    exact hF s' this

theorem pre (h : Triple P' x Q F) (hP : ∀ s, P s → P' s) : Triple P x Q F :=
  h.conseq hP (fun _ _ => id) fun _ => id

theorem post (h : Triple P x Q' F) (hQ : ∀ a s, Q' a s → Q a s) : Triple P x Q F :=
  h.conseq (fun _ => id) hQ fun _ => id

theorem pure (h : ∀ s, P s → Q a s) : Triple P (Pure.pure a : EStateM ε σ α) Q F := h

theorem throw (h : ∀ s, P s → F s) : Triple P (MonadExcept.throw e : EStateM ε σ α) Q F := h

theorem bind (hy : Triple P y R F) (hf : ∀ b, Triple (R b) (f b) Q F) : Triple P (y >>= f) Q F := by
  intro s hs
  have hbind : (y >>= f) s = match y s with
      | .ok b s' => f b s'
      | .error e s' => .error e s' := by
    show EStateM.bind y f s = _
    rfl
  rw [hbind]
  have hys := hy s hs
  cases hy' : y s with
  | ok b s' =>
    rw [hy'] at hys
    exact hf b s' hys
  | error e s' =>
    rw [hy'] at hys
    exact hys

/-- A first step that stops in fewer states. -/
theorem bindStop (hy : Triple P y R F') (hstop : ∀ s, F' s → F s)
    (hf : ∀ b, Triple (R b) (f b) Q F) : Triple P (y >>= f) Q F :=
  (hy.conseq (fun _ => id) (fun _ _ => id) hstop).bind hf

theorem ite [Decidable p] {y : EStateM ε σ α} (hx : p → Triple P x Q F)
    (hy : ¬ p → Triple P y Q F) : Triple P (if p then x else y) Q F := by
  split
  · exact hx ‹_›
  · exact hy ‹_›

theorem attempt (h : Triple P x Q F) :
    Triple P (Lib.attempt x) (fun o s => match o with | some a => Q a s | none => F s) F' := by
  intro s hs
  have hxs := h s hs
  unfold Lib.attempt
  cases hx : x s with
  | ok a s' =>
    rw [hx] at hxs
    exact hxs
  | error e s' =>
    rw [hx] at hxs
    exact hxs

/-- A fact that no state has a part in. -/
theorem of_fact (h : p → Triple P x Q F) : Triple (fun s => p ∧ P s) x Q F :=
  fun s hs => h hs.1 s hs.2

end Triple

/-! ## Failing more

The relation goes through sequencing, so a program built from steps that may fail for want of
a resource is compared with the same program given plenty of it, step by step.
-/

variable {e : ε}

/-- From any state, the first does as the second or stops with `e`. -/
def FailsMore (e : ε) (x y : EStateM ε σ α) : Prop :=
  ∀ s, x s = y s ∨ ∃ s', x s = .error e s'

namespace FailsMore

theorem refl (x : EStateM ε σ α) : FailsMore e x x := fun _ => .inl rfl

/-- What stands behind the error is not reached. -/
theorem throw_bind (f : β → EStateM ε σ α) (y : EStateM ε σ α) :
    FailsMore e ((MonadExcept.throw e : EStateM ε σ β) >>= f) y := fun s => .inr ⟨s, rfl⟩

theorem bind {x y : EStateM ε σ α} {f g : α → EStateM ε σ β} (hx : FailsMore e x y)
    (hf : ∀ a, FailsMore e (f a) (g a)) : FailsMore e (x >>= f) (y >>= g) := by
  intro s
  have hbind : ∀ (z : EStateM ε σ α) (k : α → EStateM ε σ β), (z >>= k) s = match z s with
        | .ok a s' => k a s'
        | .error e' s' => .error e' s' := by
    intro z k
    show EStateM.bind z k s = _
    rfl
  rw [hbind, hbind]
  rcases hx s with hs | ⟨s', hs⟩
  · rw [hs]
    cases y s with
    | ok a s' => exact hf a s'
    | error e' s' => exact .inl rfl
  · rw [hs]
    exact .inr ⟨s', rfl⟩

theorem bind_left (x : EStateM ε σ α) {f g : α → EStateM ε σ β}
    (hf : ∀ a, FailsMore e (f a) (g a)) : FailsMore e (x >>= f) (x >>= g) :=
  (refl x).bind hf

theorem ite {p : Prop} [Decidable p] {x y x' y' : EStateM ε σ α} (hx : FailsMore e x x')
    (hy : FailsMore e y y') : FailsMore e (if p then x else y) (if p then x' else y') := by
  split
  · exact hx
  · exact hy

/-- Where the second stops with the error, so does the first. -/
theorem error {x y : EStateM ε σ α} (h : FailsMore e x y) {s s' : σ} (hy : y s = .error e s') :
    ∃ s'', x s = .error e s'' := by
  rcases h s with hs | hs
  · exact ⟨s', hs.trans hy⟩
  · exact hs

end FailsMore

end Kil0yOS.Lib
