/-
Computations over a state that may fault.

A computation that reads through a dangling pointer has no result.  `Returns` says
that a computation started in a state does have one and what holds of it, so a
proof of `Returns` is a proof that nothing on the way faults.
-/
import Mathlib.Logic.Basic

namespace Kil0yOS.Lib

variable {σ α β : Type}

/-- The computation ends from `s`, with a result and in a state that meet `Q`. -/
def Returns (x : StateT σ Option α) (s : σ) (Q : α → σ → Prop) : Prop :=
  ∃ a t, x s = some (a, t) ∧ Q a t

variable {x : StateT σ Option α} {s t : σ} {Q Q' : α → σ → Prop} {R : β → σ → Prop}
  {f : α → StateT σ Option β} {a : α} {g : σ → σ} {y : StateT σ Option (Option α)}
  {P : Option α → σ → Prop} {c : Prop}

theorem Returns.mono (h : Returns x s Q) (hQ : ∀ a t, Q a t → Q' a t) : Returns x s Q' := by
  obtain ⟨a, t, hx, hq⟩ := h
  exact ⟨a, t, hx, hQ a t hq⟩

/-- What holds of the result of a computation that is known to have one. -/
theorem Returns.elim (h : Returns x s Q) (hx : x s = some (a, t)) : Q a t := by
  obtain ⟨a', t', hx', hq⟩ := h
  rw [hx, Option.some.injEq, Prod.mk.injEq] at hx'
  rw [hx'.1, hx'.2]
  exact hq

theorem Returns.pure (h : Q a s) : Returns (pure a : StateT σ Option α) s Q :=
  ⟨a, s, rfl, h⟩

theorem returns_pure : Returns (pure a : StateT σ Option α) s Q ↔ Q a s := by
  constructor
  · intro h
    exact h.elim rfl
  · exact Returns.pure

/-- A test that ends the computation early. -/
theorem returns_guard [Decidable c] (hstop : c → Q a s)
    (hgo : ¬ c → Returns x s Q) : Returns (if c then pure a else x) s Q := by
  by_cases hc : c
  · rw [if_pos hc, returns_pure]
    exact hstop hc
  · rw [if_neg hc]
    exact hgo hc

theorem returns_bind : Returns (x >>= f) s R ↔ Returns x s fun a t => Returns (f a) t R := by
  constructor
  · rintro ⟨b, u, hbind, hr⟩
    change (x s).bind (fun p => f p.1 p.2) = some (b, u) at hbind
    obtain ⟨p, hx, hf⟩ := Option.bind_eq_some_iff.mp hbind
    exact ⟨p.1, p.2, hx, b, u, hf, hr⟩
  · rintro ⟨a, t, hx, b, u, hf, hr⟩
    refine ⟨b, u, ?_, hr⟩
    show (x s).bind (fun p => f p.1 p.2) = some (b, u)
    rw [hx]
    exact hf

theorem Returns.bind (hx : Returns x s Q)
    (hf : ∀ a t, Q a t → Returns (f a) t R) : Returns (x >>= f) s R :=
  returns_bind.mpr (hx.mono hf)

/-- A last step before the result. -/
theorem Returns.last {g : α → β} (hx : Returns x s Q)
    (hR : ∀ a t, Q a t → R (g a) t) : Returns (x >>= fun a => Pure.pure (g a)) s R :=
  hx.bind fun a t hq => .pure (hR a t hq)

/-- A step that may find nothing. -/
theorem Returns.option {f : Option α → StateT σ Option β} (hy : Returns y s P)
    (hnone : ∀ t, P none t → Returns (f none) t R)
    (hsome : ∀ a t, P (some a) t → Returns (f (some a)) t R) : Returns (y >>= f) s R := by
  refine hy.bind fun a t hp => ?_
  cases a with
  | none => exact hnone t hp
  | some a => exact hsome a t hp

theorem returns_bind_of_some (hx : x s = some (a, t))
    (hf : Returns (f a) t R) : Returns (x >>= f) s R :=
  Returns.bind (Q := fun b u => b = a ∧ u = t) ⟨a, t, hx, rfl, rfl⟩ fun _ _ h => h.1 ▸ h.2 ▸ hf

theorem returns_get_bind {f : σ → StateT σ Option β} :
    Returns (get >>= f) s R ↔ Returns (f s) s R := Iff.rfl

theorem returns_modify_bind {f : PUnit → StateT σ Option β} :
    Returns (modify g >>= f) s R ↔ Returns (f ⟨⟩) (g s) R := Iff.rfl

theorem returns_modify {R : PUnit → σ → Prop} : Returns (modify g) s R ↔ R ⟨⟩ (g s) := by
  constructor
  · intro h
    exact h.elim rfl
  · intro h
    exact ⟨⟨⟩, g s, rfl, h⟩

theorem returns_modifyGet {g : σ → α × σ} :
    Returns (modifyGet g : StateT σ Option α) s Q ↔ Q (g s).1 (g s).2 := by
  constructor
  · intro h
    exact h.elim rfl
  · intro h
    exact ⟨_, _, rfl, h⟩

/-! ## Partial correctness

`After` is the partial counterpart of `Returns`: it says nothing of a computation that
faults or does not return.  There is one rule for each way computations are put together, so
that a goal about a block of code unfolds along the block.
-/

/-- Every result of the computation from `s` meets `Q`. -/
def After (x : StateT σ Option α) (s : σ) (Q : α → σ → Prop) : Prop :=
  ∀ a t, x s = some (a, t) → Q a t

theorem After.mono (h : After x s Q) (hQ : ∀ a t, Q a t → Q' a t) : After x s Q' :=
  fun a t hx => hQ a t (h a t hx)

theorem After.and (h : After x s Q) (h' : After x s Q') : After x s fun a t => Q a t ∧ Q' a t :=
  fun a t hx => ⟨h a t hx, h' a t hx⟩

theorem After.pure (h : Q a s) : After (pure a : StateT σ Option α) s Q := by
  intro b t hx
  cases hx
  exact h

theorem after_bind : After (x >>= f) s R ↔ After x s fun a t => After (f a) t R := by
  constructor
  · intro h a t hx b u hf
    refine h b u ?_
    show (x s).bind (fun p => f p.1 p.2) = some (b, u)
    rw [hx]
    exact hf
  · intro h b u hbind
    change (x s).bind (fun p => f p.1 p.2) = some (b, u) at hbind
    obtain ⟨p, hx, hf⟩ := Option.bind_eq_some_iff.mp hbind
    exact h p.1 p.2 hx b u hf

namespace After

/-- The rule for a call followed by the rest of a block. -/
theorem bind (hx : After x s Q) (hf : ∀ a t, Q a t → After (f a) t R) : After (x >>= f) s R :=
  after_bind.mpr (hx.mono hf)

/-- A step that may find nothing. -/
theorem option {f : Option α → StateT σ Option β} (hy : After y s P)
    (hnone : ∀ t, P none t → After (f none) t R)
    (hsome : ∀ a t, P (some a) t → After (f (some a)) t R) : After (y >>= f) s R := by
  refine hy.bind fun a t hp => ?_
  cases a with
  | none => exact hnone t hp
  | some a => exact hsome a t hp

/-- A first step whose result is known. -/
theorem run (hx : x s = some (a, t)) (hf : After (f a) t R) : After (x >>= f) s R := by
  refine after_bind.mpr fun b u hb => ?_
  rw [hx] at hb
  cases hb
  exact hf

theorem self : After x s fun a t => x s = some (a, t) := fun _ _ hx => hx

/-- A first step that only reads. -/
theorem reads {P : α → Prop} (h : After x s fun a t => t = s ∧ P a)
    (hf : ∀ a, P a → After (f a) s R) : After (x >>= f) s R := by
  refine h.bind fun a t ht => ?_
  rw [ht.1]
  exact hf a ht.2

theorem get_bind {f : σ → StateT σ Option β} (h : After (f s) s R) :
    After (get >>= f) s R := h

theorem modify_bind {f : PUnit → StateT σ Option β}
    (h : After (f ⟨⟩) (g s) R) : After (modify g >>= f) s R := h

theorem modify {R : PUnit → σ → Prop} (h : R ⟨⟩ (g s)) : After (modify g) s R := by
  intro a t hx
  cases hx
  exact h

theorem ite [Decidable c] {y : StateT σ Option α} (hc : c → After x s Q)
    (hn : ¬ c → After y s Q) : After (if c then x else y) s Q := by
  split
  · next h => exact hc h
  · next h => exact hn h

end After

theorem after_none (h : x s = none) : After x s Q := by
  intro a t hx
  rw [h] at hx
  cases hx

end Kil0yOS.Lib
