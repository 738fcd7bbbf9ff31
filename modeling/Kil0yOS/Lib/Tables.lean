/-
Tables as functions, of which one entry is replaced.
-/
import Mathlib.Data.List.Nodup

namespace Kil0yOS.Lib

open Function List

variable {ι α : Type} [DecidableEq ι] {T : ι → Option α} {w : α}

/-- Where an entry of the new table comes from. -/
theorem update_cases {T : ι → α} {k i : ι} {x : α} (h : update T k x i = w) :
    (i = k ∧ x = w) ∨ (i ≠ k ∧ T i = w) := by
  by_cases hi : i = k
  · rw [hi, update_self] at h
    exact .inl ⟨hi, h⟩
  · rw [update_of_ne hi] at h
    exact .inr ⟨hi, h⟩

theorem update_none_eq_some {k i : ι} (h : update T k none i = some w) : i ≠ k ∧ T i = some w := by
  rcases update_cases h with ⟨-, hx⟩ | hi
  · cases hx
  · exact hi

theorem isSome_update {k : ι} {u : α} (hu : T k = some u) (u' : α) (i : ι) :
    (update T k (some u') i).isSome = (T i).isSome := by
  by_cases hi : i = k
  · rw [hi, update_self, hu]
    rfl
  · rw [update_of_ne hi]

/-! ## Exclusive ownership

Holders own resources, and a resource in use by nobody is free.  Taking a free
resource and giving one back keep every resource with at most one holder.
 -/

variable {κ ρ : Type} {own own' : κ → Option ρ} {used used' : ρ → Bool} {c : κ} {r : ρ}

/-- What is owned is marked as used and has one holder. -/
structure Owned (own : κ → Option ρ) (used : ρ → Bool) : Prop where
  used : ∀ {c r}, own c = some r → used r = true
  inj : ∀ {c c' r}, own c = some r → own c' = some r → c = c'

namespace Owned

theorem of_none (h : ∀ c, own c = none) : Owned own used := by
  constructor
  · intro c r hc
    rw [h c] at hc
    cases hc
  · intro c c' r hc
    rw [h c] at hc
    cases hc

theorem mono (h : Owned own used) (hle : ∀ r, used r = true → used' r = true) :
    Owned own used' := ⟨fun hc => hle _ (h.used hc), h.inj⟩

theorem sub (h : Owned own used) (hsub : ∀ c r, own' c = some r → own c = some r) :
    Owned own' used :=
  ⟨fun hc => h.used (hsub _ _ hc), fun h₁ h₂ => h.inj (hsub _ _ h₁) (hsub _ _ h₂)⟩

variable [DecidableEq κ]

/-- A holder takes a resource marked as used that nobody owns, in place of what it
owned. -/
theorem link (h : Owned own used) (hused : used r = true) (hnew : ∀ c', own c' ≠ some r) (c : κ) :
    Owned (update own c (some r)) used := by
  constructor
  · intro c' r' hc'
    rcases update_cases hc' with ⟨-, hc'⟩ | ⟨-, hc'⟩
    · rw [← Option.some.inj hc']
      exact hused
    · exact h.used hc'
  intro c₁ c₂ r' h₁ h₂
  by_cases hc₁ : c₁ = c <;> by_cases hc₂ : c₂ = c
  · rw [hc₁, hc₂]
  · rw [hc₁, update_self] at h₁
    rw [update_of_ne hc₂, ← Option.some.inj h₁] at h₂
    exact absurd h₂ (hnew c₂)
  · rw [hc₂, update_self] at h₂
    rw [update_of_ne hc₁, ← Option.some.inj h₂] at h₁
    exact absurd h₁ (hnew c₁)
  · rw [update_of_ne hc₁] at h₁
    rw [update_of_ne hc₂] at h₂
    exact h.inj h₁ h₂

variable [DecidableEq ρ]

/-- A holder takes a free resource, in place of what it owned. -/
theorem grant (h : Owned own used) (hfree : used r = false) (c : κ) :
    Owned (update own c (some r)) (update used r true) := by
  have hmore : ∀ r', used r' = true → update used r true r' = true := by
    intro r' hr'
    by_cases hr : r' = r
    · simp [hr]
    · rw [update_of_ne hr]
      exact hr'
  apply (h.mono hmore).link (update_self r true used)
  intro c' hc'
  have hu := h.used hc'
  rw [hfree] at hu
  cases hu

/-- A holder gives its resource back. -/
theorem drop (h : Owned own used) (hc : own c = some r) :
    Owned (update own c none) (update used r false) := by
  constructor
  · intro c' r' hc'
    obtain ⟨hne, hc'⟩ := update_none_eq_some hc'
    have hr : r' ≠ r := by
      rintro rfl
      exact hne (h.inj hc' hc)
    rw [update_of_ne hr]
    exact h.used hc'
  · intro c₁ c₂ r' h₁ h₂
    exact h.inj (update_none_eq_some h₁).2 (update_none_eq_some h₂).2

end Owned

/-! ## Queues that share no element -/

variable {κ α : Type} [DecidableEq κ] {Q : κ → List α} {k : κ} {x : α} {xs : List α}

/-- No element is in two of the queues, or twice in one. -/
structure Apart (Q : κ → List α) : Prop where
  nodup : ∀ k, (Q k).Nodup
  once : ∀ k l x, x ∈ Q k → x ∈ Q l → k = l

namespace Apart

/-- An element that is in no queue goes to the end of one. -/
theorem push (h : Apart Q) (hx : ∀ l, x ∉ Q l) (k : κ) : Apart (update Q k (Q k ++ [x])) := by
  have hmem : ∀ l y, y ∈ update Q k (Q k ++ [x]) l → y ∈ Q l ∨ (l = k ∧ y = x) := by
    intro l y hy
    by_cases hl : l = k
    · subst hl
      rw [update_self, mem_append, mem_singleton] at hy
      exact hy.imp_right fun hyx => ⟨rfl, hyx⟩
    · rw [update_of_ne hl] at hy
      exact .inl hy
  constructor
  · refine (forall_update_iff Q fun _ q => q.Nodup).mpr ⟨?_, fun l _ => h.nodup l⟩
    exact List.nodup_append'.mpr ⟨h.nodup k, nodup_singleton x,
      disjoint_singleton.mpr (hx k)⟩
  intro l m y hyl hym
  rcases hmem l y hyl with hl | ⟨hl, hyx⟩
  · rcases hmem m y hym with hm | ⟨-, hyx⟩
    · exact h.once l m y hl hm
    · exact absurd (hyx ▸ hl) (hx l)
  · rcases hmem m y hym with hm | ⟨hm, -⟩
    · exact absurd (hyx ▸ hm) (hx m)
    · rw [hl, hm]

theorem mem_of_mem_pop (hk : Q k = x :: xs) {l : κ} {y : α} (hy : y ∈ update Q k xs l) :
    y ∈ Q l := by
  by_cases hl : l = k
  · subst hl
    rw [update_self] at hy
    rw [hk]
    exact mem_cons_of_mem x hy
  · rw [update_of_ne hl] at hy
    exact hy

/-- The first element leaves a queue, and is then in none. -/
theorem pop (h : Apart Q) (hk : Q k = x :: xs) :
    Apart (update Q k xs) ∧ ∀ l, x ∉ update Q k xs l := by
  have hnodup : x ∉ xs ∧ xs.Nodup := nodup_cons.mp (hk ▸ h.nodup k)
  have hx : x ∈ Q k := by
    rw [hk]
    exact mem_cons_self
  constructor
  · constructor
    · exact (forall_update_iff Q fun _ q => q.Nodup).mpr ⟨hnodup.2, fun l _ => h.nodup l⟩
    · intro l m y hl hm
      exact h.once l m y (mem_of_mem_pop hk hl) (mem_of_mem_pop hk hm)
  · intro l hmem
    have hl : l = k := h.once l k x (mem_of_mem_pop hk hmem) hx
    rw [hl, update_self] at hmem
    exact hnodup.1 hmem

end Apart

end Kil0yOS.Lib
