/-
Private copies of a value that are written back.

Whoever takes a copy works on it alone.  A copy that was changed replaces the value when it
is given back.  A copy is stale if a change was made in another one, so that it lacks that
change.  As long as nobody works on a stale copy, no change is lost: the copies that are not
stale all hold the value with every change made in order, and at most one of them is dirty.
-/
import Kil0yOS.Lib.Tables

namespace Kil0yOS.Lib

open Function

variable {ι α : Type}

/-- `expected` is the value with every change made so far, `stored` the value that a copy
would be taken from.  With each copy stands whether it is dirty. -/
structure Coherent (expected stored : α) (copies : ι → Option (α × Bool)) (stale : ι → Prop) :
    Prop where
  current : ∀ i a d, copies i = some (a, d) → ¬ stale i → a = expected
  alone : ∀ i a, copies i = some (a, true) → ¬ stale i ∧ ∀ j, j ≠ i → copies j ≠ none → stale j
  flushed : (∀ i a, copies i ≠ some (a, true)) → stored = expected

namespace Coherent

theorem start (value : α) (stale : ι → Prop) :
    Coherent value value (fun _ : ι => none) stale :=
  ⟨fun _ _ _ h => (by cases h), fun _ _ h => (by cases h), fun _ => rfl⟩

variable [DecidableEq ι] {expected stored a : α} {copies : ι → Option (α × Bool)}
  {stale stale' : ι → Prop} {i : ι} {d d' : Bool}

section

variable (h : Coherent expected stored copies stale)
include h

/-- A copy is stale from the beginning if a change is waiting in another one. -/
theorem take (hi : copies i = none) (hstale : (∃ j b, copies j = some (b, true)) → stale' i)
    (hkeep : ∀ j, j ≠ i → (stale' j ↔ stale j)) :
    Coherent expected stored (update copies i (some (stored, false))) stale' where
  current j b c hj hfresh := by
    rcases update_cases hj with ⟨rfl, hb⟩ | ⟨hji, hj⟩
    · cases hb
      exact h.flushed fun k b hk => hfresh (hstale ⟨k, b, hk⟩)
    · exact h.current j b c hj fun hs => hfresh ((hkeep j hji).mpr hs)
  alone j b hj := by
    obtain ⟨hji, hj⟩ := (update_cases hj).resolve_left fun hb => (by cases hb.2)
    refine ⟨fun hs => (h.alone j b hj).1 ((hkeep j hji).mp hs), fun k hkj hk => ?_⟩
    by_cases hki : k = i
    · rw [hki]
      exact hstale ⟨j, b, hj⟩
    · rw [update_of_ne hki] at hk
      exact (hkeep k hki).mpr ((h.alone j b hj).2 k hkj hk)
  flushed hnone := by
    refine h.flushed fun j b hj => hnone j b ?_
    rwa [update_of_ne]
    rintro rfl
    cases hi.symm.trans hj

/-- A change in a copy that is not stale makes the others stale.  The copy need not become
dirty by a change that changes nothing. -/
theorem change (hi : copies i = some (a, d)) (hfresh : ¬ stale i) (g : α → α)
    (hd : d' = true ∨ d' = d ∧ g a = a) (hself : ¬ stale' i)
    (hothers : ∀ j, j ≠ i → copies j ≠ none → stale' j) :
    Coherent (g expected) stored (update copies i (some (g a, d'))) stale' := by
  have ha := h.current i a d hi hfresh
  -- Another dirty copy would have made this one stale.
  have hclean : ∀ j b, j ≠ i → copies j ≠ some (b, true) := fun j b hji hj =>
    hfresh ((h.alone j b hj).2 i hji.symm (by simp [hi]))
  refine ⟨fun j b c hj hjfresh => ?_, fun j b hj => ?_, fun hnone => ?_⟩
  · rcases update_cases hj with ⟨rfl, hb⟩ | ⟨hji, hj⟩
    · cases hb
      rw [ha]
    · exact absurd (hothers j hji (by simp [hj])) hjfresh
  · obtain ⟨rfl, -⟩ := (update_cases hj).resolve_right fun hj => hclean j b hj.1 hj.2
    refine ⟨hself, fun k hk hcopy => hothers k hk ?_⟩
    rwa [update_of_ne hk] at hcopy
  · have hd' : d' ≠ true := by
      rintro rfl
      exact hnone i (g a) (update_self ..)
    obtain ⟨rfl, hg⟩ := hd.resolve_left hd'
    rw [← ha, hg, ha]
    refine h.flushed fun j b hj => ?_
    by_cases hji : j = i
    · rw [hji] at hj
      cases hi.symm.trans hj
      exact hd' rfl
    · exact hclean j b hji hj

/-- A copy is given back.  If it is dirty it replaces the value. -/
theorem giveBack (hi : copies i = some (a, d)) :
    Coherent expected (if d then a else stored) (update copies i none) stale where
  current j b c hj := h.current j b c (update_none_eq_some hj).2
  alone j b hj := by
    have hj := (update_none_eq_some hj).2
    refine ⟨(h.alone j b hj).1, fun k hkj hk => (h.alone j b hj).2 k hkj fun hnone => hk ?_⟩
    by_cases hki : k = i
    · rw [hki, update_self]
    · rw [update_of_ne hki, hnone]
  flushed hnone := by
    cases d with
    | true => exact h.current i a true hi (h.alone i a hi).1
    | false =>
      refine h.flushed fun j b hj => hnone j b ?_
      rwa [update_of_ne]
      rintro rfl
      cases hi.symm.trans hj

end

end Coherent

end Kil0yOS.Lib
