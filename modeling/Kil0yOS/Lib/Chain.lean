/-
Linked lists threaded through a successor function.

A node knows the node behind it, if any, and a list starts at a head.  `Chain`
says which nodes a walk from the head meets before it runs off the end.  Such a
walk never meets a node twice, so a list that ends is automatically free of
repetitions, and the walks that look for a node are searches of the list.
-/
import Mathlib.Data.List.Nodup

namespace Kil0yOS.Lib

open List

variable {α : Type} {fuel : Nat}

/-- The walk from `o` along `next` meets exactly the nodes of the list, in
order, and then ends. -/
def Chain (next : α → Option α) : Option α → List α → Prop
  | o, [] => o = none
  | o, a :: l => o = some a ∧ Chain next (next a) l

/-- The first node of a walk that satisfies `P`, looking at no more than `fuel`
nodes. -/
def firstWhere (next : α → Option α) (P : α → Bool) : Nat → Option α → Option α
  | 0, _ => none
  | _ + 1, none => none
  | fuel + 1, some a => if P a then some a else firstWhere next P fuel (next a)

theorem of_firstWhere_eq_some {next : α → Option α} {P : α → Bool} {o : Option α} {a : α}
    (h : firstWhere next P fuel o = some a) : P a = true := by
  induction fuel generalizing o with
  | zero => cases h
  | succ fuel ih =>
    cases o with
    | none => cases h
    | some b =>
      rw [firstWhere] at h
      split at h
      · next hb =>
        rw [← Option.some.inj h]
        exact hb
      · exact ih h

namespace Chain

variable {next next' : α → Option α} {o : Option α} {l m : List α} {a b : α}

/-- The end of a chain is replaced. -/
theorem append {m' : List α} (h : Chain next o (l ++ m)) (heq : ∀ a ∈ l, next' a = next a)
    (hend : ∀ o, Chain next o m → Chain next' o m') : Chain next' o (l ++ m') := by
  induction l generalizing o with
  | nil => exact hend o h
  | cons a l ih =>
    refine ⟨h.1, ?_⟩
    rw [heq a mem_cons_self]
    exact ih h.2 fun b hb => heq b (mem_cons_of_mem a hb)

theorem congr (h : Chain next o l) (heq : ∀ a ∈ l, next' a = next a) : Chain next' o l := by
  rw [← append_nil l] at h ⊢
  exact h.append heq fun _ => id

theorem unique (hl : Chain next o l) (hm : Chain next o m) : l = m := by
  induction l generalizing o m with
  | nil =>
    cases m with
    | nil => rfl
    | cons b m =>
      have h : (none : Option α) = some b := hl.symm.trans hm.1
      cases h
  | cons a l ih =>
    cases m with
    | nil =>
      have h : (none : Option α) = some a := hm.symm.trans hl.1
      cases h
    | cons b m =>
      have hab : a = b := Option.some.inj (hl.1.symm.trans hm.1)
      subst hab
      rw [ih hl.2 hm.2]

/-- The nodes from a member on form a chain of their own. -/
theorem of_append (h : Chain next o (l ++ a :: m)) : Chain next (some a) (a :: m) := by
  induction l generalizing o with
  | nil => exact ⟨rfl, h.2⟩
  | cons b l ih => exact ih h.2

theorem nodup (h : Chain next o l) : l.Nodup := by
  induction l generalizing o with
  | nil => exact nodup_nil
  | cons a l ih =>
    refine nodup_cons.mpr ⟨fun ha => ?_, ih h.2⟩
    -- a second visit would start the same walk again, which is longer
    obtain ⟨s, t, rfl⟩ := append_of_mem ha
    have h1 : Chain next (some a) (a :: (s ++ a :: t)) := ⟨rfl, h.2⟩
    have h2 : Chain next (some a) (a :: t) := of_append h.2
    have hlen := congrArg length (h1.unique h2)
    simp only [length_cons, length_append] at hlen
    omega

theorem head_eq_none (h : Chain next o l) : o = none ↔ l = [] := by
  cases l with
  | nil => exact ⟨fun _ => rfl, fun _ => h⟩
  | cons a l =>
    rw [h.1]
    simp

theorem snoc (h : Chain next o (l ++ [a])) (heq : ∀ c ∈ l, next' c = next c)
    (ha : next' a = some b) (hb : next' b = none) : Chain next' o (l ++ [a] ++ [b]) := by
  rw [append_assoc]
  exact h.append heq fun _ ho => ⟨ho.1, ha, hb⟩

/-- Linking past the node `b` behind `a`. -/
theorem skip (h : Chain next o (l ++ a :: b :: m)) (heq : ∀ c ∈ l ++ m, next' c = next c)
    (ha : next' a = next b) : Chain next' o (l ++ a :: m) := by
  refine h.append (fun c hc => heq c (mem_append_left m hc)) fun _ ho => ⟨ho.1, ?_⟩
  rw [ha]
  exact congr ho.2.2 fun c hc => heq c (mem_append_right l hc)

theorem firstWhere_eq (h : Chain next o l) (P : α → Bool) (hf : l.length ≤ fuel) :
    firstWhere next P fuel o = l.find? P := by
  induction l generalizing o fuel with
  | nil =>
    obtain rfl : o = none := h
    cases fuel <;> rfl
  | cons a l ih =>
    obtain ⟨rfl, h⟩ := h
    cases fuel with
    | zero => cases hf
    | succ fuel =>
      rw [firstWhere, find?_cons]
      cases hP : P a with
      | true => rfl
      | false =>
        exact ih h (Nat.le_of_succ_le_succ hf)

theorem find_pred [DecidableEq α] (h : Chain next o (l ++ a :: b :: m)) :
    (l ++ a :: b :: m).find? (fun c => decide (next c = some b)) = some a := by
  have hnext : next a = some b := (of_append h).2.1
  have hnot : ∀ c ∈ l, ¬ next c = some b := by
    intro c hc hcb
    obtain ⟨s, t, rfl⟩ := append_of_mem hc
    rw [append_assoc, cons_append] at h
    have hc' := of_append h
    -- the walk from `c` would meet `b` at once and again behind `a`
    have h1 := hc'.2
    rw [hcb] at h1
    have h2 : Chain next (some b) (b :: m) := (of_append (l := s ++ c :: t ++ [a]) (by
      simpa using h))
    have hlen := congrArg length (h1.unique h2)
    simp only [length_append, length_cons] at hlen
    omega
  rw [find?_append, find?_eq_none.mpr fun c hc => by simpa using hnot c hc,
    Option.none_or, find?_cons_of_pos (by simpa using hnext)]

theorem find_last (h : Chain next o (l ++ [a])) :
    (l ++ [a]).find? (fun c => (next c).isNone) = some a := by
  have hnot : ∀ c ∈ l, ¬ (next c).isNone = true := by
    intro c hc
    obtain ⟨s, t, rfl⟩ := append_of_mem hc
    rw [append_assoc] at h
    have hc' := (of_append h).2
    cases t with
    | nil =>
      rw [hc'.1]
      exact Bool.false_ne_true
    | cons d t =>
      rw [hc'.1]
      exact Bool.false_ne_true
  rw [find?_append, find?_eq_none.mpr hnot, Option.none_or,
    find?_cons_of_pos (by rw [(of_append h).2]; rfl)]

end Chain
end Kil0yOS.Lib
