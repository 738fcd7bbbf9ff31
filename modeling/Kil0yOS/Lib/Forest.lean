/-
Forests given by a relation from parents to children.

A set of roots has no parents among what lies below the roots, and what lies below them has
one parent each.  Then the trees of two roots are disjoint, and a tree can be cut off (its
root joins the set) or hung under a node of another tree (its root leaves the set).
-/
import Mathlib.Data.Set.Insert

namespace Kil0yOS.Lib

open Relation

variable {α : Type} {child child' : α → α → Prop} {R R' : Set α} {p q r c : α}

/-- What lies below the roots `R`, the roots included. -/
def Below (child : α → α → Prop) (R : Set α) (q : α) : Prop :=
  ∃ r ∈ R, ReflTransGen child r q

theorem below_root (hr : r ∈ R) : Below child R r := ⟨r, hr, .refl⟩

namespace Below

theorem tail (hp : Below child R p) (hc : child p c) : Below child R c := by
  obtain ⟨r, hr, hpath⟩ := hp
  exact ⟨r, hr, hpath.tail hc⟩

theorem subset (hq : Below child R q) (hR : ∀ r ∈ R, Below child R' r) :
    Below child R' q := by
  obtain ⟨r, hr, hpath⟩ := hq
  obtain ⟨r', hr', hpath'⟩ := hR r hr
  exact ⟨r', hr', hpath'.trans hpath⟩

theorem under (hq : Below child {r} q) (hr : Below child R r) : Below child R q :=
  hq.subset fun _ hr' => Set.mem_singleton_iff.mp hr' ▸ hr

theorem mono (hq : Below child R q) (hR : R ⊆ R') : Below child R' q :=
  hq.subset fun _ hr => below_root (hR hr)

theorem cases (hq : Below child R q) : q ∈ R ∨ ∃ p, Below child R p ∧ child p q := by
  obtain ⟨r, hr, hpath⟩ := hq
  rcases hpath.cases_tail with heq | ⟨p, hp, hpq⟩
  · exact .inl (heq ▸ hr)
  · exact .inr ⟨p, ⟨r, hr, hp⟩, hpq⟩

/-- What lies strictly below a root lies below one of its children. -/
theorem head (hq : Below child {r} q) (hne : q ≠ r) : ∃ c, child r c ∧ Below child {c} q := by
  obtain ⟨r', hr', hpath⟩ := hq
  rw [Set.mem_singleton_iff.mp hr'] at hpath
  rcases hpath.cases_head with heq | ⟨c, hc, hcq⟩
  · exact absurd heq.symm hne
  · exact ⟨c, hc, c, rfl, hcq⟩

/-- What holds of the roots and of every child of what it holds of holds below. -/
theorem induct {P : α → Prop} (hq : Below child R q) (hroot : ∀ r ∈ R, P r)
    (hstep : ∀ p c, Below child R p → P p → child p c → P c) : P q := by
  obtain ⟨r, hr, hpath⟩ := hq
  induction hpath with
  | refl => exact hroot r hr
  | tail hp hpc ih => exact hstep _ _ ⟨r, hr, hp⟩ ih hpc

theorem of_insert {e : α} (hq : Below child (insert e R) q) (he : ∀ c, ¬ child e c) :
    Below child R q ∨ q = e := by
  refine hq.induct (P := fun x => Below child R x ∨ x = e) (fun r hr => ?_) fun p x _ ih hpx => ?_
  · rcases hr with rfl | hr
    · exact .inr rfl
    · exact .inl (below_root hr)
  · rcases ih with hp | rfl
    · exact .inl (hp.tail hpx)
    · exact absurd hpx (he x)

end Below

theorem below_congr (h : ∀ p, Below child R p → ∀ c, child' p c ↔ child p c) :
    Below child' R q ↔ Below child R q := by
  constructor
  · intro hq
    refine hq.induct (fun r hr => below_root hr) fun p c _ hp hpc => ?_
    exact hp.tail ((h p hp c).mp hpc)
  · intro hq
    refine hq.induct (fun r hr => below_root hr) fun p c hp hp' hpc => ?_
    exact hp'.tail ((h p hp c).mpr hpc)

structure IsForest (child : α → α → Prop) (R : Set α) : Prop where
  parent : ∀ p p' c, Below child R p → Below child R p' → child p c → child p' c → p = p'
  roots : ∀ r ∈ R, ∀ p, Below child R p → ¬ child p r

theorem IsForest.mono (h : IsForest child R) (hR : R' ⊆ R) : IsForest child R' :=
  ⟨fun p p' c hp hp' => h.parent p p' c (hp.mono hR) (hp'.mono hR),
    fun r hr p hp => h.roots r (hR hr) p (hp.mono hR)⟩

theorem IsForest.disjoint (h : IsForest child R) (hc : c ∈ R) (hR : R' ⊆ R) (hcR : c ∉ R')
    (hq : Below child {c} q) : ¬ Below child R' q := by
  refine hq.induct (P := fun x => ¬ Below child R' x) (fun r hr hbelow => ?_)
    fun p x hp hdis hpx hbelow => ?_
  · rw [Set.mem_singleton_iff.mp hr] at hbelow
    rcases hbelow.cases with hmem | ⟨p, hp, hpc⟩
    · exact hcR hmem
    · exact h.roots c hc p (hp.mono hR) hpc
  · rcases hbelow.cases with hmem | ⟨p', hp', hpx'⟩
    · exact h.roots x (hR hmem) p (hp.under (below_root hc)) hpx
    · have heq := h.parent p p' x (hp.under (below_root hc)) (hp'.mono hR) hpx hpx'
      exact hdis (heq ▸ hp')

/-- No walk comes back to where it began. -/
theorem IsForest.acyclic (h : IsForest child R) (hq : Below child R q) : ¬ TransGen child q q := by
  refine hq.induct (P := fun x => ¬ TransGen child x x) (fun r hr hcycle => ?_)
    fun p x hp ih hpx hcycle => ?_
  · obtain ⟨p, hpath, hpr⟩ := TransGen.tail'_iff.mp hcycle
    exact h.roots r hr p ⟨r, hr, hpath⟩ hpr
  · obtain ⟨p', hpath, hpx'⟩ := TransGen.tail'_iff.mp hcycle
    obtain ⟨r, hr, hrx⟩ := hp.tail hpx
    have heq := h.parent p p' x hp ⟨r, hr, hrx.trans hpath⟩ hpx hpx'
    exact ih (.head' hpx (heq ▸ hpath))

section Unlink

variable {d : α}

/-- The relation without the edge from `d` to `c`. -/
def Unlinked (child : α → α → Prop) (d c : α) : α → α → Prop :=
  fun p x => child p x ∧ ¬ (p = d ∧ x = c)

theorem below_of_unlinked (hq : Below (Unlinked child d c) R q) : Below child R q :=
  hq.induct (fun _ hr => below_root hr) fun _ _ _ hp hpx => hp.tail hpx.1

/-- Cutting an edge leaves everything below the roots or below the end of the edge. -/
theorem Below.unlinked (hq : Below child R q) :
    Below (Unlinked child d c) R q ∨ Below (Unlinked child d c) {c} q := by
  refine hq.induct (P := fun x => Below (Unlinked child d c) R x ∨ Below (Unlinked child d c) {c} x)
    (fun r hr => .inl (below_root hr)) fun p x _ ih hpx => ?_
  by_cases hedge : p = d ∧ x = c
  · rw [hedge.2]
    exact .inr (below_root rfl)
  · rcases ih with hp | hp
    · exact .inl (hp.tail ⟨hpx, hedge⟩)
    · exact .inr (hp.tail ⟨hpx, hedge⟩)

/-- The start of the edge is reached without it. -/
theorem Below.unlinked_source (hd : Below child R d) : Below (Unlinked child d c) R d := by
  have hor : ∀ q, Below child R q →
      Below (Unlinked child d c) R q ∨ Below (Unlinked child d c) R d := by
    intro q hq
    refine hq.induct (P := fun x => Below (Unlinked child d c) R x ∨ Below (Unlinked child d c) R d)
      (fun r hr => .inl (below_root hr)) fun p x _ ih hpx => ?_
    rcases ih with hp | hd
    · by_cases hpd : p = d
      · exact .inr (hpd ▸ hp)
      · exact .inl (hp.tail ⟨hpx, fun hedge => hpd hedge.1⟩)
    · exact .inr hd
  exact (hor d hd).elim id id

theorem IsForest.unlink (h : IsForest child R) (hd : Below child R d) (hc : child d c) :
    IsForest (Unlinked child d c) (insert c R) := by
  have hback : ∀ q, Below (Unlinked child d c) (insert c R) q → Below child R q := by
    intro q hq
    refine (below_of_unlinked hq).subset fun r hr => ?_
    rcases hr with heq | hr
    · exact heq ▸ hd.tail hc
    · exact below_root hr
  refine ⟨fun p p' x hp hp' hpx hpx' => ?_, fun r hr p hp hpr => ?_⟩
  · exact h.parent p p' x (hback p hp) (hback p' hp') hpx.1 hpx'.1
  rcases hr with heq | hr
  · subst heq
    exact hpr.2 ⟨h.parent p d r (hback p hp) hd hpr.1 hc, rfl⟩
  · exact h.roots r hr p (hback p hp) hpr.1

/-- Without the edge the roots lead to what did not lie below its end. -/
theorem IsForest.below_unlinked_iff (h : IsForest child R) (hd : Below child R d) (hc : child d c) :
    Below (Unlinked child d c) R q ↔ Below child R q ∧ ¬ Below child {c} q := by
  have hcR : c ∉ R := fun hmem => h.roots c hmem d hd hc
  have hcut := h.unlink hd hc
  constructor
  · intro hq
    refine ⟨below_of_unlinked hq, fun hqc => ?_⟩
    have hqc' : Below (Unlinked child d c) {c} q := or_self_iff.mp hqc.unlinked
    exact hcut.disjoint (Set.mem_insert _ _) (Set.subset_insert _ _) hcR hqc' hq
  · intro hq
    rcases hq.1.unlinked with hb | hb
    · exact hb
    · exact absurd (below_of_unlinked hb) hq.2

end Unlink

section Link

variable {d : α}

/-- The relation with an edge from `d` to `c`. -/
def Linked (child : α → α → Prop) (d c : α) : α → α → Prop :=
  fun p x => child p x ∨ (p = d ∧ x = c)

theorem Below.linked (hq : Below child R q) : Below (Linked child d c) R q :=
  hq.induct (fun _ hr => below_root hr) fun _ _ _ hp hpx => hp.tail (.inl hpx)

/-- Nothing new lies below the roots once the end of the edge counts as one. -/
theorem below_of_linked (hq : Below (Linked child d c) R q) : Below child (insert c R) q := by
  refine hq.induct (fun r hr => below_root (.inr hr)) fun p x _ hp hpx => ?_
  rcases hpx with hpx | ⟨-, rfl⟩
  · exact hp.tail hpx
  · exact below_root (.inl rfl)

theorem IsForest.link (h : IsForest child (insert c R)) (hd : Below child R d) (hcR : c ∉ R) :
    IsForest (Linked child d c) R := by
  have hnot : ∀ p, Below child (insert c R) p → ¬ child p c :=
    h.roots c (Set.mem_insert c R)
  refine ⟨fun p p' x hp hp' hpx hpx' => ?_, fun r hr p hp hpr => ?_⟩
  · replace hp := below_of_linked hp
    replace hp' := below_of_linked hp'
    rcases hpx with hpx | ⟨rfl, rfl⟩
    · rcases hpx' with hpx' | ⟨rfl, rfl⟩
      · exact h.parent p p' x hp hp' hpx hpx'
      · exact absurd hpx (hnot p hp)
    · rcases hpx' with hpx' | ⟨rfl, -⟩
      · exact absurd hpx' (hnot p' hp')
      · rfl
  · rcases hpr with hpr | ⟨-, rfl⟩
    · exact h.roots r (.inr hr) p (below_of_linked hp) hpr
    · exact hcR hr

end Link

end Kil0yOS.Lib
