/-
A depth-first walk that lists each node after its successors.

The walk marks a node while it is on the current path and again when it is listed.  An
edge to a node on the path is passed over, a successor that does not exist ends the walk,
and so does a path longer than the levels given.
-/
import Mathlib.Data.List.Nodup
import Mathlib.Logic.Relation

namespace Kil0yOS.Lib.Postorder

open Function Relation
open List

variable {levels : Nat}

inductive Mark where
  | new
  | visiting
  | done
deriving DecidableEq, Repr

structure Walk (α : Type*) where
  order : List α
  mark : α → Mark
  failed : Bool

def Walk.start (α : Type*) : Walk α := { order := [], mark := fun _ => .new, failed := false }

section Plain

variable {α : Type*}

/-- The list only grows, and the current path is the same again. -/
structure Extends (w w' : Walk α) : Prop where
  listed : ∀ a ∈ w.order, a ∈ w'.order
  path : ∀ a, w'.mark a = .visiting ↔ w.mark a = .visiting

theorem Extends.refl (w : Walk α) : Extends w w := ⟨fun _ h => h, fun _ => Iff.rfl⟩

theorem Extends.trans {w₁ w₂ w₃ : Walk α} (h : Extends w₁ w₂) (h' : Extends w₂ w₃) :
    Extends w₁ w₃ :=
  ⟨fun a ha => h'.listed a (h.listed a ha), fun a => (h'.path a).trans (h.path a)⟩

/-- The walk goes to the successors in turn and stops at the first failure. -/
def visitAll (visit : Walk α → α → Walk α) : List (Option α) → Walk α → Walk α
  | [], w => w
  | none :: _, w => { w with failed := true }
  | some b :: rest, w => if (visit w b).failed then visit w b else visitAll visit rest (visit w b)

def Edge (succ : α → List (Option α)) (a b : α) : Prop := some b ∈ succ a

variable {succ : α → List (Option α)}

/-- Whatever is on the current path leads to `a`. -/
def PathTo (succ : α → List (Option α)) (w : Walk α) (a : α) : Prop :=
  ∀ t, w.mark t = .visiting → ReflTransGen (Edge succ) t a

/-- Every node listed has its successors listed before it, those apart from which there is
a path to it. -/
structure Good (succ : α → List (Option α)) (w : Walk α) : Prop where
  done : ∀ a, w.mark a = .done ↔ a ∈ w.order
  nodup : w.order.Nodup
  closed : ∀ a ∈ w.order, ∀ b, Edge succ a b → b ∈ w.order ∨ w.mark b = .visiting
  sorted : ∀ before a after, w.order = before ++ a :: after → ∀ b, Edge succ a b →
    b ∈ before ∨ ReflTransGen (Edge succ) b a

theorem Good.notMem {w : Walk α} {a : α} (h : Good succ w) (hmark : w.mark a ≠ .done) :
    a ∉ w.order := fun ha => hmark ((h.done a).mpr ha)

theorem good_start : Good succ (.start α) := by
  refine ⟨fun a => ?_, nodup_nil, fun a h => ?_, fun before a after h => ?_⟩
  · constructor <;> intro h <;> cases h
  · cases h
  · cases before <;> cases h

/-- What a visit of `a` from `w` has to establish. -/
structure Visited (succ : α → List (Option α)) (w w' : Walk α) (a : α) : Prop where
  good : Good succ w'
  extend : Extends w w'
  reached : a ∈ w'.order ∨ w'.mark a = .visiting

/-- The rule for the loop over the successors of `a`, from the rule for each of them. -/
theorem visitAll_good {go : Walk α → α → Walk α} {a : α} (hgo : ∀ w b, Edge succ a b → Good succ w →
      PathTo succ w a → (go w b).failed = false → Visited succ w (go w b) b) :
    ∀ bs w, (∀ b, some b ∈ bs → Edge succ a b) → Good succ w → PathTo succ w a →
      (visitAll go bs w).failed = false →
      Good succ (visitAll go bs w) ∧ Extends w (visitAll go bs w) ∧
        ∀ b, some b ∈ bs → b ∈ (visitAll go bs w).order ∨
          (visitAll go bs w).mark b = .visiting := by
  intro bs
  induction bs with
  | nil =>
    intro w _ hgood _ _
    exact ⟨hgood, Extends.refl w, nofun⟩
  | cons o rest ih =>
    intro w hedge hgood hpath hok
    cases o with
    | none => cases hok
    | some b =>
      simp only [visitAll] at hok ⊢
      cases hfail : (go w b).failed with
      | true =>
        rw [hfail, if_pos rfl] at hok
        rw [hfail] at hok
        cases hok
      | false =>
        rw [hfail] at hok
        have hb := hgo w b (hedge b mem_cons_self) hgood hpath hfail
        have hpath' : PathTo succ (go w b) a := fun t ht => hpath t ((hb.extend.path t).mp ht)
        obtain ⟨hg, hext, hall⟩ :=
          ih (go w b) (fun c hc => hedge c (mem_cons_of_mem _ hc)) hb.good hpath' hok
        refine ⟨hg, hb.extend.trans hext, fun c hc => ?_⟩
        rcases mem_cons.mp hc with hc | hc
        · cases hc
          rcases hb.reached with h | h
          · exact .inl (hext.listed _ h)
          · exact .inr ((hext.path _).mpr h)
        · exact hall c hc

end Plain

variable {α : Type*} [DecidableEq α] {succ : α → List (Option α)}

def Walk.enter (w : Walk α) (a : α) : Walk α :=
  { w with mark := update w.mark a .visiting }

def Walk.leave (w : Walk α) (a : α) : Walk α :=
  { w with order := w.order ++ [a], mark := update w.mark a .done }

def visit (succ : α → List (Option α)) : Nat → Walk α → α → Walk α
  | 0, w, _ => { w with failed := true }
  | levels + 1, w, a =>
    if w.failed then w
    else if w.mark a = .new then
      let left := visitAll (visit succ levels) (succ a) (w.enter a)
      if left.failed then left else left.leave a
    else w

theorem Good.enter {w : Walk α} {a : α} (h : Good succ w) (hnew : w.mark a = .new) :
    Good succ (w.enter a) := by
  refine ⟨fun b => ?_, h.nodup, fun b hb c hc => ?_, h.sorted⟩
  · by_cases hba : b = a
    · subst hba
      simp only [Walk.enter, update_self, reduceCtorEq, false_iff]
      exact h.notMem (by rw [hnew]; exact nofun)
    · simp only [Walk.enter, update_of_ne hba]
      exact h.done b
  rcases h.closed b hb c hc with hin | hvis
  · exact .inl hin
  refine .inr ?_
  by_cases hca : c = a
  · subst hca
    simp [Walk.enter]
  · simp only [Walk.enter, update_of_ne hca]
    exact hvis

/-- The node leaves the path and is listed: each of its successors is listed by then, or
is on the path above it. -/
theorem Good.leave {w : Walk α} {a : α} (h : Good succ w) (hvis : w.mark a = .visiting)
    (hpath : PathTo succ w a) (hsucc : ∀ b, Edge succ a b → b ∈ w.order ∨ w.mark b = .visiting) :
    Good succ (w.leave a) := by
  have hnot : a ∉ w.order := h.notMem (by rw [hvis]; exact nofun)
  have hkeep : ∀ b, b ∈ w.order ∨ w.mark b = .visiting →
      b ∈ (w.leave a).order ∨ (w.leave a).mark b = .visiting := by
    intro b hb
    by_cases hba : b = a
    · subst hba
      exact .inl (mem_append_right _ mem_cons_self)
    · simp only [Walk.leave, update_of_ne hba]
      exact hb.imp_left (mem_append_left _)
  refine ⟨fun b => ?_, ?_, fun b hb c hc => ?_, fun before b after hsplit c hc => ?_⟩
  · by_cases hba : b = a
    · subst hba
      simp [Walk.leave]
    · simp [Walk.leave, hba, h.done b]
  · exact nodup_append.mpr ⟨h.nodup, nodup_singleton a, fun b hb c hc hbc => by
      rw [mem_singleton.mp hc] at hbc
      exact hnot (hbc ▸ hb)⟩
  · rcases mem_append.mp hb with hb | hb
    · exact hkeep c (h.closed b hb c hc)
    · rw [mem_singleton.mp hb] at hc
      exact hkeep c (hsucc c hc)
  · rcases eq_nil_or_concat after with rfl | ⟨front, z, rfl⟩
    · obtain ⟨hbefore, hlast⟩ := append_inj' hsplit rfl
      cases hlast
      rw [← hbefore]
      exact (hsucc c hc).imp_right (hpath c)
    have hsplit' : w.order ++ [a] = (before ++ b :: front) ++ [z] := by
      rw [concat_eq_append] at hsplit
      rw [append_assoc]
      exact hsplit
    obtain ⟨horder, -⟩ := append_inj' hsplit' rfl
    exact h.sorted before b front horder c hc

theorem visit_of_failed {w : Walk α} {a : α} (h : w.failed = true) :
    (visit succ levels w a).failed = true := by
  cases levels with
  | zero => rfl
  | succ levels =>
    simp [visit, h]

theorem visit_of_new {w : Walk α} {a : α} (h : w.failed = false) (hnew : w.mark a = .new) :
    visit succ (levels + 1) w a =
      if (visitAll (visit succ levels) (succ a) (w.enter a)).failed then
        visitAll (visit succ levels) (succ a) (w.enter a)
      else (visitAll (visit succ levels) (succ a) (w.enter a)).leave a := by
  simp [visit, h, hnew]

theorem visit_of_seen {w : Walk α} {a : α} (hseen : w.mark a ≠ .new) :
    visit succ (levels + 1) w a = w := by
  simp [visit, hseen]

theorem visit_good (levels : Nat) : ∀ w a, Good succ w → PathTo succ w a →
    (visit succ levels w a).failed = false → Visited succ w (visit succ levels w a) a := by
  induction levels with
  | zero =>
    intro w a _ _ hok
    cases hok
  | succ levels ih =>
    intro w a hgood hpath hok
    have hfail : w.failed = false := by
      cases hfail : w.failed with
      | false => rfl
      | true =>
        rw [visit_of_failed hfail] at hok
        cases hok
    by_cases hnew : w.mark a = .new
    · have hpath' : PathTo succ (w.enter a) a := by
        intro t ht
        by_cases hta : t = a
        · rw [hta]
        · simp only [Walk.enter, update_of_ne hta] at ht
          exact hpath t ht
      have hgood' := hgood.enter hnew
      rw [visit_of_new hfail hnew] at hok ⊢
      generalize hleft : visitAll (visit succ levels) (succ a) (w.enter a) = left at hok ⊢
      cases hfail' : left.failed with
      | true =>
        rw [hfail', if_pos rfl, hfail'] at hok
        cases hok
      | false =>
        rw [if_neg Bool.false_ne_true]
        have hdeeper := visitAll_good
          (fun v b hb hv hp hvok => ih v b hv (fun t ht => (hp t ht).tail hb) hvok)
          (succ a) (w.enter a) (fun b hb => hb) hgood' hpath' (by rw [hleft]; exact hfail')
        rw [hleft] at hdeeper
        obtain ⟨hg, hext, hall⟩ := hdeeper
        have hvis : left.mark a = .visiting := (hext.path a).mpr (update_self ..)
        have hpath'' : PathTo succ left a := fun t ht => hpath' t ((hext.path t).mp ht)
        refine ⟨hg.leave hvis hpath'' hall, ⟨fun b hb => ?_, fun b => ?_⟩, .inl ?_⟩
        · exact mem_append_left _ (hext.listed b hb)
        · by_cases hba : b = a
          · subst hba
            simp [Walk.leave, hnew]
          have hsame := hext.path b
          simp only [Walk.enter, update_of_ne hba] at hsame
          simp only [Walk.leave, update_of_ne hba]
          exact hsame
        · exact mem_append_right _ mem_cons_self
    · rw [visit_of_seen hnew]
      refine ⟨hgood, Extends.refl w, ?_⟩
      cases hmark : w.mark a with
      | new => exact absurd hmark hnew
      | visiting => exact .inr rfl
      | done => exact .inl ((hgood.done a).mp hmark)

/-- What holds of the first node and passes along the edges holds of every node listed. -/
theorem visit_forall {P : α → Prop} (hP : ∀ a, P a → ∀ b, Edge succ a b → P b) (levels : Nat) :
    ∀ w a, P a → (∀ x ∈ w.order, P x) → ∀ x ∈ (visit succ levels w a).order, P x := by
  induction levels with
  | zero => exact fun w a _ h => h
  | succ levels ih =>
    intro w a ha hw
    have hall : ∀ bs v, (∀ b, some b ∈ bs → P b) → (∀ x ∈ v.order, P x) →
        ∀ x ∈ (visitAll (visit succ levels) bs v).order, P x := by
      intro bs
      induction bs with
      | nil => exact fun v _ hv => hv
      | cons o rest ihr =>
        intro v hbs hv
        cases o with
        | none => exact hv
        | some b =>
          have hb := ih v b (hbs b mem_cons_self) hv
          simp only [visitAll]
          split
          · exact hb
          · exact ihr _ (fun c hc => hbs c (mem_cons_of_mem _ hc)) hb
    simp only [visit]
    split
    · exact hw
    split
    · split
      · exact hall _ (w.enter a) (hP a ha) hw
      intro x hx
      rcases mem_append.mp hx with hx | hx
      · exact hall _ (w.enter a) (hP a ha) hw x hx
      · rw [mem_singleton.mp hx]
        exact ha
    · exact hw

/-- From the empty list the walk ends with its first node. -/
theorem visit_start_last {a : α} (hok : (visit succ levels (.start α) a).failed = false) :
    ∃ front, (visit succ levels (.start α) a).order = front ++ [a] := by
  cases levels with
  | zero => cases hok
  | succ levels =>
    rw [visit_of_new rfl rfl] at hok ⊢
    split at hok
    · next hfail =>
      rw [hfail] at hok
      cases hok
    · next hfail =>
      rw [if_neg hfail]
      exact ⟨_, rfl⟩

/-- A walk that has come to its end: no node is on the path any more, so the list is closed
under successors and a successor listed late lies on a cycle. -/
theorem visit_start {a : α} (hok : (visit succ levels (.start α) a).failed = false) :
    let order := (visit succ levels (.start α) a).order
    order.Nodup ∧ (∀ x ∈ order, ∀ y, Edge succ x y → y ∈ order) ∧
      ∀ before x after, order = before ++ x :: after → ∀ y, Edge succ x y →
        y ∈ before ∨ ReflTransGen (Edge succ) y x := by
  obtain ⟨hgood, hext, -⟩ := visit_good levels (.start α) a good_start nofun hok
  refine ⟨hgood.nodup, fun x hx y hxy => ?_, hgood.sorted⟩
  rcases hgood.closed x hx y hxy with hy | hy
  · exact hy
  · cases (hext.path y).mp hy

end Kil0yOS.Lib.Postorder
