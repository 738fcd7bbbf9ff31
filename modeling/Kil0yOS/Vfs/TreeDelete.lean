/-
Deleting a subtree.

fs_delete_entry_recursive frees the nodes and tables below an entry and the buffers of its
files; the slot that holds the entry is cleared after that.  The rest of the tree is as it
would be if the slot had been cleared first.
-/
import Kil0yOS.Vfs.TreeInv

namespace Kil0yOS.Vfs

open Lib Function

variable {p : Nat} {slots : Nat → Option Nat} {n : Node}

/-- The buffers of what lies below `c` were set. -/
def BuffersSet (s : State) (c : Nat) : Prop :=
  ∀ p n, Below (Child s) {c} p → s.heap.block p = some (.node n) →
    ∀ q, n.memData = some q → Plain s q

/-- From `s` on, parts of the subtree of `c` and buffers were freed. -/
structure Shrunk (s : State) (c : Nat) (t : State) : Prop where
  next : t.heap.next = s.heap.next
  root : t.root = s.root
  current : t.current = s.current
  mounts : t.mounts = s.mounts
  keep : ∀ p, ¬ Needed s {c} p → t.heap.block p = s.heap.block p ∨ Plain s p ∧ t.heap.block p = none
  block : ∀ p b, t.heap.block p = some b → s.heap.block p = some b ∨
    ∃ slots slots', b = .table slots ∧ s.heap.block p = some (.table slots') ∧
      ∀ i x, slots i = some x → slots' i = some x

section Shrunk

variable {s t : State} {c p : Nat}

theorem Shrunk.refl (s : State) (c : Nat) : Shrunk s c s :=
  ⟨rfl, rfl, rfl, rfl, fun _ _ => .inl rfl, fun _ _ h => .inl h⟩

section

variable (h : Shrunk s c t)
include h

theorem Shrunk.node (hn : t.heap.block p = some (.node n)) : s.heap.block p = some (.node n) := by
  rcases h.block p _ hn with hs | ⟨slots, slots', hb, -⟩
  · exact hs
  · cases hb

theorem Shrunk.table (hslots : t.heap.block p = some (.table slots)) :
    ∃ slots', s.heap.block p = some (.table slots') ∧ ∀ i x, slots i = some x →
      slots' i = some x := by
  rcases h.block p _ hslots with hs | ⟨sl, slots', hb, hs, hsub⟩
  · exact ⟨slots, hs, fun _ _ hx => hx⟩
  · cases hb
    exact ⟨slots', hs, hsub⟩

theorem Shrunk.put {b : Option Block} {u : State} (hput : Puts t p b u)
    (hnext : u.heap.next = t.heap.next) (hp : Needed s {c} p ∨ Plain s p ∧ b = none)
    (hb : ∀ x, b = some x → ∃ slots slots', x = .table slots ∧ s.heap.block p = some (.table slots') ∧
      ∀ i y, slots i = some y → slots' i = some y) : Shrunk s c u := by
  refine ⟨hnext.trans h.next, hput.root.trans h.root, hput.current.trans h.current,
    hput.mounts.trans h.mounts, fun q hq => ?_, fun q x hx => ?_⟩
  · by_cases hqp : q = p
    · subst hqp
      obtain ⟨hplain, hnone⟩ := hp.resolve_left hq
      exact .inr ⟨hplain, hput.same.trans hnone⟩
    · rw [hput.other hqp]
      exact h.keep q hq
  · by_cases hqp : q = p
    · subst hqp
      rw [hput.same] at hx
      exact .inr (hb x hx)
    · rw [hput.other hqp] at hx
      exact h.block q x hx

theorem Shrunk.free (hp : Needed s {c} p ∨ Plain s p) :
    Shrunk s c { t with heap := t.heap.free p } :=
  h.put (puts_free t p) rfl (hp.imp_right fun hplain => ⟨hplain, rfl⟩) nofun

theorem Shrunk.clear {i : Nat} (hp : Needed s {c} p)
    (hslots : t.heap.block p = some (.table slots)) :
    Shrunk s c { t with heap := t.heap.store p (.table (update slots i none)) } := by
  have hlt := lt_next_of_block hslots
  obtain ⟨slots', hs, hsub⟩ := h.table hslots
  refine h.put (puts_store hlt _) (store_next hlt _) (.inl hp) fun x hx => ?_
  cases hx
  exact ⟨_, slots', rfl, hs, fun j x hx => hsub j x (update_none_eq_some hx).2⟩

end

theorem Shrunk.deleteChildren {delete : Nat → V Unit} {q : Nat} (hp : Below (Child s) {c} p)
    (hn : s.heap.block p = some (.node n)) (hq : n.children = some q)
    (hdelete : ∀ x, Below (Child s) {c} x → ∀ t, Shrunk s c t →
      After (delete x) t fun _ u => Shrunk s c u) (is : List Nat) :
    ∀ t, Shrunk s c t → After (deleteChildren delete (some q) is) t fun _ u => Shrunk s c u := by
  have hneed : Needed s {c} q := .inr ⟨p, n, hp, hn, hq⟩
  induction is with
  | nil => exact fun t h => .pure h
  | cons i is ih =>
    intro t h
    refine slotsAt_bind fun q' slots hq' hslots => ?_
    cases hq'
    cases hx : slots i with
    | none => exact ih _ h
    | some x =>
      obtain ⟨slots', hs, hsub⟩ := h.table hslots
      have hchild : Child s p x := ⟨q, slots', i, ⟨n, hn, hq, hs⟩, hsub i x hx⟩
      refine (hdelete x (hp.tail hchild) _ h).bind fun _ v hv => ?_
      refine (after_setSlot q i none).bind fun _ w hw => ?_
      obtain ⟨sl, hsl, rfl⟩ := hw
      exact ih _ (hv.clear hneed hsl)

theorem Shrunk.fsDeleteEntryRecursive (hset : BuffersSet s c) (depth : Nat) :
    ∀ x, Below (Child s) {c} x → ∀ t, Shrunk s c t →
      After (fsDeleteEntryRecursive depth x) t fun _ u => Shrunk s c u := by
  induction depth with
  | zero => exact fun x hx t h => after_none rfl
  | succ depth ih =>
    intro x hx t h
    refine (after_nodeAt x).reads fun n hn => ?_
    have hns := h.node hn
    have hend : ∀ v, Shrunk s c v →
        After (kfreeIf n.memData >>= fun _ => kfree x) v fun _ w => Shrunk s c w := by
      intro v hv
      cases hmem : n.memData with
      | none => exact after_bind.mpr (.pure (.modify (hv.free (.inl (.inl hx)))))
      | some q =>
        refine .modify_bind (.modify ?_)
        exact (hv.free (.inr (hset x n hx hns q hmem))).free (.inl (.inl hx))
    cases htype : n.type with
    | file => exact hend _ h
    | directory =>
      cases hchildren : n.children with
      | none => exact hend _ h
      | some q =>
        refine (Shrunk.deleteChildren hx hns hchildren ih _ _ h).bind fun _ v hv => ?_
        refine .modify_bind (hend _ (hv.free (.inl (.inr ?_))))
        exact ⟨x, n, hx, hns, hchildren⟩

end Shrunk

/-- The state `t` is `s` without the subtree of `c`, which stood in slot `i` of the table at
`q` of the directory `d`. -/
structure Pruned (s : State) (d q i c : Nat) (slots : Nat → Option Nat) (t : State) : Prop where
  next : t.heap.next = s.heap.next
  root : t.root = s.root
  current : t.current = s.current
  mounts : t.mounts = s.mounts
  table : t.heap.block q = some (.table (update slots i none))
  keep : ∀ p, p ≠ q → ¬ Needed s {c} p → t.heap.block p = s.heap.block p ∨
    Plain s p ∧ t.heap.block p = none
  block : ∀ p b, (∀ sl, b ≠ .table sl) → t.heap.block p = some b → s.heap.block p = some b

section Delete

variable {s t : State} {d q i c : Nat} {slots : Nat → Option Nat}

section

variable (hd : Anchored s d) (hc : Child s d c)
include hd hc

theorem Inv.not_below (h : Inv s ∅ ∅) : ¬ Below (Child s) {c} d :=
  ((h.tree.isForest.below_unlinked_iff hd.below hc).mp hd.below.unlinked_source).2

theorem anchored_of_below (hp : Below (Child s) {c} p) : Anchored s p :=
  hp.under (hd.tail hc)

theorem needed_of_below (hp : Needed s {c} p) : Needed s (insert s.root ∅) p := by
  rcases hp with hp | ⟨x, n, hx, hn⟩
  · exact .inl (anchored_of_below hd hc hp).below
  · exact .inr ⟨x, n, (anchored_of_below hd hc hx).below, hn⟩

/-- What the subtree of an entry needs: its nodes and their tables. -/
theorem Inv.needed_cases (h : Inv s ∅ ∅) (hp : Needed s {c} p) : Below (Child s) {c} p ∨
      ∃ x slots, Below (Child s) {c} x ∧ HasTable s x p slots := by
  rcases hp with hp | ⟨x, n, hx, hn, hxp⟩
  · exact .inl hp
  · obtain ⟨slots, hslots, -⟩ := h.tree.table x n p (anchored_of_below hd hc hx).below hn hxp
    exact .inr ⟨x, slots, hx, n, hn, hxp, hslots⟩

/-- A node, or the table of a node, that is not below the entry is not needed there. -/
theorem Inv.not_needed (h : Inv s ∅ ∅) (hp : Anchored s p) (hpc : ¬ Below (Child s) {c} p) :
    ¬ Needed s {c} p ∧
      ∀ q slots, HasTable s p q slots → ¬ Needed s {c} q := by
  obtain ⟨n, hn, -⟩ := h.anchored_node hp
  refine ⟨fun hneed => ?_, fun q slots ht hneed => ?_⟩
  · rcases h.needed_cases hd hc hneed with hb | ⟨x, sl, -, m, -, -, hsl⟩
    · exact hpc hb
    · rw [hn] at hsl
      cases hsl
  rcases h.needed_cases hd hc hneed with hb | ⟨x, sl, hx, hsl⟩
  · obtain ⟨m, hm, -⟩ := h.anchored_node (anchored_of_below hd hc hb)
    obtain ⟨-, -, -, hslots⟩ := ht
    rw [hm] at hslots
    cases hslots
  have heq := h.tree.owner_eq hp.below (anchored_of_below hd hc hx).below ht hsl
  exact hpc (heq ▸ hx)

end

theorem Inv.deleteSlot (h : Inv s ∅ ∅) (hd : Anchored s d) (ht : HasTable s d q slots)
    (hc : slots i = some c) (hset : BuffersSet s c) (depth : Nat) :
    After (fsDeleteEntryRecursive depth c >>= fun _ => setSlot (some q) i none) s
      fun _ t => Pruned s d q i c slots t := by
  have hdc : Child s d c := ⟨q, slots, i, ht, hc⟩
  have hq := (h.not_needed hd hdc hd (h.not_below hd hdc)).2 q slots ht
  obtain ⟨m, hm, hmq, hslots⟩ := ht
  refine (Shrunk.fsDeleteEntryRecursive hset depth c (below_root rfl) s (.refl s c)).bind
    fun _ t hshrunk => ?_
  refine (after_setSlot q i none).mono fun _ u hu => ?_
  obtain ⟨sl, hsl, rfl⟩ := hu
  have hsame : sl = slots := by
    rcases hshrunk.keep q hq with hkeep | ⟨-, hnone⟩
    · rw [hsl, hslots] at hkeep
      cases hkeep
      rfl
    · rw [hsl] at hnone
      cases hnone
  subst hsame
  have hput := puts_store (lt_next_of_block hsl) (.table (update sl i none))
  refine ⟨(store_next (lt_next_of_block hsl) _).trans hshrunk.next, hshrunk.root, hshrunk.current,
    hshrunk.mounts, hput.same, fun p hp hneed => ?_, fun p b hne hb => ?_⟩
  · rw [hput.other hp]
    exact hshrunk.keep p hneed
  rcases hshrunk.block p b (hput.was hb (hne _)) with hs | ⟨sl', _, hsl', -⟩
  · exact hs
  · exact absurd hsl' (hne sl')

/-- Freeing a subtree loses nothing that the rest relies on. -/
theorem Pruned.grows (hp : Pruned s d q i c slots t) (h : Inv s ∅ ∅) (hd : Anchored s d)
    (ht : HasTable s d q slots) (hc : slots i = some c) : Grows s t := by
  have hdc : Child s d c := ⟨q, slots, i, ht, hc⟩
  refine ⟨hp.next.ge, fun p hplain => ⟨hp.next ▸ hplain.1, fun b hb => ?_⟩,
    fun m hw => ⟨hp.next ▸ hw.1, fun M hM => hw.2 M (hp.block m _ (by simp) hM)⟩⟩
  have hpq : p ≠ q := by
    rintro rfl
    obtain ⟨-, -, -, hslots⟩ := ht
    obtain ⟨x, hx⟩ := hplain.2 _ hslots
    cases hx
  have hneed : ¬ Needed s {c} p := fun hneed =>
    (h.idle_of_plain hplain).1 (needed_of_below hd hdc hneed)
  rcases hp.keep p hpq hneed with hsame | ⟨-, hnone⟩
  · exact hplain.2 b (hsame ▸ hb)
  · rw [hnone] at hb
    cases hb

/-- A block of another kind than the buffers that is not needed is kept. -/
theorem Pruned.kept {b : Block} (hp : Pruned s d q i c slots t) (hpq : p ≠ q)
    (hneed : ¬ Needed s {c} p) (hb : s.heap.block p = some b) (hkind : ∀ x, b ≠ .data x) :
    t.heap.block p = some b := by
  rcases hp.keep p hpq hneed with hsame | ⟨hplain, -⟩
  · exact hsame.trans hb
  · obtain ⟨x, hx⟩ := hplain.2 b hb
    exact absurd hx (hkind x)

/-- The invariant holds without a subtree in which no anchor lies, and what was not below the
entry is still in the tree. -/
theorem Inv.pruned (h : Inv s ∅ ∅) (hd : Anchored s d) (ht : HasTable s d q slots)
    (hc : slots i = some c) (hanchor : ∀ p, IsAnchor s p → ¬ Below (Child s) {c} p)
    (hp : Pruned s d q i c slots t) :
    Inv t ∅ ∅ ∧ ∀ p, Anchored t p ↔ Anchored s p ∧ ¬ Below (Child s) {c} p := by
  have hdc : Child s d c := ⟨q, slots, i, ht, hc⟩
  -- The state in which only the slot was cleared.
  obtain ⟨m, hm, hmq, hslots⟩ := id ht
  have hput := puts_store (lt_next_of_block hslots) (.table (update slots i none))
  have hnext := store_next (lt_next_of_block hslots) (.table (update slots i none))
  generalize hs1 : ({ s with heap := s.heap.store q (.table (update slots i none)) } : State) = s1
    at hput
  have hchild := h.tree.child_clear hd.below ht hc hput
  have hcleared : ∀ p, Anchored s1 p ↔ Anchored s p ∧ ¬ Below (Child s) {c} p := by
    intro p
    have hsub : ({s.root} : Set Nat) ⊆ insert s.root ∅ := fun _ hr => .inl hr
    have hforest := h.tree.isForest.mono hsub
    simp only [Anchored, hput.root]
    rw [← hforest.below_unlinked_iff hd hdc]
    exact below_congr fun x hx => hchild x ((below_of_unlinked hx).mono hsub)
  have hunlink := (h.unlink hd.below ht hc hput fun p hanch hp =>
    (hcleared p).mpr ⟨hp, hanchor p hanch⟩).1
  have h1 := hunlink.mono (Set.empty_subset _) (Set.empty_subset _)
  have hg := hp.grows h hd ht hc
  have hback : ∀ p, Rooted s1 ∅ p → Anchored s p ∧
      ¬ Below (Child s) {c} p := by
    intro p hp'
    exact (hcleared p).mp (hp'.mono fun r hr => hr.elim (fun heq => heq) fun hmem => hmem.elim)
  obtain ⟨hinv, hsame⟩ : Inv t ∅ ∅ ∧ SameTree s1 ∅ t := by
    refine h1.agree (hp.root.trans hput.root.symm)
      ((hp.current.trans hput.current.symm) ▸ h1.current)
      (hp.mounts.trans hput.mounts.symm) ?_ (fun p n hbelow hn => ?_)
      (fun p n q' hbelow hn hq' => ?_) (fun m' hm' => ?_) fun p f hf => ?_
    · rw [← hs1, hp.next]
      exact hnext.le
    · obtain ⟨hanch, hnot⟩ := hback p hbelow
      have hns := hput.was hn (by simp)
      exact ⟨n, hp.kept (ne_of_block hns hslots (by simp)) (h.not_needed hd hdc hanch hnot).1 hns
        (by simp), rfl, fun _ => rfl, (h.tree.nodeOk hanch.below hns).grows hg⟩
    · obtain ⟨hanch, hnot⟩ := hback p hbelow
      have hns := hput.was hn (by simp)
      obtain ⟨sl, hsl, -⟩ := h.tree.table p n q' hanch.below hns hq'
      by_cases hqq : q' = q
      · rw [hqq, hp.table, hput.same]
      · have hneed := (h.not_needed hd hdc hanch hnot).2 q' sl ⟨n, hns, hq', hsl⟩
        rw [hp.kept hqq hneed hsl (by simp), hput.other hqq, hsl]
    · rw [hput.mounts] at hm'
      obtain ⟨M, p, hM, -⟩ := h.mounts m' hm'
      have hneed : ¬ Needed s {c} m' := by
        intro hneed
        rcases h.tree.needed_block (needed_of_below hd hdc hneed) with ⟨n, hn⟩ | ⟨sl, hsl⟩
        · exact ne_of_block hM hn (by simp) rfl
        · exact ne_of_block hM hsl (by simp) rfl
      rw [hp.kept (ne_of_block hM hslots (by simp)) hneed hM (by simp), hput.keeps hslots hM (by simp)]
    · have hfs := hp.block p _ (by simp) hf
      exact ⟨(h1.files p f (hput.keeps hslots hfs (by simp))).1,
        fun r hr => hg.plain r ((h.files p f hfs).2 r hr)⟩
  exact ⟨hinv, fun p => (hsame.anchored p).trans (hcleared p)⟩

end Delete

end Kil0yOS.Vfs
