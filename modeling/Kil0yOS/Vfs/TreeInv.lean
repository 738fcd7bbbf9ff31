/-
The invariant of the file system: one tree below the root directory, in which the current
directory, the mount points and the files that are open lie.

Inside an operation further nodes are roots of their own (`E`), and some blocks are allocated
but not used yet (`U`).  Each way in which the operations change the heap keeps the
invariant.
-/
import Kil0yOS.Lib.Tables
import Kil0yOS.Vfs.Reads
import Kil0yOS.Vfs.Tree

namespace Kil0yOS.Vfs

open Lib Function Set

theorem after_kmalloc {s : State} (b : Block) : After (kmalloc b) s fun r t =>
    r = none ∧ Puts s s.heap.next none t ∨
      r = some s.heap.next ∧ Puts s s.heap.next (some b) t ∧ s.heap.next < t.heap.next := by
  intro r t hrun
  simp only [kmalloc] at hrun
  split at hrun
  · cases hrun
    refine .inl ⟨rfl, ?_, Nat.le_refl _, rfl, rfl, rfl⟩
    simp [← s.heap.above s.heap.next (Nat.le_refl _)]
  · cases hrun
    exact .inr ⟨rfl, ⟨rfl, Nat.le_succ _, rfl, rfl, rfl⟩, Nat.lt_succ_self _⟩

theorem HasTable.setSlot {s : State} {d q : Nat} {slots : Nat → Option Nat}
    (ht : HasTable s d q slots) (i : Nat) (value : Option Nat) :
    After (Vfs.setSlot (some q) i value) s fun _ t =>
      Puts s q (some (.table (update slots i value))) t := by
  refine (after_setSlot q i value).mono fun _ t hset => ?_
  obtain ⟨sl, hsl, rfl⟩ := hset
  obtain ⟨-, -, -, hslots⟩ := ht
  rw [hslots] at hsl
  cases hsl
  exact puts_store (lt_next_of_block hslots) _

def Anchored (s : State) (p : Nat) : Prop := Below (Child s) {s.root} p

/-- The same with the roots of trees that are still built. -/
abbrev Rooted (s : State) (E : Set Nat) (p : Nat) : Prop := Below (Child s) (insert s.root E) p

structure Inv (s : State) (E U : Set Nat) : Prop where
  tree : Tree s (insert s.root E)
  fresh : s.root ∉ E
  rootParent : ∀ n, s.heap.block s.root = some (.node n) → n.parent = none
  current : Anchored s s.current
  mounts : ∀ m ∈ s.mounts, ∃ M p, s.heap.block m = some (.mount M) ∧ M.target = some p ∧
    Anchored s p
  nodup : s.mounts.Nodup
  files : ∀ p f, s.heap.block p = some (.lnxFile f) → Anchored s f.entry ∧
    ∀ q, f.cache = some q → Plain s q
  unused : ∀ p ∈ U, p < s.heap.next ∧ ¬ Needed s (insert s.root E) p ∧ p ∉ s.mounts

/-- No block of the tree and no mount. -/
def Idle (s : State) (E : Set Nat) (p : Nat) : Prop :=
  ¬ Needed s (insert s.root E) p ∧ p ∉ s.mounts

/-- The same nodes lie below the roots. -/
structure SameTree (s : State) (E : Set Nat) (t : State) : Prop where
  anchored : ∀ p, Anchored t p ↔ Anchored s p
  below : ∀ p, Rooted t E p ↔ Rooted s E p
  idle : ∀ p, Idle s E p → Idle t E p

/-- What lies below the roots is still there, with the same fields and tables. -/
structure Quiet (s : State) (E : Set Nat) (t : State) : Prop where
  anchored : ∀ p, Anchored s p → Anchored t p
  below : ∀ p, Rooted s E p → Rooted t E p
  block : ∀ p, Rooted s E p → t.heap.block p = s.heap.block p
  table : ∀ p q slots, Rooted s E p → HasTable s p q slots → HasTable t p q slots

section Inv

variable {s t u : State} {E E' U U' : Set Nat} {p q c : Nat}

theorem Quiet.refl (s : State) (E : Set Nat) : Quiet s E s :=
  ⟨fun _ h => h, fun _ h => h, fun _ _ => rfl, fun _ _ _ _ h => h⟩

theorem Quiet.trans (h : Quiet s E t) (h' : Quiet t E u) : Quiet s E u where
  anchored p hp := h'.anchored p (h.anchored p hp)
  below p hp := h'.below p (h.below p hp)
  block p hp := (h'.block p (h.below p hp)).trans (h.block p hp)
  table p q slots hp ht := h'.table p q slots (h.below p hp) (h.table p q slots hp ht)

theorem Anchored.below (h : Anchored s p) : Rooted s E p :=
  h.mono fun _ hr => .inl hr

variable {n n' : Node}

/-- A node with a table is a directory, and has no buffer to care for. -/
theorem NodeOk.of_table (hok : NodeOk s n) (hq : n.children = some q) (hname : n'.name = n.name)
    (htype : n'.type = n.type) : NodeOk s n' := by
  have hdir : n'.type ≠ .file := by
    intro hfile
    rw [hok.leaf (htype.symm.trans hfile)] at hq
    cases hq
  exact ⟨hname ▸ hok.name, fun hfile => absurd hfile hdir, fun hfile => absurd hfile hdir⟩

section

variable (h : Inv s E U)
include h

namespace Inv

theorem anchored_node (hp : Anchored s p) : ∃ n, s.heap.block p = some (.node n) ∧ NodeOk s n :=
  h.tree.node p hp.below

theorem mono (hE : E' ⊆ E) (hU : U' ⊆ U) : Inv s E' U' where
  __ := h
  tree := h.tree.mono (insert_subset_insert hE)
  fresh hmem := h.fresh (hE hmem)
  unused p hp := by
    obtain ⟨hlt, hneed, hm⟩ := h.unused p (hU hp)
    refine ⟨hlt, fun hp' => hneed ?_, hm⟩
    have hsub := insert_subset_insert (a := s.root) hE
    rcases hp' with hp' | ⟨q, n, hq, hn⟩
    · exact .inl (hp'.mono hsub)
    · exact .inr ⟨q, n, hq.mono hsub, hn⟩

theorem idle_of_mem (hp : p ∈ U) : Idle s E p := (h.unused p hp).2

/-- A block of any other kind is no block of the tree and no mount. -/
theorem idle_of_block
    (hp : ∀ b, s.heap.block p = some b → (∃ d, b = .data d) ∨ ∃ f, b = .lnxFile f) :
    Idle s E p := by
  refine ⟨fun hneed => ?_, fun hm => ?_⟩
  · rcases h.tree.needed_block hneed with ⟨n, hn⟩ | ⟨slots, hslots⟩
    · rcases hp _ hn with ⟨d, hd⟩ | ⟨f, hf⟩ <;> contradiction
    · rcases hp _ hslots with ⟨d, hd⟩ | ⟨f, hf⟩ <;> contradiction
  · obtain ⟨M, q, hM, -⟩ := h.mounts p hm
    rcases hp _ hM with ⟨d, hd⟩ | ⟨f, hf⟩ <;> contradiction

theorem idle_of_plain (hp : Plain s p) : Idle s E p :=
  h.idle_of_block fun b hb => .inl (hp.2 b hb)

theorem idle_fresh (hp : s.heap.next ≤ p) : Idle s E p := by
  refine h.idle_of_block fun b hb => ?_
  rw [s.heap.above p hp] at hb
  cases hb

/-- What the invariant rests on.  The nodes may change in fields other than their table and
their parent, and the parents of the extra roots may change. -/
theorem agree (hroot : t.root = s.root) (hcurrent : Anchored s t.current)
    (hmounts : t.mounts = s.mounts) (hnext : s.heap.next ≤ t.heap.next)
    (hnode : ∀ p n, Rooted s E p → s.heap.block p = some (.node n) → ∃ n', t.heap.block p = some
      (.node n') ∧ n'.children = n.children ∧ (p ∉ E → n'.parent = n.parent) ∧ NodeOk t n')
    (htable : ∀ p n q, Rooted s E p → s.heap.block p = some (.node n) → n.children = some q →
      t.heap.block q = s.heap.block q) (hmount : ∀ m ∈ s.mounts, t.heap.block m = s.heap.block m)
    (hfile : ∀ p f, t.heap.block p = some (.lnxFile f) → Anchored s f.entry ∧ ∀ q, f.cache = some q
      → Plain t q) : Inv t E U ∧ SameTree s E t := by
  obtain ⟨htree, hchild⟩ := h.tree.agree (subset_insert _ _) hnode htable
  have hanchored : ∀ p, Anchored t p ↔ Anchored s p := by
    intro p
    simp only [Anchored, hroot]
    exact below_congr fun q hq => hchild q (hq.mono fun _ hr => .inl hr)
  have hbelow : ∀ p, Below (Child t) (insert s.root E) p ↔ Rooted s E p :=
    fun p => below_congr hchild
  have hidle : ∀ p, Idle s E p → Idle t E p := by
    intro p hp
    refine ⟨fun hneed => hp.1 ?_, hmounts ▸ hp.2⟩
    rw [hroot] at hneed
    rcases hneed with hneed | ⟨q, n, hq, hn, hc⟩
    · exact .inl ((hbelow p).mp hneed)
    have hq := (hbelow q).mp hq
    obtain ⟨m, hmq, -⟩ := h.tree.node q hq
    obtain ⟨n', hn', hchildren, -⟩ := hnode q m hq hmq
    rw [hn] at hn'
    cases hn'
    exact .inr ⟨q, m, hq, hmq, hchildren ▸ hc⟩
  refine ⟨⟨?_, ?_, fun n hn => ?_, ?_, fun m hm => ?_, ?_, fun p f hf => ?_, fun p hp => ?_⟩,
    hanchored, by simpa only [Rooted, hroot] using hbelow, hidle⟩
  · rw [hroot]
    exact htree
  · rw [hroot]
    exact h.fresh
  · rw [hroot] at hn
    obtain ⟨m, hm, -⟩ := h.tree.node s.root (below_root (.inl rfl))
    obtain ⟨n', hn', -, hparent, -⟩ := hnode s.root m (below_root (.inl rfl)) hm
    rw [hn] at hn'
    cases hn'
    rw [hparent h.fresh]
    exact h.rootParent m hm
  · exact (hanchored _).mpr hcurrent
  · rw [hmounts] at hm
    obtain ⟨M, p, hM, hp, hanch⟩ := h.mounts m hm
    exact ⟨M, p, (hmount m hm).trans hM, hp, (hanchored p).mpr hanch⟩
  · rw [hmounts]
    exact h.nodup
  · obtain ⟨hentry, hcache⟩ := hfile p f hf
    exact ⟨(hanchored _).mpr hentry, hcache⟩
  · obtain ⟨hlt, hunused⟩ := h.unused p hp
    exact ⟨hlt.trans_le hnext, hidle p hunused⟩

theorem withMounts {ms : List Nat}
    (hms : ∀ m ∈ ms, ∃ M p, s.heap.block m = some (.mount M) ∧ M.target = some p ∧ Anchored s p)
    (hnodup : ms.Nodup) : Inv { s with mounts := ms } E ∅ := by
  have hg : Grows s { s with mounts := ms } := ⟨Nat.le_refl _, fun _ hq => hq, fun _ hm => hm⟩
  obtain ⟨htree, -⟩ := h.tree.agree (t := { s with mounts := ms }) (subset_insert _ _)
    (fun p n hp hn => ⟨n, hn, rfl, fun _ => rfl, (h.tree.nodeOk hp hn).grows hg⟩)
    fun _ _ _ _ _ _ => rfl
  exact ⟨htree, h.fresh, h.rootParent, h.current, hms, hnodup, h.files, fun p hp => hp.elim⟩

theorem put {b : Option Block} (hput : Puts s p b t) (hidle : Idle s E p) (hg : Grows s t)
    (hfile : ∀ f, b = some (.lnxFile f) → Anchored s f.entry ∧ ∀ q, f.cache = some q → Plain t q) :
    Inv t E U ∧ Quiet s E t ∧ ∀ q, Idle s E q → Idle t E q := by
  have hother : ∀ q, Needed s (insert s.root E) q → t.heap.block q = s.heap.block q :=
    fun q hq => hput.other fun heq => hidle.1 (heq ▸ hq)
  obtain ⟨hinv, hsame⟩ := h.agree hput.root
    (hput.current ▸ h.current) hput.mounts hput.next
    (fun q n hq hn => ⟨n, (hother q (.inl hq)).trans hn, rfl, fun _ => rfl,
      (h.tree.nodeOk hq hn).grows hg⟩)
    (fun q n q' hq hn hc => hother q' (.inr ⟨q, n, hq, hn, hc⟩))
    (fun m hm => hput.other fun heq => hidle.2 (heq ▸ hm))
    (fun q f hf => by
      by_cases hqp : q = p
      · subst hqp
        rw [hput.same] at hf
        exact hfile f hf
      · rw [hput.other hqp] at hf
        obtain ⟨hentry, hcache⟩ := h.files q f hf
        exact ⟨hentry, fun q' hq' => hg.plain q' (hcache q' hq')⟩)
  refine ⟨hinv, ⟨fun q hq => (hsame.anchored q).mpr hq, fun q hq => (hsame.below q).mpr hq,
    fun q hq => hother q (.inl hq), ?_⟩, hsame.idle⟩
  rintro q q' slots hq ⟨n, hn, hq', hslots⟩
  exact ⟨n, (hother q (.inl hq)).trans hn, hq', (hother q' (.inr ⟨q, n, hq, hn, hq'⟩)).trans hslots⟩

theorem addUnused (hp : p < s.heap.next) (hidle : Idle s E p) : Inv s E (insert p U) := by
  refine { h with unused := fun q hq => ?_ }
  rcases hq with rfl | hq
  · exact ⟨hp, hidle⟩
  · exact h.unused q hq

theorem putNode (hput : Puts s p (some (.node n')) t) (hn : s.heap.block p = some (.node n))
    (hchildren : n'.children = n.children) (hparent : p ∉ E → n'.parent = n.parent)
    (hok : NodeOk t n') : Inv t E U ∧ SameTree s E t := by
  have hg := hput.grows_over hn (by simp) (by simp)
  refine h.agree hput.root (hput.current ▸ h.current) hput.mounts hput.next (fun q m hq hm => ?_)
    (fun q m q' hq hm hc => ?_) (fun m hm => ?_) fun q f hf => ?_
  · by_cases hqp : q = p
    · subst hqp
      rw [hn] at hm
      cases hm
      exact ⟨n', hput.same, hchildren, hparent, hok⟩
    · exact ⟨m, (hput.other hqp).trans hm, rfl, fun _ => rfl, (h.tree.nodeOk hq hm).grows hg⟩
  · obtain ⟨slots, hslots, -⟩ := h.tree.table q m q' hq hm hc
    rw [hput.keeps hn hslots (by simp), hslots]
  · obtain ⟨M, -, hM, -⟩ := h.mounts m hm
    rw [hput.keeps hn hM (by simp), hM]
  · obtain ⟨hentry, hcache⟩ := h.files q f (hput.was hf (by simp))
    exact ⟨hentry, fun q' hq' => hg.plain q' (hcache q' hq')⟩

theorem setNode (hn : s.heap.block p = some (.node n)) (n' : Node) (hok : NodeOk s n')
    (hchildren : n'.children = n.children) (hparent : p ∉ E → n'.parent = n.parent) :
    After (Vfs.setNode p n') s fun _ t => Inv t E U ∧ SameTree s E t ∧
      Puts s p (some (.node n')) t ∧ Grows s t := by
  have hput := puts_store (lt_next_of_block hn) (.node n')
  have hg := hput.grows_over hn (by simp) (by simp)
  obtain ⟨hinv, hsame⟩ := h.putNode hput hn hchildren hparent (hok.grows hg)
  exact .modify ⟨hinv, hsame, hput, hg⟩

/-- A node that is not used yet becomes a root, its empty table, if it has one, included. -/
theorem addRoot {e : Nat} (he : e ∈ U) (hn : s.heap.block e = some (.node n)) (hok : NodeOk s n)
    (htable : ∀ q, n.children = some q → q ∈ U ∧ s.heap.block q = some emptyTable)
    (hU : ∀ p ∈ U', p ∈ U ∧ p ≠ e ∧ n.children ≠ some p) : Inv s (insert e E) U' := by
  obtain ⟨-, hneed, hmounts⟩ := h.unused e he
  have hleaf : ∀ c, ¬ Child s e c := by
    rintro c ⟨q, slots, i, ⟨m, hm, hq, hslots⟩, hc⟩
    rw [hn] at hm
    cases hm
    rw [(htable q hq).2] at hslots
    cases hslots
    cases hc
  have hswap : insert s.root (insert e E) = insert e (insert s.root E) := insert_comm _ _ _
  have hcases : ∀ p, Rooted s (insert e E) p → Rooted s E p ∨ p = e := by
    intro p hp
    rw [Rooted, hswap] at hp
    exact hp.of_insert hleaf
  have hown : ∀ p q slots, Rooted s E p → HasTable s p q slots → ¬ HasTable s e q slots := by
    rintro p q slots hp ⟨m, hm, hq, -⟩ ⟨n', hn', hq', -⟩
    rw [hn] at hn'
    cases hn'
    exact (h.unused q (htable q hq').1).2.1 (.inr ⟨p, m, hp, hm, hq⟩)
  refine ⟨⟨fun p hp => ?_, fun p m q hp hm hq => ?_, fun p p' q slots hp hp' ht ht' => ?_,
    fun p c m hp hc hm => ?_, fun r hr p hp hc => ?_⟩, fun hmem => ?_, h.rootParent, h.current,
    h.mounts, h.nodup, h.files, fun p hp => ?_⟩
  · rcases hcases p hp with hp | rfl
    · exact h.tree.node p hp
    · exact ⟨n, hn, hok⟩
  · rcases hcases p hp with hp | rfl
    · exact h.tree.table p m q hp hm hq
    · rw [hn] at hm
      cases hm
      exact ⟨_, (htable q hq).2, fun _ _ => rfl, fun _ _ _ hc => by cases hc⟩
  · rcases hcases p hp with hold | rfl
    · rcases hcases p' hp' with hold' | rfl
      · exact h.tree.owner p p' q slots hold hold' ht ht'
      · exact absurd ht' (hown p q slots hold ht)
    · rcases hcases p' hp' with hold' | rfl
      · exact absurd ht (hown p' q slots hold' ht')
      · rfl
  · rcases hcases p hp with hp | rfl
    · exact h.tree.parent p c m hp hc hm
    · exact absurd hc (hleaf c)
  · rcases hcases p hp with hold | rfl
    · rw [hswap] at hr
      rcases hr with rfl | hr
      · exact hneed (.inl (hold.tail hc))
      · exact h.tree.roots r hr p hold hc
    · exact hleaf r hc
  · rcases hmem with heq | hmem
    · exact hneed (heq ▸ .inl (below_root (.inl rfl)))
    · exact h.fresh hmem
  · obtain ⟨hpU, hpe, hpc⟩ := hU p hp
    obtain ⟨hlt, hpneed, hpm⟩ := h.unused p hpU
    refine ⟨hlt, fun hneed' => ?_, hpm⟩
    rcases hneed' with hb | ⟨r, m, hr, hm, hc⟩
    · rcases hcases p hb with hb | heq
      · exact hpneed (.inl hb)
      · exact hpe heq
    rcases hcases r hr with hr | rfl
    · exact hpneed (.inr ⟨r, m, hr, hm, hc⟩)
    · rw [hn] at hm
      cases hm
      exact hpc hc

end Inv

end

end Inv

/-! ## Changes of a table -/

/-- What must stay in the tree: the current directory, the mount points and the files that
are open. -/
def IsAnchor (s : State) (p : Nat) : Prop :=
  p = s.current ∨ (∃ m ∈ s.mounts, ∃ M, s.heap.block m = some (.mount M) ∧ M.target = some p) ∨
    ∃ q f, s.heap.block q = some (.lnxFile f) ∧ f.entry = p

section Retable

variable {s t : State} {R R' E E' U : Set Nat} {d q i c e : Nat} {slots slots' : Nat → Option Nat}
  {v : Option Nat}

section

variable (ht : HasTable s d q slots) (hput : Puts s q (some (.table slots')) t)
include ht hput

theorem HasTable.puts_grows : Grows s t := by
  obtain ⟨-, -, -, hslots⟩ := ht
  exact hput.grows_over hslots (by simp) (by simp)

theorem HasTable.put_block {p : Nat} {b : Block} (hb : s.heap.block p = some b)
    (hkind : ∀ sl, b ≠ .table sl) : t.heap.block p = some b := by
  obtain ⟨-, -, -, hslots⟩ := ht
  exact hput.keeps hslots hb (hkind slots)

section

variable (h : Tree s R) (hd : Below (Child s) R d)
include h hd

/-- The table of one node is replaced, and no other node has it. -/
theorem Tree.hasTable_put (p q' : Nat) (sl : Nat → Option Nat) (hp : Below (Child s) R p) :
    HasTable t p q' sl ↔ (p = d ∧ q' = q ∧ sl = slots') ∨ (p ≠ d ∧ HasTable s p q' sl) := by
  obtain ⟨m, hm, hq, hslots⟩ := id ht
  obtain ⟨n, hn, -⟩ := h.node p hp
  have hnt := hput.keeps hslots hn (by simp)
  have hother : p ≠ d → n.children = some q' → t.heap.block q' = s.heap.block q' := by
    intro hpd hq'
    refine hput.other fun heq => hpd ?_
    subst heq
    exact h.owner p d q' slots hp hd ⟨n, hn, hq', hslots⟩ ht
  constructor
  · rintro ⟨n', hn', hq', hsl⟩
    rw [hnt] at hn'
    cases hn'
    by_cases hpd : p = d
    · subst hpd
      rw [hn] at hm
      cases hm
      rw [hq] at hq'
      cases hq'
      rw [hput.same] at hsl
      cases hsl
      exact .inl ⟨rfl, rfl, rfl⟩
    · exact .inr ⟨hpd, n, hn, hq', hother hpd hq' ▸ hsl⟩
  · rintro (⟨rfl, rfl, rfl⟩ | ⟨hpd, n', hn', hq', hsl⟩)
    · rw [hm] at hn
      cases hn
      exact ⟨m, hnt, hq, hput.same⟩
    · rw [hn] at hn'
      cases hn'
      exact ⟨n, hnt, hq', (hother hpd hq').trans hsl⟩

theorem Tree.child_put (p x : Nat) (hp : Below (Child s) R p) :
    Child t p x ↔ (p = d ∧ ∃ j, slots' j = some x) ∨ (p ≠ d ∧ Child s p x) := by
  have hiff := fun q' sl => h.hasTable_put ht hput hd p q' sl hp
  constructor
  · rintro ⟨q', sl, j, hsl, hj⟩
    rcases (hiff q' sl).mp hsl with ⟨hpd, -, rfl⟩ | ⟨hpd, hsl⟩
    · exact .inl ⟨hpd, j, hj⟩
    · exact .inr ⟨hpd, q', sl, j, hsl, hj⟩
  · rintro (⟨hpd, j, hj⟩ | ⟨hpd, q', sl, j, hsl, hj⟩)
    · exact ⟨q, slots', j, (hiff q slots').mpr (.inl ⟨hpd, rfl, rfl⟩), hj⟩
    · exact ⟨q', sl, j, (hiff q' sl).mpr (.inr ⟨hpd, hsl⟩), hj⟩

/-- The tree below `R'` after a table was replaced, if nothing new lies below `R'`. -/
theorem Tree.retable (hsub : ∀ p, Below (Child t) R' p → Below (Child s) R p) (hok : TableOk slots')
    (hparent : ∀ j x n, slots' j = some x → s.heap.block x = some (.node n) → n.parent = some d)
    (hroots : ∀ r ∈ R', ∀ p, Below (Child t) R' p → ¬ Child t p r) : Tree t R' := by
  have hblock : ∀ p n, t.heap.block p = some (.node n) → s.heap.block p = some (.node n) :=
    fun p n hn => hput.was hn (by simp)
  have hiff := h.hasTable_put ht hput hd
  refine ⟨fun p hp => ?_, fun p n q' hp hn hq' => ?_, fun p p' q' sl hp hp' hsl hsl' => ?_,
    fun p x n hp hx hn => ?_, hroots⟩
  · obtain ⟨n, hn, hnode⟩ := h.node p (hsub p hp)
    exact ⟨n, ht.put_block hput hn (by simp), hnode.grows (ht.puts_grows hput)⟩
  · have hp := hsub p hp
    have hn := hblock p n hn
    by_cases hpd : p = d
    · obtain ⟨n', hn', hq, hslots⟩ :=
        (hiff p q slots' hp).mpr (.inl ⟨hpd, rfl, rfl⟩)
      have hn' := hblock p n' hn'
      rw [hn] at hn'
      cases hn'
      rw [hq'] at hq
      cases hq
      exact ⟨slots', hslots, hok⟩
    · obtain ⟨sl, hsl, hslok⟩ := h.table p n q' hp hn hq'
      obtain ⟨-, -, -, hslt⟩ := (hiff p q' sl hp).mpr (.inr ⟨hpd, n, hn, hq', hsl⟩)
      exact ⟨sl, hslt, hslok⟩
  · have hp := hsub p hp
    have hp' := hsub p' hp'
    rcases (hiff p q' sl hp).mp hsl with ⟨rfl, rfl, rfl⟩ | ⟨-, hsl⟩
    · rcases (hiff p' q' sl hp').mp hsl' with ⟨rfl, -, -⟩ | ⟨-, hsl'⟩
      · rfl
      -- Both have the table that was replaced.
      · exact h.owner_eq hp hp' ht hsl'
    · rcases (hiff p' q' sl hp').mp hsl' with ⟨rfl, rfl, rfl⟩ | ⟨-, hsl'⟩
      · exact h.owner_eq hp hp' hsl ht
      · exact h.owner p p' q' sl hp hp' hsl hsl'
  · have hp := hsub p hp
    have hn := hblock x n hn
    rcases (h.child_put ht hput hd p x hp).mp hx with ⟨rfl, j, hj⟩ | ⟨-, hx⟩
    · exact hparent j x n hj hn
    · exact h.parent p x n hp hx hn

end

theorem Inv.retable (h : Inv s E U) (hd : Rooted s E d) (hfresh : s.root ∉ E')
    (hsub : ∀ p, Below (Child t) (insert s.root E') p → Rooted s E p) (hok : TableOk slots')
    (hparent : ∀ j x n, slots' j = some x → s.heap.block x = some (.node n) → n.parent = some d)
    (hroots : ∀ r ∈ insert s.root E', ∀ p, Below (Child t) (insert s.root E') p → ¬ Child t p r)
    (hanchor : ∀ p, IsAnchor s p → Anchored s p → Anchored t p) : Inv t E' U := by
  have hg := ht.puts_grows hput
  refine ⟨?_, ?_, fun n hn => ?_, ?_, fun m' hm' => ?_, ?_, fun p f hf => ?_, fun p hp => ?_⟩
  · rw [hput.root]
    exact h.tree.retable ht hput hd hsub hok hparent hroots
  · rw [hput.root]
    exact hfresh
  · rw [hput.root] at hn
    exact h.rootParent n (hput.was hn (by simp))
  · rw [hput.current]
    exact hanchor _ (.inl rfl) h.current
  · rw [hput.mounts] at hm'
    obtain ⟨M, p, hM, hp, hanch⟩ := h.mounts m' hm'
    refine ⟨M, p, ht.put_block hput hM (by simp), hp, ?_⟩
    exact hanchor p (.inr (.inl ⟨m', hm', M, hM, hp⟩)) hanch
  · rw [hput.mounts]
    exact h.nodup
  · have hf := hput.was hf (by simp)
    obtain ⟨hentry, hcache⟩ := h.files p f hf
    exact ⟨hanchor _ (.inr (.inr ⟨p, f, hf, rfl⟩)) hentry, fun r hr => hg.plain r (hcache r hr)⟩
  · obtain ⟨hlt, hneed, hpm⟩ := h.unused p hp
    refine ⟨hlt.trans_le hput.next, fun hneed' => hneed ?_, hput.mounts ▸ hpm⟩
    rw [hput.root] at hneed'
    rcases hneed' with hp' | ⟨r, n, hr, hn, hc⟩
    · exact .inl (hsub p hp')
    · exact .inr ⟨r, n, hsub r hr, hput.was hn (by simp), hc⟩

end

/-- One slot of a table is set. -/
theorem Tree.child_update (h : Tree s R) (hd : Below (Child s) R d) (ht : HasTable s d q slots)
    (hput : Puts s q (some (.table (update slots i v))) t) (p : Nat) (hp : Below (Child s) R p)
    (x : Nat) :
    Child t p x ↔ (p = d ∧ v = some x) ∨ (Child s p x ∧ ¬ (p = d ∧ slots i = some x)) := by
  rw [h.child_put ht hput hd p x hp]
  by_cases hpd : p = d
  · subst hpd
    constructor
    · rintro (⟨-, j, hj⟩ | ⟨hne, -⟩)
      · rcases update_cases hj with ⟨-, hj⟩ | ⟨hji, hj⟩
        · exact .inl ⟨rfl, hj⟩
        · exact .inr ⟨⟨q, slots, j, ht, hj⟩, fun hx => hji ((h.tableOk hd ht).inj j i x hj hx.2)⟩
      · exact absurd rfl hne
    rintro (⟨-, rfl⟩ | ⟨⟨q', sl, j, hsl, hj⟩, hx⟩)
    · exact .inl ⟨rfl, i, update_self ..⟩
    obtain ⟨rfl, rfl⟩ := ht.unique hsl
    refine .inl ⟨rfl, j, ?_⟩
    rw [update_of_ne fun hji : j = i => hx ⟨rfl, hji ▸ hj⟩]
    exact hj
  · simp [hpd]

theorem TableOk.update (h : TableOk slots) (hi : v ≠ none → i < maxDirEntries)
    (hv : ∀ x j, v = some x → slots j ≠ some x) : TableOk (update slots i v) := by
  refine ⟨fun j hj => ?_, fun j k x hj hk => ?_⟩
  · by_cases hji : j = i
    · rw [hji, update_self]
      by_contra hne
      have := hi hne
      omega
    · rw [update_of_ne hji]
      exact h.bound j hj
  · rcases update_cases hj with ⟨hji, hx⟩ | ⟨-, hx⟩
    · rcases update_cases hk with ⟨hki, -⟩ | ⟨-, hk⟩
      · exact hji.trans hki.symm
      · exact absurd hk (hv x k hx)
    · rcases update_cases hk with ⟨-, hk⟩ | ⟨-, hk⟩
      · exact absurd hx (hv x j hk)
      · exact h.inj j k x hx hk

/-- A root is entered in a free slot of a directory that lies below another root. -/
theorem Inv.link (h : Inv s (insert e E) U) (he : e ∉ E) (hd : Rooted s E d)
    (ht : HasTable s d q slots) (hi : i < maxDirEntries) (hfree : slots i = none)
    (hn : s.heap.block e = some (.node n)) (hparent : n.parent = some d)
    (hput : Puts s q (some (.table (update slots i (some e)))) t) :
    Inv t E U ∧ Child t d e ∧ (∀ p, Anchored s p → Anchored t p) ∧
      ∀ p, Rooted s E p → Below (Child t) (insert s.root E) p := by
  have hswap : insert s.root (insert e E) = insert e (insert s.root E) := insert_comm _ _ _
  have hsubset : insert s.root E ⊆ insert s.root (insert e E) :=
    insert_subset_insert (subset_insert _ _)
  have hne : e ≠ s.root := fun heq => h.fresh (.inl heq.symm)
  have hnot : ∀ p, Rooted s (insert e E) p → ¬ Child s p e :=
    h.tree.roots e (.inr (.inl rfl))
  have hdR := hd.mono hsubset
  have hslot : ∀ j, slots j ≠ some e := fun j hj => hnot d hdR ⟨q, slots, j, ht, hj⟩
  -- The new relation is the old one with one edge more.
  have hchild : ∀ p, Rooted s (insert e E) p → ∀ x, Child t p x ↔ Linked (Child s) d e p x := by
    intro p hp x
    rw [h.tree.child_update hdR ht hput p hp x, hfree]
    simp [Linked, or_comm, eq_comm]
  have hlinked : ∀ p, Below (Linked (Child s) d e) (insert s.root E) p →
      Rooted s (insert e E) p := by
    intro p hp
    rw [Rooted, hswap]
    exact below_of_linked hp
  have hbelow : ∀ p, Below (Child t) (insert s.root E) p ↔
      Below (Linked (Child s) d e) (insert s.root E) p :=
    fun p => below_congr fun x hx => hchild x (hlinked x hx)
  have hforest : IsForest (Linked (Child s) d e) (insert s.root E) := by
    refine .link ?_ hd ?_
    · rw [← hswap]
      exact h.tree.isForest
    · rintro (heq | hmem)
      · exact hne heq
      · exact he hmem
  have hanchored : ∀ p, Anchored s p → Anchored t p := by
    intro p hp
    refine hp.induct (fun r hr => ?_) fun x y hx hx' hxy => ?_
    · rw [Anchored, hput.root]
      exact below_root hr
    · exact .tail hx' ((hchild x (hx.mono fun _ hr => .inl hr) y).mpr (.inl hxy))
  refine ⟨?_, (hchild d hdR e).mpr (.inr ⟨rfl, rfl⟩), hanchored,
    fun p hp => (hbelow p).mpr hp.linked⟩
  refine h.retable ht hput hdR (fun hmem => h.fresh (.inr hmem))
    (fun p hp => hlinked p ((hbelow p).mp hp))
    ((h.tree.tableOk hdR ht).update (fun _ => hi) fun x j hx => Option.some.inj hx ▸ hslot j)
    (fun j x m hj hm => ?_) (fun r hr p hp hpr => ?_) fun p _ hp => hanchored p hp
  · rcases update_cases hj with ⟨-, hj⟩ | ⟨-, hj⟩
    · cases hj
      rw [hn] at hm
      cases hm
      exact hparent
    · exact h.tree.parent d x m hdR ⟨q, slots, j, ht, hj⟩ hm
  · have hp := (hbelow p).mp hp
    exact hforest.roots r hr p hp ((hchild p (hlinked p hp) r).mp hpr)

/-- Clearing a slot takes one edge out of the relation. -/
theorem Tree.child_clear (h : Tree s R) (hd : Below (Child s) R d) (ht : HasTable s d q slots)
    (hc : slots i = some c) (hput : Puts s q (some (.table (update slots i none))) t) (p : Nat)
    (hp : Below (Child s) R p) (x : Nat) : Child t p x ↔ Unlinked (Child s) d c p x := by
  rw [h.child_update hd ht hput p hp x, hc]
  simp [Unlinked, eq_comm]

/-- A node is taken out of its slot and becomes a root, if no anchor lies below it. -/
theorem Inv.unlink (h : Inv s E U) (hd : Rooted s E d)
    (ht : HasTable s d q slots) (hc : slots i = some c)
    (hput : Puts s q (some (.table (update slots i none))) t)
    (hanchor : ∀ p, IsAnchor s p → Anchored s p → Anchored t p) :
    Inv t (insert c E) U ∧ c ∉ insert s.root E := by
  have hdc : Child s d c := ⟨q, slots, i, ht, hc⟩
  have hnot : c ∉ insert s.root E := fun hmem => h.tree.roots c hmem d hd hdc
  have hswap : insert s.root (insert c E) = insert c (insert s.root E) := insert_comm _ _ _
  have hchild := h.tree.child_clear hd ht hc hput
  have hback : ∀ p, Below (Unlinked (Child s) d c) (insert c (insert s.root E)) p →
      Rooted s E p := by
    intro p hp
    refine (below_of_unlinked hp).subset fun r hr => ?_
    rcases hr with rfl | hr
    · exact hd.tail hdc
    · exact below_root hr
  have hbelow : ∀ p, Below (Child t) (insert s.root (insert c E)) p ↔
      Below (Unlinked (Child s) d c) (insert c (insert s.root E)) p := by
    intro p
    rw [hswap]
    exact below_congr fun x hx => hchild x (hback x hx)
  have hforest := h.tree.isForest.unlink hd hdc
  refine ⟨?_, hnot⟩
  refine h.retable ht hput hd (fun hmem => ?_) (fun p hp => hback p ((hbelow p).mp hp))
    ((h.tree.tableOk hd ht).update (absurd rfl) fun _ _ => nofun) (fun j x m hj hm => ?_)
    (fun r hr p hp hpr => ?_) hanchor
  · rcases hmem with heq | hmem
    · exact hnot (.inl heq.symm)
    · exact h.fresh hmem
  · rcases update_cases hj with ⟨-, hj⟩ | ⟨-, hj⟩
    · cases hj
    · exact h.tree.parent d x m hd ⟨q, slots, j, ht, hj⟩ hm
  · have hp := (hbelow p).mp hp
    rw [hswap] at hr
    exact hforest.roots r hr p hp ((hchild p (hback p hp) r).mp hpr)

end Retable

end Kil0yOS.Vfs
