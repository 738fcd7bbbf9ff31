/-
The tree as a forest in the heap.

`Tree s R` says that what lies below the nodes `R` is allocated and properly linked: every
table belongs to one node, every node stands in one slot, and its parent pointer leads to
the node in whose table it stands.  Nodes that are made but not entered in a directory yet,
or that were taken out of one, are roots beside the root directory.
-/
import Kil0yOS.Lib.Forest
import Kil0yOS.Vfs.LnxFiles

namespace Kil0yOS.Vfs

open Lib Function

def HasTable (s : State) (p q : Nat) (slots : Nat → Option Nat) : Prop :=
  ∃ n, s.heap.block p = some (.node n) ∧ n.children = some q ∧ s.heap.block q = some (.table slots)

def Child (s : State) (p c : Nat) : Prop :=
  ∃ q slots i, HasTable s p q slots ∧ slots i = some c

/-- No node, table, mount or open file is or ever will be at `q`. -/
def Plain (s : State) (q : Nat) : Prop :=
  q < s.heap.next ∧ ∀ b, s.heap.block q = some b → ∃ d, b = .data d

/-- What mount is at `m`, if one is still there, is writable. -/
def Writable (s : State) (m : Nat) : Prop :=
  m < s.heap.next ∧ ∀ M, s.heap.block m = some (.mount M) → M.writable = true

structure NodeOk (s : State) (n : Node) : Prop where
  name : n.name.length < 256
  leaf : n.type = .file → n.children = none
  /-- The buffer of a file is its own.  Only on a writable mount was it never set. -/
  mem : n.type = .file → (∀ q, n.memData = some q → Plain s q) ∨
    n.backend = .ext2 ∧ ∃ m, n.mnt = some (.inst m) ∧ Writable s m

structure TableOk (slots : Nat → Option Nat) : Prop where
  bound : ∀ i, maxDirEntries ≤ i → slots i = none
  inj : ∀ i j c, slots i = some c → slots j = some c → i = j

structure Tree (s : State) (R : Set Nat) : Prop where
  node : ∀ p, Below (Child s) R p → ∃ n, s.heap.block p = some (.node n) ∧ NodeOk s n
  table : ∀ p n q, Below (Child s) R p → s.heap.block p = some (.node n) →
    n.children = some q → ∃ slots, s.heap.block q = some (.table slots) ∧ TableOk slots
  owner : ∀ p p' q slots, Below (Child s) R p → Below (Child s) R p' → HasTable s p q slots →
    HasTable s p' q slots → p = p'
  parent : ∀ p c n, Below (Child s) R p → Child s p c → s.heap.block c = some (.node n) →
    n.parent = some p
  roots : ∀ r ∈ R, ∀ p, Below (Child s) R p → ¬ Child s p r

section Tree

variable {s t : State} {R R' : Set Nat} {p q c : Nat} {slots slots' : Nat → Option Nat}

theorem lt_next_of_block {h : Heap} {b : Block} (hb : h.block p = some b) : p < h.next := by
  by_contra hle
  rw [h.above p (by omega)] at hb
  cases hb

theorem ne_of_block {h : Heap} {b b' : Block} (hp : h.block p = some b) (hq : h.block q = some b')
    (hne : b ≠ b') : p ≠ q := by
  rintro rfl
  exact hne (Option.some.inj (hp.symm.trans hq))

theorem HasTable.unique {q' : Nat} (h : HasTable s p q slots)
    (h' : HasTable s p q' slots') : q' = q ∧ slots' = slots := by
  obtain ⟨n, hn, hq, hslots⟩ := h
  obtain ⟨n', hn', hq', hslots'⟩ := h'
  rw [hn] at hn'
  cases hn'
  rw [hq] at hq'
  cases hq'
  rw [hslots] at hslots'
  cases hslots'
  exact ⟨rfl, rfl⟩

section

variable (h : Tree s R)
include h

theorem Tree.nodeOk {n : Node} (hp : Below (Child s) R p)
    (hn : s.heap.block p = some (.node n)) : NodeOk s n := by
  obtain ⟨m, hm, hok⟩ := h.node p hp
  rw [hn] at hm
  cases hm
  exact hok

theorem Tree.owner_eq {p' : Nat} (hp : Below (Child s) R p)
    (hp' : Below (Child s) R p') (ht : HasTable s p q slots)
    (ht' : HasTable s p' q slots') : p = p' := by
  obtain ⟨n, hn, hq, hslots⟩ := ht'
  obtain ⟨-, -, -, hslots'⟩ := id ht
  exact h.owner p p' q slots hp hp' ht ⟨n, hn, hq, hslots'⟩

theorem Tree.mono (hR : R' ⊆ R) : Tree s R' where
  node p hp := h.node p (hp.mono hR)
  table p n q hp := h.table p n q (hp.mono hR)
  owner p p' q slots hp hp' := h.owner p p' q slots (hp.mono hR) (hp'.mono hR)
  parent p c n hp := h.parent p c n (hp.mono hR)
  roots r hr p hp := h.roots r (hR hr) p (hp.mono hR)

theorem Tree.isForest : IsForest (Child s) R := by
  refine ⟨fun p p' c hp hp' hc hc' => ?_, h.roots⟩
  obtain ⟨n, hn, -⟩ := h.node c (hp.tail hc)
  have hparent := h.parent p c n hp hc hn
  rw [h.parent p' c n hp' hc' hn] at hparent
  exact (Option.some.inj hparent).symm

theorem Tree.tableOk (hp : Below (Child s) R p)
    (ht : HasTable s p q slots) : TableOk slots := by
  obtain ⟨n, hn, hq, hslots⟩ := ht
  obtain ⟨slots', hslots', hok⟩ := h.table p n q hp hn hq
  rw [hslots] at hslots'
  cases hslots'
  exact hok

end

/-- The blocks that the tree consists of. -/
def Needed (s : State) (R : Set Nat) (p : Nat) : Prop :=
  Below (Child s) R p ∨ ∃ q n, Below (Child s) R q ∧ s.heap.block q = some (.node n) ∧
    n.children = some p

theorem Tree.needed_block (h : Tree s R) (hp : Needed s R p) :
    (∃ n, s.heap.block p = some (.node n)) ∨ ∃ slots, s.heap.block p = some (.table slots) := by
  rcases hp with hp | ⟨q, n, hq, hn, hc⟩
  · obtain ⟨n, hn, -⟩ := h.node p hp
    exact .inl ⟨n, hn⟩
  · obtain ⟨slots, hslots, -⟩ := h.table q n p hq hn hc
    exact .inr ⟨slots, hslots⟩

theorem Tree.lt_next (h : Tree s R) (hp : Needed s R p) : p < s.heap.next := by
  rcases h.needed_block hp with ⟨b, hb⟩ | ⟨b, hb⟩
  all_goals exact lt_next_of_block hb

/-- A tree is there as well in a state that has its tables, and its nodes with the same
tables and the same parents, the parents of the roots in `E` apart. -/
theorem Tree.agree {E : Set Nat} (h : Tree s R) (hE : E ⊆ R)
    (hnode : ∀ p n, Below (Child s) R p → s.heap.block p = some (.node n) →
      ∃ n', t.heap.block p = some (.node n') ∧ n'.children = n.children ∧
        (p ∉ E → n'.parent = n.parent) ∧ NodeOk t n')
    (htable : ∀ p n q, Below (Child s) R p → s.heap.block p = some (.node n) →
      n.children = some q → t.heap.block q = s.heap.block q) :
    Tree t R ∧ ∀ p, Below (Child s) R p → ∀ c, Child t p c ↔ Child s p c := by
  have hhas : ∀ p q slots, Below (Child s) R p → (HasTable t p q slots ↔ HasTable s p q slots) := by
    intro p q slots hp
    obtain ⟨n, hn, -⟩ := h.node p hp
    obtain ⟨n', hn', hchildren, -⟩ := hnode p n hp hn
    constructor
    · rintro ⟨m, hm, hq, hslots⟩
      rw [hn'] at hm
      cases hm
      rw [hchildren] at hq
      exact ⟨n, hn, hq, (htable p n q hp hn hq) ▸ hslots⟩
    · rintro ⟨m, hm, hq, hslots⟩
      rw [hn] at hm
      cases hm
      exact ⟨n', hn', hchildren ▸ hq, (htable p n q hp hn hq).trans hslots⟩
  have hchild : ∀ p, Below (Child s) R p → ∀ c, Child t p c ↔ Child s p c := by
    intro p hp c
    simp only [Child, hhas p _ _ hp]
  have hbelow : ∀ p, Below (Child t) R p ↔ Below (Child s) R p := fun p => below_congr hchild
  refine ⟨⟨fun p hp => ?_, fun p n q hp hn hq => ?_, fun p p' q slots hp hp' ht ht' => ?_,
    fun p c n hp hc hn => ?_, fun r hr p hp hc => ?_⟩, hchild⟩
  · have hp := (hbelow p).mp hp
    obtain ⟨n, hn, -⟩ := h.node p hp
    obtain ⟨n', hn', -, -, hok⟩ := hnode p n hp hn
    exact ⟨n', hn', hok⟩
  · have hp := (hbelow p).mp hp
    obtain ⟨m, hm, -⟩ := h.node p hp
    obtain ⟨n', hn', hchildren, -⟩ := hnode p m hp hm
    rw [hn] at hn'
    cases hn'
    rw [hchildren] at hq
    obtain ⟨slots, hslots, hok⟩ := h.table p m q hp hm hq
    exact ⟨slots, (htable p m q hp hm hq).trans hslots, hok⟩
  · have hp := (hbelow p).mp hp
    have hp' := (hbelow p').mp hp'
    exact h.owner p p' q slots hp hp' ((hhas p q slots hp).mp ht) ((hhas p' q slots hp').mp ht')
  · have hp := (hbelow p).mp hp
    have hc := (hchild p hp c).mp hc
    obtain ⟨m, hm, -⟩ := h.node c (hp.tail hc)
    obtain ⟨n', hn', -, hparent, -⟩ := hnode c m (hp.tail hc) hm
    rw [hn] at hn'
    cases hn'
    rw [hparent fun hcE => h.roots c (hE hcE) p hp hc]
    exact h.parent p c m hp hc hm
  · have hp := (hbelow p).mp hp
    exact h.roots r hr p hp ((hchild p hp r).mp hc)

end Tree

/-! ## Changes of the heap -/

/-- Nothing that `NodeOk` relies on is lost. -/
structure Grows (s t : State) : Prop where
  next : s.heap.next ≤ t.heap.next
  plain : ∀ q, Plain s q → Plain t q
  writable : ∀ m, Writable s m → Writable t m

/-- Only the block at `p` changes. -/
structure Puts (s : State) (p : Nat) (b : Option Block) (t : State) : Prop where
  block : t.heap.block = update s.heap.block p b
  next : s.heap.next ≤ t.heap.next
  root : t.root = s.root
  current : t.current = s.current
  mounts : t.mounts = s.mounts

section Puts

variable {s t u : State} {p q : Nat} {b : Option Block}

theorem Grows.refl (s : State) : Grows s s := ⟨Nat.le_refl _, fun _ h => h, fun _ h => h⟩

theorem Grows.trans (h : Grows s t) (h' : Grows t u) : Grows s u :=
  ⟨h.next.trans h'.next, fun q hq => h'.plain q (h.plain q hq),
    fun m hm => h'.writable m (h.writable m hm)⟩

theorem NodeOk.grows {n : Node} (h : NodeOk s n) (hg : Grows s t) : NodeOk t n := by
  refine ⟨h.name, h.leaf, fun hfile => ?_⟩
  rcases h.mem hfile with hplain | ⟨hback, m, hm, hw⟩
  · exact .inl fun q hq => hg.plain q (hplain q hq)
  · exact .inr ⟨hback, m, hm, hg.writable m hw⟩

theorem Puts.same (h : Puts s p b t) : t.heap.block p = b := by
  simp [h.block]

theorem Puts.other (h : Puts s p b t) (hq : q ≠ p) : t.heap.block q = s.heap.block q := by
  rw [h.block, update_of_ne hq]

/-- A block of another kind than the one that was replaced is still there. -/
theorem Puts.keeps {c c' : Block} (h : Puts s p b t) (hp : s.heap.block p = some c)
    (hq : s.heap.block q = some c') (hne : c' ≠ c) : t.heap.block q = some c' :=
  (h.other (ne_of_block hq hp hne)).trans hq

/-- A block of another kind than the new one was there before. -/
theorem Puts.was {c c' : Block} (h : Puts s p (some c) t) (hq : t.heap.block q = some c')
    (hne : c' ≠ c) : s.heap.block q = some c' :=
  (h.other (ne_of_block hq h.same hne)).symm.trans hq

theorem Puts.grows (h : Puts s p b t) (hdata : Plain s p → ∀ c, b = some c → ∃ d, c = .data d)
    (hmount : Writable s p → ∀ M, b = some (.mount M) → M.writable = true) : Grows s t := by
  refine ⟨h.next, fun q hq => ⟨hq.1.trans_le h.next, fun c hc => ?_⟩,
    fun m hm => ⟨hm.1.trans_le h.next, fun M hM => ?_⟩⟩
  · by_cases hqp : q = p
    · subst hqp
      rw [h.same] at hc
      exact hdata hq c hc
    · rw [h.other hqp] at hc
      exact hq.2 c hc
  · by_cases hmp : m = p
    · subst hmp
      rw [h.same] at hM
      exact hmount hm M hM
    · rw [h.other hmp] at hM
      exact hm.2 M hM

theorem Puts.grows_free (h : Puts s p none t) : Grows s t :=
  h.grows nofun nofun

theorem Puts.grows_fresh (h : Puts s p b t) (hp : s.heap.next ≤ p) : Grows s t :=
  h.grows (fun hplain => absurd hplain.1 (by omega)) fun hw => absurd hw.1 (by omega)

theorem Puts.grows_over {c c' : Block} (h : Puts s p (some c') t) (hp : s.heap.block p = some c)
    (hc : ∀ d, c ≠ .data d) (hc' : ∀ M, c' ≠ .mount M) : Grows s t := by
  refine h.grows (fun hplain => ?_) fun _ M hM => absurd (Option.some.inj hM) (hc' M)
  obtain ⟨d, hd⟩ := hplain.2 c hp
  exact absurd hd (hc d)

theorem puts_free (s : State) (p : Nat) : Puts s p none { s with heap := s.heap.free p } :=
  ⟨rfl, Nat.le_refl _, rfl, rfl, rfl⟩

theorem store_next {h : Heap} (hp : p < h.next) (b : Block) : (h.store p b).next = h.next := by
  simp only [Heap.store, dif_pos hp]

theorem puts_store (hp : p < s.heap.next) (b : Block) :
    Puts s p (some b) { s with heap := s.heap.store p b } := by
  refine ⟨?_, (store_next hp b).ge, rfl, rfl, rfl⟩
  simp only [Heap.store, dif_pos hp]

end Puts

/-! ## States for examples -/

/-- The heap with these blocks, from address 0 on. -/
def Heap.ofList (blocks : List Block) : Heap :=
  { block := fun p => blocks[p]?
    next := blocks.length
    above := fun _ hp => List.getElem?_eq_none hp }

/-- A state in which every request to the heap and to the disk is granted. -/
def State.granting (h : Heap) : State :=
  { heap := h
    root := 0
    current := 0
    mounts := []
    devices := []
    heapFails := fun _ => false
    diskFails := fun _ => false
    inos := fun n => n
    torn := []
    junk := none }

end Kil0yOS.Vfs
