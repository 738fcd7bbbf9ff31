/-
Unmounting does not undo mounting.

ext2_mount builds the device's tree below a root node of its own, hands that node's
children to the mount point and frees the node, but not the node's table.  From then on
nothing points to the table, so nothing ever frees it.
-/
import Kil0yOS.Vfs.TreeInv

namespace Kil0yOS.Vfs

open Lib Vfs Function Option

variable {b : Block} {m p sub : Nat} {t : State}

/-! ## A block that nothing points to -/

/-- The pointers in a block that lead to what is freed with it or through it. -/
def Block.Refs : Block → Nat → Prop
  | .node n, q => n.memData = some q ∨ n.children = some q
  | .table slots, q => ∃ i, slots i = some q
  | .mount m, q => m.target = some q
  | .data _, _ => False
  | .lnxFile f, q => f.entry = q ∨ f.cache = some q

/-- The table at `q` is allocated and no block but that at `owner` points to it. -/
structure Held (q : Nat) (owner : Option Nat) (s : State) : Prop where
  block : ∃ slots, s.heap.block q = some (.table slots)
  refs : ∀ p b, some p ≠ owner → s.heap.block p = some b → ¬ b.Refs q
  mounts : q ∉ s.mounts

section Held

variable {q : Nat} {owner : Option Nat} {s : State}

section

variable (h : Held q owner s)
include h

namespace Held

theorem lt_next : q < s.heap.next := by
  obtain ⟨slots, hq⟩ := h.block
  exact lt_next_of_block hq

/-- A write to another block, or a table in place of the table. -/
theorem put {b : Option Block} (hput : Puts s p b t)
    (hp : p = q → ∃ slots, b = some (.table slots))
    (hb : some p ≠ owner → ∀ x, b = some x → ¬ x.Refs q) : Held q owner t := by
  refine ⟨?_, fun r x hr hx => ?_, hput.mounts ▸ h.mounts⟩
  · by_cases hpq : p = q
    · obtain ⟨slots, hslots⟩ := hp hpq
      exact ⟨slots, hpq ▸ hput.same.trans hslots⟩
    · rw [hput.other (Ne.symm hpq)]
      exact h.block
  · by_cases hrp : r = p
    · rw [hrp] at hr hx
      exact hb hr x (hput.same.symm.trans hx)
    · rw [hput.other hrp] at hx
      exact h.refs r x hr hx

theorem kmalloc (hb : ¬ b.Refs q) :
    After (kmalloc b) s fun r t => Held q owner t ∧ r ≠ some q := by
  refine (after_kmalloc b).mono fun r t ht => ?_
  have hne := h.lt_next.ne'
  rcases ht with ⟨rfl, hput⟩ | ⟨rfl, hput, -⟩
  · exact ⟨h.put hput (fun heq => absurd heq hne) nofun, nofun⟩
  · refine ⟨h.put hput (fun heq => absurd heq hne) fun _ x hx => ?_, fun heq => hne (some.inj heq)⟩
    cases hx
    exact hb

theorem free (hp : p ≠ q) : Held q owner { s with heap := s.heap.free p } :=
  h.put (puts_free s p) (fun heq => absurd heq hp) nofun

theorem kfree (hp : p ≠ q) : After (kfree p) s fun _ t => Held q owner t := .modify (h.free hp)

theorem kfreeIf {p : Option Nat} (hp : p ≠ some q) :
    After (kfreeIf p) s fun _ t => Held q owner t := by
  cases p with
  | none => exact .pure h
  | some p => exact h.kfree fun hpq => hp (congrArg some hpq)

theorem store (hp : p = q → ∃ slots, b = .table slots) (hb : some p ≠ owner → ¬ b.Refs q) :
    Held q owner { s with heap := s.heap.store p b } := by
  by_cases hlt : p < s.heap.next
  · refine h.put (puts_store hlt b) (fun hpq => ?_) fun hne x hx => ?_
    · obtain ⟨slots, rfl⟩ := hp hpq
      exact ⟨slots, rfl⟩
    · cases hx
      exact hb hne
  · have hstore : s.heap.store p b = s.heap := by simp only [Heap.store, dif_neg hlt]
    rw [hstore]
    exact h

theorem setNode {n : Node} (hp : p ≠ q)
    (hn : some p ≠ owner → n.memData ≠ some q ∧ n.children ≠ some q) :
    After (setNode p n) s fun _ t => Held q owner t :=
  .modify (h.store (fun heq => absurd heq hp) fun ho => not_or.mpr (hn ho))

theorem nodeAt (p : Nat) :
    After (nodeAt p) s fun n t => t = s ∧ p ≠ q ∧ s.heap.block p = some (.node n) ∧
      (some p ≠ owner → n.memData ≠ some q ∧ n.children ≠ some q) := by
  refine (after_nodeAt p).mono fun n t ht => ?_
  obtain ⟨slots, hq⟩ := h.block
  exact ⟨ht.1, ne_of_block ht.2 hq (by simp), ht.2, fun hp => not_or.mp (h.refs p _ hp ht.2)⟩

end Held

end

theorem Held.mountAt (h : Held q none s) (p : Nat) :
    After (mountAt p) s fun m t => t = s ∧ m.target ≠ some q :=
  (after_mountAt p).mono fun m t ht => ⟨ht.1, h.refs p _ (by simp) ht.2⟩

theorem Held.slotsAt (h : Held q owner s) (children : Option Nat) :
    After (slotsAt children) s fun slots t => t = s ∧ children ≠ none ∧
      (children ≠ owner → ∀ i, slots i ≠ some q) := by
  refine (after_slotsAt children).mono fun slots t ht => ?_
  obtain ⟨rfl, p, rfl, hs⟩ := ht
  exact ⟨rfl, by simp, fun hp i hi => h.refs p _ hp hs ⟨i, hi⟩⟩

theorem Held.setSlot (h : Held q owner s) {children value : Option Nat} (i : Nat)
    (hvalue : value ≠ some q) : After (setSlot children i value) s fun _ t => Held q owner t := by
  refine (h.slotsAt children).bind fun slots t ht => ?_
  obtain ⟨rfl, -, hslots⟩ := ht
  cases children with
  | none => exact after_none rfl
  | some p =>
    refine .modify (h.store (fun _ => ⟨_, rfl⟩) fun hp => ?_)
    rintro ⟨j, hj⟩
    rcases update_cases hj with ⟨-, hj⟩ | ⟨-, hj⟩
    · exact hvalue hj
    · exact hslots hp j hj

end Held

/-! ## Deleting and unmounting -/

section Umount

variable {q : Nat} {s : State}

theorem Held.deleteChildren {delete : Nat → V Unit}
    (hdelete : ∀ c s, c ≠ q → Held q none s → After (delete c) s fun _ t => Held q none t)
    (children : Option Nat) (is : List Nat) : ∀ s, Held q none s →
      After (deleteChildren delete children is) s fun _ t => Held q none t := by
  induction is with
  | nil => exact fun s h => .pure h
  | cons i is ih =>
    intro s h
    refine (h.slotsAt children).bind fun slots t ht => ?_
    obtain ⟨rfl, hchildren, hslots⟩ := ht
    cases hc : slots i with
    | none => exact ih _ h
    | some c =>
      have hcq : c ≠ q := fun hcq => hslots hchildren i (by rw [hc, hcq])
      refine (hdelete c _ hcq h).bind fun _ u hu => ?_
      exact (hu.setSlot i (by simp)).bind fun _ v hv => ih v hv

theorem Held.fsDeleteEntryRecursive (depth : Nat) : ∀ entry s, entry ≠ q → Held q none s →
    After (fsDeleteEntryRecursive depth entry) s fun _ t => Held q none t := by
  induction depth with
  | zero => exact fun entry s _ _ => after_none rfl
  | succ depth ih =>
    intro entry s hentry h
    refine (h.nodeAt entry).bind fun n t ht => ?_
    obtain ⟨rfl, -, -, hptrs⟩ := ht
    obtain ⟨hmem, hchildren⟩ := hptrs (by simp)
    have hlast : ∀ t, Held q none t → After (do Vfs.kfreeIf n.memData; Vfs.kfree entry) t
        fun _ u => Held q none u :=
      fun t ht => (ht.kfreeIf hmem).bind fun _ u hu => hu.kfree hentry
    split
    next table _ htable =>
      have htq : table ≠ q := fun htq => hchildren (by rw [htable, htq])
      refine (Held.deleteChildren ih _ _ _ h).bind fun _ t ht => ?_
      exact (ht.kfree htq).bind fun _ u hu => hlast u hu
    · exact hlast _ h

theorem mem_of_mem_dropMount {mounts : List Nat} {found : Nat}
    (h : m ∈ dropMount mounts found) : m ∈ mounts := by
  simp only [dropMount] at h
  split at h
  · exact h
  next last hlast =>
    obtain ⟨m', hm', heq⟩ := List.mem_map.mp ((List.dropLast_sublist _).subset h)
    split at heq
    · rw [← heq]
      exact List.mem_of_getLast? hlast
    · rw [← heq]
      exact hm'

/-- What nothing points to outlives an unmount. -/
theorem Held.ext2Umount (h : Held q none s) (depth : Nat) (mountpoint : CString) :
    After (ext2Umount depth mountpoint) s fun _ t => Held q none t := by
  refine .get_bind ?_
  refine (after_findMount _ _).reads fun r hmem => ?_
  cases r with
  | none => exact .pure h
  | some found =>
    have hfound : found ≠ q := fun hfq => h.mounts (hfq ▸ (hmem found rfl).1)
    refine (h.mountAt found).reads fun m htarget => ?_
    cases hm : m.target with
    | none => exact after_none rfl
    | some target =>
      have htq : target ≠ q := fun htq => htarget (by rw [hm, htq])
      refine (reads_isAbove _ _ _).after fun b => ?_
      refine .ite (fun _ => .pure h) fun _ => ?_
      refine (reads_subtreeHasBackend _ _ _).after fun b => ?_
      refine .ite (fun _ => .pure h) fun _ => ?_
      refine (reads_nestedMount _ _ _ _).after fun b => ?_
      refine .ite (fun _ => .pure h) fun _ => ?_
      refine (h.nodeAt target).bind fun n t ht => ?_
      obtain ⟨rfl, -, -, hptrs⟩ := ht
      obtain ⟨hmem, hchildren⟩ := hptrs (by simp)
      refine (Held.deleteChildren (.fsDeleteEntryRecursive depth) _ _ _ h).bind fun _ t ht => ?_
      refine .bind (ht.setNode htq fun _ => ⟨hmem, hchildren⟩) fun _ u hu => .modify_bind ?_
      have hdrop : Held q none { u with mounts := dropMount u.mounts found } :=
        ⟨hu.block, hu.refs, fun hq => hu.mounts (mem_of_mem_dropMount hq)⟩
      exact (hdrop.kfree hfound).bind fun _ v hv => .pure hv

end Umount

/-! ## Mounting -/

/-- Every pointer leads to an address that has been handed out. -/
structure State.Bounded (s : State) : Prop where
  refs : ∀ p b q, s.heap.block p = some b → b.Refs q → q < s.heap.next
  mounts : ∀ m ∈ s.mounts, m < s.heap.next

section Mount

variable {q : Nat} {owner : Option Nat} {s : State}

section

variable (h : s.Bounded)
include h

namespace State.Bounded

theorem put {b : Option Block} (hput : Puts s p b t)
    (hb : ∀ x q, b = some x → x.Refs q → q < s.heap.next) : t.Bounded := by
  refine ⟨fun r x q hx hq => ?_, fun m hm => ?_⟩
  · rw [hput.block] at hx
    refine Nat.lt_of_lt_of_le ?_ hput.next
    rcases update_cases hx with ⟨-, hx⟩ | ⟨-, hx⟩
    · exact hb x q hx hq
    · exact h.refs r x q hx hq
  · rw [hput.mounts] at hm
    exact Nat.lt_of_lt_of_le (h.mounts m hm) hput.next

theorem kmalloc (hb : ∀ q, b.Refs q → q < s.heap.next) :
    After (kmalloc b) s fun r t => t.Bounded ∧ s.heap.next ≤ t.heap.next ∧
      t.mounts = s.mounts ∧ ∀ p, r = some p → s.heap.next ≤ p ∧ p < t.heap.next := by
  refine (after_kmalloc b).mono fun r t ht => ?_
  rcases ht with ⟨rfl, hput⟩ | ⟨rfl, hput, hlt⟩
  · exact ⟨h.put hput nofun, hput.next, hput.mounts, nofun⟩
  refine ⟨h.put hput fun x q hx hq => ?_, hput.next, hput.mounts, fun p hp => ?_⟩
  · cases hx
    exact hb q hq
  · cases hp
    omega

theorem free (p : Nat) :
    State.Bounded { s with heap := s.heap.free p } := h.put (puts_free s p) nofun

theorem kfreeIf (p : Option Nat) :
    After (kfreeIf p) s fun _ t => t.Bounded ∧ t.heap.next = s.heap.next := by
  cases p with
  | none => exact .pure ⟨h, rfl⟩
  | some p => exact .modify ⟨h.free p, rfl⟩

theorem fsResolvePath (path : CString) :
    After (fsResolvePath path) s fun _ t => t.Bounded ∧ s.heap.next ≤ t.heap.next := by
  simp only [Vfs.fsResolvePath]
  split
  · exact .pure ⟨h, Nat.le_refl _⟩
  refine .ite (fun _ => .pure ⟨h, Nat.le_refl _⟩) fun _ => ?_
  refine (h.kmalloc fun q hq => by cases hq).option (fun _ ht => .pure ⟨ht.1, ht.2.1⟩)
    fun copy t ht => ?_
  obtain ⟨hb, hle, -, -⟩ := ht
  refine (reads_resolveTokens _ _ t).bind fun r' u hu => ?_
  rw [hu]
  refine .modify_bind (.pure ⟨hb.free copy, hle⟩)

/-- The root node of a tree that is being built holds the only pointer to its table. -/
theorem ext2NewNode (m : MntPtr) (name : CString)
    (ino size : Nat) (parent : Option Nat) :
    After (ext2NewNode m name .directory ino size parent) s fun r t => ∀ e, r = some e →
      ∃ q, s.heap.next ≤ q ∧ e ≠ q ∧ Held q (some e) t := by
  refine (h.kmalloc fun q hq => by rcases hq with hq | hq <;> cases hq).option
    (fun _ ht => .pure nofun) fun e t ht => ?_
  obtain ⟨hb, hle, -, hr⟩ := ht
  obtain ⟨hes, het⟩ := hr e rfl
  refine (after_kmalloc emptyTable).bind fun r u hu => ?_
  rcases hu with ⟨rfl, -⟩ | ⟨rfl, hput, -⟩
  · exact .modify_bind (.pure nofun)
  have hheld : Held t.heap.next (some e) u := by
    refine ⟨⟨fun _ => none, hput.same⟩, fun p b hp hb' => ?_, fun hmem => ?_⟩
    · rw [hput.block] at hb'
      rcases update_cases hb' with ⟨-, hb'⟩ | ⟨-, hb'⟩
      · cases hb'
        rintro ⟨i, hi⟩
        cases hi
      · exact fun hq => Nat.lt_irrefl _ (hb.refs p b _ hb' hq)
    · rw [hput.mounts] at hmem
      exact Nat.lt_irrefl _ (hb.mounts _ hmem)
  refine (hheld.setNode (by omega) fun hne => absurd rfl hne).bind fun _ v hv => ?_
  refine .pure fun e' he' => ?_
  cases he'
  exact ⟨t.heap.next, by omega, by omega, hv⟩

end State.Bounded

end

theorem Held.ext2NewNode (h : Held q owner s) (m : MntPtr) (name : CString) (type : NodeType)
    (ino size : Nat) (parent : Option Nat) :
    After (ext2NewNode m name type ino size parent) s fun r t =>
      Held q owner t ∧ r ≠ some q := by
  refine (h.kmalloc fun hq => by rcases hq with hq | hq <;> cases hq).option
    (fun _ ht => .pure ⟨ht.1, by simp⟩) fun e t ht => ?_
  obtain ⟨ht, hr⟩ := ht
  have heq : e ≠ q := fun heq => hr (congrArg some heq)
  cases type with
  | file => exact .pure ⟨ht, hr⟩
  | directory =>
    refine (ht.kmalloc fun hq => by obtain ⟨i, hi⟩ := hq; cases hi).option
      (fun _ hu => (hu.1.kfree heq).bind fun _ v hv => .pure ⟨hv, by simp⟩) fun p u hu => ?_
    obtain ⟨hu, hr'⟩ := hu
    exact (hu.setNode heq fun _ => ⟨by simp, hr'⟩).bind fun _ v hv => .pure ⟨hv, hr⟩

theorem Held.loadEntries (m : MntPtr) {load : Nat → V Unit}
    (hload : ∀ c s, Held q owner s → After (load c) s fun _ t => Held q owner t) (dir : Nat)
    (es : List DiskEntry) : ∀ idx s, Held q owner s →
      After (loadEntries m load dir idx es) s fun _ t => Held q owner t := by
  induction es with
  | nil => exact fun idx s h => .pure h
  | cons e rest ih =>
    intro idx s h
    refine .ite (fun _ => .pure h) fun _ => ?_
    refine (h.ext2NewNode m _ _ _ _ _).option (fun t ht => ih idx t ht.1) fun child t ht => ?_
    obtain ⟨ht, hr⟩ := ht
    refine (ht.nodeAt dir).bind fun d u hu => ?_
    rw [hu.1]
    refine (ht.setSlot idx hr).bind fun _ v hv => ?_
    split
    · exact (hload child v hv).bind fun _ w hw => ih _ w hw
    · exact ih _ v hv

theorem Held.ext2LoadDirRecursive (m : MntPtr) (dev : Device) (depth : Nat) :
    ∀ dir s, Held q owner s →
      After (ext2LoadDirRecursive m dev depth dir) s fun _ t => Held q owner t := by
  induction depth with
  | zero => exact fun dir s _ => after_none rfl
  | succ depth ih =>
    intro dir s h
    refine (h.nodeAt dir).bind fun d t ht => ?_
    rw [ht.1]
    split
    · exact .pure h
    refine (h.kmalloc fun hq => by cases hq).bind fun b t ht => ?_
    refine (ht.1.kmalloc fun hq => by cases hq).bind fun i u hu => ?_
    split
    · refine (Held.loadEntries m ih dir _ 0 u hu.1).bind fun _ v hv => ?_
      refine (hv.kfree fun heq => ht.2 (congrArg some heq)).bind fun _ w hw => ?_
      exact hw.kfree fun heq => hu.2 (congrArg some heq)
    · exact (hu.1.kfreeIf ht.2).bind fun _ v hv => hv.kfreeIf hu.2

theorem Held.graftChildren (target : Nat) (is : List Nat) :
    ∀ idx s, Held q (some sub) s →
      After (graftChildren sub target idx is) s fun _ t => Held q (some sub) t := by
  induction is with
  | nil => exact fun idx s h => .pure h
  | cons i is ih =>
    intro idx s h
    refine (h.nodeAt sub).bind fun n t ht => ?_
    obtain ⟨rfl, -, hnode, -⟩ := ht
    by_cases hself : n.children = some sub
    · refine after_bind.mpr (after_none ?_)
      simp only [Vfs.slotsAt, hself, hnode]
    refine (h.slotsAt _).bind fun slots t ht => ?_
    obtain ⟨rfl, -, hslots⟩ := ht
    cases hc : slots i with
    | none => exact ih idx _ h
    | some c =>
      have hcq : some c ≠ some q := by
        rw [← hc]
        exact hslots hself i
      refine (h.setSlot i (by simp)).bind fun _ t ht => ?_
      refine (ht.nodeAt c).bind fun k u hu => ?_
      obtain ⟨rfl, hne, -, hptrs⟩ := hu
      refine .bind (ht.setNode hne hptrs) fun _ v hset => ?_
      refine (hset.nodeAt target).bind fun k' v hv => ?_
      rw [hv.1]
      exact (hset.setSlot idx hcq).bind fun _ w hw => ih _ w hw

theorem Held.freeOwner (h : Held q (some p) s) (hp : p ≠ q) :
    Held q none { s with heap := s.heap.free p } := by
  have hfree := h.free hp
  refine ⟨hfree.block, fun r b _ hb => hfree.refs r b (fun heq => ?_) hb, hfree.mounts⟩
  rw [some.inj heq, (puts_free s p).same] at hb
  cases hb

theorem Held.graftTree (h : Held q (some sub) s) (hsub : sub ≠ q) (hm : m ≠ q) (mount : Mount)
    (target : Nat) : After (graftTree m mount sub target) s fun _ t => Held q none t := by
  refine (Held.graftChildren target _ 0 s h).bind fun _ t ht => ?_
  refine .modify_bind ?_
  have hfree := ht.freeOwner hsub
  refine (hfree.nodeAt target).bind fun n u hu => ?_
  obtain ⟨rfl, htarget, -, hptrs⟩ := hu
  refine .bind (hfree.setNode htarget hptrs) fun _ u hset => .modify ?_
  have hmount := hset.store
    (b := .mount { mount with target := some target, prevBackend := n.backend })
    (fun heq => absurd heq hm) fun _ ht => htarget (some.inj ht)
  refine ⟨hmount.block, hmount.refs, fun hmem => ?_⟩
  rcases List.mem_append.mp hmem with hmem | hmem
  · exact hmount.mounts hmem
  · exact hm (List.mem_singleton.mp hmem).symm

theorem ext2BuildTreeM_held (h : s.Bounded) (m : MntPtr) (dev : Device) (depth : Nat) :
    After (ext2BuildTreeM m dev depth) s fun r t => ∀ sub, r = some sub →
      ∃ q, s.heap.next ≤ q ∧ sub ≠ q ∧ Held q (some sub) t := by
  refine (h.ext2NewNode _ _ _ _ _).bind fun r t ht => ?_
  cases r with
  | none => exact .pure nofun
  | some sub =>
    obtain ⟨q, hq, hsub, hheld⟩ := ht sub rfl
    refine (Held.ext2LoadDirRecursive m dev depth sub t hheld).bind fun _ u hu => ?_
    refine .pure fun sub' hsub' => ?_
    cases hsub'
    exact ⟨q, hq, hsub, hu⟩

/-- A mount leaves a table behind that was not there before and that nothing points to. -/
theorem ext2Mount_leaves (hs : s.Bounded) (depth : Nat) (devname mountpoint : CString)
    (writable : Bool) :
    After (ext2Mount depth devname mountpoint writable) s fun r t => r ≠ none →
      ∃ q, s.heap.next ≤ q ∧ Held q none t := by
  refine .ite (fun _ => .pure (absurd rfl)) fun _ => ?_
  split
  · refine (reads_findMount _ _).after fun r => ?_
    cases r with
    | some _ => exact .pure (absurd rfl)
    | none =>
      refine (hs.fsResolvePath mountpoint).option (fun _ ht => .pure (absurd rfl))
        fun target t ht => ?_
      obtain ⟨hb, hle⟩ := ht
      refine (reads_nodeAt target).after fun n => ?_
      refine .ite (fun _ => .pure (absurd rfl)) fun _ => ?_
      refine (reads_slotsAt _).after fun slots => ?_
      refine .ite (fun _ => .pure (absurd rfl)) fun _ => ?_
      refine (hb.kmalloc fun q hq => by cases hq).option (fun _ hu => .pure (absurd rfl))
        fun m u hu => ?_
      obtain ⟨hbu, hleu, -, hru⟩ := hu
      obtain ⟨-, hmu⟩ := hru m rfl
      refine (hbu.kmalloc fun q hq => by cases hq).bind fun gb v hv => ?_
      obtain ⟨hbv, hlev, -, -⟩ := hv
      refine (hbv.kfreeIf gb).bind fun _ w hw => ?_
      obtain ⟨hbw, hnext⟩ := hw
      refine .ite (fun _ => ?_) fun _ => ?_
      · exact .modify_bind (.pure (absurd rfl))
      refine (ext2BuildTreeM_held hbw _ _ depth).bind fun r x hx => ?_
      cases r with
      | none => exact .modify_bind (.pure (absurd rfl))
      | some sub =>
        obtain ⟨q, hq, hsub, hheld⟩ := hx sub rfl
        refine (hheld.graftTree hsub (by omega) _ target).bind fun _ y hy => ?_
        exact .pure fun _ => ⟨q, by omega, hy⟩
  · exact .pure (absurd rfl)

end Mount

/-- The heap is as it was: the same blocks are allocated, and every node, the graft node
included, has the fields it had. -/
structure Restored (s t : State) : Prop where
  live : ∀ p, (t.heap.block p).isSome = (s.heap.block p).isSome
  nodes : ∀ p n, s.heap.block p = some (.node n) → t.heap.block p = some (.node n)

/-- After a mount and an unmount some address holds a block that held none before. -/
theorem ext2Umount_leaves {s u : State} (hs : s.Bounded) {depth depth' : Nat}
    {devname mountpoint mountpoint' : CString} {writable : Bool}
    (hmount : ext2Mount depth devname mountpoint writable s = some (some m, t))
    (humount : ext2Umount depth' mountpoint' t = some (true, u)) :
    ∃ q, s.heap.block q = none ∧ (u.heap.block q).isSome := by
  obtain ⟨q, hq, hheld⟩ :=
    ext2Mount_leaves hs depth devname mountpoint writable _ t hmount (by simp)
  obtain ⟨slots, hblock⟩ := (hheld.ext2Umount depth' mountpoint' _ u humount).block
  exact ⟨q, s.heap.above q hq, by rw [hblock]; rfl⟩

/-- Whatever tree is mounted where: an unmount of the same directory right away does not
restore the heap. -/
theorem umount_never_restores (s t : State) (hs : s.Bounded) (depth : Nat)
    (devname mountpoint : CString) (writable : Bool) (m : Nat)
    (hmount : ext2Mount depth devname mountpoint writable s = some (some m, t)) :
    ¬ ∃ depth' u, ext2Umount depth' mountpoint t = some (true, u) ∧ Restored s u := by
  intro hex
  obtain ⟨depth', u, humount, hrestored⟩ := hex
  obtain ⟨q, hbefore, hafter⟩ := ext2Umount_leaves hs hmount humount
  rw [hrestored.live q, hbefore] at hafter
  cases hafter

/-! A root directory with one empty directory in it, and an empty ext2 file system. -/

def oneDirNode (name : CString) (parent : Option Nat) (children : Nat) : Node :=
  { blankNode name .directory 0 none with
    backend := .fat, parent := parent, children := some children }

def oneDirHeap : Heap :=
  .ofList [.node (oneDirNode [slash] none 1), .table (update (fun _ => none) 0 (some 2)),
    .node (oneDirNode [0x6D] (some 0) 3), emptyTable]

def oneDir : State :=
  { State.granting oneDirHeap with
    devices := [{ name := [0x73], probes := true, entries := fun _ => some [] }] }

theorem oneDir_bounded : oneDir.Bounded := by
  refine ⟨fun p b q hb hq => ?_, fun m hm => by cases hm⟩
  change oneDirHeap.block p = some b at hb
  show q < 4
  rcases p with _ | _ | _ | _ | p
  · cases hb
    rcases hq with hq | hq
    · cases hq
    · cases hq
      decide
  · cases hb
    obtain ⟨i, hi⟩ := hq
    rcases update_cases hi with ⟨-, hi⟩ | ⟨-, hi⟩
    · cases hi
      decide
    · cases hi
  · cases hb
    rcases hq with hq | hq
    · cases hq
    · cases hq
      decide
  · cases hb
    obtain ⟨i, hi⟩ := hq
    cases hi
  · cases hb

theorem oneDir_mounts : ∃ t, ext2Mount 1 [0x73] [0x6D] false oneDir = some (some 5, t) := by
  have hrun : (ext2Mount 1 [0x73] [0x6D] false oneDir).map Prod.fst = some (some 5) := by
    decide +kernel
  obtain ⟨⟨m, t⟩, hmount, hm⟩ := map_eq_some_iff.mp hrun
  cases hm
  exact ⟨t, hmount⟩

theorem umount_never_restores_oneDir :
    ∃ t, ext2Mount 1 [0x73] [0x6D] false oneDir = some (some 5, t) ∧
      ¬ ∃ depth' u, ext2Umount depth' [0x6D] t = some (true, u) ∧ Restored oneDir u := by
  obtain ⟨t, hmount⟩ := oneDir_mounts
  exact ⟨t, hmount, umount_never_restores oneDir t oneDir_bounded 1 _ _ false 5 hmount⟩

/-- Both calls succeed, and the table at address 8 stays. -/
theorem umount_leaves_table :
    ∃ t u, ext2Mount 1 [0x73] [0x6D] false oneDir = some (some 5, t) ∧
      ext2Umount 1 [0x6D] t = some (true, u) ∧ ¬ Restored oneDir u := by
  have hrun : ((ext2Mount 1 [0x73] [0x6D] false oneDir).bind fun r =>
      (ext2Umount 1 [0x6D] r.2).map fun r' => (r.1, r'.1, (r'.2.heap.block 8).isSome)) =
      some (some 5, true, true) := by
    decide +kernel
  obtain ⟨⟨m, t⟩, hmount, hrest⟩ := bind_eq_some_iff.mp hrun
  obtain ⟨⟨done, u⟩, humount, hblock⟩ := map_eq_some_iff.mp hrest
  obtain ⟨rfl, rfl, hlive⟩ : m = some 5 ∧ done = true ∧ (u.heap.block 8).isSome = true := by
    simpa only [Prod.mk.injEq] using hblock
  refine ⟨t, u, hmount, humount, fun hrestored => ?_⟩
  rw [hrestored.live 8] at hlive
  cases hlive

end Kil0yOS.Vfs
