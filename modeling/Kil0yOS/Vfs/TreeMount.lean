/-
Mounting keeps the tree.

The tree of the device is built beside the tree below the root directory, with a root node of
its own, and its entries are moved under the mount point one by one.
-/
import Kil0yOS.Vfs.TreeCreate

namespace Kil0yOS.Vfs

open Lib List Function

variable {M : Mount} {m : Nat} {slots : Nat → Option Nat}

/-- The parts of the state that the graft leaves alone. -/
structure Grafted (s t : State) : Prop where
  anchored : ∀ p, Anchored s p → Anchored t p
  grows : Grows s t
  root : t.root = s.root
  current : t.current = s.current
  mounts : t.mounts = s.mounts
  mount : ∀ p m, s.heap.block p = some (.mount m) → t.heap.block p = some (.mount m)

/-- Below the roots only the table of the directory `d` was changed, and it has entries more. -/
structure Extends (s : State) (E : Set Nat) (d : Nat) (t : State) : Prop extends
    grafted : Grafted s t where
  below : ∀ p, Rooted s E p → Rooted t E p
  block : ∀ p, Rooted s E p → t.heap.block p = s.heap.block p
  table : ∀ p q slots, Rooted s E p → p ≠ d → HasTable s p q slots → HasTable t p q slots

section Extends

variable {s t u : State} {E U : Set Nat} {d c e p q : Nat}

theorem Grafted.trans (h : Grafted s t) (h' : Grafted t u) : Grafted s u where
  anchored p hp := h'.anchored p (h.anchored p hp)
  grows := h.grows.trans h'.grows
  root := h'.root.trans h.root
  current := h'.current.trans h.current
  mounts := h'.mounts.trans h.mounts
  mount p m hm := h'.mount p m (h.mount p m hm)

theorem Kept.extends (h : Kept s E U t) (d : Nat) : Extends s E d t :=
  { h, h.quiet with table := fun p q slots hp _ ht => h.quiet.table p q slots hp ht }

/-- Changes of the table of a directory that was not there at first do not count. -/
theorem Extends.transOf (h : Extends s E d t) (h' : Extends t E c u)
    (hc : ∀ p, Rooted s E p → p = c → p = d) : Extends s E d u where
  __ := h.grafted.trans h'.grafted
  below p hp := h'.below p (h.below p hp)
  block p hp := (h'.block p (h.below p hp)).trans (h.block p hp)
  table p q slots hp hd ht :=
    h'.table p q slots (h.below p hp) (fun heq => hd (hc p hp heq)) (h.table p q slots hp hd ht)

theorem Extends.trans (h : Extends s E d t) (h' : Extends t E d u) : Extends s E d u :=
  h.transOf h' fun _ _ => id

theorem anchored_iff : Rooted s ∅ p ↔ Anchored s p := by
  simp [Anchored, Rooted]

/-- What happened beside the tree below the root directory. -/
theorem Extends.beside (h : Extends s E d t) (hd : ¬ Anchored s d) (d' : Nat) :
    Extends s ∅ d' t where
  __ := h
  below p hp := anchored_iff.mpr (h.anchored p (anchored_iff.mp hp))
  block p hp := h.block p (anchored_iff.mp hp).below
  table p q slots hp _ ht := by
    have hp := anchored_iff.mp hp
    exact h.table p q slots hp.below (fun heq => hd (heq ▸ hp)) ht

theorem Inv.not_anchored (h : Inv s E U) (he : e ∈ E) : ¬ Anchored s e := by
  refine h.tree.isForest.disjoint (.inr he) (fun _ hr => .inl hr) (fun hmem => ?_) (below_root rfl)
  exact h.fresh (Set.mem_singleton_iff.mp hmem ▸ he)

/-! ## Building the tree of the device -/

/-- A new node is a root of its own, and a new directory is empty. -/
theorem Inv.ext2NewNode (h : Inv s E U) (m : MntPtr) (name : CString) (type : NodeType)
    (ino size : Nat) (parent : Option Nat) :
    After (ext2NewNode m name type ino size parent) s fun r t => Inv t E U ∧
      (∀ d, Extends s E d t) ∧ ∀ e, r = some e → Inv t (insert e E) U ∧ s.heap.next ≤ e ∧
        (∃ n, t.heap.block e = some (.node n) ∧ n.parent = parent) ∧
        (type = .directory → ∃ q, HasTable t e q fun _ => none) := by
  have hname : (name.take 255).length < 256 := by
    rw [length_take]
    omega
  refine (h.kmalloc (by simp)).option (fun _ ht => .pure ⟨ht.1.inv, ht.1.extends, by simp⟩)
    fun e t ht => ?_
  obtain ⟨hkept, -, hr⟩ := ht
  obtain ⟨heq, hn, hinv⟩ := hr e rfl
  have hold : ∀ p ∈ U, p ≠ e := by
    intro p hp hpe
    have := (h.unused p hp).1
    omega
  cases type with
  | file =>
    refine .pure ⟨hkept.inv, hkept.extends, fun e' he' => ?_⟩
    cases he'
    exact ⟨hinv.addRoot (.inl rfl) hn (nodeOk_of_memData hname (fun _ => rfl) rfl) (by simp)
      fun p hp => ⟨.inr hp, hold p hp, by simp⟩, heq.ge, ⟨_, hn, rfl⟩, by simp⟩
  | directory =>
    refine (hinv.kmalloc (by simp [emptyTable])).bind fun r u hu => ?_
    obtain ⟨hkept2, hsame, hr2⟩ := hu
    have hnu := (hsame e (lt_next_of_block hn)).trans hn
    cases r with
    | none =>
      have hfree := hkept2.inv.freeNode (hkept2.inv.idle_of_mem (.inl rfl)) hnu
      have hall := (hkept.trans hkept2).trans hfree
      refine .modify_bind (.pure
        ⟨hfree.inv.mono (fun _ hp => hp) (Set.subset_insert _ _), hall.extends, fun e' he' => ?_⟩)
      cases he'
    | some q =>
      obtain ⟨hq, htable, hinv2⟩ := hr2 q rfl
      have hqe : q ≠ e := by
        have := lt_next_of_block hn
        omega
      refine (hinv2.fillUnused (hinv2.idle_of_mem (.inr (.inl rfl))) hnu _).bind fun _ v hv => ?_
      obtain ⟨hset, hput⟩ := hv
      have htable' := (hput.other hqe).trans htable
      have hall := (hkept.trans { hkept2 with inv := hinv2 }).trans hset
      refine .pure ⟨hset.inv.mono (fun _ hp => hp) fun p hp => .inr (.inr hp), hall.extends,
        fun e' he' => ?_⟩
      cases he'
      refine ⟨hset.inv.addRoot (.inr (.inl rfl)) hput.same
        (nodeOk_of_memData hname (by simp) rfl) (fun q' hq' => ?_)
        fun p hp => ⟨.inr (.inr hp), hold p hp, fun hpq => ?_⟩, heq.ge, ⟨_, hput.same, rfl⟩,
        fun _ => ⟨q, _, hput.same, rfl, htable'⟩⟩
      · cases hq'
        exact ⟨.inl rfl, htable'⟩
      cases hpq
      have := (h.unused q hp).1
      have := hkept.grows.next
      omega

theorem Inv.linkNew {i : Nat} {n : Node} (h : Inv s (insert e E) U) (he : e ∉ E)
    (hd : Rooted s E d) (ht : HasTable s d q slots) (hi : i < maxDirEntries)
    (hfree : slots i = none) (hn : s.heap.block e = some (.node n)) (hparent : n.parent = some d) :
    After (setSlot (some q) i (some e)) s fun _ t => Inv t E U ∧ Extends s E d t ∧ Child t d e ∧
      HasTable t d q (update slots i (some e)) ∧ ∀ x q' sl,
        Rooted s (insert e E) x → x ≠ d → HasTable s x q' sl → HasTable t x q' sl := by
  have hsub : insert s.root E ⊆ insert s.root (insert e E) :=
    Set.insert_subset_insert (Set.subset_insert _ _)
  refine (ht.setSlot i (some e)).mono fun _ t hput => ?_
  obtain ⟨hinv, hchild, hanchored, hbelow⟩ := h.link he hd ht hi hfree hn hparent hput
  have htables : ∀ x q' sl, Rooted s (insert e E) x → x ≠ d →
      HasTable s x q' sl → HasTable t x q' sl := fun x q' sl hx hxd hsl =>
    (h.tree.hasTable_put ht hput (hd.mono hsub) x q' sl hx).mpr (.inr ⟨hxd, hsl⟩)
  have hgraft : Grafted s t := ⟨hanchored, ht.puts_grows hput, hput.root, hput.current,
    hput.mounts, fun x M hM => ht.put_block hput hM (by simp)⟩
  refine ⟨hinv, ⟨hgraft, by simpa only [Rooted, hput.root] using hbelow, fun x hx => ?_,
    fun x q' sl hx hxd hsl => htables x q' sl (hx.mono hsub) hxd hsl⟩, hchild, ?_, htables⟩
  · obtain ⟨k, hk, -⟩ := h.tree.node x (hx.mono hsub)
    rw [ht.put_block hput hk (by simp), hk]
  · exact (h.tree.hasTable_put ht hput (hd.mono hsub) d q _ (hd.mono hsub)).mpr
      (.inl ⟨rfl, rfl, rfl⟩)

/-- The loop over the entries of a directory, if `load` keeps the invariant. -/
theorem Inv.loadEntries (m : MntPtr) (load : Nat → V Unit)
    (hload : ∀ c q s, Inv s E U → Rooted s E c →
      HasTable s c q (fun _ => none) → After (load c) s fun _ t => Inv t E U ∧ Extends s E c t)
    (es : List DiskEntry) : ∀ idx s slots, Inv s E U → Rooted s E d →
      HasTable s d q slots → (∀ j, idx ≤ j → slots j = none) →
      After (loadEntries m load d idx es) s fun _ t => Inv t E U ∧ Extends s E d t := by
  induction es with
  | nil => exact fun idx s slots h _ _ _ => .pure ⟨h, (Kept.refl h).extends d⟩
  | cons e es ih =>
    intro idx s slots h hd ht hfree
    refine .ite (fun _ => .pure ⟨h, (Kept.refl h).extends d⟩) fun hidx => ?_
    refine (h.ext2NewNode m e.name e.type e.ino e.size (some d)).bind fun r t hr => ?_
    obtain ⟨hinv, hext, hnew⟩ := hr
    have hself : HasTable t d q slots := (hext (d + 1)).table d q slots hd (by omega) ht
    have hdt := (hext d).below d hd
    cases r with
    | none =>
      refine (ih idx t slots hinv hdt hself hfree).mono fun _ v hv => ?_
      exact ⟨hv.1, (hext d).trans hv.2⟩
    | some c =>
      obtain ⟨hroot, hge, ⟨n, hn, hparent⟩, hdir⟩ := hnew c rfl
      have hold : ¬ Rooted s E c := by
        intro hc
        have := h.tree.lt_next (.inl hc)
        omega
      have hcE : c ∉ E := fun hmem => hold (below_root (.inr hmem))
      have hcd : c ≠ d := fun heq => hold (heq ▸ hd)
      obtain ⟨nd, hnd, hndq, -⟩ := id hself
      refine .run (nodeAt_of_node hnd) ?_
      rw [hndq]
      refine (hroot.linkNew hcE hdt hself (by omega) (hfree idx (Nat.le_refl _)) hn hparent).bind
        fun _ v hv => ?_
      obtain ⟨hinv2, hext2, hchild, hself2, htables⟩ := hv
      have hsv := (hext d).trans hext2
      have hdv := hsv.below d hd
      have hfree2 : ∀ j, idx + 1 ≤ j → update slots idx (some c) j = none := by
        intro j hj
        rw [update_of_ne (by omega)]
        exact hfree j (by omega)
      refine .ite (fun htype => ?_) fun _ => ?_
      · obtain ⟨q', hq'⟩ := hdir htype
        have hctable := htables c q' _ (below_root (.inr (.inl rfl))) hcd hq'
        refine (hload c q' v hinv2 (hdv.tail hchild) hctable).bind fun _ w hw => ?_
        obtain ⟨hinv3, hext3⟩ := hw
        have hself3 := hext3.table d q _ hdv (Ne.symm hcd) hself2
        refine (ih (idx + 1) w _ hinv3 (hext3.below d hdv) hself3 hfree2).mono fun _ x hx => ?_
        exact ⟨hx.1, (hsv.transOf hext3 fun _ hp heq => absurd (heq ▸ hp) hold).trans hx.2⟩
      · refine (ih (idx + 1) v _ hinv2 hdv hself2 hfree2).mono fun _ x hx => ?_
        exact ⟨hx.1, hsv.trans hx.2⟩

theorem Inv.ext2LoadDirRecursive (m : MntPtr) (dev : Device) (depth : Nat) :
    ∀ d q s, Inv s E U → Rooted s E d → HasTable s d q (fun _ => none) →
      After (ext2LoadDirRecursive m dev depth d) s fun _ t => Inv t E U ∧ Extends s E d t := by
  induction depth with
  | zero => exact fun d q s h _ _ => after_none rfl
  | succ depth ih =>
    intro d q s h hd ht
    refine (after_nodeAt d).reads fun n hn => ?_
    split
    · exact .pure ⟨h, (Kept.refl h).extends d⟩
    next entries _ =>
      refine (h.kmalloc (by simp)).bind fun b t hb => ?_
      obtain ⟨hkb, -, hb⟩ := hb
      refine (hkb.inv.kmalloc (by simp)).bind fun i v hi => ?_
      obtain ⟨hki, -, hi⟩ := hi
      have hk := hkb.trans hki
      have hpb : ∀ x, b = some x → Plain v x := fun x hx =>
        hki.grows.plain x (plain_of_data (hb x hx).2.1)
      have hpi : ∀ x, i = some x → Plain v x := fun x hx => plain_of_data (hi x hx).2.1
      split
      next x y =>
        have hkd := (hk.extends d).below d hd
        refine (Inv.loadEntries m _ ih entries 0 v _ hki.inv hkd
          (hk.quiet.table d q _ hd ht) fun _ _ => rfl).bind fun _ w hw => ?_
        obtain ⟨hinv, hext⟩ := hw
        have hfree := hinv.freePlain (hext.grows.plain x (hpb x rfl))
        have hfree2 := hfree.inv.freePlain (hfree.grows.plain y (hext.grows.plain y (hpi y rfl)))
        refine .modify_bind (.modify ⟨hfree2.inv, ?_⟩)
        exact ((hk.extends d).trans hext).trans ((hfree.trans hfree2).extends d)
      · refine (hki.inv.kfreeIf hpb).bind fun _ w hw => ?_
        refine (hw.inv.kfreeIf fun x hx => hw.grows.plain x (hpi x hx)).mono fun _ x hx => ?_
        exact ⟨hx.inv, ((hk.trans hw).trans hx).extends d⟩

/-- The tree of the device stands beside the tree below the root directory. -/
theorem Inv.ext2BuildTreeM (h : Inv s ∅ U) (m : MntPtr) (dev : Device) (depth : Nat) :
    After (ext2BuildTreeM m dev depth) s fun r t => Inv t ∅ U ∧ (∀ d, Extends s ∅ d t) ∧
      ∀ sub, r = some sub → Inv t (insert sub ∅) U ∧ ∃ q slots, HasTable t sub q slots := by
  refine (h.ext2NewNode m [slash] .directory ext2RootIno 0 none).option
    (fun _ ht => .pure ⟨ht.1, ht.2.1, nofun⟩) fun sub t ht => ?_
  obtain ⟨hinv, hext, hnew⟩ := ht
  obtain ⟨hroot, hge, -, hdir⟩ := hnew sub rfl
  obtain ⟨q, hq⟩ := hdir rfl
  have hsub : Rooted t (insert sub ∅) sub :=
    below_root (.inr (.inl rfl))
  refine (Inv.ext2LoadDirRecursive m dev depth sub q t hroot hsub hq).bind fun _ u hu => ?_
  obtain ⟨hload, hextu⟩ := hu
  have hbeside := hextu.beside (hroot.not_anchored (.inl rfl))
  refine .pure ⟨hload.mono (Set.empty_subset _) fun _ hp => hp,
    fun d => (hext d).trans (hbeside d), fun sub' hsub' => ?_⟩
  cases hsub'
  obtain ⟨n, hn, hnq, -⟩ := hq
  have hnu := (hextu.block sub hsub).trans hn
  obtain ⟨slots, hslots, -⟩ := hload.tree.table sub n q (below_root (.inr (.inl rfl))) hnu hnq
  exact ⟨hload, q, slots, n, hnu, hnq, hslots⟩

/-! ## The graft -/

/-- A table of an extra root is changed, and the tree below the root directory is not. -/
theorem Inv.anchored_put {slots' : Nat → Option Nat} (h : Inv s E U) (he : e ∈ E)
    (ht : HasTable s e q slots) (hput : Puts s q (some (.table slots')) t) :
    ∀ p, Anchored s p → Anchored t p := by
  intro p hp
  have heR : Rooted s E e := below_root (.inr he)
  refine hp.induct (fun r hr => ?_) fun x y hx hx' hxy => ?_
  · rw [Anchored, hput.root]
    exact below_root hr
  have hxe : x ≠ e := fun heq => h.not_anchored he (heq ▸ hx)
  have hxy' := (h.tree.child_put ht hput heR x y (hx.mono fun _ hr => .inl hr)).mpr
    (.inr ⟨hxe, hxy⟩)
  exact .tail hx' hxy'

variable {sub target qs qt idx i : Nat}

theorem Inv.cutEntry (h : Inv s (insert sub ∅) U) (hanch : Anchored s target)
    (hs : HasTable s sub qs slots) (hc : slots i = some c) :
    After (setSlot (some qs) i none) s fun _ t => Inv t (insert c (insert sub ∅)) U ∧
      c ≠ sub ∧ c ≠ target ∧ Grafted s t ∧ (∃ sl, HasTable t sub qs sl) ∧
      ∀ q sl, HasTable s target q sl → HasTable t target q sl := by
  have hsub : Rooted s (insert sub ∅) sub := below_root (.inr (.inl rfl))
  have hts : target ≠ sub := fun heq => h.not_anchored (.inl rfl) (heq ▸ hanch)
  refine (hs.setSlot i none).mono fun _ t hput => ?_
  have hstays := h.anchored_put (.inl rfl) hs hput
  obtain ⟨hinv, hcR⟩ := h.unlink hsub hs hc hput fun p _ hp => hstays p hp
  have htable := h.tree.hasTable_put hs hput hsub
  refine ⟨hinv, fun heq => hcR (.inr (.inl heq)), fun heq => ?_, ⟨hstays, hs.puts_grows hput,
    hput.root, hput.current, hput.mounts, fun p M hM => hs.put_block hput hM (by simp)⟩,
    ⟨_, (htable sub qs _ hsub).mpr (.inl ⟨rfl, rfl, rfl⟩)⟩, fun q sl hsl => ?_⟩
  · exact hinv.not_anchored (.inl rfl) (heq ▸ hstays target hanch)
  · exact (htable target q sl hanch.below).mpr (.inr ⟨hts, hsl⟩)

theorem Inv.setParent (h : Inv s E U) (hc : c ∈ E) (parent : Option Nat) :
    After (do
      let n ← nodeAt c
      Vfs.setNode c { n with parent := parent }) s fun _ t => Inv t E U ∧ Grafted s t ∧
        (∃ n, t.heap.block c = some (.node n) ∧ n.parent = parent) ∧
        ∀ p q sl, p ≠ c → HasTable s p q sl → HasTable t p q sl := by
  refine (after_nodeAt c).reads fun n hn => ?_
  have hok := h.tree.nodeOk (below_root (.inr hc)) hn
  refine (h.setNode hn { n with parent := parent } { hok with } rfl
    fun hmem => absurd hc hmem).mono fun _ t ht => ?_
  obtain ⟨hinv, hsame, hput, hg⟩ := ht
  refine ⟨hinv, ⟨fun p hp => (hsame.anchored p).mpr hp, hg, hput.root, hput.current, hput.mounts,
    fun p M hM => hput.keeps hn hM (by simp)⟩, ⟨_, hput.same, rfl⟩, ?_⟩
  rintro p q sl hpc ⟨k, hk, hkq, hsl⟩
  exact ⟨k, (hput.other hpc).trans hk, hkq, hput.keeps hn hsl (by simp)⟩

/-- The loop that moves the entries, with `is.length` slots left to look at. -/
theorem Inv.graftChildren (is : List Nat) : ∀ idx s ss ts, Inv s (insert sub ∅) U →
    Anchored s target → HasTable s sub qs ss → HasTable s target qt ts →
    (∀ j, idx ≤ j → ts j = none) → idx + is.length ≤ maxDirEntries →
    After (graftChildren sub target idx is) s fun _ t => Inv t (insert sub ∅) U ∧ Grafted s t ∧
      (∃ sl, HasTable t target qt sl) := by
  induction is with
  | nil =>
    intro idx s ss ts h hanch hs ht hfree hlen
    exact .pure ⟨h, ((Kept.refl h).extends 0).grafted, ts, ht⟩
  | cons i is ih =>
    intro idx s ss ts h hanch hs ht hfree hlen
    rw [length_cons] at hlen
    obtain ⟨ns, hns, hnsq, hss⟩ := id hs
    refine .run (nodeAt_of_node hns) ?_
    rw [hnsq]
    refine .run (slotsAt_of_table hss) ?_
    cases hc : ss i with
    | none => exact ih idx _ ss ts h hanch hs ht hfree (by omega)
    | some c =>
      refine (h.cutEntry hanch hs hc).bind fun _ v hv => ?_
      obtain ⟨hinv, hcs, hct, hgraft, ⟨ss1, hs1⟩, htar⟩ := hv
      have ht1 := htar qt ts ht
      refine (after_bind.mp (hinv.setParent (.inl rfl) (some target))).bind fun _ w hw => ?_
      refine hw.bind fun _ x hx => ?_
      obtain ⟨hinv2, hgraft2, ⟨nc, hnc, hparent⟩, htables⟩ := hx
      have hs2 := htables sub qs ss1 (Ne.symm hcs) hs1
      have ht2 := htables target qt ts (Ne.symm hct) ht1
      have hanch2 := hgraft2.anchored target (hgraft.anchored target hanch)
      have hst : sub ≠ target := fun heq => h.not_anchored (.inl rfl) (heq ▸ hanch)
      obtain ⟨nt, hnt, hntq, -⟩ := id ht2
      refine .run (nodeAt_of_node hnt) ?_
      rw [hntq]
      refine (hinv2.linkNew (fun hmem => hmem.elim hcs fun hf => hf.elim) hanch2.below ht2 (by omega)
        (hfree idx (Nat.le_refl _)) hnc hparent).bind fun _ z hz => ?_
      obtain ⟨hinv3, hext, -, ht3, htables3⟩ := hz
      have hs3 := htables3 sub qs ss1 (below_root (.inr (.inr (.inl rfl)))) hst hs2
      have hall := (hgraft.trans hgraft2).trans hext.grafted
      refine (ih (idx + 1) z ss1 _ hinv3 (hext.anchored target hanch2) hs3 ht3 (fun j hj => ?_)
        (by omega)).mono fun _ a ha => ⟨ha.1, hall.trans ha.2.1, ha.2.2⟩
      rw [update_of_ne (by omega)]
      exact hfree j (by omega)

theorem Inv.freeRoot (h : Inv s (insert e ∅) U) : Inv { s with heap := s.heap.free e } ∅ U ∧
    Grafted s { s with heap := s.heap.free e } ∧
    ∀ p q sl, Anchored s p → HasTable s p q sl →
      HasTable { s with heap := s.heap.free e } p q sl := by
  obtain ⟨n, hn, -⟩ := h.tree.node e (below_root (.inr (.inl rfl)))
  have h0 : Inv s ∅ U := h.mono (Set.empty_subset _) fun _ hp => hp
  have hidle : Idle s ∅ e := by
    refine ⟨fun hneed => ?_, fun hm => ?_⟩
    · rcases hneed with hb | ⟨p, k, hp, hk, hkq⟩
      · exact h.not_anchored (.inl rfl) (anchored_iff.mp hb)
      · obtain ⟨sl, hsl, -⟩ := h0.tree.table p k e hp hk hkq
        rw [hn] at hsl
        cases hsl
    · obtain ⟨M, -, hM, -⟩ := h.mounts e hm
      rw [hn] at hM
      cases hM
  have hkept := h0.freeNode hidle hn
  exact ⟨hkept.inv, (hkept.extends 0).grafted, fun p q sl hp hsl =>
    hkept.quiet.table p q sl hp.below hsl⟩

theorem Inv.addMount (h : Inv s ∅ U) (hm : m ∈ U) (hM : s.heap.block m = some (.mount M))
    (M' : Mount) (htarget : M'.target = some target) (hanch : Anchored s target)
    (hw : M'.writable = M.writable) :
    Moved s { s with heap := s.heap.store m (.mount M'), mounts := s.mounts ++ [m] } := by
  have hput := puts_store (lt_next_of_block hM) (.mount M')
  have hg : Grows s { s with heap := s.heap.store m (.mount M') } := by
    refine hput.grows (fun hplain => ?_) fun hwr M'' hM'' => ?_
    · obtain ⟨d, hd⟩ := hplain.2 _ hM
      cases hd
    · cases hM''
      rw [hw]
      exact hwr.2 M hM
  obtain ⟨hinv, hquiet, -⟩ := h.put hput (h.idle_of_mem hm) hg nofun
  have hnot : m ∉ s.mounts := (h.unused m hm).2.2
  refine ⟨hinv.withMounts (fun m' hm' => ?_) ?_, hquiet.anchored⟩
  · rcases mem_append.mp hm' with hmem | hmem
    · exact hinv.mounts m' hmem
    · rw [mem_singleton.mp hmem]
      exact ⟨M', target, hput.same, htarget, hquiet.anchored target hanch⟩
  · exact nodup_append.mpr ⟨h.nodup, pairwise_singleton _ _, fun a ha b hb =>
      fun heq => hnot (mem_singleton.mp hb ▸ heq ▸ ha)⟩

theorem Inv.graftTree {ss ts : Nat → Option Nat} (h : Inv s (insert sub ∅) U)
    (hanch : Anchored s target) (hs : HasTable s sub qs ss) (ht : HasTable s target qt ts)
    (hfree : ∀ j, ts j = none) (hm : m ∈ U) (hM : s.heap.block m = some (.mount M)) :
    After (graftTree m M sub target) s fun _ t => Moved s t := by
  refine (Inv.graftChildren (range maxDirEntries) 0 s ss ts h hanch hs ht
    (fun j _ => hfree j) (by simp)).bind fun _ t hgraft => ?_
  obtain ⟨hinv, hgraft, sl, hsl⟩ := hgraft
  obtain ⟨hinv1, hgraft1, htables⟩ := hinv.freeRoot
  have hanch1 := hgraft.anchored target hanch
  refine .modify_bind ?_
  have hsl1 := htables target qt sl hanch1 hsl
  have hM1 := hgraft1.mount m M (hgraft.mount m M hM)
  have hall := hgraft.trans hgraft1
  generalize ({ t with heap := t.heap.free sub } : State) = u at hinv1 hgraft1 hsl1 hM1 hall
  have hanch2 := hgraft1.anchored target hanch1
  obtain ⟨n, hn, hnq, -⟩ := hsl1
  refine .run (nodeAt_of_node hn) ?_
  refine (hinv1.setNode hn
    { n with mnt := some (.inst m), backend := .ext2, inodeNo := ext2RootIno }
    ((hinv1.tree.nodeOk hanch2.below hn).of_table hnq rfl rfl) rfl fun _ => rfl).bind
    fun _ w hw => ?_
  obtain ⟨hinv2, hsame, hput, -⟩ := hw
  have hmove := hinv2.addMount hm (hput.keeps hn hM1 (by simp))
    { M with target := some target, prevBackend := n.backend } rfl
    ((hsame.anchored target).mpr hanch2) rfl
  refine .modify ⟨hmove.inv, fun p hp => ?_⟩
  exact hmove.stays p ((hsame.anchored p).mpr (hall.anchored p hp))

theorem Inv.dropUnusedMount (h : Inv s ∅ U) (hm : m ∈ U) {α : Type} (a : α) :
    After (do kfree m; pure a) s fun _ t => Moved s t := by
  have hput := puts_free s m
  obtain ⟨hinv, hquiet, -⟩ := h.put hput (h.idle_of_mem hm) hput.grows_free nofun
  refine .modify_bind (.pure ⟨?_, hquiet.anchored⟩)
  exact hinv.mono (fun _ hp => hp) (Set.empty_subset _)

theorem Inv.ext2Mount (h : Inv s ∅ ∅) (depth : Nat) (devname mountpoint : CString)
    (writable : Bool) :
    After (ext2Mount depth devname mountpoint writable) s fun _ t => Moved s t := by
  have hrefl : Moved s s := (Kept.refl h).fine.moved
  refine .ite (fun _ => .pure hrefl) fun _ => ?_
  split
  · refine (reads_findMount _ _).after fun r => ?_
    cases r with
    | some _ => exact .pure hrefl
    | none =>
      refine (h.fsResolvePath mountpoint).option (fun _ ht => .pure ht.1.fine.moved)
        fun target t ht => ?_
      obtain ⟨hkept, hr⟩ := ht
      have hmoved := hkept.fine.moved
      have hanch := hr target rfl
      refine (after_nodeAt target).reads fun n hn => ?_
      refine .ite (fun _ => .pure hmoved) fun _ => ?_
      refine slotsAt_bind fun qt ts hqt hts => ?_
      refine .ite (fun _ => .pure hmoved) fun hempty => ?_
      have htab : HasTable t target qt ts := ⟨n, hn, hqt, hts⟩
      have hfree : ∀ j, ts j = none := by
        intro j
        by_cases hj : maxDirEntries ≤ j
        · exact (hkept.inv.tree.tableOk hanch.below htab).bound j hj
        · have hnone : ¬ (ts j).isSome = true := fun hsome => hempty
            (any_eq_true.mpr ⟨j, mem_range.mpr (by omega), hsome⟩)
          exact Option.not_isSome_iff_eq_none.mp hnone
      refine (hkept.inv.kmalloc (by simp)).option
        (fun _ hv => .pure (hmoved.trans hv.1.fine.moved)) fun m v hv => ?_
      obtain ⟨hkept1, -, hr1⟩ := hv
      have hmoved1 := hmoved.trans hkept1.fine.moved
      obtain ⟨-, hM, hinv1⟩ := hr1 m rfl
      refine (hinv1.kmalloc (by simp)).bind fun gb w hw => ?_
      obtain ⟨hkept2, -, hr2⟩ := hw
      refine (hkept2.inv.kfreeIf fun q hq => plain_of_data (hr2 q hq).2.1).bind fun _ x hx => ?_
      have hkept3 := hkept2.trans hx
      have hM3 := hkept3.mount m _ hM
      have hmem : m ∈ (insert m ∅ : Set Nat) := .inl rfl
      have hmoved3 := hmoved1.trans hkept3.fine.moved
      refine .ite (fun _ => ?_) fun _ => ?_
      · exact (hx.inv.dropUnusedMount hmem _).mono fun _ y hy => hmoved3.trans hy
      refine (hx.inv.ext2BuildTreeM _ _ depth).bind fun r y hy => ?_
      obtain ⟨hinv4, hext, hbuilt⟩ := hy
      have hstays : ∀ p, Anchored s p → Anchored y p := fun p hp =>
        (hext 0).anchored p (hmoved3.stays p hp)
      cases r with
      | none =>
        refine (hinv4.dropUnusedMount hmem _).mono fun _ z hz => ⟨hz.inv, fun p hp => ?_⟩
        exact hz.stays p (hstays p hp)
      | some sub =>
        obtain ⟨hinv5, qs, ss, hs⟩ := hbuilt sub rfl
        have hanch3 := hkept3.anchored (hkept1.anchored hanch)
        have htab3 := hkept3.quiet.table target qt ts (hkept1.anchored hanch).below
          (hkept1.quiet.table target qt ts hanch.below htab)
        have htab4 := (hext (target + 1)).table target qt ts hanch3.below (by omega) htab3
        refine (hinv5.graftTree ((hext 0).anchored target hanch3) hs htab4 hfree hmem
          ((hext 0).mount m _ hM3)).bind fun _ z hz => ?_
        exact .pure ⟨hz.inv, fun p hp => hz.stays p (hstays p hp)⟩
  · exact .pure hrefl

end Extends

end Kil0yOS.Vfs
