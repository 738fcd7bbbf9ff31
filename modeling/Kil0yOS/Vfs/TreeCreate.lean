/-
Looking up, creating and writing files keeps the tree.
-/
import Kil0yOS.Vfs.TreeInv

namespace Kil0yOS.Vfs

open Lib Option

variable {d : List UInt8} {n n' : Node}

/-- The invariant holds and the tree is as it was. -/
structure Kept (s : State) (E U : Set Nat) (t : State) : Prop where
  inv : Inv t E U
  quiet : Quiet s E t
  idle : ∀ p, Idle s E p → Idle t E p
  grows : Grows s t
  root : t.root = s.root
  current : t.current = s.current
  mounts : t.mounts = s.mounts
  files : ∀ p f, s.heap.block p = some (.lnxFile f) → t.heap.block p = some (.lnxFile f)
  mount : ∀ p m, s.heap.block p = some (.mount m) → t.heap.block p = some (.mount m)

section Kept

variable {s t u : State} {E U : Set Nat} {p : Nat}

theorem Kept.refl (h : Inv s E U) : Kept s E U s :=
  ⟨h, .refl s E, fun _ hp => hp, .refl s, rfl, rfl, rfl, fun _ _ hf => hf, fun _ _ hm => hm⟩

theorem Kept.trans {U' : Set Nat} (h : Kept s E U t) (h' : Kept t E U' u) : Kept s E U' u where
  inv := h'.inv
  quiet := h.quiet.trans h'.quiet
  idle p hp := h'.idle p (h.idle p hp)
  grows := h.grows.trans h'.grows
  root := h'.root.trans h.root
  current := h'.current.trans h.current
  mounts := h'.mounts.trans h.mounts
  files p f hf := h'.files p f (h.files p f hf)
  mount p m hm := h'.mount p m (h.mount p m hm)

theorem Kept.anchored (h : Kept s E U t) (hp : Anchored s p) : Anchored t p :=
  h.quiet.anchored p hp

theorem Kept.node (h : Kept s E U t) (hp : Anchored s p)
    (hn : s.heap.block p = some (.node n)) : t.heap.block p = some (.node n) :=
  (h.quiet.block p hp.below).trans hn

def Block.Loose : Block → Prop
  | .lnxFile _ => False
  | .mount _ => False
  | _ => True

section

variable (h : Inv s E U)
include h

/-- A change of a block that is in no use and is no open file and no mount. -/
theorem Inv.kept {b : Option Block} (hput : Puts s p b t) (hidle : Idle s E p)
    (hg : Grows s t) (hold : ∀ c, s.heap.block p = some c → c.Loose)
    (hnew : ∀ f, b ≠ some (.lnxFile f)) : Kept s E U t := by
  obtain ⟨hinv, hquiet, hstill⟩ := h.put hput hidle hg fun f hf => absurd hf (hnew f)
  have hsame : ∀ q c, s.heap.block q = some c → ¬ c.Loose → t.heap.block q = some c := by
    intro q c hc hloose
    exact (hput.other fun heq => hloose (hold c (heq ▸ hc))).trans hc
  exact ⟨hinv, hquiet, hstill, hg, hput.root, hput.current, hput.mounts,
    fun q f hf => hsame q _ hf (fun h => h), fun q m hm => hsame q _ hm (fun h => h)⟩

theorem Inv.same (hblock : t.heap.block = s.heap.block)
    (hnext : t.heap.next = s.heap.next) (hroot : t.root = s.root)
    (hcurrent : t.current = s.current) (hmounts : t.mounts = s.mounts) : Kept s E U t := by
  have hnone := s.heap.above s.heap.next (Nat.le_refl _)
  have hput : Puts s s.heap.next none t := by
    refine ⟨?_, hnext.ge, hroot, hcurrent, hmounts⟩
    simp [hblock, ← hnone]
  refine h.kept hput (h.idle_fresh (Nat.le_refl _)) hput.grows_free (fun c hc => ?_) nofun
  rw [hnone] at hc
  cases hc

theorem Inv.kmalloc {b : Block} (hb : ∀ f, b ≠ .lnxFile f) :
    After (kmalloc b) s fun r t => Kept s E U t ∧
      (∀ q, q < s.heap.next → t.heap.block q = s.heap.block q) ∧ ∀ p, r = some p →
        p = s.heap.next ∧ t.heap.block p = some b ∧ Inv t E (insert p U) := by
  refine (after_kmalloc b).mono fun r t ht => ?_
  have hidle := h.idle_fresh (Nat.le_refl s.heap.next)
  have hnone := s.heap.above s.heap.next (Nat.le_refl _)
  rcases ht with ⟨rfl, hput⟩ | ⟨rfl, hput, hlt⟩
  · exact ⟨h.kept hput hidle hput.grows_free (by simp [hnone]) (by simp),
      fun q hq => hput.other (by omega), nofun⟩
  have hkept := h.kept hput hidle (hput.grows_fresh (Nat.le_refl _)) (by simp [hnone])
    fun f hf => hb f (some.inj hf)
  refine ⟨hkept, fun q hq => hput.other (by omega), fun p hp => ?_⟩
  cases hp
  exact ⟨rfl, hput.same, hkept.inv.addUnused hlt (hkept.idle _ hidle)⟩

theorem Inv.freeIdle (hidle : Idle s E p) (hold : ∀ c, s.heap.block p = some c → c.Loose) :
    Kept s E U { s with heap := s.heap.free p } :=
  h.kept (puts_free s p) hidle (puts_free s p).grows_free hold nofun

theorem Inv.freeNode (hidle : Idle s E p) (hn : s.heap.block p = some (.node n)) :
    Kept s E U { s with heap := s.heap.free p } :=
  h.freeIdle hidle (by simp [hn, Block.Loose])

theorem Inv.freePlain (hp : Plain s p) : Kept s E U { s with heap := s.heap.free p } := by
  refine h.freeIdle (h.idle_of_plain hp) fun c hc => ?_
  obtain ⟨d, rfl⟩ := hp.2 c hc
  trivial

theorem Inv.kfreeIf {o : Option Nat} (ho : ∀ q, o = some q → Plain s q) :
    After (kfreeIf o) s fun _ t => Kept s E U t := by
  cases o with
  | none => exact .pure (.refl h)
  | some q => exact .modify (h.freePlain (ho q rfl))

end

theorem plain_of_data (hd : s.heap.block p = some (.data d)) : Plain s p := by
  refine ⟨lt_next_of_block hd, fun b hb => ?_⟩
  rw [hd] at hb
  cases hb
  exact ⟨d, rfl⟩

section

variable (h : Inv s E U)
include h

theorem Inv.storeData (d' : List UInt8) (hd : s.heap.block p = some (.data d)) :
    Kept s E U { s with heap := s.heap.store p (.data d') } := by
  have hput := puts_store (lt_next_of_block hd) (.data d')
  refine h.kept hput (h.idle_of_plain (plain_of_data hd)) (hput.grows (fun _ c hc => ?_) (by simp))
    (by simp [hd, Block.Loose]) (by simp)
  cases hc
  exact ⟨d', rfl⟩

theorem Inv.fillUnused (hidle : Idle s E p) (hn : s.heap.block p = some (.node n))
    (n' : Node) :
    After (Vfs.setNode p n') s fun _ t => Kept s E U t ∧ Puts s p (some (.node n')) t := by
  have hput := puts_store (lt_next_of_block hn) (.node n')
  exact .modify ⟨h.kept hput hidle (hput.grows_over hn (by simp) (by simp))
    (by simp [hn, Block.Loose]) (by simp), hput⟩

theorem Inv.diskOp : After diskOp s fun _ t => Kept s E U t ∧ t.heap = s.heap := by
  intro r t hrun
  cases hrun
  exact ⟨h.same rfl rfl rfl rfl rfl, rfl⟩

theorem Inv.diskCreate :
    After diskCreate s fun _ t => Kept s E U t ∧ t.heap = s.heap := by
  refine h.diskOp.bind fun ok t ht => ?_
  refine .ite (fun _ => .pure ht) fun _ => ?_
  intro r u hrun
  cases hrun
  exact ⟨ht.1.trans (ht.1.inv.same rfl rfl rfl rfl rfl), ht.2⟩

end

end Kept

/-! ## Paths -/

section Paths

variable {s : State} {E U : Set Nat}

/-- The parent of a directory is in the tree; the root directory has none. -/
theorem Inv.parent_anchored {p : Nat} (h : Inv s E U) (hp : Anchored s p)
    (hn : s.heap.block p = some (.node n)) : Anchored s (n.parent.getD p) := by
  rcases Below.cases hp with hroot | ⟨d, hd, hc⟩
  · rw [Set.mem_singleton_iff.mp hroot] at hn hp ⊢
    rw [h.rootParent n hn]
    exact hp
  · rw [h.tree.parent d p n (Anchored.below hd) hc hn]
    exact hd

theorem Inv.resolveTokens (h : Inv s E U) (toks : List CString) : ∀ cur, Anchored s cur →
    After (resolveTokens cur toks) s fun r t => t = s ∧ ∀ p, r = some p → Anchored s p := by
  induction toks with
  | nil =>
    intro cur hcur
    refine .pure ⟨rfl, fun p hp => ?_⟩
    cases hp
    exact hcur
  | cons tok rest ih =>
    intro cur hcur
    refine .ite (fun _ => ih cur hcur) fun _ => ?_
    refine (after_nodeAt cur).reads fun n hn => ?_
    refine .ite (fun _ => ih _ (h.parent_anchored hcur hn)) fun _ => ?_
    refine slotsAt_bind fun q slots hq hslots => ?_
    refine (after_findChild slots tok _).reads fun r hfound => ?_
    cases r with
    | none => exact .pure ⟨rfl, by simp⟩
    | some ic =>
      obtain ⟨-, hslot, -⟩ := hfound ic.1 ic.2 rfl
      exact ih ic.2 (hcur.tail ⟨q, slots, ic.1, ⟨n, hn, hq, hslots⟩, hslot⟩)

theorem Inv.fsResolvePath (h : Inv s E U) (path : CString) :
    After (fsResolvePath path) s fun r t => Kept s E U t ∧ ∀ p, r = some p → Anchored t p := by
  have hroot : Anchored s s.root := below_root rfl
  cases path with
  | nil =>
    refine .pure ⟨.refl h, fun p hp => ?_⟩
    cases hp
    exact h.current
  | cons c rest =>
    refine .ite (fun _ => .pure ⟨.refl h, fun p hp => ?_⟩) fun _ => ?_
    · cases hp
      exact hroot
    refine (h.kmalloc (by simp)).option (fun _ ht => .pure ⟨ht.1, nofun⟩) fun copy t ht => ?_
    obtain ⟨hkept, -, hr⟩ := ht
    obtain ⟨-, hcopy, -⟩ := hr copy rfl
    have hstart : Anchored t (if c = slash then s.root else s.current) := by
      split
      · exact hkept.anchored hroot
      · exact hkept.anchored h.current
    refine (hkept.inv.resolveTokens _ _ hstart).reads fun r hfound => ?_
    have hfree := hkept.inv.freePlain (plain_of_data hcopy)
    refine .modify_bind (.pure ⟨hkept.trans hfree, ?_⟩)
    exact fun p hp => hfree.anchored (hfound p hp)

theorem splitLast_length {name dirPath base : CString} (h : splitLast name = some (dirPath, base)) :
    base.length ≤ name.length := by
  rw [(splitLast_eq_some h).1, List.length_append, List.length_cons]
  omega

theorem Inv.resolveParentAndName (h : Inv s E U) (name : CString) :
    After (resolveParentAndName name) s fun r t => Kept s E U t ∧
      (∀ p, r.1 = some p → Anchored t p) ∧ r.2.length ≤ name.length := by
  have hcurrent : ∀ p, some s.current = some p → Anchored s p := by
    intro p hp
    cases hp
    exact h.current
  simp only [Vfs.resolveParentAndName]
  cases hsplit : splitLast name with
  | none => exact .pure ⟨.refl h, hcurrent, Nat.le_refl _⟩
  | some db =>
    have hlen := splitLast_length hsplit
    refine .ite (fun _ => ?_) fun _ => .ite (fun _ => ?_) fun _ => ?_
    · refine (h.fsResolvePath _).bind fun r t ht => ?_
      exact .pure ⟨ht.1, ht.2, hlen⟩
    · refine .pure ⟨.refl h, fun p hp => ?_, hlen⟩
      cases hp
      exact below_root rfl
    · exact .pure ⟨.refl h, hcurrent, Nat.le_refl _⟩

end Paths

/-! ## Creating -/

/-- The invariant holds after an operation, and what was in the tree still is. -/
structure Fine (s t : State) : Prop where
  inv : Inv t ∅ ∅
  stays : ∀ p, Anchored s p → Anchored t p
  root : t.root = s.root
  current : t.current = s.current

/-- The same after an operation that may change the current directory or the mounts. -/
structure Moved (s t : State) : Prop where
  inv : Inv t ∅ ∅
  stays : ∀ p, Anchored s p → Anchored t p

def Made (s : State) (r : Option Nat) (t : State) : Prop :=
  Fine s t ∧ ∀ p, r = some p → Anchored t p

/-- A directory in the tree with a free slot. -/
structure HasRoom (s : State) (dir : Nat) (d : Node) : Prop where
  anchored : Anchored s dir
  node : s.heap.block dir = some (.node d)
  room : ∃ q slots i, d.children = some q ∧ s.heap.block q = some (.table slots) ∧
    firstFree slots = some i

section Create

variable {s t u : State} {E U : Set Nat} {e dir : Nat} {d n : Node}

theorem Fine.trans (h : Fine s t) (h' : Fine t u) : Fine s u where
  inv := h'.inv
  stays p hp := h'.stays p (h.stays p hp)
  root := h'.root.trans h.root
  current := h'.current.trans h.current

theorem Fine.moved (h : Fine s t) : Moved s t := { h with }

theorem Moved.trans (h : Moved s t) (h' : Moved t u) : Moved s u :=
  ⟨h'.inv, fun p hp => h'.stays p (h.stays p hp)⟩

theorem Made.none (h : Fine s t) : Made s none t := ⟨h, nofun⟩

theorem Made.after {r : Option Nat} (h' : Made t r u) (h : Fine s t) : Made s r u :=
  ⟨h.trans h'.1, h'.2⟩

theorem Fine.made {x : V (Option Nat)} (h : Fine s t) (hx : After x t fun r u => Made t r u) :
    After x t fun r u => Made s r u :=
  hx.mono fun _ _ hu => hu.after h

theorem Kept.fine (h : Kept s ∅ U t) : Fine s t where
  __ := h
  inv := h.inv.mono (fun _ hp => hp) (Set.empty_subset _)
  stays _ hp := h.anchored hp

theorem HasRoom.kept (h : HasRoom s dir d) (hkept : Kept s E U t) : HasRoom t dir d := by
  obtain ⟨q, slots, i, hq, hslots, hi⟩ := h.room
  refine ⟨hkept.anchored h.anchored, hkept.node h.anchored h.node, q, slots, i, hq, ?_, hi⟩
  obtain ⟨n, -, -, hslots'⟩ :=
    hkept.quiet.table dir q slots h.anchored.below ⟨d, h.node, hq, hslots⟩
  exact hslots'

theorem firstFree_spec {slots : Nat → Option Nat} {i : Nat} (h : firstFree slots = some i) :
    i < maxDirEntries ∧ slots i = none := by
  have hmem := List.mem_of_find?_eq_some h
  have hnone := List.find?_some h
  exact ⟨List.mem_range.mp hmem, isNone_iff_eq_none.mp hnone⟩

theorem Inv.createChecks (h : Inv s ∅ ∅) (name : CString) :
    After (createChecks name) s fun r t => Kept s ∅ ∅ t ∧ ∀ dir d base,
      r = some (dir, d, base) → HasRoom t dir d ∧ base.length < 256 := by
  simp only [Vfs.createChecks]
  refine .ite (fun _ => .pure ⟨.refl h, fun _ _ _ hr => by cases hr⟩) fun hlen => ?_
  refine (h.resolveParentAndName name).bind fun r t ht => ?_
  obtain ⟨hkept, hparent, hbase⟩ := ht
  cases hr : r.1 with
  | none => exact .pure ⟨hkept, nofun⟩
  | some dir =>
    have hdir := hparent dir hr
    refine .ite (fun _ => .pure ⟨hkept, nofun⟩) fun _ => ?_
    refine (after_nodeAt dir).reads fun n hn => ?_
    refine slotsAt_bind fun q slots hq hslots => ?_
    refine (reads_findChild slots r.2 _).after fun found => ?_
    cases found with
    | some _ => exact .pure ⟨hkept, nofun⟩
    | none =>
      refine .ite (fun _ => .pure ⟨hkept, nofun⟩) fun hfull => .pure ⟨hkept, ?_⟩
      intro dir' d base heq
      cases heq
      obtain ⟨i, hi⟩ := isSome_iff_exists.mp
        (isSome_iff_ne_none.mpr fun hnone => hfull (isNone_iff_eq_none.mpr hnone))
      exact ⟨⟨hdir, hn, q, slots, i, hq, hslots, hi⟩, by omega⟩

/-- A node that is made but not used yet enters its directory. -/
theorem Inv.enter (h : Inv s ∅ U) (he : e ∈ U) (hn : s.heap.block e = some (.node n))
    (hok : NodeOk s n) (htable : ∀ q, n.children = some q → q ∈ U ∧
      s.heap.block q = some emptyTable) (hroom : HasRoom s dir d) (hparent : n.parent = some dir) :
    After (linkChild d.children e >>= fun _ => pure (some e)) s fun r t => Made s r t := by
  have hroot : Inv s (insert e ∅) ∅ := h.addRoot he hn hok htable fun p hp => hp.elim
  obtain ⟨hdir, hd, q, slots, i, hq, hslots, hi⟩ := hroom
  obtain ⟨hlt, hfree⟩ := firstFree_spec hi
  refine .bind (Q := fun _ t => Fine s t ∧ Anchored t e) ?_ fun _ t ht => ?_
  · rw [hq]
    refine .run (slotsAt_of_table hslots) ?_
    rw [hi]
    have ht : HasTable s dir q slots := ⟨d, hd, hq, hslots⟩
    refine (ht.setSlot i (some e)).mono fun _ u hput => ?_
    obtain ⟨hinv, hchild, hstays, -⟩ := hroot.link (fun hmem => hmem.elim) hdir.below ht hlt hfree hn
      hparent hput
    exact ⟨⟨hinv, hstays, hput.root, hput.current⟩, (hstays dir hdir).tail hchild⟩
  · exact .pure ⟨ht.1, fun p hp => by cases hp; exact ht.2⟩

theorem writable_of_mount {m : Nat} {M : Mount} (hM : s.heap.block m = some (.mount M))
    (hw : M.writable = true) : Writable s m := by
  refine ⟨lt_next_of_block hM, fun M' hM' => ?_⟩
  rw [hM] at hM'
  cases hM'
  exact hw

theorem nodeOk_of_memData (hname : n.name.length < 256)
    (hleaf : n.type = .file → n.children = none) (hmem : n.memData = none) : NodeOk s n := by
  refine ⟨hname, hleaf, fun _ => .inl fun q hq => ?_⟩
  rw [hmem] at hq
  cases hq

theorem Inv.giveUp (h : Inv s ∅ U) (he : e ∈ U) (hn : s.heap.block e = some (.node n)) :
    After (kfree e >>= fun _ => pure none) s fun r t => Made s r t := by
  exact .modify_bind (.pure (.none (h.freeNode (h.idle_of_mem he) hn).fine))

section

variable (h : Inv s ∅ U) (he : e ∈ U) (hn : s.heap.block e = some (.node n)) (hok : NodeOk s n')
  (htable : ∀ q, n'.children = some q → q ∈ U ∧ s.heap.block q = some emptyTable)
  (hroom : HasRoom s dir d) (hparent : n'.parent = some dir)
include h he hn hok htable hroom hparent

theorem Inv.enterNode :
    After (do Vfs.setNode e n'; linkChild d.children e; pure (some e)) s fun r t => Made s r t := by
  refine (h.fillUnused (h.idle_of_mem he) hn n').bind fun _ t ht => ?_
  obtain ⟨hkept, hput⟩ := ht
  refine (hkept.inv.enter he hput.same (hok.grows hkept.grows) (fun q hq => ?_)
    (hroom.kept hkept) hparent).mono fun r u hu => hu.after hkept.fine
  exact ⟨(htable q hq).1, hput.keeps hn (htable q hq).2 (by simp [emptyTable])⟩

/-- The same for a node whose entry on a FAT disk is written first, which may fail. -/
theorem Inv.enterFat :
    After (do
      Vfs.setNode e n'
      if ! (← Vfs.diskOp) then
        kfree e
        pure none
      else
        linkChild d.children e
        pure (some e)) s fun r t => Made s r t := by
  refine (h.fillUnused (h.idle_of_mem he) hn n').bind fun _ t ht => ?_
  obtain ⟨hkept, hput⟩ := ht
  refine (hkept.inv.diskOp).bind fun ok x hx => ?_
  obtain ⟨hx, hheap⟩ := hx
  have hnode : x.heap.block e = some (.node n') := hheap ▸ hput.same
  refine (hkept.trans hx).fine.made ?_
  refine .ite (fun _ => hx.inv.giveUp he hnode) fun _ => ?_
  refine hx.inv.enter he hnode (hok.grows (hkept.trans hx).grows) (fun q hq => ?_)
    (hroom.kept (hkept.trans hx)) hparent
  rw [hheap]
  exact ⟨(htable q hq).1, hput.keeps hn (htable q hq).2 (by simp [emptyTable])⟩

end

theorem Inv.fsCreateFile (h : Inv s ∅ ∅) (name : CString) :
    After (fsCreateFile name) s fun r t => Made s r t := by
  refine (h.createChecks name).option (fun _ ht => .pure (.none ht.1.fine)) fun ddb t ht => ?_
  obtain ⟨hkept, hr⟩ := ht
  obtain ⟨dir, d, base⟩ := ddb
  obtain ⟨hroom, hbase⟩ := hr dir d base rfl
  refine .get_bind ?_
  refine (hkept.inv.kmalloc (by simp)).option
    (fun _ hu => .pure (.none (hkept.trans hu.1).fine)) fun e u hu => ?_
  obtain ⟨hkept2, -, hr2⟩ := hu
  obtain ⟨-, hblank, hinv⟩ := hr2 e rfl
  replace hroom := hroom.kept hkept2
  have he : e ∈ (insert e ∅ : Set Nat) := Set.mem_insert _ _
  refine (hkept.trans hkept2).fine.made ?_
  refine .ite (fun _ => ?_) fun _ => ?_
  · refine (after_writableExt2 d).reads fun w hw => ?_
    refine .ite (fun hwrite => ?_) fun _ => ?_
    · obtain ⟨m, M, hm, hM, hMw⟩ := hw hwrite
      refine (hinv.diskCreate).bind fun r x hx => ?_
      obtain ⟨hx, hheap⟩ := hx
      have hblank' : x.heap.block e = _ := hheap ▸ hblank
      refine hx.fine.made ?_
      cases r with
      | none => exact hx.inv.giveUp he hblank'
      | some ino =>
        refine hx.inv.enterNode he hblank' ⟨hbase, fun _ => rfl, fun _ => .inr ⟨rfl, m, hm, ?_⟩⟩
          nofun (hroom.kept hx) rfl
        exact hx.grows.writable m (writable_of_mount hM hMw)
    · exact hinv.enterNode he hblank (nodeOk_of_memData hbase (fun _ => rfl) rfl) nofun hroom rfl
  · exact hinv.enterFat he hblank (nodeOk_of_memData hbase (fun _ => rfl) rfl) nofun hroom rfl

/-- The part of fs_create_dir that asks the heap for the node and for its table. -/
theorem Inv.makeDir (h : Inv s ∅ ∅) (blank : Node) (body : Nat → Nat → V (Option Nat))
    (hbody : ∀ e q t, Kept s ∅ (insert q (insert e ∅)) t → t.heap.block e = some (.node blank) →
      t.heap.block q = some emptyTable → After (body e q) t fun r u => Made t r u) :
    After (do
      match ← Vfs.kmalloc (.node blank) with
      | none => pure none
      | some e =>
        match ← Vfs.kmalloc emptyTable with
        | none =>
          kfree e
          pure none
        | some q => body e q) s fun r t => Made s r t := by
  refine (h.kmalloc (by simp)).option (fun _ ht => .pure (.none ht.1.fine)) fun e t ht => ?_
  obtain ⟨hkept, -, hr⟩ := ht
  obtain ⟨-, hblank, hinv⟩ := hr e rfl
  refine (hinv.kmalloc (by simp [emptyTable])).bind fun r u hu => ?_
  obtain ⟨hkept2, hsame, hr2⟩ := hu
  have hfine := hkept.fine.trans hkept2.fine
  have hblank' := (hsame e (lt_next_of_block hblank)).trans hblank
  refine hfine.made ?_
  cases r with
  | none => exact hkept2.inv.giveUp (Set.mem_insert _ _) hblank'
  | some q =>
    obtain ⟨-, htable, hinv2⟩ := hr2 q rfl
    exact hbody e q u (hkept.trans { hkept2 with inv := hinv2 }) hblank' htable

theorem Inv.enterDir {q : Nat} (h : Inv s ∅ (insert q (insert e ∅)))
    (hn : s.heap.block e = some (.node n)) (hq : s.heap.block q = some emptyTable)
    (hchildren : n'.children = some q) (htype : n'.type = .directory) (hname : n'.name.length < 256)
    (hroom : HasRoom s dir d) (hparent : n'.parent = some dir) :
    After (do Vfs.setNode e n'; linkChild d.children e; pure (some e)) s fun r t => Made s r t := by
  refine h.enterNode (.inr (.inl rfl)) hn ⟨hname, fun hfile => ?_, fun hfile => ?_⟩
    (fun q' hq' => ?_) hroom hparent
  · rw [htype] at hfile
    cases hfile
  · rw [htype] at hfile
    cases hfile
  · rw [hchildren] at hq'
    cases hq'
    exact ⟨.inl rfl, hq⟩

theorem Inv.fsCreateDir (h : Inv s ∅ ∅) (name : CString) :
    After (fsCreateDir name) s fun r t => Made s r t := by
  refine (h.createChecks name).option (fun _ ht => .pure (.none ht.1.fine)) fun ddb t ht => ?_
  obtain ⟨hkept, hr⟩ := ht
  obtain ⟨dir, d, base⟩ := ddb
  obtain ⟨hroom, hbase⟩ := hr dir d base rfl
  refine hkept.fine.made ?_
  refine .ite (fun _ => ?_) fun _ => ?_
  · refine hkept.inv.makeDir _ _ fun e q u hu hblank htable => ?_
    replace hroom := hroom.kept hu
    refine (after_writableExt2 d).reads fun w _ => ?_
    refine .ite (fun _ => ?_) fun _ => ?_
    · refine (hu.inv.diskCreate).bind fun r x hx => ?_
      obtain ⟨hx, hheap⟩ := hx
      have hblank' : x.heap.block e = _ := hheap ▸ hblank
      refine hx.fine.made ?_
      cases r with
      | none => exact hx.inv.giveUp (.inr (.inl rfl)) hblank'
      | some ino =>
        exact hx.inv.enterDir hblank' (hheap ▸ htable) rfl rfl hbase (hroom.kept hx) rfl
    · exact hu.inv.enterDir hblank htable rfl rfl hbase hroom rfl
  · refine (hkept.inv.diskOp).bind fun ok x hx => ?_
    obtain ⟨hx, -⟩ := hx
    refine hx.fine.made ?_
    refine .ite (fun _ => .pure (.none (Kept.refl hx.inv).fine)) fun _ => ?_
    refine hx.inv.makeDir _ _ fun e q u hu hblank htable => ?_
    refine hu.inv.enterFat (.inr (.inl rfl)) hblank
      (nodeOk_of_memData hbase nofun rfl) (fun q' hq' => ?_)
      ((hroom.kept hx).kept hu) rfl
    cases hq'
    exact ⟨.inl rfl, htable⟩

end Create

end Kil0yOS.Vfs
