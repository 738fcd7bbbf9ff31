/-
Deleting an entry and unmounting keep the tree, where nothing that is in use is freed.
-/
import Kil0yOS.Vfs.TreeDelete
import Kil0yOS.Vfs.TreeFiles

namespace Kil0yOS.Vfs

open Lib List Function

/-- Nothing below `c` is in use, and the buffers that are freed with it were set. -/
structure Clear (s : State) (c : Nat) : Prop where
  anchors : ∀ p, IsAnchor s p → ¬ Below (Child s) {c} p
  buffers : BuffersSet s c

/-- Nothing below the directory mounted under this name is open, and the buffers there were
set. -/
def MountClear (s : State) (mountpoint : CString) : Prop :=
  ∀ m ∈ s.mounts, ∀ M p, s.heap.block m = some (.mount M) → M.mountpoint = mountpoint →
    M.target = some p → ∀ c, Child s p c → BuffersSet s c ∧
      ∀ q f, s.heap.block q = some (.lnxFile f) → ¬ Below (Child s) {c} f.entry

/-! ## The tree without a subtree -/

section Pruned

variable {s t : State} {d q i c p : Nat} {slots : Nat → Option Nat}

theorem Pruned.anchor (hp : Pruned s d q i c slots t) (ha : IsAnchor t p) : IsAnchor s p := by
  rcases ha with hcur | ⟨m, hm, M, hM, hMp⟩ | ⟨x, f, hf, hfp⟩
  · exact .inl (hcur.trans hp.current)
  · exact .inr (.inl ⟨m, hp.mounts ▸ hm, M, hp.block m _ (by simp) hM, hMp⟩)
  · exact .inr (.inr ⟨x, f, hp.block x _ (by simp) hf, hfp⟩)

theorem Pruned.node (hp : Pruned s d q i c slots t) (h : Inv t ∅ ∅) (hx : Anchored t p) :
    t.heap.block p = s.heap.block p := by
  obtain ⟨n, hn, -⟩ := h.anchored_node hx
  rw [hn, hp.block p _ (by simp) hn]

variable (hp : Pruned s d q i c slots t) (h : Inv s ∅ ∅) (hd : Anchored s d)
  (ht : HasTable s d q slots) (hc : slots i = some c)
include hp h hd ht hc

/-- Only the directory has another table, with one slot cleared. -/
theorem Pruned.hasTable (hx : Anchored s p) (hnot : ¬ Below (Child s) {c} p) {q' : Nat}
    {sl : Nat → Option Nat} (hsl : HasTable s p q' sl) :
    HasTable t p q' (if p = d then update slots i none else sl) := by
  have hdc : Child s d c := ⟨q, slots, i, ht, hc⟩
  obtain ⟨hneed, hneedq⟩ := h.not_needed hd hdc hx hnot
  obtain ⟨n, hn, hnq, hslots⟩ := id hsl
  obtain ⟨-, -, -, hs⟩ := id ht
  refine ⟨n, hp.kept (ne_of_block hn hs (by simp)) hneed hn (by simp), hnq, ?_⟩
  split
  next hpd =>
    subst hpd
    obtain ⟨rfl, -⟩ := ht.unique hsl
    exact hp.table
  next hpd =>
    refine hp.kept (fun heq => hpd ?_) (hneedq q' sl hsl) hslots (by simp)
    exact h.tree.owner_eq hx.below hd.below (heq ▸ hsl) ht

theorem Pruned.child {x : Nat} (hx : Anchored s p) (hnot : ¬ Below (Child s) {c} p)
    (hn : t.heap.block p = s.heap.block p) (hpx : Child t p x) : Child s p x := by
  obtain ⟨q', sl, j, hsl, hj⟩ := hpx
  obtain ⟨n, hnt, hnq, hslots⟩ := id hsl
  rw [hn] at hnt
  obtain ⟨sl', hsl', -⟩ := h.tree.table p n q' hx.below hnt hnq
  have hold : HasTable s p q' sl' := ⟨n, hnt, hnq, hsl'⟩
  obtain ⟨-, rfl⟩ := (hp.hasTable h hd ht hc hx hnot hold).unique hsl
  refine ⟨q', sl', j, hold, ?_⟩
  split at hj
  next hpd =>
    subst hpd
    obtain ⟨-, rfl⟩ := ht.unique hold
    rcases update_cases hj with ⟨-, hj⟩ | ⟨-, hj⟩
    · cases hj
    · exact hj
  · exact hj

/-- What was clear is clear without another subtree. -/
theorem Clear.pruned {e : Nat} (hclear : Clear s e) (hinv : Inv t ∅ ∅)
    (hiff : ∀ p, Anchored t p ↔ Anchored s p ∧ ¬ Below (Child s) {c} p)
    (he : Anchored t e) : Clear t e := by
  have hback : ∀ p, Below (Child t) {e} p → Anchored t p ∧ Below (Child s) {e} p := by
    intro p hbelow
    refine hbelow.induct (P := fun x => Anchored t x ∧ Below (Child s) {e} x) (fun r hr => ?_)
      fun x y _ hx hxy => ?_
    · rw [Set.mem_singleton_iff.mp hr]
      exact ⟨he, below_root rfl⟩
    · obtain ⟨hanch, hnot⟩ := (hiff x).mp hx.1
      exact ⟨.tail hx.1 hxy,
        hx.2.tail (hp.child h hd ht hc hanch hnot (hp.node hinv hx.1) hxy)⟩
  refine ⟨fun p hanchor hbelow => ?_, fun p n hbelow hn r hr => ?_⟩
  · exact hclear.anchors p (hp.anchor hanchor) (hback p hbelow).2
  · have hns := hp.block p _ (by simp) hn
    exact (hp.grows h hd ht hc).plain r (hclear.buffers p n (hback p hbelow).2 hns r hr)

end Pruned

/-! ## Unmounting -/

section Umount

variable {s : State} {d q : Nat} {n : Node}

/-- What is left after the entries of `d` were deleted. -/
structure Emptied (s : State) (d : Nat) (t : State) : Prop where
  inv : Inv t ∅ ∅
  anchored : Anchored t d
  node : t.heap.block d = s.heap.block d
  mounts : t.mounts = s.mounts
  mount : ∀ m M, t.heap.block m = some (.mount M) → s.heap.block m = some (.mount M)

/-- The loop that deletes the entries of a directory. -/
theorem Inv.deleteChildren (depth : Nat) (hq : n.children = some q) (is : List Nat) :
    ∀ s, Inv s ∅ ∅ → Anchored s d → s.heap.block d = some (.node n) →
      (∀ c, Child s d c → Clear s c) →
      After (deleteChildren (fsDeleteEntryRecursive depth) (some q) is) s fun _ t =>
        Emptied s d t := by
  induction is with
  | nil => exact fun s h hd hn _ => .pure ⟨h, hd, rfl, rfl, fun _ _ hM => hM⟩
  | cons i is ih =>
    intro s h hd hn hclear
    refine slotsAt_bind fun q' slots hq' hslots => ?_
    cases hq'
    have ht : HasTable s d q slots := ⟨n, hn, hq, hslots⟩
    cases hc : slots i with
    | none => exact ih _ h hd hn hclear
    | some c =>
      have hdc : Child s d c := ⟨q, slots, i, ht, hc⟩
      have hcc := hclear c hdc
      refine (after_bind.mp (h.deleteSlot hd ht hc hcc.buffers depth)).bind fun _ v hv => ?_
      refine hv.bind fun _ w hw => ?_
      obtain ⟨hinv, hiff⟩ := h.pruned hd ht hc hcc.anchors hw
      have hdw : Anchored w d := (hiff d).mpr ⟨hd, h.not_below hd hdc⟩
      have hnw := hw.node hinv hdw
      refine (ih w hinv hdw (hnw.trans hn) fun e he => ?_).mono fun _ x hx => ?_
      · have hes := hw.child h hd ht hc hd (h.not_below hd hdc) hnw he
        exact (hclear e hes).pruned hw h hd ht hc hinv hiff (.tail hdw he)
      · exact ⟨hx.inv, hx.anchored, hx.node.trans hnw, hx.mounts.trans hw.mounts,
          fun m M hM => hw.block m _ (by simp) (hx.mount m M hM)⟩

/-- The walk up from `e` comes by every directory that `e` lies below. -/
theorem Inv.isAbove (h : Inv s ∅ ∅) (target depth : Nat) (htarget : Anchored s target) :
    ∀ e, After (isAbove target depth (some e)) s fun r t => t = s ∧
      (r = false → ¬ Below (Child s) {target} e) := by
  induction depth with
  | zero => exact fun e => after_none rfl
  | succ depth ih =>
    intro e
    refine .ite (fun _ => .pure ⟨rfl, fun hr => by cases hr⟩) fun hne => ?_
    refine (after_nodeAt e).reads fun k hk => ?_
    have hup : Below (Child s) {target} e → ∃ p, k.parent = some p ∧ Below (Child s) {target} p := by
      intro hbelow
      rcases hbelow.cases with hmem | ⟨p, hp, hpe⟩
      · exact absurd (Set.mem_singleton_iff.mp hmem) hne
      have hanch : Anchored s p := hp.under htarget
      exact ⟨p, h.tree.parent p e k hanch.below hpe hk, hp⟩
    cases hparent : k.parent with
    | none =>
      have hpure : Vfs.isAbove target depth none = pure false := by
        cases depth <;> rfl
      rw [hpure]
      refine .pure ⟨rfl, fun _ hbelow => ?_⟩
      obtain ⟨p, hp, -⟩ := hup hbelow
      rw [hparent] at hp
      cases hp
    | some p =>
      refine (ih p).mono fun r t ht => ⟨ht.1, fun hr hbelow => ?_⟩
      obtain ⟨p', hp', hbelow'⟩ := hup hbelow
      rw [hparent] at hp'
      cases hp'
      exact ht.2 hr hbelow'

/-- A search that finds nothing has looked at every child. -/
theorem after_anyChild {has : Nat → V Bool} {children : Option Nat} {P : Nat → Prop}
    (hhas : ∀ q slots i c, children = some q → s.heap.block q = some (.table slots) →
      slots i = some c → After (has c) s fun r t => t = s ∧ (r = false → P c)) (is : List Nat) :
    After (anyChild has children is) s fun r t => t = s ∧ (r = false → ∀ q slots i c,
      children = some q → s.heap.block q = some (.table slots) → i ∈ is → slots i = some c →
        P c) := by
  induction is with
  | nil => exact .pure ⟨rfl, nofun⟩
  | cons j is ih =>
    refine (after_slotsAt _).bind fun sl u hu => ?_
    obtain ⟨rfl, q, rfl, hsl⟩ := hu
    have hrest : ∀ r t, (t = u ∧ (r = false → ∀ q' slots i c, some q = some q' →
        u.heap.block q' = some (.table slots) → i ∈ is → slots i = some c → P c)) →
        (∀ c, sl j = some c → P c) → t = u ∧ (r = false → ∀ q' slots i c, some q = some q' →
        u.heap.block q' = some (.table slots) → i ∈ j :: is → slots i = some c → P c) := by
      intro r t ht hj
      refine ⟨ht.1, fun hr q' slots i c hq hslots hi hc => ?_⟩
      rcases mem_cons.mp hi with rfl | hi
      · cases hq
        rw [hsl] at hslots
        cases hslots
        exact hj c hc
      · exact ht.2 hr q' slots i c hq hslots hi hc
    cases hc : sl j with
    | none =>
      refine ih.mono fun r t ht => hrest r t ht fun c hc' => ?_
      rw [hc] at hc'
      cases hc'
    | some c =>
      refine (hhas q sl j c rfl hsl hc).reads fun b hb => ?_
      refine .ite (fun _ => .pure ⟨rfl, fun hr => by cases hr⟩) fun hfalse => ?_
      refine ih.mono fun r t ht => hrest r t ht fun c' hc' => ?_
      rw [hc] at hc'
      cases hc'
      exact hb (Bool.eq_false_iff.mpr hfalse)

/-- A node that the search does not find does not lie below. -/
theorem Inv.subtreeHasNode (h : Inv s ∅ ∅) (node depth : Nat) :
    ∀ dir, Anchored s dir → After (subtreeHasNode node depth dir) s fun r t => t = s ∧
      (r = false → ¬ Below (Child s) {dir} node) := by
  induction depth with
  | zero => exact fun dir _ => after_none rfl
  | succ depth ih =>
    intro dir hdir
    refine .ite (fun _ => .pure ⟨rfl, fun hr => by cases hr⟩) fun hne => ?_
    refine (after_nodeAt dir).reads fun k hk => ?_
    have hchild : ∀ q slots i c, k.children = some q → s.heap.block q = some (.table slots) →
        slots i = some c → After (Vfs.subtreeHasNode node depth c) s fun r t => t = s ∧
          (r = false → ¬ Below (Child s) {c} node) := fun q slots i c hq hslots hc =>
      ih c (hdir.tail ⟨q, slots, i, ⟨k, hk, hq, hslots⟩, hc⟩)
    refine (after_anyChild hchild (range maxDirEntries)).mono fun r t ht => ⟨ht.1, fun hr hbelow => ?_⟩
    obtain ⟨c, hc, hbelow'⟩ := hbelow.head (Ne.symm hne)
    obtain ⟨q, slots, i, hsl, hi⟩ := hc
    obtain ⟨k', hk', hkq, hslots⟩ := id hsl
    rw [hk] at hk'
    cases hk'
    have hlt : i < maxDirEntries := by
      by_contra hle
      rw [(h.tree.tableOk hdir.below hsl).bound i (by omega)] at hi
      cases hi
    exact ht.2 hr q slots i c hkq hslots (mem_range.mpr hlt) hi hbelow'

/-- No other mount point lies below the target. -/
theorem Inv.nestedMount (h : Inv s ∅ ∅) (depth found : Nat) {target : Nat}
    (htarget : Anchored s target) (ms : List Nat) :
    After (nestedMount depth found target ms) s fun r t => t = s ∧ (r = false → ∀ m ∈ ms,
      m ≠ found → ∀ M p, s.heap.block m = some (.mount M) → M.target = some p →
        ¬ Below (Child s) {target} p) := by
  induction ms with
  | nil => exact .pure ⟨rfl, nofun⟩
  | cons m ms ih =>
    refine .ite (fun heq => ?_) fun _ => ?_
    · refine ih.mono fun r t ht => ⟨ht.1, fun hr m' hm' hne => ?_⟩
      rcases mem_cons.mp hm' with rfl | hm'
      · exact absurd heq hne
      · exact ht.2 hr m' hm' hne
    refine (after_mountAt m).reads fun M hM => ?_
    have hrest : (∀ p, M.target = some p → ¬ Below (Child s) {target} p) →
        After (Vfs.nestedMount depth found target ms) s fun r t => t = s ∧ (r = false →
          ∀ m' ∈ m :: ms, m' ≠ found → ∀ M p, s.heap.block m' = some (.mount M) →
            M.target = some p → ¬ Below (Child s) {target} p) := by
      intro hself
      refine ih.mono fun r t ht => ⟨ht.1, fun hr m' hm' hne M' p hM' hp => ?_⟩
      rcases mem_cons.mp hm' with rfl | hm'
      · rw [hM] at hM'
        cases hM'
        exact hself p hp
      · exact ht.2 hr m' hm' hne M' p hM' hp
    cases hp : M.target with
    | none => exact hrest fun p hp' => by rw [hp] at hp'; cases hp'
    | some p =>
      refine (h.subtreeHasNode p depth target htarget).reads fun b hb => ?_
      refine .ite (fun _ => .pure ⟨rfl, fun hr => by cases hr⟩) fun hfalse => hrest fun p' hp' => ?_
      rw [hp] at hp'
      cases hp'
      exact hb (Bool.eq_false_iff.mpr hfalse)

theorem dropMount_spec {mounts : List Nat} (hnodup : mounts.Nodup) (found : Nat) :
    (∀ m ∈ dropMount mounts found, m ∈ mounts ∧ (found ∈ mounts → m ≠ found)) ∧
      (dropMount mounts found).Nodup := by
  simp only [dropMount]
  cases hlast : mounts.getLast? with
  | none =>
    rw [getLast?_eq_none_iff.mp hlast]
    exact ⟨fun m hm => (by cases hm), nodup_nil⟩
  | some last =>
    obtain ⟨init, rfl⟩ := getLast?_eq_some_iff.mp hlast
    obtain ⟨hinit, -, hdisj⟩ := nodup_append.mp hnodup
    have hnot : ∀ x ∈ init, x ≠ last := fun x hx => hdisj x hx last mem_cons_self
    have heq : ((init ++ [last]).map fun m => if m = found then last else m).dropLast =
        init.map fun m => if m = found then last else m := by
      simp
    dsimp only
    rw [heq]
    refine ⟨fun m hm => ?_, List.Nodup.map_on (fun x hx y hy hxy => ?_) hinit⟩
    · obtain ⟨x, hx, hxm⟩ := mem_map.mp hm
      split at hxm
      next hxf =>
        subst hxm hxf
        exact ⟨mem_append_right _ mem_cons_self, fun _ heq => hnot x hx heq.symm⟩
      next hxf =>
        subst hxm
        exact ⟨mem_append_left _ hx, fun _ => hxf⟩
    split at hxy
    next hxf =>
      split at hxy
      next hyf => exact hxf.trans hyf.symm
      next => exact absurd hxy.symm (hnot y hy)
    next =>
      split at hxy
      next => exact absurd hxy (hnot x hx)
      next => exact hxy

theorem after_deleteChildren_none {delete : Nat → V Unit} {Q : Unit → State → Prop}
    {is : List Nat} (his : is ≠ []) : After (Vfs.deleteChildren delete none is) s Q := by
  cases is with
  | nil => exact absurd rfl his
  | cons i is => exact after_none rfl

theorem Inv.dropMount {found : Nat} {M : Mount} (h : Inv s ∅ ∅) (hfound : found ∈ s.mounts)
    (hM : s.heap.block found = some (.mount M)) :
    After (do
      modify fun s => { s with mounts := Vfs.dropMount s.mounts found }
      kfree found
      pure true) s fun _ t => Inv t ∅ ∅ := by
  obtain ⟨hmem, hnodup⟩ := dropMount_spec h.nodup found
  have hinv := h.withMounts (fun m hm => h.mounts m (hmem m hm).1) hnodup
  refine .modify_bind (.modify_bind (.pure ?_))
  have hput := puts_free { s with mounts := Vfs.dropMount s.mounts found } found
  refine (hinv.put hput ⟨fun hneed => ?_, fun hm => (hmem found hm).2 hfound rfl⟩ hput.grows_free
    nofun).1
  rcases hinv.tree.needed_block hneed with ⟨n, hn⟩ | ⟨sl, hsl⟩
  · exact absurd (hM.symm.trans hn) (by simp)
  · exact absurd (hM.symm.trans hsl) (by simp)

/-- The unmount frees what lies below the mount point, and nothing there is open. -/
theorem Inv.ext2Umount (h : Inv s ∅ ∅) (depth : Nat) (mountpoint : CString)
    (hsafe : MountClear s mountpoint) :
    After (ext2Umount depth mountpoint) s fun _ t => Inv t ∅ ∅ := by
  refine .get_bind ?_
  refine .bind (Q := fun r t => t = s ∧ ∀ m, r = some m → m ∈ s.mounts ∧
    ∃ M, s.heap.block m = some (.mount M) ∧ M.mountpoint = mountpoint) ?_ fun r t ht => ?_
  · refine (after_findMount _ _).mono fun r t ht => ⟨ht.1, fun m hm => ?_⟩
    obtain ⟨hmem, M, hM, hpoint⟩ := ht.2 m hm
    exact ⟨hmem, M, hM, of_decide_eq_true hpoint⟩
  obtain ⟨rfl, hfound⟩ := ht
  cases r with
  | none => exact .pure h
  | some found =>
    obtain ⟨hmem, M, hM, hpoint⟩ := hfound found rfl
    refine .run (mountAt_of_mount hM) ?_
    obtain ⟨M', target, hM', htarget, hanch⟩ := h.mounts found hmem
    rw [hM] at hM'
    cases hM'
    rw [htarget]
    refine (h.isAbove target depth hanch t.current).reads fun r habove => ?_
    refine .ite (fun _ => .pure h) fun hcwd => ?_
    refine (reads_subtreeHasBackend _ _ _).after fun r => ?_
    refine .ite (fun _ => .pure h) fun _ => ?_
    refine (h.nestedMount depth found hanch t.mounts).reads fun r hnested => ?_
    refine .ite (fun _ => .pure h) fun hnest => ?_
    refine (after_nodeAt target).reads fun n hn => ?_
    -- Nothing below an entry of the mount point is in use.
    have hclear : ∀ c, Child t target c → Clear t c := by
      intro c hc
      obtain ⟨hset, hopen⟩ := hsafe found hmem M target hM hpoint htarget c hc
      have hup : ∀ p, Below (Child t) {c} p → Below (Child t) {target} p := fun p hp =>
        hp.under ((below_root (Set.mem_singleton target)).tail hc)
      refine ⟨fun p hanchor hbelow => ?_, hset⟩
      rcases hanchor with rfl | ⟨m, hm, M', hM', hp⟩ | ⟨q, f, hf, rfl⟩
      · exact habove (Bool.eq_false_iff.mpr hcwd) (hup _ hbelow)
      · by_cases hmf : m = found
        · rw [hmf, hM] at hM'
          cases hM'
          rw [htarget] at hp
          cases hp
          exact h.not_below hanch hc hbelow
        · exact hnested (Bool.eq_false_iff.mpr hnest) m hm hmf M' p hM' hp (hup p hbelow)
      · exact hopen q f hf hbelow
    rcases Option.eq_none_or_eq_some n.children with hq | ⟨q, hq⟩
    · have hnone : After (Vfs.deleteChildren (Vfs.fsDeleteEntryRecursive depth) none
          (range maxDirEntries)) t fun _ _ => False :=
        after_deleteChildren_none (by simp [maxDirEntries])
      rw [← hq] at hnone
      exact hnone.bind fun _ _ hfalse => hfalse.elim
    have hdelete := Inv.deleteChildren depth hq (range maxDirEntries) t h hanch hn hclear
    rw [← hq] at hdelete
    refine hdelete.bind fun _ z hz => ?_
    have hnz := hz.node.trans hn
    refine (hz.inv.setNode hnz { n with mnt := none, backend := M.prevBackend, inodeNo := 0 }
      ((hz.inv.tree.nodeOk hz.anchored.below hnz).of_table hq rfl rfl) rfl fun _ => rfl).bind
      fun _ a ha => ?_
    obtain ⟨hinv, -, hput, -⟩ := ha
    have hmem' : found ∈ a.mounts := by
      rw [hput.mounts, hz.mounts]
      exact hmem
    obtain ⟨M2, -, hM2, -⟩ := hinv.mounts found hmem'
    exact hinv.dropMount hmem' hM2

end Umount

end Kil0yOS.Vfs
