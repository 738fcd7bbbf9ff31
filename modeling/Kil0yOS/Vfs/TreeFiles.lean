/-
Writing files, and opening and closing them, keeps the tree.
-/
import Kil0yOS.Vfs.TreeCreate

namespace Kil0yOS.Vfs

open Lib

def SameFiles (s t : State) : Prop :=
  ∀ p f, s.heap.block p = some (.lnxFile f) → t.heap.block p = some (.lnxFile f)

section Write

variable {s t : State} {p : Nat} {n : Node}

theorem SameFiles.trans {u : State} (h : SameFiles s t) (h' : SameFiles t u) : SameFiles s u :=
  fun p f hf => h' p f (h p f hf)

section

variable (h : Inv s ∅ ∅)
include h

theorem Fine.refl : Fine s s := (Kept.refl h).fine

theorem Inv.setEntry (hn : s.heap.block p = some (.node n)) (n' : Node)
    (hok : NodeOk s n') (hchildren : n'.children = n.children) (hparent : n'.parent = n.parent) :
    After (Vfs.setNode p n') s fun _ t => Fine s t ∧ SameFiles s t ∧
      t.heap.block p = some (.node n') ∧ Grows s t ∧ t.mounts = s.mounts := by
  refine (h.setNode hn n' hok hchildren fun _ => hparent).mono fun _ t ht => ?_
  obtain ⟨hinv, hsame, hput, hg⟩ := ht
  exact ⟨⟨hinv, fun q hq => (hsame.anchored q).mpr hq, hput.root, hput.current⟩,
    fun q f hf => hput.keeps hn hf (by simp), hput.same, hg, hput.mounts⟩

theorem Inv.fsWriteFileMem (hp : Anchored s p)
    (hn : s.heap.block p = some (.node n)) (hok : NodeOk s n)
    (hmem : ∀ q, n.memData = some q → Plain s q) (data : List UInt8) :
    After (fsWriteFileMem p data) s fun _ t => Fine s t ∧ SameFiles s t := by
  refine (h.kmalloc (by simp)).option (fun _ ht => .pure ⟨ht.1.fine, ht.1.files⟩) fun buf t ht => ?_
  obtain ⟨hkept, -, hr⟩ := ht
  obtain ⟨-, hbuf, -⟩ := hr buf rfl
  have hnt := hkept.node hp hn
  refine .run (nodeAt_of_node hnt) ?_
  refine (hkept.inv.kfreeIf fun q hq => hkept.grows.plain q (hmem q hq)).bind fun _ v hv => ?_
  have hall := hkept.trans hv
  have hok' : NodeOk v { n with memData := some buf, size := data.length } := by
    refine ⟨hok.name, hok.leaf, fun _ => .inl fun q hq => ?_⟩
    cases hq
    exact hv.grows.plain buf (plain_of_data hbuf)
  refine (hv.inv.setEntry (hall.node hp hn) _ hok' rfl rfl).bind fun _ w hw => ?_
  exact .pure ⟨hall.fine.trans hw.1, SameFiles.trans hall.files hw.2.1⟩

theorem Inv.fsWriteFile (hp : Anchored s p) (data : Option (List UInt8)) :
    After (fsWriteFile p data) s fun _ t => Fine s t ∧ SameFiles s t := by
  refine (after_nodeAt p).reads fun n hn => ?_
  have hok := h.tree.nodeOk hp.below hn
  cases data with
  | none => exact .pure ⟨.refl h, fun _ _ hf => hf⟩
  | some data =>
    refine .ite (fun _ => .pure ⟨.refl h, fun _ _ hf => hf⟩) fun htype => ?_
    replace htype := not_not.mp htype
    -- A write to the disk changes the size and the contents only.
    have hdisk : ∀ t, Kept s ∅ ∅ t → ∀ (size : Nat) (bytes : List UInt8) (x : Int),
        After (do Vfs.setNode p { n with size := size, stored := bytes }; pure x) t
          fun _ v => Fine s v ∧ SameFiles s v := by
      intro t ht size bytes x
      refine (ht.inv.setEntry (ht.node hp hn) { n with size := size, stored := bytes }
        ⟨hok.name, hok.leaf, (hok.grows ht.grows).mem⟩ rfl rfl).bind fun _ v hv => ?_
      exact .pure ⟨ht.fine.trans hv.1, SameFiles.trans ht.files hv.2.1⟩
    cases hback : n.backend with
    | mem =>
      refine h.fsWriteFileMem hp hn hok ?_ _
      rcases hok.mem htype with hplain | ⟨hext, -⟩
      · exact hplain
      · rw [hback] at hext
        cases hext
    | ext2 =>
      refine (after_ext2MountIsWritable n.mnt).bind fun w t ht => ?_
      obtain ⟨rfl, -, hmount⟩ := ht
      refine .ite (fun _ => ?_) fun hro => ?_
      · refine h.diskOp.bind fun ok t ht => ?_
        rw [← hback]
        refine .ite (fun _ => ?_) fun _ => hdisk t ht.1 _ _ _
        exact .get_bind (hdisk t ht.1 _ _ _)
      -- Only on a writable mount was the buffer never set.
      have hplain : ∀ q, n.memData = some q → Plain t q := by
        rcases hok.mem htype with hplain | ⟨-, m, hm, hw⟩
        · exact hplain
        · obtain ⟨M, hM, hMw⟩ := hmount m hm
          rw [hw.2 M hM] at hMw
          exact absurd hMw.symm hro
      have hok' : NodeOk t { n with backend := .mem } :=
        ⟨hok.name, hok.leaf, fun _ => .inl hplain⟩
      refine (h.setEntry hn _ hok' rfl rfl).bind fun _ v hv => ?_
      obtain ⟨hfine, hsame, hnv, hg, -⟩ := hv
      refine (hfine.inv.fsWriteFileMem (hfine.stays p hp) hnv (hok'.grows hg)
        (fun q hq => hg.plain q (hplain q hq)) _).mono fun _ w hw => ?_
      exact ⟨hfine.trans hw.1, hsame.trans hw.2⟩
    | fat =>
      refine h.diskOp.bind fun ok t ht => ?_
      refine .ite (fun _ => .pure ⟨ht.1.fine, ht.1.files⟩) fun _ => ?_
      rw [← hback]
      exact hdisk t ht.1 _ _ _

end

end Write

/-! ## Open files -/

section Files

variable {s t : State} {p e : Nat} {f : LnxFile}

section

variable (h : Inv s ∅ ∅)
include h

theorem Inv.idle_file (hf : s.heap.block p = some (.lnxFile f)) : Idle s ∅ p :=
  h.idle_of_block fun b hb => by
    rw [hf] at hb
    cases hb
    exact .inr ⟨f, rfl⟩

theorem Inv.putFile {b : Option Block} (hput : Puts s p b t) (hidle : Idle s ∅ p) (hg : Grows s t)
    (hfile : ∀ f, b = some (.lnxFile f) → Anchored s f.entry ∧ ∀ q, f.cache = some q → Plain s q) :
    Fine s t := by
  obtain ⟨hinv, hquiet, -⟩ := h.put hput hidle hg fun f hf =>
    ⟨(hfile f hf).1, fun q hq => hg.plain q ((hfile f hf).2 q hq)⟩
  exact ⟨hinv, hquiet.anchored, hput.root, hput.current⟩

theorem Inv.setFile (hf : s.heap.block p = some (.lnxFile f)) (f' : LnxFile)
    (hentry : Anchored s f'.entry) (hcache : ∀ q, f'.cache = some q → Plain s q) :
    After (setFile p f') s fun _ t => Fine s t ∧ t.heap.block p = some (.lnxFile f') ∧
      Grows s t := by
  have hput := puts_store (lt_next_of_block hf) (.lnxFile f')
  have hg := hput.grows_over hf (by simp) (by simp)
  refine .modify ⟨h.putFile hput (h.idle_file hf) hg fun g hg => ?_, hput.same, hg⟩
  cases hg
  exact ⟨hentry, hcache⟩

theorem Inv.freeFile (hf : s.heap.block p = some (.lnxFile f)) :
    After (kfree p) s fun _ t => Fine s t := by
  have hput := puts_free s p
  exact .modify (h.putFile hput (h.idle_file hf) hput.grows_free nofun)

theorem Inv.fdFlush (p : Nat) : After (fdFlush p) s fun _ t => Fine s t := by
  refine (after_fileAt p).reads fun f hf => ?_
  obtain ⟨hentry, hcache⟩ := h.files p f hf
  refine .ite (fun _ => ?_) fun _ => .pure (.refl h)
  refine (after_nodeAt _).reads fun n hn => ?_
  refine .ite (fun _ => .pure (.refl h)) fun _ => ?_
  have hwrite : ∀ data, After (do
      let _ ← Vfs.fsWriteFile f.entry data
      Vfs.setFile p { f with dirty := false }) s fun _ v => Fine s v := by
    intro data
    refine (h.fsWriteFile hentry data).bind fun _ u hu => ?_
    obtain ⟨hfine, hsame⟩ := hu
    have hfu := hsame p f hf
    obtain ⟨hentry', hcache'⟩ := hfine.inv.files p f hfu
    exact (hfine.inv.setFile hfu { f with dirty := false } hentry' hcache').mono
      fun _ v hv => hfine.trans hv.1
  split
  · exact hwrite none
  · refine (after_dataAt _).bind fun bytes u hu => ?_
    rw [hu.1]
    exact hwrite _

theorem Inv.vfsFClose (p : Nat) : After (vfsFClose p) s fun _ t => Fine s t := by
  refine (h.fdFlush p).bind fun _ t ht => ?_
  refine (after_fileAt p).reads fun f hf => ?_
  refine (ht.inv.kfreeIf (ht.inv.files p f hf).2).bind fun _ v hv => ?_
  exact (hv.inv.freeFile (hv.files p f hf)).mono fun _ w hw => (ht.trans hv.fine).trans hw

theorem Inv.kmallocFile (hentry : Anchored s f.entry) (hcache : f.cache = none) :
    After (Vfs.kmalloc (.lnxFile f)) s fun r t => Fine s t ∧ ∀ p, r = some p →
      t.heap.block p = some (.lnxFile f) := by
  refine (after_kmalloc _).mono fun r t ht => ?_
  have hidle := h.idle_fresh (Nat.le_refl s.heap.next)
  rcases ht with ⟨rfl, hput⟩ | ⟨rfl, hput, -⟩
  · exact ⟨h.putFile hput hidle hput.grows_free nofun, nofun⟩
  refine ⟨h.putFile hput hidle (hput.grows_fresh (Nat.le_refl _)) fun g hg => ?_, fun p hp => ?_⟩
  · cases hg
    refine ⟨hentry, fun q hq => ?_⟩
    rw [hcache] at hq
    cases hq
  · cases hp
    exact hput.same

end

section

variable (h : Inv s ∅ ∅)
include h

theorem Inv.fsReadFile (file : Nat) (buffer : List UInt8) (size : Nat) :
    After (fsReadFile file buffer size) s fun _ t => Kept s ∅ ∅ t ∧ t.heap = s.heap := by
  have hdisk : ∀ stored size, After (diskRead stored buffer size) s
      fun _ t => Kept s ∅ ∅ t ∧ t.heap = s.heap := fun stored size =>
    h.diskOp.bind fun ok t ht => by cases ok <;> exact .pure ht
  refine (reads_nodeAt file).after fun n => .ite (fun _ => .pure ⟨.refl h, rfl⟩) fun _ => ?_
  split
  · exact .pure ⟨.refl h, rfl⟩
  · refine (after_dataAt _).bind fun bytes t ht => ?_
    rw [ht.1]
    exact .pure ⟨.refl h, rfl⟩
  · exact (reads_mountAt _).after fun _ => hdisk _ _
  · exact hdisk _ _

theorem Inv.loadCache {n : Node} (hf : s.heap.block p = some (.lnxFile f)) (he : Anchored s e)
    (flags : Nat) (fill : Nat → UInt8) :
    After (loadCache p e n flags fill) s fun _ t => Fine s t ∧
      ∃ g, t.heap.block p = some (.lnxFile g) := by
  refine .ite (fun _ => .pure ⟨.refl h, f, hf⟩) fun _ => ?_
  refine .ite (fun _ => ?_) fun _ => ?_
  · refine (h.setFile hf _ he fun q hq => by cases hq).bind fun _ t ht => ?_
    exact .pure ⟨ht.1, _, ht.2.1⟩
  refine (h.kmalloc (by simp)).option (fun _ ht => .pure ⟨ht.1.fine, f, ht.1.files p f hf⟩)
    fun c t ht => ?_
  obtain ⟨hkept, -, hr⟩ := ht
  obtain ⟨-, hc, -⟩ := hr c rfl
  refine (hkept.inv.fsReadFile e _ _).bind fun bytes u hu => ?_
  obtain ⟨hread, hheap⟩ := hu
  replace hkept := hkept.trans hread
  rw [← hheap] at hc
  have hstore := hkept.inv.storeData bytes hc
  refine .modify_bind ?_
  have hplain := hstore.grows.plain c (plain_of_data hc)
  have hanch := hstore.anchored (hkept.anchored he)
  refine (hstore.inv.setFile (hstore.files p f (hkept.files p f hf)) _ hanch fun q hq => ?_).bind
    fun _ v hv => ?_
  · cases hq
    exact hplain
  · exact .pure ⟨(hkept.fine.trans hstore.fine).trans hv.1, _, hv.2.1⟩

theorem Inv.openEntry (he : Anchored s e) (flags : Nat) (fill : Nat → UInt8)
    (fileNew fdInstall : Bool) :
    After (openEntry e flags fill fileNew fdInstall) s fun _ t => Fine s t := by
  refine (h.kmallocFile he rfl).option (fun _ ht => .pure ht.1)
    fun p t ht => ?_
  obtain ⟨hfine, hr⟩ := ht
  refine (after_nodeAt e).reads fun n _ => ?_
  refine (hfine.inv.loadCache (hr p rfl) (hfine.stays e he) flags fill).bind fun ok u hu => ?_
  obtain ⟨hload, g, hg⟩ := hu
  have hall := hfine.trans hload
  refine .ite (fun _ => ?_) fun _ => .ite (fun _ => ?_) fun _ =>
    .ite (fun _ => ?_) fun _ => .pure hall
  · exact (hload.inv.freeFile hg).bind fun _ v hv => .pure (hall.trans hv)
  · refine (after_fileAt p).reads fun g' hg' => ?_
    refine (hload.inv.kfreeIf (hload.inv.files p g' hg').2).bind fun _ w hw => ?_
    refine (hw.inv.freeFile (hw.files p g' hg')).bind fun _ x hx => ?_
    exact .pure ((hall.trans hw.fine).trans hx)
  · exact (hload.inv.vfsFClose p).bind fun _ v hv => .pure (hall.trans hv)

theorem Inv.fsSetCurrent (hp : Anchored s p) :
    Inv { s with current := p } ∅ ∅ ∧ ∀ q, Anchored { s with current := p } q ↔ Anchored s q := by
  have hg : Grows s { s with current := p } :=
    ⟨Nat.le_refl _, fun _ hq => hq, fun _ hm => hm⟩
  obtain ⟨hinv, hsame⟩ := h.agree (t := { s with current := p }) rfl hp rfl (Nat.le_refl _)
    (fun q n hq hn => ⟨n, hn, rfl, fun _ => rfl, (h.tree.nodeOk hq hn).grows hg⟩)
    (fun _ _ _ _ _ _ => rfl) (fun _ _ => rfl) (fun q f hf => h.files q f hf)
  exact ⟨hinv, hsame.anchored⟩

theorem Inv.createUnder (hp : Anchored s p) (base : CString) (makeDir : Bool) :
    After (createUnder p base makeDir) s fun r t => Moved s t ∧ ∀ e, r = some e → Anchored t e := by
  refine (after_nodeAt p).reads fun n _ => ?_
  refine .ite (fun _ => ?_) fun _ => ?_
  · exact .pure ⟨(Fine.refl h).moved, nofun⟩
  obtain ⟨hinv, hanchored⟩ := h.fsSetCurrent hp
  have hback : ∀ r t, Made { s with current := p } r t → After (do
      Vfs.fsSetCurrent s.current
      pure r) t fun r t => Moved s t ∧ ∀ e, r = some e → Anchored t e := by
    intro r t ht
    obtain ⟨hfine, hr⟩ := ht
    have hstays : ∀ q, Anchored s q → Anchored t q := fun q hq =>
      hfine.stays q ((hanchored q).mpr hq)
    obtain ⟨hinv', hanchored'⟩ := hfine.inv.fsSetCurrent (hstays _ h.current)
    refine .modify_bind (.pure ⟨⟨hinv', fun q hq => ?_⟩, fun e he => ?_⟩)
    · exact (hanchored' q).mpr (hstays q hq)
    · exact (hanchored' e).mpr (hr e he)
  refine .ite (fun _ => ?_) fun _ => ?_
  · exact (hinv.fsCreateDir base).bind hback
  · exact (hinv.fsCreateFile base).bind hback

section

variable (path : CString)
include path

theorem Inv.fsCreateAt (makeDir : Bool) :
    After (fsCreateAt path makeDir) s fun r t => Moved s t ∧ ∀ e, r = some e → Anchored t e := by
  simp only [Vfs.fsCreateAt]
  split
  · exact h.createUnder h.current _ _
  refine .ite (fun _ => .ite (fun _ => ?_) fun _ => ?_) fun _ => ?_
  · exact .pure ⟨(Fine.refl h).moved, nofun⟩
  · exact h.createUnder (below_root rfl) _ _
  refine (h.fsResolvePath _).option (fun _ ht => .pure ⟨ht.1.fine.moved, nofun⟩)
    fun parent t ht => ?_
  obtain ⟨hkept, hr⟩ := ht
  refine (hkept.inv.createUnder (hr parent rfl) _ _).mono fun r u hu => ?_
  exact ⟨hkept.fine.moved.trans hu.1, hu.2⟩

theorem Inv.lnxvfsOpen (flags : Nat) (fill : Nat → UInt8)
    (fileNew fdInstall : Bool) :
    After (lnxvfsOpen path flags fill fileNew fdInstall) s fun _ t => Moved s t := by
  refine .ite (fun _ => .pure (Fine.refl h).moved) fun _ => ?_
  refine (h.fsResolvePath path).bind fun r t ht => ?_
  obtain ⟨hkept, hr⟩ := ht
  have hdone := hkept.fine.moved
  cases r with
  | none =>
    refine .ite (fun _ => .pure hdone) fun _ => ?_
    refine (hkept.inv.fsCreateAt path false).option (fun _ hu => .pure (hdone.trans hu.1))
      fun e u hu => ?_
    obtain ⟨hmoved, hr'⟩ := hu
    refine (hmoved.inv.openEntry (hr' e rfl) _ _ _ _).mono fun _ v hv => ?_
    exact (hdone.trans hmoved).trans hv.moved
  | some e =>
    refine (after_nodeAt e).reads fun n _ => ?_
    refine .ite (fun _ => .pure hdone) fun _ => ?_
    exact (hkept.inv.openEntry (hr e rfl) _ _ _ _).mono fun _ v hv => hdone.trans hv.moved

theorem Inv.lnxvfsMkdir : After (lnxvfsMkdir path) s fun _ t => Moved s t := by
  refine .ite (fun _ => .pure (Fine.refl h).moved) fun _ => ?_
  refine (h.fsResolvePath path).bind fun r t ht => ?_
  cases r with
  | some _ => exact .pure ht.1.fine.moved
  | none =>
    exact (ht.1.inv.fsCreateAt path true).option
      (fun _ hu => .pure (ht.1.fine.moved.trans hu.1))
      fun _ _ hu => .pure (ht.1.fine.moved.trans hu.1)

theorem Inv.lnxvfsChdir : After (lnxvfsChdir path) s fun _ t => Moved s t := by
  refine .ite (fun _ => .pure (Fine.refl h).moved) fun _ => ?_
  refine (h.fsResolvePath path).option (fun _ ht => .pure ht.1.fine.moved) fun e t ht => ?_
  obtain ⟨hkept, hr⟩ := ht
  refine (after_nodeAt e).reads fun n _ => ?_
  refine .ite (fun _ => .pure hkept.fine.moved) fun _ => ?_
  obtain ⟨hinv, hanchored⟩ := hkept.inv.fsSetCurrent (hr e rfl)
  refine .modify_bind (.pure ⟨hinv, fun q hq => ?_⟩)
  exact (hanchored q).mpr (hkept.anchored hq)

end

/-! ### Writing through an open file -/

theorem Inv.krealloc {o : Option Nat} (ho : ∀ q, o = some q → Plain s q) (size : Nat)
    (inPlace : Bool) (fill : Nat → UInt8) :
    After (krealloc o size inPlace fill) s fun r t => Kept s ∅ ∅ t ∧
      ∀ c, r = some c → Plain t c := by
  have hmalloc : ∀ d, After (Vfs.kmalloc (.data d)) s fun r t => Kept s ∅ ∅ t ∧
      ∀ c, r = some c → Plain t c := by
    intro d
    refine (h.kmalloc (by simp)).mono fun r t ht => ⟨ht.1, fun c hc => ?_⟩
    exact plain_of_data (ht.2.2 c hc).2.1
  cases o with
  | none => exact hmalloc _
  | some q =>
    refine (after_dataAt q).reads fun bytes hbytes => ?_
    refine .ite (fun _ => ?_) fun _ => ?_
    · have hstore := h.storeData (grown bytes size fill) hbytes
      refine .modify_bind (.pure ⟨hstore, fun c hc => ?_⟩)
      cases hc
      exact hstore.grows.plain q (plain_of_data hbytes)
    refine (hmalloc _).option (fun _ ht => .pure ⟨ht.1, nofun⟩) fun c t ht => ?_
    obtain ⟨hkept, hr⟩ := ht
    have hfree := hkept.inv.freePlain (hkept.grows.plain q (ho q rfl))
    refine .modify_bind (.pure ⟨hkept.trans hfree, ?_⟩)
    intro c' hc'
    cases hc'
    exact hfree.grows.plain c (hr c rfl)

theorem Inv.writeAtPos (buf : List UInt8) : After (writeAtPos p buf) s fun _ t => Fine s t := by
  refine (after_fileAt p).reads fun f hf => ?_
  obtain ⟨hentry, hcache⟩ := h.files p f hf
  split
  · refine .ite (fun _ => after_none rfl) fun _ => ?_
    refine (h.setFile hf { f with dirty := true } hentry hcache).bind fun _ t ht => ?_
    exact .pure ht.1
  next c hc =>
    refine (after_dataAt c).reads fun bytes hbytes => ?_
    have hstore := h.storeData (overwrite bytes f.pos buf) hbytes
    refine .modify_bind ?_
    refine (hstore.inv.setFile (hstore.files p f hf)
      { f with pos := f.pos + buf.length, dirty := true } (hstore.anchored hentry)
      fun q hq => hstore.grows.plain q (hcache q hq)).bind fun _ v hv => ?_
    exact .pure (hstore.fine.trans hv.1)

theorem Inv.lnxvfsWrite (p : Nat) (buf : List UInt8) (inPlace : Bool) (fill : Nat → UInt8) :
    After (lnxvfsWrite p buf inPlace fill) s fun _ t => Fine s t := by
  refine (after_fileAt p).reads fun f hf => ?_
  obtain ⟨hentry, hcache⟩ := h.files p f hf
  refine (after_nodeAt _).reads fun n _ => ?_
  refine .ite (fun _ => .pure (.refl h)) fun _ => .ite (fun _ => ?_) fun _ => h.writeAtPos buf
  refine (h.krealloc hcache _ inPlace fill).option (fun _ ht => .pure ht.1.fine) fun c t ht => ?_
  obtain ⟨hkept, hr⟩ := ht
  refine (hkept.inv.setFile (hkept.files p f hf)
    { f with cache := some c, size := f.pos + buf.length } (hkept.anchored hentry)
    fun q hq => ?_).bind fun _ u hu => ?_
  · cases hq
    exact hr c rfl
  · have hall := hkept.fine.trans hu.1
    exact (hu.1.inv.writeAtPos buf).mono fun _ v hv => hall.trans hv

end

end Files

end Kil0yOS.Vfs
