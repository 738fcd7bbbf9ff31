/-
Opening and closing a file.

The content of the entry is copied into the buffer of a new open file, and the close of an
open file that was written to copies its buffer back.
-/
import Kil0yOS.Vfs.OpenFile

namespace Kil0yOS.Vfs

open Lib

/-! ## Writing back -/

/-- What a change of the content leaves. -/
structure Rewritten (h : Heap) (e : Nat) (bytes : List UInt8) (h' : Heap) : Prop
    extends Touches (Owns h e) h h' where
  stored : Stored h' e bytes

section Flush

variable {s : State} {h h' : Heap} {e f p : Nat} {n : Node} {F : LnxFile}
  {bytes stored data : List UInt8} {T : Nat → Prop}

theorem NodeBytes.store {m : Node} (hbytes : NodeBytes h m bytes)
    (hn : h.block e = some (.node n)) {b : Block} : NodeBytes (h.store e b) m bytes := by
  refine hbytes.congr fun p hp => ?_
  obtain ⟨c, hc, hne⟩ := hbytes.block hp
  exact store_of_ne (lt_next_of_block hn) (ne_of_block hc hn (hne n))

/-- The content on disk changes, and the node leads to the blocks it led to. -/
theorem rewritten_stored (hn : h.block e = some (.node n)) (htype : n.type = .file)
    (hbytes : NodeBytes h { n with size := bytes.length, stored := bytes } bytes) :
    Rewritten h e bytes (h.store e (.node { n with size := bytes.length, stored := bytes })) := by
  have he := lt_next_of_block hn
  exact ⟨(Touches.refl _ h).store he (.inl (.inl rfl)) fun q hq => .inl (.inr ⟨_, hn, hq⟩),
    _, store_self he, htype, rfl, hbytes.store hn⟩

theorem returns_fsWriteFileMem (ht : Touches (Owns h e) h s.heap)
    (hn : s.heap.block e = some (.node n)) (htype : n.type = .file) (hmem : n.backend = .mem)
    (hold : ∀ r, n.leads = some r → ∃ b, s.heap.block r = some b ∧ ∀ k, b ≠ .node k)
    (hheap : s.heapFails 0 = false) (data : List UInt8) :
    Returns (fsWriteFileMem e data) s fun _ t => Rewritten h e data t.heap := by
  refine (returns_kmalloc s _).bind fun r t hr => ?_
  rcases hr.2 with ⟨-, hfails, -⟩ | ⟨rfl, heq⟩
  · rw [hheap] at hfails
    cases hfails
  have halloc : Touches (Owns h e) h t.heap := heq ▸ ht.alloc fun _ hq => hq
  have hnt : t.heap.block e = some (.node n) := by
    rw [heq, alloc_of_lt (lt_next_of_block hn)]
    exact hn
  have hdata : t.heap.block s.heap.next = some (.data data) := by
    rw [heq]
    exact alloc_next
  refine returns_bind_of_some (nodeAt_of_node hnt) ?_
  have hleads : n.leads = n.memData := by simp only [Node.leads, hmem]
  -- What the free of the old buffer leaves.
  have hfree : Returns (kfreeIf n.memData) t fun _ u => Touches (Owns h e) h u.heap ∧
      u.heap.block e = some (.node n) ∧ u.heap.block s.heap.next = some (.data data) := by
    cases hr : n.memData with
    | none => exact .pure ⟨halloc, hnt, hdata⟩
    | some r =>
      have hr' : n.leads = some r := hleads.trans hr
      obtain ⟨b, hb, hne⟩ := hold r hr'
      have howned := halloc.owned e r (.inr ⟨_, hnt, hr'⟩)
      exact returns_modify.mpr ⟨halloc.free (howned.imp_right And.left),
        (free_of_ne (ne_of_block hb hn (hne n)).symm).trans hnt,
        (free_of_ne (lt_next_of_block hb).ne').trans hdata⟩
  refine hfree.bind fun _ u hu => ?_
  obtain ⟨htouch, hnu, hdata⟩ := hu
  have hlt := lt_next_of_block hnu
  refine returns_modify_bind.mpr (.pure ⟨htouch.store hlt (.inl (.inl rfl)) fun q hq => ?_,
    { n with memData := some s.heap.next, size := data.length }, store_self hlt, htype, rfl,
    NodeBytes.store ?_ hnu⟩)
  · simp only [Block.Owns, Node.leads, hmem] at hq
    cases hq
    exact .inr ⟨ht.next, lt_next_of_block hdata⟩
  · simp only [NodeBytes, Node.leads, hmem]
    exact hdata

/-- A file of a file system that cannot be written is from now on kept in memory. -/
theorem returns_shadow (hn : s.heap.block e = some (.node n)) (htype : n.type = .file)
    (hnone : n.memData = none) (hheap : s.heapFails 0 = false) (data : List UInt8) :
    Returns (do
      setNode e { n with backend := .mem }
      fsWriteFileMem e data) s fun _ t => Rewritten s.heap e data t.heap := by
  have he := lt_next_of_block hn
  have ht : Touches (Owns s.heap e) s.heap (s.heap.store e (.node { n with backend := .mem })) := by
    refine (Touches.refl _ _).store he (.inl (.inl rfl)) fun q hq => ?_
    cases hnone.symm.trans hq
  refine returns_modify_bind.mpr ?_
  refine returns_fsWriteFileMem (n := { n with backend := .mem }) ht (store_self he) htype rfl
    (fun r hr => ?_) ?_ data
  · cases hnone.symm.trans hr
  · exact hheap

theorem diskOp_of_false (hdisk : s.diskFails 0 = false) :
    diskOp s = some (true, { s with diskFails := fun k => s.diskFails (k + 1) }) := by
  simp [diskOp, hdisk]

theorem Stored.fsWriteFile (hst : Stored s.heap e stored) (hheap : s.heapFails 0 = false)
    (hdisk : s.diskFails 0 = false) (hlen : data.length ≤ maxFileSize) :
    Returns (fsWriteFile e (some data)) s fun _ t => Rewritten s.heap e data t.heap := by
  obtain ⟨⟨name, type, size, backend, ino, memData, mnt, parent, children, old⟩, hn, htype, hsize,
    hbytes⟩ := hst
  simp only [Vfs.fsWriteFile]
  refine returns_bind_of_some (nodeAt_of_node hn) ?_
  rw [if_neg (not_not.mpr htype), List.take_of_length_le hlen]
  cases backend with
  | mem => exact returns_fsWriteFileMem (.refl _ _) hn htype rfl (fun _ => hbytes.block) hheap data
  | ext2 =>
    rcases mnt with _ | _ | q
    · exact returns_shadow hn htype hbytes.2 hheap data
    · exact returns_shadow hn htype hbytes.2 hheap data
    obtain ⟨M, hM, -, hw⟩ := hbytes
    have hwritable : ext2MountIsWritable (some (.inst q)) s = some (M.writable, s) :=
      bind_of_some (mountAt_of_mount hM)
    refine returns_bind_of_some hwritable ?_
    cases hwr : M.writable with
    | false =>
      rw [hwr] at hw
      exact returns_shadow hn htype (hw.resolve_left Bool.false_ne_true) hheap data
    | true =>
      refine returns_bind_of_some (diskOp_of_false hdisk) (returns_modify_bind.mpr (.pure ?_))
      exact rewritten_stored hn htype ⟨M, hM, rfl, .inl hwr⟩
  | fat =>
    refine returns_bind_of_some (diskOp_of_false hdisk) (returns_modify_bind.mpr (.pure ?_))
    exact rewritten_stored hn htype rfl

/-- Whether a close changes the content.  Without a buffer there is nothing to write. -/
def LnxFile.waits (F : LnxFile) : Bool := F.dirty && F.cache.isSome

structure Closed (h : Heap) (e f : Nat) (stored : List UInt8) (h' : Heap) : Prop
    extends Touches (fun p => Owns h e p ∨ Owns h f p) h h' where
  stored : Stored h' e stored

theorem OpenAt.owns_iff (ho : OpenAt h e f F bytes) : Owns h f p ↔ p = f ∨ F.cache = some p := by
  simp [Owns, ho.file, Block.Owns]

theorem OpenAt.freeAll (ho : OpenAt s.heap e f F bytes) (ht : Touches T h s.heap)
    (hT : ∀ p, Owns s.heap f p → T p ∨ h.next ≤ p) :
    Returns (do
      kfreeIf F.cache
      kfree f) s fun _ t => Touches T h t.heap ∧
        ∀ p, ¬ Owns s.heap f p → t.heap.block p = s.heap.block p := by
  have hf : ∀ p, ¬ Owns s.heap f p → p ≠ f := fun p hp heq => hp (.inl heq)
  cases hc : F.cache with
  | none =>
    exact returns_modify.mpr ⟨ht.free (hT f (.inl rfl)), fun p hp => free_of_ne (hf p hp)⟩
  | some c =>
    have howns : Owns s.heap f c := ho.owns_iff.mpr (.inr hc)
    refine returns_modify_bind.mpr (returns_modify.mpr
      ⟨(ht.free (hT c howns)).free (hT f (.inl rfl)), fun p hp => ?_⟩)
    have hpc : p ≠ c := fun heq => hp (heq ▸ howns)
    exact (free_of_ne (hf p hp)).trans (free_of_ne hpc)

section

variable (ho : OpenAt s.heap e f F bytes) (hapart : ∀ p, Owns s.heap f p → ¬ Owns s.heap e p)
include ho hapart

theorem OpenAt.clean {h' : Heap} (hc : Closed s.heap e f stored h')
    (ho' : OpenAt h' e f F bytes) :
    Closed s.heap e f stored (h'.store f (.lnxFile { F with dirty := false })) ∧
      OpenAt (h'.store f (.lnxFile { F with dirty := false })) e f { F with dirty := false } bytes := by
  have hlt := lt_next_of_block ho'.file
  refine ⟨⟨hc.store hlt (.inl (.inr (.inl rfl))) fun q hq => .inl (.inr ⟨_, ho'.file, hq⟩),
    hc.stored.congr fun p hp => store_of_ne hlt ?_⟩, store_self hlt, ho'.entry,
    ho'.buffer.store ho'.file⟩
  rintro rfl
  exact hc.not_owns (lt_next_of_block ho.file) (hapart p (.inl rfl)) hp

variable (hst : Stored s.heap e stored)
  (hflush : F.dirty = true → s.heapFails 0 = false ∧ s.diskFails 0 = false ∧ F.size ≤ maxFileSize)
include hst hflush

theorem OpenAt.fdFlush : Returns (fdFlush f) s fun _ t =>
    Closed s.heap e f (if F.waits then bytes else stored) t.heap ∧
      OpenAt t.heap e f { F with dirty := false } bytes := by
  obtain ⟨dirty, entry, cache, size, pos⟩ := F
  obtain ⟨hfile, rfl, hbuf⟩ := id ho
  obtain ⟨n, hn, htype, -, -⟩ := id hst
  refine returns_bind_of_some (fileAt_of_file hfile) ?_
  cases dirty with
  | false => exact .pure ⟨⟨.refl _ _, hst⟩, ho⟩
  | true =>
    refine returns_bind_of_some (nodeAt_of_node hn) ?_
    rw [if_neg (not_not.mpr htype)]
    obtain ⟨hheap, hdisk, hsize⟩ := hflush rfl
    rcases hbuf with ⟨rfl, rfl, rfl⟩ | ⟨c, all, rfl, hall, hle, rfl⟩
    · -- Without a buffer fs_write_file refuses.
      have hnull : fsWriteFile entry none s = some (-1, s) := by
        simp only [fsWriteFile]
        rw [bind_of_some (nodeAt_of_node hn)]
        rfl
      exact returns_bind_of_some hnull (returns_modify.mpr (ho.clean hapart ⟨.refl _ _, hst⟩ ho))
    refine returns_bind_of_some (dataAt_of_data hall) ?_
    have hlen : (all.take size).length ≤ maxFileSize := by
      rw [List.length_take]
      exact (Nat.min_le_left _ _).trans hsize
    refine (hst.fsWriteFile hheap hdisk hlen).bind fun _ t ht => ?_
    have ho' := ho.congr fun p hp => ht.same p (ho.lt_next hp) (hapart p hp)
    exact returns_modify.mpr (ho.clean hapart ⟨ht.mono fun _ _ => .inl, ht.stored⟩ ho')

theorem OpenAt.vfsFClose : Returns (vfsFClose f) s fun _ t =>
    Closed s.heap e f (if F.waits then bytes else stored) t.heap := by
  refine (ho.fdFlush hapart hst hflush).bind fun _ t ht => ?_
  obtain ⟨hc, ho'⟩ := ht
  refine returns_bind_of_some (fileAt_of_file ho'.file) ?_
  have howns : ∀ p, Owns t.heap f p → Owns s.heap f p := fun p hp =>
    ho.owns_iff.mpr (ho'.owns_iff.mp hp)
  refine (ho'.freeAll hc.toTouches fun p hp => .inl (.inr (howns p hp))).mono fun _ u hu => ?_
  refine ⟨hu.1, hc.stored.congr fun p hp => hu.2 p fun hpf => ?_⟩
  exact hc.not_owns (ho.lt_next (howns p hpf)) (hapart p (howns p hpf)) hp

end

end Flush

/-! ## Opening -/

section Open

variable {s t : State} {e : Nat} {n : Node} {stored : List UInt8}

theorem returns_diskRead (hdisk : s.diskFails 0 = false) (stored buffer : List UInt8) (size : Nat) :
    Returns (diskRead stored buffer size) s fun r t =>
      r = stored.take size ++ buffer.drop (min size stored.length) ∧ t.heap = s.heap :=
  returns_bind_of_some (diskOp_of_false hdisk) (returns_get_bind.mpr (.pure ⟨rfl, rfl⟩))

/-- fs_read_file into a buffer of the size of the file, if the disk does not fail. -/
theorem Stored.fsReadFile (hst : Stored s.heap e stored) (hn : s.heap.block e = some (.node n))
    (hdisk : n.backend ≠ .mem → s.diskFails 0 = false) {buffer : List UInt8}
    (hlen : buffer.length = n.size) :
    Returns (fsReadFile e buffer n.size) s fun r t => r = stored ∧ t.heap = s.heap := by
  obtain ⟨n', hn', htype, hsize, hbytes⟩ := hst
  cases hn'.symm.trans hn
  obtain ⟨name, type, size, backend, ino, memData, mnt, parent, children, old⟩ := n
  have hall : stored.take size ++ buffer.drop size = stored := by
    simp [List.take_of_length_le hsize.ge, List.drop_eq_nil_of_le hlen.le]
  have hread : backend ≠ .mem → Returns (diskRead stored buffer size) s fun r t =>
      r = stored ∧ t.heap = s.heap := fun hback =>
    (returns_diskRead (hdisk hback) stored buffer size).mono fun r t hr =>
      ⟨by rw [hr.1, ← hsize, Nat.min_self, hall], hr.2⟩
  simp only [Vfs.fsReadFile]
  refine returns_bind_of_some (nodeAt_of_node hn) ?_
  simp only [if_neg (not_not.mpr htype), Nat.min_self]
  cases backend with
  | mem =>
    cases memData with
    | none =>
      obtain rfl : stored = [] := hbytes
      exact .pure ⟨List.eq_nil_of_length_eq_zero (hlen.trans hsize), rfl⟩
    | some r => exact returns_bind_of_some (dataAt_of_data hbytes) (.pure ⟨hall, rfl⟩)
  | ext2 =>
    rcases mnt with _ | _ | q
    · obtain ⟨rfl, -⟩ := hbytes
      exact hread (by simp)
    · obtain ⟨rfl, -⟩ := hbytes
      exact hread (by simp)
    · obtain ⟨M, hM, rfl, -⟩ := hbytes
      exact returns_bind_of_some (mountAt_of_mount hM) (hread (by simp))
  | fat =>
    obtain rfl : old = stored := hbytes
    exact hread (by simp)

def blankFile (e : Nat) : LnxFile := { dirty := false, entry := e, cache := none, size := 0, pos := 0 }

/-- What an open leaves: new blocks, with a copy of the content if it has made an open file. -/
structure Opened (h : Heap) (e : Nat) (stored : List UInt8) (r : Option Nat) (h' : Heap) : Prop
    extends Touches (fun _ => False) h h' where
  file : ∀ f, r = some f → h.next ≤ f ∧ ∃ F, OpenAt h' e f F stored ∧ F.dirty = false

theorem Stored.loadCache (hst : Stored s.heap e stored) (hn : s.heap.block e = some (.node n))
    {flags : Nat} (hflags : flags &&& lOTrunc = 0) (fill : Nat → UInt8)
    (hdisk : n.backend ≠ .mem → n.size ≠ 0 → t.diskFails 0 = false)
    (ht : t.heap = s.heap.alloc (.lnxFile (blankFile e))) :
    Returns (loadCache s.heap.next e n flags fill) t fun r u =>
      Opened s.heap e stored (if r then some s.heap.next else none) u.heap := by
  obtain ⟨n', hn', htype, hsize, hbytes⟩ := id hst
  cases hn'.symm.trans hn
  have hnew : Touches (fun _ => False) s.heap t.heap :=
    ht ▸ (Touches.refl _ _).alloc fun q hq => (by cases hq)
  have hfile : t.heap.block s.heap.next = some (.lnxFile (blankFile e)) := by
    rw [ht]
    exact alloc_next
  have hlt := lt_next_of_block hfile
  have hkeep : ∀ {h : Heap}, Touches (fun _ => False) s.heap h → Stored h e stored :=
    fun hh => hst.congr fun p hp => hh.same p (hst.lt_next hp) id
  simp only [Vfs.loadCache, if_neg (not_not.mpr htype), hflags, ne_eq, not_true_eq_false,
    decide_false, if_false]
  by_cases hzero : n.size = 0
  · -- An empty file needs no buffer.
    have hnil : stored = [] := List.eq_nil_of_length_eq_zero (hsize.symm.trans hzero)
    rw [if_pos hzero]
    refine returns_modify_bind.mpr (.pure ⟨hnew.store hlt (.inr (Nat.le_refl _)) fun q hq => ?_,
      fun f hf => ?_⟩)
    · cases hq
    · cases hf
      exact ⟨Nat.le_refl _, _, ⟨store_self hlt, rfl, .inl ⟨rfl, hzero, hnil⟩⟩, rfl⟩
  rw [if_neg hzero]
  refine (returns_kmalloc t _).bind fun r u hu => ?_
  obtain ⟨hfails, ⟨rfl, -, hheap⟩ | ⟨rfl, hheap⟩⟩ := hu
  · exact .pure ⟨hheap ▸ hnew, fun f hf => (by cases hf)⟩
  -- The content is read into a buffer of its size.
  have hnew' : Touches (fun _ => False) s.heap u.heap := hheap ▸ hnew.alloc fun _ hq => hq
  have hlen : (grown [] n.size fill).length = n.size := by simp [grown]
  refine ((hkeep hnew').fsReadFile ((hnew'.same e (lt_next_of_block hn) id).trans hn)
    (fun hback => (congrFun hfails 0).trans (hdisk hback hzero)) hlen).bind fun bytes v hv => ?_
  obtain ⟨rfl, hsame⟩ := hv
  have hdata : v.heap.block t.heap.next = some (.data (grown [] n.size fill)) := by
    rw [hsame, hheap]
    exact alloc_next
  have hfile' : v.heap.block s.heap.next = some (.lnxFile (blankFile e)) := by
    rw [hsame, hheap, alloc_of_lt hlt]
    exact hfile
  have hc := lt_next_of_block hdata
  have hput := (hsame ▸ hnew' : Touches _ s.heap v.heap).store (b := .data bytes) hc
    (.inr hnew.next) fun q hq => hq.elim
  have hf := (store_of_ne (b := .data bytes) hc hlt.ne).trans hfile'
  have hf' := lt_next_of_block hf
  refine returns_modify_bind.mpr (returns_modify_bind.mpr (.pure
    ⟨hput.store hf' (.inr (Nat.le_refl _)) fun q hq => ?_, fun f hfs => ?_⟩))
  · cases hq
    exact .inr ⟨hnew.next, lt_next_of_block (store_self hc)⟩
  · cases hfs
    refine ⟨Nat.le_refl _, _, ⟨store_self hf', rfl, .inr ⟨_, bytes, rfl, ?_, hsize.le, ?_⟩⟩, rfl⟩
    · exact (store_of_ne hf' hlt.ne').trans (store_self hc)
    · exact (List.take_of_length_le hsize.ge).symm

theorem Stored.openEntry (hst : Stored s.heap e stored) (hn : s.heap.block e = some (.node n))
    (flags : Nat) (hflags : flags &&& lOTrunc = 0)
    (hdisk : n.backend ≠ .mem → n.size ≠ 0 → s.diskFails 0 = false)
    (fill : Nat → UInt8) (fileNew fdInstall : Bool) :
    Returns (openEntry e flags fill fileNew fdInstall) s fun r t =>
      Opened s.heap e stored r.toOption t.heap := by
  have hfailed : ∀ {h : Heap}, Touches (fun _ => False) s.heap h → Opened s.heap e stored none h :=
    fun hh => ⟨hh, fun f hf => (by cases hf)⟩
  refine (returns_kmalloc s _).bind fun r t ht => ?_
  obtain ⟨hfails, ⟨rfl, -, hheap⟩ | ⟨rfl, hheap⟩⟩ := ht
  · exact .pure (hfailed (hheap ▸ .refl _ _))
  have hnt : t.heap.block e = some (.node n) := by
    rw [hheap, alloc_of_lt (lt_next_of_block hn)]
    exact hn
  refine returns_bind_of_some (nodeAt_of_node hnt) ?_
  refine (hst.loadCache hn hflags fill (fun hb hz => (congrFun hfails 0).trans (hdisk hb hz))
    hheap).bind fun loaded u hu => ?_
  cases loaded with
  | false =>
    -- There is no memory for the buffer.
    exact returns_modify_bind.mpr (.pure (hfailed (hu.free (.inr (Nat.le_refl _)))))
  | true =>
    obtain ⟨-, F, ho, hdirty⟩ := hu.file _ rfl
    have hnew : ∀ p, Owns u.heap s.heap.next p → False ∨ s.heap.next ≤ p := fun p hp =>
      .inr ((hu.owned_new (Nat.le_refl _) hp).elim (fun heq => heq.ge) And.left)
    have hfree := (ho.freeAll hu.toTouches hnew).mono fun _ v hv => hfailed hv.1
    cases fileNew with
    | false =>
      refine returns_bind_of_some (fileAt_of_file ho.file) ?_
      have hend := hfree.bind (R := fun r v => Opened s.heap e stored r.toOption v.heap)
        fun _ v hv => returns_pure (a := (.error lEnomem : Outcome Nat)).mpr hv
      rw [bind_assoc] at hend
      exact hend
    | true =>
      cases fdInstall with
      | false =>
        refine .bind ?_ fun _ v hv => .pure hv
        have hclean : Vfs.fdFlush s.heap.next u = some ((), u) := by
          simp only [Vfs.fdFlush]
          rw [bind_of_some (fileAt_of_file ho.file), hdirty]
          rfl
        exact returns_bind_of_some hclean (returns_bind_of_some (fileAt_of_file ho.file) hfree)
      | true => exact .pure hu

end Open

end Kil0yOS.Vfs
