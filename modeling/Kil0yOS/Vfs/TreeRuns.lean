/-
Runs of the file system's operations.

The tree, the current directory, the open files and the mounts are used by all operations
together.  Every run keeps what they point to allocated, as long as no step frees a part of
the tree that is still in use.  lnxvfs_rmdir and lnxvfs_unlink always do: they free the entry
and leave it in the table of its directory.
-/
import Kil0yOS.Lib.Run
import Kil0yOS.Vfs.TreeGone
import Kil0yOS.Vfs.TreeMount

namespace Kil0yOS.Vfs

open Lib

inductive Op where
  | createFile (name : CString)
  | createDir (name : CString)
  /-- fs_write_file on an entry that the caller looked up. -/
  | writeFile (entry : Nat) (data : Option (List UInt8))
  | deleteEntry (name : CString)
  | openFile (path : CString) (flags : Nat) (fill : Nat → UInt8) (fileNew fdInstall : Bool)
  /-- The close of the last descriptor of an open file. -/
  | close (file : Nat)
  | write (file : Nat) (buf : List UInt8) (inPlace : Bool) (fill : Nat → UInt8)
  | mkdir (path : CString)
  | rmdir (path : CString)
  | unlink (path : CString)
  | chdir (path : CString)
  | mount (devname mountpoint : CString) (writable : Bool)
  | umount (mountpoint : CString)

def Op.run (depth : Nat) : Op → V Bool
  | .createFile name => do
    let r ← fsCreateFile name
    pure r.isSome
  | .createDir name => do
    let r ← fsCreateDir name
    pure r.isSome
  | .writeFile entry data => do
    let r ← fsWriteFile entry data
    pure (0 ≤ r)
  | .deleteEntry name => fsDeleteEntry depth name
  | .openFile path flags fill fileNew fdInstall => do
    let r ← lnxvfsOpen path flags fill fileNew fdInstall
    pure r.isOk
  | .close file => do
    vfsFClose file
    pure true
  | .write file buf inPlace fill => do
    let r ← lnxvfsWrite file buf inPlace fill
    pure r.isOk
  | .mkdir path => do
    let r ← lnxvfsMkdir path
    pure r.isOk
  | .rmdir path => do
    let r ← lnxvfsRmdir depth path
    pure r.isOk
  | .unlink path => do
    let r ← lnxvfsUnlink depth path
    pure r.isOk
  | .chdir path => do
    let r ← lnxvfsChdir path
    pure r.isOk
  | .mount devname mountpoint writable => do
    let r ← ext2Mount depth devname mountpoint writable
    pure r.isSome
  | .umount mountpoint => ext2Umount depth mountpoint

def Op.removes : Op → Option CString
  | .deleteEntry path => some path
  | .rmdir path => some path
  | .unlink path => some path
  | _ => none

/-- What the caller of an operation owes: fs_write_file is given an entry of the tree. -/
def Op.Called (s : State) : Op → Prop
  | .writeFile entry _ => Anchored s entry
  | _ => True

def Step (s : State) (op : Op) (t : State) : Prop :=
  op.Called s ∧ ∃ depth r, op.run depth s = some (r, t)

structure Booted (s : State) : Prop where
  tree : Tree s {s.root}
  rootParent : ∀ n, s.heap.block s.root = some (.node n) → n.parent = none
  current : s.current = s.root
  mounts : s.mounts = []
  files : ∀ p f, s.heap.block p ≠ some (.lnxFile f)

def IsNode (s : State) (p : Nat) : Prop := ∃ n, s.heap.block p = some (.node n)

/-- Everything that the file system can come to is allocated. -/
structure Live (s : State) : Prop where
  node : ∀ p, Below (Child s) {s.root} p → IsNode s p
  table : ∀ p n q, Below (Child s) {s.root} p → s.heap.block p = some (.node n) →
    n.children = some q → ∃ slots, s.heap.block q = some (.table slots)
  current : IsNode s s.current
  files : ∀ p f, s.heap.block p = some (.lnxFile f) → IsNode s f.entry
  mounts : ∀ m ∈ s.mounts, ∃ M p, s.heap.block m = some (.mount M) ∧ M.target = some p ∧ IsNode s p

/-- The condition under which a step frees nothing that is in use.  A file is not unlinked,
and no empty directory is removed.  What is deleted is not in use and has a name of its own.
Nothing is open below a directory that is unmounted, and the buffers there were set. -/
def Safe (s : State) : Op → Prop
  | .deleteEntry name => Deletable s name
  | .unlink path => ∀ e s' n, fsResolvePath path s = some (some e, s') →
    s.heap.block e = some (.node n) → n.type ≠ .file
  | .rmdir path => ∀ e s' n q slots, fsResolvePath path s = some (some e, s') →
    s.heap.block e = some (.node n) → n.type = .directory → n.children = some q →
    s.heap.block q = some (.table slots) →
    e = s.root ∨ ∃ i ∈ List.range maxDirEntries, (slots i).isSome
  | .umount mountpoint => MountClear s mountpoint
  | _ => True

section Runs

variable {s t : State} {name path : CString} {op : Op} {α : Type}

theorem Booted.inv (h : Booted s) : Inv s ∅ ∅ where
  tree := by
    rw [insert_empty_eq]
    exact h.tree
  fresh hroot := hroot.elim
  rootParent := h.rootParent
  current := by
    rw [h.current]
    exact below_root rfl
  mounts m hm := by
    rw [h.mounts] at hm
    cases hm
  nodup := by
    rw [h.mounts]
    exact List.nodup_nil
  files p f hf := absurd hf (h.files p f)
  unused p hp := hp.elim

section

variable (h : Inv s ∅ ∅)
include h

theorem Inv.isNode {p : Nat} (hp : Anchored s p) : IsNode s p := by
  obtain ⟨n, hn, -⟩ := h.anchored_node hp
  exact ⟨n, hn⟩

theorem Inv.live : Live s where
  node p hp := h.isNode hp
  table p n q hp hn hq := by
    obtain ⟨slots, hslots, -⟩ := h.tree.table p n q (Anchored.below hp) hn hq
    exact ⟨slots, hslots⟩
  current := h.isNode h.current
  files p f hf := h.isNode (h.files p f hf).1
  mounts m hm := by
    obtain ⟨M, p, hM, htarget, hp⟩ := h.mounts m hm
    exact ⟨M, p, hM, htarget, h.isNode hp⟩

/-- What the lookup of a path that is not empty leaves. -/
theorem Inv.lookup (hpath : path ≠ []) :
    After (Vfs.fsResolvePath path) s fun r t => Inv t ∅ ∅ ∧ Looked s t ∧
      Vfs.fsResolvePath path s = some (r, t) := by
  obtain ⟨c, rest, rfl⟩ := List.exists_cons_of_ne_nil hpath
  intro r t hrun
  exact ⟨(h.fsResolvePath _ r t hrun).1.inv, (after_fsResolvePath c rest r t hrun).1, hrun⟩

/-- A path that leads to no file is not unlinked. -/
theorem Inv.lnxvfsUnlink (depth : Nat) (hsafe : Safe s (.unlink path)) :
    After (lnxvfsUnlink depth path) s fun r t => Inv t ∅ ∅ ∧ r.isOk = false := by
  refine .ite (fun _ => .pure ⟨h, rfl⟩) fun hpath => ?_
  refine (h.lookup hpath).option (fun _ ht => .pure ⟨ht.1, rfl⟩) fun e t ht => ?_
  obtain ⟨hinv, hlook, hrun⟩ := ht
  refine (after_nodeAt e).reads fun n hn => ?_
  have htype : n.type ≠ .file := hsafe e t n hrun (hlook.block ▸ hn)
  exact .ite (fun _ => .pure ⟨hinv, rfl⟩) fun hfile => absurd htype hfile

/-- A path that leads to no empty directory, the root apart, is not removed. -/
theorem Inv.lnxvfsRmdir (depth : Nat) (hsafe : Safe s (.rmdir path)) :
    After (lnxvfsRmdir depth path) s fun r t => Inv t ∅ ∅ ∧ r.isOk = false := by
  refine .ite (fun _ => .pure ⟨h, rfl⟩) fun hpath => ?_
  refine (h.lookup hpath).option (fun _ ht => .pure ⟨ht.1, rfl⟩) fun e t ht => ?_
  obtain ⟨hinv, hlook, hrun⟩ := ht
  refine (after_nodeAt e).reads fun n hn => ?_
  refine .ite (fun _ => .pure ⟨hinv, rfl⟩) fun htype => ?_
  refine slotsAt_bind fun q slots hq hslots => ?_
  refine .ite (fun _ => .pure ⟨hinv, rfl⟩) fun hempty => ?_
  refine .ite (fun _ => .pure ⟨hinv, rfl⟩) fun hroot => ?_
  rcases hsafe e t n q slots hrun (hlook.block ▸ hn) (not_not.mp htype) hq
    (hlook.block ▸ hslots) with heq | ⟨i, hi, hchild⟩
  · exact absurd (heq.trans hlook.root.symm) hroot
  · exact absurd (List.any_eq_true.mpr ⟨i, hi, hchild⟩) hempty

end

/-- What a removal that succeeded leaves of its path. -/
def Op.Gone (op : Op) (r : Bool) (t : State) : Prop :=
  r = true → ∀ p, op.removes = some p → ∃ u, fsResolvePath p t = some (none, u)

theorem Op.gone_of_none (hop : op.removes = none) (r : Bool) (t : State) : op.Gone r t := by
  intro _ p hp
  rw [hop] at hp
  cases hp

theorem keeps_of_after {x : V α} {f : α → Bool} (hop : op.removes = none)
    (h : After x s fun _ t => Inv t ∅ ∅) :
    After (do let r ← x; pure (f r)) s fun r t => Inv t ∅ ∅ ∧ op.Gone r t :=
  h.bind fun _ t ht => .pure ⟨ht, op.gone_of_none hop _ t⟩

theorem keeps_of_fails {x : V (Outcome α)} (h : After x s fun r t => Inv t ∅ ∅ ∧ r.isOk = false) :
    After (do let r ← x; pure r.isOk) s fun r t => Inv t ∅ ∅ ∧ op.Gone r t := by
  refine h.bind fun r t ht => .pure ⟨ht.1, ?_⟩
  rw [ht.2]
  exact nofun

theorem Inv.run (h : Inv s ∅ ∅) (op : Op) (hcalled : op.Called s) (hsafe : Safe s op)
    (depth : Nat) : After (op.run depth) s fun r t => Inv t ∅ ∅ ∧ op.Gone r t := by
  cases op with
  | createFile name => exact keeps_of_after rfl ((h.fsCreateFile name).mono fun _ _ ht => ht.1.inv)
  | createDir name => exact keeps_of_after rfl ((h.fsCreateDir name).mono fun _ _ ht => ht.1.inv)
  | writeFile entry data =>
    exact keeps_of_after rfl ((h.fsWriteFile hcalled data).mono fun _ _ ht => ht.1.inv)
  | deleteEntry name =>
    refine (h.fsDeleteEntry depth hsafe).mono fun r t ht => ⟨ht.1, fun hr p hp => ?_⟩
    cases hp
    exact ht.2 hr
  | openFile path flags fill fileNew fdInstall =>
    exact keeps_of_after rfl ((h.lnxvfsOpen path flags fill fileNew fdInstall).mono
      fun _ _ ht => ht.inv)
  | close file => exact keeps_of_after rfl ((h.vfsFClose file).mono fun _ _ ht => ht.inv)
  | write file buf inPlace fill =>
    exact keeps_of_after rfl ((h.lnxvfsWrite file buf inPlace fill).mono fun _ _ ht => ht.inv)
  | mkdir path => exact keeps_of_after rfl ((h.lnxvfsMkdir path).mono fun _ _ ht => ht.inv)
  | rmdir path => exact keeps_of_fails (h.lnxvfsRmdir depth hsafe)
  | unlink path => exact keeps_of_fails (h.lnxvfsUnlink depth hsafe)
  | chdir path => exact keeps_of_after rfl ((h.lnxvfsChdir path).mono fun _ _ ht => ht.inv)
  | mount devname mountpoint writable =>
    exact keeps_of_after rfl ((h.ext2Mount depth devname mountpoint writable).mono
      fun _ _ ht => ht.inv)
  | umount mountpoint =>
    exact (h.ext2Umount depth mountpoint hsafe).mono fun r t ht =>
      ⟨ht, Op.gone_of_none rfl r t⟩

theorem inv_of_reach (h : Reach Booted Safe Step s) : Inv s ∅ ∅ := by
  refine h.invariant (fun s hs => hs.inv) fun s op t hinv hsafe hstep => ?_
  obtain ⟨hcalled, depth, r, hrun⟩ := hstep
  exact (hinv.run op hcalled hsafe depth r t hrun).1

end Runs

/-! ## A root directory without entries -/

def bareRootNode : Node :=
  { blankNode [slash] .directory 0 none with parent := none, children := some 1 }

def bareRootHeap : Heap := .ofList [.node bareRootNode, emptyTable]

def bareRoot : State := .granting bareRootHeap

theorem bareRoot_hasTable {p q : Nat} {slots : Nat → Option Nat} (h : HasTable bareRoot p q slots) :
    p = 0 ∧ slots = fun _ => none := by
  obtain ⟨n, hn, hq, hslots⟩ := h
  change bareRootHeap.block p = _ at hn
  change bareRootHeap.block q = _ at hslots
  rcases p with _ | _ | p
  · cases hn
    cases hq
    cases hslots
    exact ⟨rfl, rfl⟩
  · cases hn
  · cases hn

theorem bareRoot_child (p c : Nat) : ¬ Child bareRoot p c := by
  rintro ⟨q, slots, i, ht, hc⟩
  obtain ⟨-, rfl⟩ := bareRoot_hasTable ht
  cases hc

theorem bareRoot_below {p : Nat} (h : Below (Child bareRoot) {0} p) : p = 0 := by
  rcases h.cases with hmem | ⟨d, -, hd⟩
  · exact Set.mem_singleton_iff.mp hmem
  · exact absurd hd (bareRoot_child d p)

theorem bareRoot_booted : Booted bareRoot where
  tree :=
    { node := fun p hp => by
        rw [bareRoot_below hp]
        exact ⟨bareRootNode, rfl, by decide, fun h => (by cases h), fun h => (by cases h)⟩
      table := fun p n q hp hn hq => by
        rw [bareRoot_below hp] at hn
        cases hn
        cases hq
        exact ⟨_, rfl, fun i _ => rfl, fun i j c hc => (by cases hc)⟩
      owner := fun p p' q slots _ _ h h' =>
        (bareRoot_hasTable h).1.trans (bareRoot_hasTable h').1.symm
      parent := fun p c n _ hc => absurd hc (bareRoot_child p c)
      roots := fun r _ p _ => bareRoot_child p r }
  rootParent n hn := by
    cases hn
    rfl
  current := rfl
  mounts := rfl
  files p f hf := by
    change bareRootHeap.block p = _ at hf
    rcases p with _ | _ | p
    all_goals cases hf

theorem bareRoot_step : ∃ t, Step bareRoot (.createFile [0x66]) t := by
  have hrun : ((Op.createFile [0x66]).run 1 bareRoot).isSome = true := by decide +kernel
  obtain ⟨⟨r, t⟩, ht⟩ := Option.isSome_iff_exists.mp hrun
  exact ⟨t, trivial, 1, r, ht⟩

/-- Whether slot `i` of the root directory holds an entry that is freed. -/
def danglingSlot (s : State) (i : Nat) : Bool :=
  match s.heap.block s.root with
  | some (.node n) =>
    match n.children.bind s.heap.block with
    | some (.table slots) => (slots i).any fun c => (s.heap.block c).isNone
    | _ => false
  | _ => false

theorem not_live_of_danglingSlot {s : State} {i : Nat} (h : danglingSlot s i = true) : ¬ Live s := by
  intro hlive
  simp only [danglingSlot] at h
  split at h
  next n hn =>
    split at h
    next slots hslots =>
      obtain ⟨q, hq, hslots⟩ := Option.bind_eq_some_iff.mp hslots
      cases hc : slots i with
      | none => simp [hc] at h
      | some c =>
        have hchild : Child s s.root c := ⟨q, slots, i, ⟨n, hn, hq, hslots⟩, hc⟩
        obtain ⟨m, hm⟩ := hlive.node c ((below_root (Set.mem_singleton s.root)).tail hchild)
        simp [hc, hm] at h
    next => cases h
  next => cases h

end Kil0yOS.Vfs
