/-
Mounting and unmounting an ext2 file system (kernel/fs/ext2.c).

The tree is built from the entries the device offers, grafted under an empty directory,
and deleted again when the directory is unmounted.
-/
import Kil0yOS.Vfs.Nodes

namespace Kil0yOS.Vfs

def ext2MaxMounts : Nat := 4
def ext2MountpointMax : Nat := 64
def ext2RootIno : Nat := 2

def ext2NewNode (m : MntPtr) (name : CString) (type : NodeType) (ino size : Nat)
    (parent : Option Nat) : V (Option Nat) := do
  let n : Node :=
    { name := name.take 255
      type := type
      size := size
      backend := .ext2
      inodeNo := ino
      memData := none
      mnt := some m
      parent := parent
      children := none
      stored := [] }
  match ← kmalloc (.node n) with
  | none => pure none
  | some e =>
    match type with
    | .file => pure (some e)
    | .directory =>
      match ← kmalloc emptyTable with
      | none =>
        kfree e
        pure none
      | some t =>
        setNode e { n with children := some t }
        pure (some e)

/-- The loop of ext2_load_dir_recursive over the entries of one directory, the next child
going to slot `idx`. -/
def loadEntries (m : MntPtr) (load : Nat → V Unit) (dir : Nat) : Nat → List DiskEntry → V Unit
  | _, [] => pure ()
  | idx, e :: rest => do
    if maxDirEntries ≤ idx then pure ()
    else
      match ← ext2NewNode m e.name e.type e.ino e.size (some dir) with
      | none => loadEntries m load dir idx rest
      | some child =>
        let d ← nodeAt dir
        setSlot d.children idx (some child)
        if e.type = .directory then load child
        loadEntries m load dir (idx + 1) rest

/-- ext2_load_dir_recursive over directories at most `depth` deep. -/
def ext2LoadDirRecursive (m : MntPtr) (dev : Device) : Nat → Nat → V Unit
  | 0, _ => fault
  | depth + 1, dir => do
    let d ← nodeAt dir
    match dev.entries d.inodeNo with
    | none => pure ()
    | some entries =>
      let bbuf ← kmalloc (.data [])
      let ibuf ← kmalloc (.data [])
      match bbuf, ibuf with
      | some b, some i =>
        loadEntries m (ext2LoadDirRecursive m dev depth) dir 0 entries
        kfree b
        kfree i
      | b, i =>
        kfreeIf b
        kfreeIf i

def ext2BuildTreeM (m : MntPtr) (dev : Device) (depth : Nat) : V (Option Nat) := do
  match ← ext2NewNode m [slash] .directory ext2RootIno 0 none with
  | none => pure none
  | some root =>
    ext2LoadDirRecursive m dev depth root
    pure (some root)

def graftChildren (sub target : Nat) : Nat → List Nat → V Unit
  | _, [] => pure ()
  | idx, i :: is => do
    let s ← nodeAt sub
    let slots ← slotsAt s.children
    match slots i with
    | none => graftChildren sub target idx is
    | some c =>
      setSlot s.children i none
      let n ← nodeAt c
      setNode c { n with parent := some target }
      let t ← nodeAt target
      setSlot t.children idx (some c)
      graftChildren sub target (idx + 1) is

/-- The mounts of the table that have what `p` asks for. -/
def findMount (p : Mount → Bool) : List Nat → V (Option Nat)
  | [] => pure none
  | m :: ms => do
    if p (← mountAt m) then pure (some m) else findMount p ms

/-- The last part of ext2_mount: the mount point takes over the children of `sub` and
becomes the root directory of the mount. -/
def graftTree (m : Nat) (mount : Mount) (sub target : Nat) : V Unit := do
  graftChildren sub target 0 (List.range maxDirEntries)
  kfree sub
  let t ← nodeAt target
  setNode target { t with mnt := some (.inst m), backend := .ext2, inodeNo := ext2RootIno }
  modify fun s =>
    { s with
      heap := s.heap.store m (.mount { mount with target := some target, prevBackend := t.backend })
      mounts := s.mounts ++ [m] }

/-- ext2_mount, for a tree on the device of at most `depth` levels. -/
def ext2Mount (depth : Nat) (devname mountpoint : CString) (writable : Bool) : V (Option Nat) := do
  let s ← get
  if ext2MaxMounts ≤ s.mounts.length then pure none
  else
    match s.devices.findIdx? (fun d => d.name = devname),
        s.devices.find? (fun d => d.name = devname) with
    | some devIdx, some dev =>
      match ← findMount (fun m => m.dev = devIdx) s.mounts with
      | some _ => pure none
      | none =>
        match ← fsResolvePath mountpoint with
        | none => pure none
        | some target =>
          let t ← nodeAt target
          if t.type ≠ .directory then pure none
          else
            let slots ← slotsAt t.children
            if (List.range maxDirEntries).any fun i => (slots i).isSome then pure none
            else
              let mount : Mount :=
                { dev := devIdx
                  mountpoint := mountpoint.take (ext2MountpointMax - 1)
                  writable := writable
                  target := none
                  prevBackend := .fat }
              match ← kmalloc (.mount mount) with
              | none => pure none
              | some m =>
                -- ext2_probe_m asks the heap for one buffer and gives it back.
                let gb ← kmalloc (.data [])
                kfreeIf gb
                if ! dev.probes || gb.isNone then
                  kfree m
                  pure none
                else
                  match ← ext2BuildTreeM (.inst m) dev depth with
                  | none =>
                    kfree m
                    pure none
                  | some sub =>
                    graftTree m mount sub target
                    pure (some m)
    | _, _ => pure none

/-- The loop of a search below a node: some child has the property. -/
def anyChild (has : Nat → V Bool) (children : Option Nat) : List Nat → V Bool
  | [] => pure false
  | i :: is => do
    let slots ← slotsAt children
    match slots i with
    | none => anyChild has children is
    | some c =>
      if ← has c then pure true else anyChild has children is

def subtreeHasBackend (be : Backend) : Nat → Nat → V Bool
  | 0, _ => fault
  | depth + 1, dir => do
    let d ← nodeAt dir
    if d.backend = be then pure true
    else anyChild (subtreeHasBackend be depth) d.children (List.range maxDirEntries)

def subtreeHasNode (node : Nat) : Nat → Nat → V Bool
  | 0, _ => fault
  | depth + 1, dir => do
    if dir = node then pure true
    else
      let d ← nodeAt dir
      anyChild (subtreeHasNode node depth) d.children (List.range maxDirEntries)

/-- The walk up from the current directory: true if it comes by `target`. -/
def isAbove (target : Nat) : Nat → Option Nat → V Bool
  | _, none => pure false
  | 0, some _ => fault
  | depth + 1, some e => do
    if e = target then pure true
    else
      let n ← nodeAt e
      isAbove target depth n.parent

/-- The loop over the other mounts: true if the target of one lies below `target`. -/
def nestedMount (depth found target : Nat) : List Nat → V Bool
  | [] => pure false
  | m :: ms => do
    if m = found then nestedMount depth found target ms
    else
      let other ← mountAt m
      match other.target with
      | none => nestedMount depth found target ms
      | some t =>
        if ← subtreeHasNode t depth target then pure true
        else nestedMount depth found target ms

def dropMount (mounts : List Nat) (found : Nat) : List Nat :=
  match mounts.getLast? with
  | none => mounts
  | some last => (mounts.map fun m => if m = found then last else m).dropLast

/-- ext2_umount: true stands for 0 and false for -1. -/
def ext2Umount (depth : Nat) (mountpoint : CString) : V Bool := do
  let s ← get
  match ← findMount (fun m => m.mountpoint = mountpoint) s.mounts with
  | none => pure false
  | some found =>
    let m ← mountAt found
    match m.target with
    | none => fault
    | some target =>
      if ← isAbove target depth (some s.current) then pure false
      else if ← subtreeHasBackend .mem depth target then pure false
      else if ← nestedMount depth found target s.mounts then pure false
      else
        let t ← nodeAt target
        deleteChildren (fsDeleteEntryRecursive depth) t.children (List.range maxDirEntries)
        setNode target { t with mnt := none, backend := m.prevBackend, inodeNo := 0 }
        modify fun s => { s with mounts := dropMount s.mounts found }
        kfree found
        pure true

end Kil0yOS.Vfs
