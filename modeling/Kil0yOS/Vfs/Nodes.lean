/-
The tree of file system nodes (kernel/fs/fs.c), over all three backends.

Nodes, their tables of children and the buffers of memory files are blocks of one heap, and
a pointer to a block that was freed leads nowhere: a computation that follows it, or that
follows NULL, has no result.  A block's address is not used again.

What the disk does is not modelled here.  Each call into the FAT or ext2 layer succeeds or
fails as the state says, and the bytes a node has on disk are kept with the node.  The
error code that fs_get_last_error returns and the log are left out.
-/
import Mathlib.Algebra.GroupWithZero.Nat
import Kil0yOS.Lib.Pieces

namespace Kil0yOS.Vfs

open Function

/-- A C string: its bytes before the terminating zero. -/
abbrev CString := List UInt8

def maxPathLength : Nat := 260
def maxDirEntries : Nat := 2048
def maxFileSize : Nat := 32 * 1024 * 1024

def slash : UInt8 := 0x2F
def dot : CString := [0x2E]
def dotdot : CString := [0x2E, 0x2E]

inductive Backend where
  | fat
  | ext2
  | mem
deriving DecidableEq, Repr

inductive NodeType where
  | file
  | directory
deriving DecidableEq, Repr

/-- A pointer to an ext2_mount_t: the static one of the boot root, or a block. -/
inductive MntPtr where
  | boot
  | inst (p : Nat)
deriving DecidableEq, Repr

/-- The fields of an fs_entry_t that the functions below read.  `stored` are the bytes that
the cluster chain or the inode holds. -/
structure Node where
  name : CString
  type : NodeType
  size : Nat
  backend : Backend
  inodeNo : Nat
  memData : Option Nat
  mnt : Option MntPtr
  parent : Option Nat
  children : Option Nat
  stored : List UInt8

/-- An ext2_mount_t; the geometry it caches belongs to the disk. -/
structure Mount where
  dev : Nat
  mountpoint : CString
  writable : Bool
  target : Option Nat
  prevBackend : Backend

structure LnxFile where
  dirty : Bool
  entry : Nat
  cache : Option Nat
  size : Nat
  pos : Nat

inductive Block where
  | node (n : Node)
  | table (slots : Nat → Option Nat)
  | data (bytes : List UInt8)
  | mount (m : Mount)
  | lnxFile (f : LnxFile)

/-- The blocks allocated.  No address from `next` on has been handed out. -/
structure Heap where
  block : Nat → Option Block
  next : Nat
  above : ∀ p, next ≤ p → block p = none

namespace Heap

variable (h : Heap)

def alloc (b : Block) : Heap :=
  { block := update h.block h.next (some b)
    next := h.next + 1
    above := fun p hp => by
      rw [update_of_ne (by omega)]
      exact h.above p (by omega) }

def free (p : Nat) : Heap :=
  { block := update h.block p none
    next := h.next
    above := fun q hq => by
      by_cases hqp : q = p
      · simp [hqp]
      · rw [update_of_ne hqp]
        exact h.above q hq }

def store (p : Nat) (b : Block) : Heap :=
  if hp : p < h.next then
    { block := update h.block p (some b)
      next := h.next
      above := fun q hq => by
        rw [update_of_ne (by omega)]
        exact h.above q hq }
  else h

end Heap

/-- What the directory loop of the ext2 driver finds in a directory, "." and ".." apart. -/
structure DiskEntry where
  name : CString
  ino : Nat
  type : NodeType
  size : Nat

/-- A block device with an ext2 file system on it, as far as the tree is built from it. -/
structure Device where
  name : CString
  /-- Whether ext2_probe_m accepts it. -/
  probes : Bool
  /-- The entries of a directory inode, none where the inode is no readable directory. -/
  entries : Nat → Option (List DiskEntry)

structure State where
  heap : Heap
  root : Nat
  current : Nat
  /-- The mount table, in order. -/
  mounts : List Nat
  devices : List Device
  /-- Which of the coming requests to the heap fail. -/
  heapFails : Nat → Bool
  /-- Which of the coming calls into a disk layer fail, on the disk or for want of memory. -/
  diskFails : Nat → Bool
  /-- The inode numbers that the disk will hand out. -/
  inos : Nat → Nat
  /-- What a failed transfer leaves, of a file on disk or in a buffer. -/
  torn : List UInt8
  /-- What a pointer that was never set reads as. -/
  junk : Option Nat

/-- A function of the kernel.  No result: it does not return, or it follows a pointer to
nothing. -/
abbrev V := StateT State Option

def fault {α : Type} : V α := fun _ => none

def kmalloc (b : Block) : V (Option Nat) := fun s =>
  let s' := { s with heapFails := fun n => s.heapFails (n + 1) }
  if s.heapFails 0 then some (none, s')
  else some (some s.heap.next, { s' with heap := s.heap.alloc b })

def kfree (p : Nat) : V Unit := modify fun s => { s with heap := s.heap.free p }

/-- The outcome of a call into a disk layer: true stands for success. -/
def diskOp : V Bool := fun s =>
  some (! s.diskFails 0, { s with diskFails := fun n => s.diskFails (n + 1) })

/-- A call that makes an inode, as ext2_create_file and ext2_create_dir. -/
def diskCreate : V (Option Nat) := do
  if ! (← diskOp) then pure none
  else modifyGet fun s => (some (s.inos 0), { s with inos := fun n => s.inos (n + 1) })

def nodeAt (p : Nat) : V Node := fun s =>
  match s.heap.block p with
  | some (.node n) => some (n, s)
  | _ => none

def setNode (p : Nat) (n : Node) : V Unit := modify fun s =>
  { s with heap := s.heap.store p (.node n) }

def slotsAt (children : Option Nat) : V (Nat → Option Nat) := fun s =>
  match children with
  | none => none
  | some t =>
    match s.heap.block t with
    | some (.table slots) => some (slots, s)
    | _ => none

def setSlot (children : Option Nat) (i : Nat) (value : Option Nat) : V Unit := do
  let slots ← slotsAt children
  match children with
  | none => fault
  | some t => modify fun s => { s with heap := s.heap.store t (.table (update slots i value)) }

def mountAt (p : Nat) : V Mount := fun s =>
  match s.heap.block p with
  | some (.mount m) => some (m, s)
  | _ => none

def dataAt (p : Nat) : V (List UInt8) := fun s =>
  match s.heap.block p with
  | some (.data bytes) => some (bytes, s)
  | _ => none

def ext2MountIsWritable : Option MntPtr → V Bool
  | none => pure false
  -- The boot root is never writable.
  | some .boot => pure false
  | some (.inst p) => do
    let m ← mountAt p
    pure m.writable

/-- A parent whose new entries are made on disk by the ext2 driver. -/
def writableExt2 (n : Node) : V Bool :=
  if n.backend = .ext2 then ext2MountIsWritable n.mnt else pure false

/-! ## Paths -/

def tokens (path : CString) : List CString := Lib.pieces slash path

/-- The loops over a table of children that look for a name: the first index that holds a
child with it. -/
def findChild (slots : Nat → Option Nat) (name : CString) : List Nat → V (Option (Nat × Nat))
  | [] => pure none
  | i :: is =>
    match slots i with
    | none => findChild slots name is
    | some c => do
      let n ← nodeAt c
      if n.name = name then pure (some (i, c)) else findChild slots name is

def resolveTokens : Nat → List CString → V (Option Nat)
  | cur, [] => pure (some cur)
  | cur, tok :: rest => do
    if tok = dot then resolveTokens cur rest
    else
      let n ← nodeAt cur
      if tok = dotdot then
        resolveTokens (n.parent.getD cur) rest
      else
        let slots ← slotsAt n.children
        match ← findChild slots tok (List.range maxDirEntries) with
        | none => pure none
        | some (_, c) => resolveTokens c rest

def fsResolvePath (path : CString) : V (Option Nat) := do
  let s ← get
  match path with
  | [] => pure (some s.current)
  | c :: rest =>
    let start := if c = slash then s.root else s.current
    let path := if c = slash then rest else c :: rest
    if path = [] then pure (some s.root)
    else
      match ← kmalloc (.data path) with
      | none => pure none
      | some copy =>
        let r ← resolveTokens start (tokens path)
        kfree copy
        pure r

variable (name : CString)

def splitLast : Option (CString × CString) := Lib.splitLast slash name

def resolveParentAndName : V (Option Nat × CString) := do
  let s ← get
  match splitLast name with
  | none => pure (some s.current, name)
  | some (dirPath, base) =>
    if 0 < dirPath.length ∧ dirPath.length < maxPathLength - 1 then
      let parent ← fsResolvePath dirPath
      pure (parent, base)
    else if dirPath.length = 0 then pure (some s.root, base)
    else pure (some s.current, name)

/-! ## Creating -/

def firstFree (slots : Nat → Option Nat) : Option Nat :=
  (List.range maxDirEntries).find? fun i => (slots i).isNone

def linkChild (children : Option Nat) (entry : Nat) : V Unit := do
  let slots ← slotsAt children
  match firstFree slots with
  | none => pure ()
  | some i => setSlot children i (some entry)

/-- The checks that fs_create_file and fs_create_dir start with: the directory and the name,
if there is a directory that lacks the name and has room. -/
def createChecks : V (Option (Nat × Node × CString)) := do
  if 256 ≤ name.length then pure none
  else
    let (parent, base) ← resolveParentAndName name
    match parent with
    | none => pure none
    | some dir =>
      if base = [] then pure none
      else
        let n ← nodeAt dir
        let slots ← slotsAt n.children
        match ← findChild slots base (List.range maxDirEntries) with
        | some _ => pure none
        | none =>
          if (firstFree slots).isNone then pure none else pure (some (dir, n, base))

def blankNode (base : CString) (type : NodeType) (dir : Nat) (junk : Option Nat) : Node :=
  { name := base
    type := type
    size := 0
    backend := .mem
    inodeNo := 0
    memData := junk
    mnt := none
    parent := some dir
    children := none
    stored := [] }

def fsCreateFile : V (Option Nat) := do
  match ← createChecks name with
  | none => pure none
  | some (dir, d, base) =>
    let s ← get
    let blank := blankNode base .file dir s.junk
    match ← kmalloc (.node blank) with
    | none => pure none
    | some entry =>
      if d.backend ≠ .fat then
        if ← writableExt2 d then
          match ← diskCreate with
          | none =>
            kfree entry
            pure none
          | some ino =>
            -- mem_data stays unset.
            setNode entry { blank with backend := .ext2, inodeNo := ino, mnt := d.mnt }
            linkChild d.children entry
            pure (some entry)
        else
          setNode entry { blank with backend := .mem, memData := none }
          linkChild d.children entry
          pure (some entry)
      else
        setNode entry { blank with backend := .fat, memData := none }
        if ! (← diskOp) then
          kfree entry
          pure none
        else
          linkChild d.children entry
          pure (some entry)

def emptyTable : Block := .table fun _ => none

def fsCreateDir : V (Option Nat) := do
  match ← createChecks name with
  | none => pure none
  | some (dir, d, base) =>
    let s ← get
    let blank := blankNode base .directory dir s.junk
    if d.backend ≠ .fat then
      match ← kmalloc (.node blank) with
      | none => pure none
      | some entry =>
        match ← kmalloc emptyTable with
        | none =>
          kfree entry
          pure none
        | some t =>
          if ← writableExt2 d then
            match ← diskCreate with
            | none =>
              kfree entry
              pure none
            | some ino =>
              setNode entry
                { blank with backend := .ext2, inodeNo := ino, mnt := d.mnt, children := some t }
              linkChild d.children entry
              pure (some entry)
          else
            setNode entry { blank with backend := .mem, memData := none, children := some t }
            linkChild d.children entry
            pure (some entry)
    else
      -- fat_alloc_cluster
      if ! (← diskOp) then pure none
      else
        match ← kmalloc (.node blank) with
        | none => pure none
        | some entry =>
          match ← kmalloc emptyTable with
          | none =>
            kfree entry
            pure none
          | some t =>
            setNode entry { blank with backend := .fat, memData := none, children := some t }
            -- fs_write_directory_entry
            if ! (← diskOp) then
              kfree entry
              pure none
            else
              linkChild d.children entry
              pure (some entry)

/-! ## Contents -/

def kfreeIf : Option Nat → V Unit
  | none => pure ()
  | some p => kfree p

def fsWriteFileMem (file : Nat) (data : List UInt8) : V Int := do
  match ← kmalloc (.data data) with
  | none => pure (-1)
  | some buf =>
    let n ← nodeAt file
    kfreeIf n.memData
    setNode file { n with memData := some buf, size := data.length }
    pure data.length

/-- fs_write_file; `none` is a NULL buffer. -/
def fsWriteFile (file : Nat) (data : Option (List UInt8)) : V Int := do
  let n ← nodeAt file
  match data with
  | none => pure (-1)
  | some data =>
    if n.type ≠ .file then pure (-1)
    else
      let data := data.take maxFileSize
      match n.backend with
      | .mem => fsWriteFileMem file data
      | .ext2 =>
        if ← ext2MountIsWritable n.mnt then
          if ! (← diskOp) then
            let s ← get
            setNode file { n with stored := s.torn }
            pure (-1)
          else
            setNode file { n with size := data.length, stored := data }
            pure data.length
        else
          setNode file { n with backend := .mem }
          fsWriteFileMem file data
      | .fat =>
        if ! (← diskOp) then pure (-1)
        else
          setNode file { n with size := data.length, stored := data }
          pure data.length

/-- A read of a disk layer into a buffer. -/
def diskRead (stored buffer : List UInt8) (size : Nat) : V (List UInt8) := do
  let done ← diskOp
  let s ← get
  let bytes := if done then stored else s.torn
  pure (bytes.take size ++ buffer.drop (min size bytes.length))

/-- fs_read_file with a buffer of `size` bytes that holds `buffer`: what it holds after.  The
count, or -1, that is returned is left out: no caller below looks at it. -/
def fsReadFile (file : Nat) (buffer : List UInt8) (size : Nat) : V (List UInt8) := do
  let n ← nodeAt file
  if n.type ≠ .file then pure buffer
  else
    let size := min size n.size
    match n.backend, n.memData, n.mnt with
    | .mem, none, _ => pure buffer
    | .mem, some p, _ => do
      let bytes ← dataAt p
      pure (bytes.take size ++ buffer.drop size)
    | .ext2, _, some (.inst p) => do
      let _ ← mountAt p
      diskRead n.stored buffer size
    | _, _, _ => diskRead n.stored buffer size

/-! ## Deleting -/

def deleteChildren (delete : Nat → V Unit) (children : Option Nat) : List Nat → V Unit
  | [] => pure ()
  | i :: is => do
    let slots ← slotsAt children
    match slots i with
    | none => deleteChildren delete children is
    | some c => do
      delete c
      setSlot children i none
      deleteChildren delete children is

/-- fs_delete_entry_recursive on a tree of at most `depth` levels.  The clusters of a FAT
node are freed on disk. -/
def fsDeleteEntryRecursive : Nat → Nat → V Unit
  | 0, _ => fault
  | depth + 1, entry => do
    let n ← nodeAt entry
    match n.type, n.children with
    | .directory, some t =>
      deleteChildren (fsDeleteEntryRecursive depth) (some t) (List.range maxDirEntries)
      kfree t
    | _, _ => pure ()
    kfreeIf n.memData
    kfree entry

/-- True stands for 0 and false for -1. -/
def fsDeleteEntry (depth : Nat) (name : CString) : V Bool := do
  let (parent, base) ← resolveParentAndName name
  match parent with
  | none => pure false
  | some dir =>
    if base = [] then pure false
    else
      let d ← nodeAt dir
      let slots ← slotsAt d.children
      match ← findChild slots base (List.range maxDirEntries) with
      | none => pure false
      | some (i, c) =>
        fsDeleteEntryRecursive depth c
        setSlot d.children i none
        pure true

end Kil0yOS.Vfs
