/-
The tree of files and directories over the FAT layer (kernel/fs/fs.c).

A node is created, written and deleted together with its directory entry on disk and
its cluster chain, one after the other; what an operation did before an error exit
stays done unless that exit undoes it.
-/
import Kil0yOS.Fs.Fat
import Kil0yOS.Lib.Pieces

namespace Kil0yOS.Fs

open Lib

def deref (a : Nat) : F Entry := fun s => (s.entries a).map fun e => (e, s)

def setEntry (a : Nat) (e : Option Entry) : F Unit :=
  modify fun s => { s with entries := fun b => if b = a then e else s.entries b }

def childTable (e : Entry) : F (Nat → Option Nat) :=
  match e.children with
  | some table => pure table
  | none => stuck

def findChild (table : Nat → Option Nat) (name : CString) : Nat → Nat → F (Option Nat)
  | 0, _ => pure none
  | n + 1, i => do
    match table i with
    | none => findChild table name n (i + 1)
    | some c =>
      if (← deref c).name = name then return some i
      else findChild table name n (i + 1)

def components (path : CString) : List CString := pieces 0x2F path

def followPath : List CString → Nat → F (Option Nat)
  | [], a => pure (some a)
  | token :: rest, a => do
    if token = [0x2E] then followPath rest a
    else
      let e ← deref a
      if token = [0x2E, 0x2E] then followPath rest (e.parent.getD a)
      else
        let table ← childTable e
        match ← findChild table token maxDirEntries 0 with
        | none => return none
        | some i => followPath rest ((table i).getD a)

def fsResolvePath (path : CString) : F (Option Nat) := do
  let s ← get
  match path with
  | [] => return s.current
  | c :: tail =>
    let absolute := c == 0x2F
    let rest := if absolute then tail else path
    if rest = [] then return s.root
    if ! (← kmalloc) then return none
    match if absolute then s.root else s.current with
    | none => stuck
    | some start => followPath (components rest) start

def splitLastSlash (name : CString) : Option (CString × CString) := splitLast 0x2F name

def resolveParentAndName (name : CString) : F (Option Nat × CString) := do
  let s ← get
  match splitLastSlash name with
  | none => return (s.current, name)
  | some (dir, base) =>
    if 0 < dir.length ∧ dir.length < maxPathLength - 1 then return (← fsResolvePath dir, base)
    else if dir.length = 0 then return (s.root, base)
    else return (s.current, name)

def freeSlot (table : Nat → Option Nat) : Option Nat :=
  (List.range maxDirEntries).find? fun i => (table i).isNone

def linkChild (parent child : Nat) : F Unit := do
  let e ← deref parent
  let table ← childTable e
  match freeSlot table with
  | none => return ()
  | some i =>
    setEntry parent (some { e with children := some fun j => if j = i then some child else table j })

/-- The checks fs_create_file and fs_create_dir begin with: the directory to create in,
if there is nothing against it, and the base name. -/
def prepareCreate (name : CString) : F (Option (Nat × Entry × CString)) := do
  if 256 ≤ name.length then return none
  match ← resolveParentAndName name with
  | (none, _) => return none
  | (some parent, base) =>
    if base = [] then return none
    let e ← deref parent
    let table ← childTable e
    if (← findChild table base maxDirEntries 0).isSome then return none
    if (freeSlot table).isNone then return none
    return some (parent, e, base)

/-- An address for a node that kmalloc gave. -/
def newAddress : F Nat := fun s => some (s.fresh, { s with fresh := s.fresh + 1 })

def fsCreateFile (fuel : Nat) (name : CString) : F (Option Nat) := do
  match ← prepareCreate name with
  | none => return none
  | some (parent, dir, base) =>
    if ! (← kmalloc) then return none
    let diskName ← formatShortNameUnique fuel base dir.firstCluster
    if ! (← fsWriteDirectoryEntry fuel dir.firstCluster diskName attrArchive 0 0) then return none
    let a ← newAddress
    setEntry a (some
      { name := base
        type := .file
        size := 0
        firstCluster := 0
        attributes := attrArchive
        diskName := diskName
        parent := some parent
        children := none })
    linkChild parent a
    return some a

def dotSector (cluster parentCluster : Nat) : Bytes :=
  putDirEntry (putDirEntry zeroSector 0 [0x2E] attrDirectory cluster 0)
    1 [0x2E, 0x2E] attrDirectory parentCluster 0

def clearCluster : Nat → Nat → F Unit
  | 0, _ => pure ()
  | n + 1, sector => do
    let _ ← diskWriteSector sector zeroSector
    clearCluster n ((sector + 1) % 2 ^ 32)

def fsCreateDir (fuel : Nat) (name : CString) : F (Option Nat) := do
  match ← prepareCreate name with
  | none => return none
  | some (parent, dir, base) =>
    let new ← fatAllocCluster
    if new = 0 then return none
    let _ ← fatWriteEntry new fat32EocMark
    let s ← get
    let sector := s.clusterToSector new
    clearCluster s.sectorsPerCluster sector
    let parentCluster := if dir.firstCluster = 0 then s.rootCluster else dir.firstCluster
    let _ ← diskWriteSector sector (dotSector new parentCluster)
    let diskName ← formatShortNameUnique fuel base dir.firstCluster
    -- The node itself.
    if ! (← kmalloc) then
      let _ ← fatWriteEntry new 0
      return none
    -- Its child table; this exit gives back the node, but not the cluster.
    if ! (← kmalloc) then return none
    if ! (← fsWriteDirectoryEntry fuel dir.firstCluster diskName attrDirectory new 0) then
      let _ ← fatWriteEntry new 0
      return none
    let a ← newAddress
    setEntry a (some
      { name := base
        type := .directory
        size := 0
        firstCluster := new
        attributes := attrDirectory
        diskName := diskName
        parent := some parent
        children := some fun _ => none })
    linkChild parent a
    return some a

def dataSector (data : List UInt8) : Bytes := fun i => data.getD i 0

/-- The sectors of one cluster; gives what is left of the data, or `none` when a sector
cannot be written. -/
def writeSectors : Nat → Nat → List UInt8 → F (Option (List UInt8))
  | 0, _, data => pure (some data)
  | n + 1, sector, data => do
    if data = [] then return some []
    if ! (← diskWriteSector sector (dataSector (data.take diskSectorSize))) then return none
    writeSectors n ((sector + 1) % 2 ^ 32) (data.drop diskSectorSize)

/-- The clusters of a file from `cluster` on; false when the write has to be given up. -/
def writeClusters : Nat → Nat → List UInt8 → F Bool
  | 0, _, _ => stuck
  | fuel + 1, cluster, data => do
    if data = [] then return true
    let s ← get
    match ← writeSectors s.sectorsPerCluster (s.clusterToSector cluster) data with
    | none => return false
    | some [] => return true
    | some rest =>
      let next ← fatAllocCluster
      if next = 0 then return false
      if ! (← fatWriteEntry cluster next) then return false
      writeClusters fuel next rest

/-- Puts the new size and first cluster into the file's directory entry.  False when the
sector cannot be written back. -/
def updateDirEntry (fuel parentCluster : Nat) (diskName : List UInt8) (first size : Nat) :
    F Bool := do
  let look (sector : Nat) (buffer : Bytes) : F (Option Bool) := do
    match firstSlot fun i => slotName buffer i == diskName && buffer (32 * i) != 0xE5 with
    | none => return none
    | some i =>
      let buffer := (buffer.put16 (32 * i + 26) first).put16 (32 * i + 20) (first / 65536)
      return some (← diskWriteSector sector (buffer.put32 (32 * i + 28) size))
  match ← walk (inCluster look none) fuel 0 parentCluster with
  | .inl ok => return ok
  | .inr _ => return true

/-- The number of bytes written, or `none` for -1. -/
def fsWriteFile (fuel : Nat) (file : Nat) (data : List UInt8) : F (Option Nat) := do
  let e ← deref file
  if e.type ≠ .file then return none
  let data := data.take maxFileSize
  let first ← fatAllocCluster
  if first = 0 then return none
  if ! (← writeClusters fuel first data) then
    let _ ← fatFreeClusterChain fuel first
    return none
  let updated ← match e.parent with
    | none => pure true
    | some p => do updateDirEntry fuel (← deref p).firstCluster e.diskName first data.length
  if ! updated then
    let _ ← fatFreeClusterChain fuel first
    return none
  setEntry file (some { e with firstCluster := first, size := data.length })
  if e.firstCluster ≠ 0 then
    let _ ← fatFreeClusterChain fuel e.firstCluster
  return some data.length

mutual

def fsDeleteEntryRecursive : Nat → Nat → F Unit
  | 0, _ => stuck
  | fuel + 1, a => do
    let e ← deref a
    match e.type, e.children with
    | .directory, some table => deleteChildren fuel table maxDirEntries
    | _, _ => pure ()
    if e.firstCluster ≠ 0 then
      let _ ← fatFreeClusterChain (fuel + 1) e.firstCluster
    setEntry a none

def deleteChildren : Nat → (Nat → Option Nat) → Nat → F Unit
  | _, _, 0 => pure ()
  | 0, _, _ + 1 => stuck
  | fuel + 1, table, n + 1 => do
    match table (maxDirEntries - (n + 1)) with
    | some c => fsDeleteEntryRecursive fuel c
    | none => pure ()
    deleteChildren fuel table n

end

def markDeleted (fuel cluster : Nat) (diskName : List UInt8) : F Unit := do
  let look (sector : Nat) (buffer : Bytes) : F (Option Unit) := do
    match firstSlot fun i => slotName buffer i == diskName with
    | none => return none
    | some i =>
      let _ ← diskWriteSector sector (buffer.set (32 * i) 0xE5)
      return some ()
  let _ ← walk (inCluster look none) fuel 0 cluster

/-- True stands for 0 and false for -1. -/
def fsDeleteEntry (fuel : Nat) (name : CString) : F Bool := do
  match ← resolveParentAndName name with
  | (none, _) => return false
  | (some parent, base) =>
    if base = [] then return false
    let dir ← deref parent
    let table ← childTable dir
    match ← findChild table base maxDirEntries 0 with
    | none => return false
    | some i =>
      match table i with
      | none => return false
      | some c =>
        markDeleted fuel dir.firstCluster (← deref c).diskName
        fsDeleteEntryRecursive fuel c
        let dir ← deref parent
        setEntry parent (some
          { dir with children := dir.children.map fun t j => if j = i then none else t j })
        return true

-- Loading.

def isListed (buffer : Bytes) (i : Nat) : Bool :=
  buffer (32 * i) != 0xE5 && (buffer (32 * i + 11)).toNat &&& attrLongName != attrLongName &&
    (buffer (32 * i + 11)).toNat != attrVolumeId && buffer (32 * i) != 0x2E

/-- The listed entries of a sector before the end mark, each with its 32 bytes, and
whether the end mark is there. -/
def sectorEntries (buffer : Bytes) : List Bytes × Bool :=
  let upTo := (List.range 16).takeWhile fun i => buffer (32 * i) != 0
  ((upTo.filter (isListed buffer)).map fun i k => buffer (32 * i + k), upTo.length < 16)

/-- The sectors of one cluster: the entries found so far and whether the directory ended.
`none` when a sector cannot be read. -/
def clusterEntries : Nat → Nat → List Bytes → F (Option (List Bytes × Bool))
  | 0, _, found => pure (some (found, false))
  | n + 1, sector, found => do
    match ← diskReadSector sector with
    | none => return none
    | some buffer =>
      let (here, ended) := sectorEntries buffer
      if ended then return some (found ++ here, true)
      else clusterEntries n ((sector + 1) % 2 ^ 32) (found ++ here)

/-- One pass over the chain of a directory, the test of whose first cluster is `first`. -/
def passEntries (first : Nat → Bool) : Nat → Nat → List Bytes → F (Option (List Bytes))
  | 0, _, _ => stuck
  | fuel + 1, cluster, found => do
    if ! first cluster then return some found
    let s ← get
    match ← clusterEntries s.sectorsPerCluster (s.clusterToSector cluster) found with
    | none => return none
    | some (found, true) => return some found
    | some (found, false) => passEntries chainGoesOn fuel (← fatReadEntry cluster) found

/-- The listed entries of a directory; `none` for -1. -/
def readDirectoryEntries (fuel cluster : Nat) : F (Option (List Bytes)) := do
  let s ← get
  let cluster := if cluster = 0 then s.rootCluster else cluster
  -- The counting pass does not test its first cluster against the error value.
  match ← passEntries (fun c => c ≠ 0 && c ≠ fat32EocMark) fuel cluster [] with
  | none => return none
  | some counted =>
    let refused ← if 0 < counted.length then do pure (! (← kmalloc)) else pure false
    if refused then return none
    passEntries chainGoesOn fuel cluster []

def parseShortName (name : List UInt8) : CString :=
  let stem := (name.take 8).takeWhile (· ≠ 0x20)
  let ext := ((name.drop 8).take 3).takeWhile (· ≠ 0x20)
  if name.getD 8 0x20 ≠ 0x20 then stem ++ 0x2E :: ext else stem

def fsCreateEntryFromDir (entry : Bytes) (parent : Nat) : F (Option Nat) := do
  if ! (← kmalloc) then return none
  let name := (List.range 11).map entry
  let type : EntryType :=
    if (entry 11).toNat &&& attrDirectory ≠ 0 then .directory else .file
  let refused ← if type = .directory then do pure (! (← kmalloc)) else pure false
  if refused then return none
  let a ← newAddress
  setEntry a (some
    { name := parseShortName name
      type := type
      size := entry.get32 28
      firstCluster := entry.get16 20 * 65536 + entry.get16 26
      attributes := (entry 11).toNat
      diskName := name
      parent := some parent
      children := if type = .directory then some fun _ => none else none })
  return some a

mutual

def fsLoadDirectory : Nat → Nat → F Unit
  | 0, _ => stuck
  | fuel + 1, dir => do
    let e ← deref dir
    if e.type ≠ .directory then return ()
    match ← readDirectoryEntries (fuel + 1) e.firstCluster with
    | none => return ()
    | some entries => loadEntries fuel dir entries

def loadEntries : Nat → Nat → List Bytes → F Unit
  | _, _, [] => pure ()
  | 0, _, _ :: _ => stuck
  | fuel + 1, dir, entry :: rest => do
    let e ← deref dir
    let table ← childTable e
    if (freeSlot table).isNone then return ()
    match ← fsCreateEntryFromDir entry dir with
    | none => loadEntries fuel dir rest
    | some child =>
      linkChild dir child
      if (← deref child).type = .directory then fsLoadDirectory fuel child
      loadEntries fuel dir rest

end

def bootSectorOk (b : Bytes) : Bool :=
  ((List.range 8).map fun k => b (82 + k)) == fsTypeName && b.get16 510 == 0xAA55 &&
    b.get16 11 == diskSectorSize && b 13 != 0 && (b 13).toNat ≤ 128 && b 16 != 0

def rootEntry (rootCluster : Nat) : Entry :=
  { name := [0x2F]
    type := .directory
    size := 0
    firstCluster := rootCluster
    attributes := attrDirectory
    diskName := List.replicate 11 0
    parent := none
    children := some fun _ => none }

/-- The second half of fs_load: makes the root node and loads the tree below it. -/
def loadRoot (fuel : Nat) : F Bool := do
  if ! (← kmalloc) then
    modify fun s => { s with root := none }
    return false
  let a ← newAddress
  modify fun s => { s with root := some a }
  -- The exit without a child table returns NULL, which is 0, and leaves `root` behind.
  if ! (← kmalloc) then return true
  setEntry a (some (rootEntry (← get).rootCluster))
  fsLoadDirectory fuel a
  modify fun s => { s with current := some a }
  return true

/-- True stands for 0 and false for -1. -/
def fsLoad (fuel : Nat) : F Bool := do
  match ← diskReadSector 0 with
  | none => return false
  | some buffer =>
    modify fun s => { s with bootSector := buffer }
    if ! bootSectorOk buffer then return false
    if (← get).fatBuffer.isNone then
      let _ ← fatCacheLoad
    loadRoot fuel

end Kil0yOS.Fs
