/-
The FAT32 layer on the RAM disk (kernel/fs/fs.c, kernel/drivers/disk.c).

The boot sector is kept as its packed bytes.  A sector of the RAM disk can be read and
written whenever its number is in range; a request to the kernel heap may be refused.
A loop over a cluster chain is given fuel, and a call whose fuel runs out has no result:
on a cyclic chain the source does not return either.
-/
import Kil0yOS.Lib.Bytes

namespace Kil0yOS.Fs

open Lib

def diskSectorSize : Nat := 512
def diskMaxSectors : Nat := 65536
def fat32EocMark : Nat := 0x0FFFFFFF
def fat32IoError : Nat := 0xFFFFFFFF
def maxDirEntries : Nat := 2048
def maxPathLength : Nat := 260
def maxFileSize : Nat := 32 * 1024 * 1024

def attrVolumeId : Nat := 0x08
def attrDirectory : Nat := 0x10
def attrArchive : Nat := 0x20
def attrLongName : Nat := 0x0F

abbrev CString := List UInt8

inductive EntryType where
  | file
  | directory
deriving DecidableEq, Repr

/-- An fs_entry_t of the FAT backend, the one backend of the nodes on the RAM disk. -/
structure Entry where
  name : CString
  type : EntryType
  size : Nat
  firstCluster : Nat
  attributes : Nat
  diskName : List UInt8
  parent : Option Nat
  /-- The table of `maxDirEntries` pointers; `none` is the NULL of a regular file. -/
  children : Option (Nat → Option Nat)

/-- The statics of fs.c, the RAM disk, the nodes allocated, and the requests to the
kernel heap, in order, that fail from now on. -/
structure State where
  disk : Bytes
  bootSector : Bytes
  /-- The cached FAT, once fat_cache_ready is set. -/
  fatBuffer : Option Bytes
  fatAllocHint : Nat
  entries : Nat → Option Entry
  fresh : Nat
  root : Option Nat
  current : Option Nat
  fails : Nat → Bool

/-- A function of the file system.  No result: it does not return, or it follows a
pointer to no node. -/
abbrev F := StateT State Option

def stuck {α : Type} : F α := fun _ => none

def kmalloc : F Bool := fun s => some (! s.fails 0, { s with fails := fun n => s.fails (n + 1) })

def sectorOf (disk : Bytes) (sector : Nat) : Bytes := fun i =>
  if i < 512 then disk (512 * sector + i) else 0

def diskReadSector (sector : Nat) : F (Option Bytes) := fun s =>
  some (if sector < diskMaxSectors then some (sectorOf s.disk sector) else none, s)

def storeSector (disk : Bytes) (sector : Nat) (buffer : Bytes) : Bytes := fun a =>
  if a / 512 = sector then buffer (a % 512) else disk a

/-- True stands for 0 and false for -1. -/
def diskWriteSector (sector : Nat) (buffer : Bytes) : F Bool := fun s =>
  if sector < diskMaxSectors then some (true, { s with disk := storeSector s.disk sector buffer })
  else some (false, s)

namespace State

variable (s : State)

-- The fields of the boot sector, at their packed offsets.
def bytesPerSector : Nat := s.bootSector.get16 11
def sectorsPerCluster : Nat := (s.bootSector 13).toNat
def reservedSectors : Nat := s.bootSector.get16 14
def fatCount : Nat := (s.bootSector 16).toNat
def getSectorsPerFat : Nat := s.bootSector.get32 36
def rootCluster : Nat := s.bootSector.get32 44
def fsInfoSector : Nat := s.bootSector.get16 48

def getFirstFatSector : Nat := s.reservedSectors

def getFirstDataSector : Nat :=
  (s.getFirstFatSector + s.fatCount * s.getSectorsPerFat) % 2 ^ 32

variable (cluster : Nat)

def clusterToSector : Nat :=
  (s.getFirstDataSector + (cluster + 2 ^ 32 - 2) % 2 ^ 32 * s.sectorsPerCluster) % 2 ^ 32

def getFatEntrySector : Nat :=
  (s.getFirstFatSector + cluster * 4 % 2 ^ 32 / s.bytesPerSector) % 2 ^ 32

def getFatEntryOffset : Nat := cluster * 4 % 2 ^ 32 % s.bytesPerSector

def fatEntryCount : Nat := s.getSectorsPerFat * diskSectorSize % 2 ^ 32 / 4

def diskFatEntry : Nat :=
  if s.getFatEntrySector cluster < diskMaxSectors then
    s.disk.get32 (512 * s.getFatEntrySector cluster + s.getFatEntryOffset cluster)
  else fat32IoError

def fatEntry : Nat :=
  match s.fatBuffer with
  | some buf => if cluster < s.fatEntryCount then buf.get32 (cluster * 4) else s.diskFatEntry cluster
  | none => s.diskFatEntry cluster

end State

def fatCacheLoad : F Bool := do
  if ! (← kmalloc) then return false
  let s ← get
  -- The sectors are read in order; the first out of range ends the load.
  if s.getSectorsPerFat ≠ 0 ∧ diskMaxSectors < s.getFirstFatSector + s.getSectorsPerFat then
    return false
  set { s with fatBuffer := some fun i => s.disk (512 * s.getFirstFatSector + i) }
  return true

def fatReadEntry (cluster : Nat) : F Nat := fun s => some (s.fatEntry cluster, s)

/-- An entry put into the cached FAT, if it is cached. -/
def State.cacheEntry (s : State) (cluster value : Nat) : State :=
  match s.fatBuffer with
  | some buf =>
    if cluster < s.fatEntryCount then { s with fatBuffer := some (buf.put32 (cluster * 4) value) }
    else s
  | none => s

def fatWriteEntry (cluster value : Nat) : F Bool := do
  modify fun s => s.cacheEntry cluster value
  let s ← get
  let sector := s.getFatEntrySector cluster
  match ← diskReadSector sector with
  | none => return false
  | some buffer => diskWriteSector sector (buffer.put32 (s.getFatEntryOffset cluster) value)

def State.maxCluster (s : State) : Nat :=
  let dataSectors := (diskMaxSectors + 2 ^ 32 - s.getFirstDataSector) % 2 ^ 32
  min ((2 + dataSectors / s.sectorsPerCluster) % 2 ^ 32) s.fatEntryCount

def State.countFree (s : State) (max : Nat) : Nat :=
  ((List.range' 2 (max - 2)).filter fun c => s.fatEntry c == 0).length

def noteAlloc (cluster max : Nat) : F Unit := do
  let s ← get
  match ← diskReadSector s.fsInfoSector with
  | none => return ()
  | some buffer =>
    let buffer := buffer.put32 4 cluster
    let buffer :=
      if buffer.get32 0 = 0xFFFFFFFF then buffer.put32 0 (s.countFree max)
      else if 0 < buffer.get32 0 then buffer.put32 0 (buffer.get32 0 - 1)
      else buffer
    let _ ← diskWriteSector s.fsInfoSector buffer

/-- The scan of fat_alloc_cluster, from `cluster` on and around to `start`. -/
def allocScan (max start : Nat) : Nat → Nat → F Nat
  | 0, _ => pure 0
  | fuel + 1, cluster => do
    let next := if max ≤ cluster + 1 then 2 else cluster + 1
    let tryNext : F Nat := if next = start then pure 0 else allocScan max start fuel next
    if (← fatReadEntry cluster) = 0 then
      if ← fatWriteEntry cluster fat32EocMark then
        noteAlloc cluster max
        modify fun s => { s with fatAllocHint := next }
        return cluster
      else tryNext
    else tryNext

def fatAllocCluster : F Nat := do
  let s ← get
  let max := s.maxCluster
  let start := if s.fatAllocHint < 2 ∨ max ≤ s.fatAllocHint then 2 else s.fatAllocHint
  allocScan max start (max + 1) start

/-- The test of every loop over a chain. -/
def chainGoesOn (cluster : Nat) : Bool :=
  cluster ≠ 0 && cluster ≠ fat32EocMark && cluster ≠ fat32IoError

/-- The loop of fat_free_cluster_chain: whether it ended well, and how many were freed. -/
def freeLoop : Nat → Nat → Nat → F (Bool × Nat)
  | 0, _, _ => stuck
  | fuel + 1, cluster, freed => do
    if ! chainGoesOn cluster then return (true, freed)
    let next ← fatReadEntry cluster
    if next = fat32IoError then
      let _ ← fatWriteEntry cluster 0
      return (false, freed)
    if ! (← fatWriteEntry cluster 0) then return (false, freed)
    freeLoop fuel next (freed + 1)

def fatFreeClusterChain (fuel firstCluster : Nat) : F Bool := do
  modify fun s =>
    if 2 ≤ firstCluster ∧ firstCluster < s.fatAllocHint then { s with fatAllocHint := firstCluster }
    else s
  let (ok, freed) ← freeLoop fuel firstCluster 0
  if ! ok then return false
  if 0 < freed then
    let s ← get
    match ← diskReadSector s.fsInfoSector with
    | none => return true
    | some buffer =>
      let count := buffer.get32 0
      let buffer := if count = 0xFFFFFFFF then buffer else buffer.put32 0 (count + freed)
      let _ ← diskWriteSector s.fsInfoSector (buffer.put32 4 2)
      return true
  else return true

/-- A loop over a chain: `visit` looks at one cluster and may leave the loop with a
result.  A chain that ends gives its last cluster, 0 if there was none. -/
def walk {β : Type} (visit : Nat → F (Option β)) : Nat → Nat → Nat → F (β ⊕ Nat)
  | 0, _, _ => stuck
  | fuel + 1, prev, cluster => do
    if ! chainGoesOn cluster then return .inr prev
    match ← visit cluster with
    | some b => return .inl b
    | none => walk visit fuel cluster (← fatReadEntry cluster)

/-- The sectors of one cluster, in order; `look` may leave the loop with a result. -/
def eachSector {β : Type} (look : Nat → Bytes → F (Option β)) (unread : Option β) :
    Nat → Nat → F (Option β)
  | 0, _ => pure none
  | n + 1, sector => do
    match ← diskReadSector sector with
    | none => return unread
    | some buffer =>
      match ← look sector buffer with
      | some b => return some b
      | none => eachSector look unread n ((sector + 1) % 2 ^ 32)

/-- Looks at the sectors of a cluster; `unread` is the result when one cannot be read. -/
def inCluster {β : Type} (look : Nat → Bytes → F (Option β)) (unread : Option β)
    (cluster : Nat) : F (Option β) := do
  let s ← get
  eachSector look unread s.sectorsPerCluster (s.clusterToSector cluster)

def firstSlot (p : Nat → Bool) : Option Nat := (List.range 16).find? p

def slotName (buffer : Bytes) (i : Nat) : List UInt8 :=
  (List.range 11).map fun k => buffer (32 * i + k)

/-- A packed fat32_dir_entry_t, put at directory entry `i` of a sector. -/
def putDirEntry (buffer : Bytes) (i : Nat) (name : List UInt8) (attributes cluster size : Nat) :
    Bytes := fun a =>
  if a / 32 = i then
    let fields : Bytes := fun k => if k < 11 then name.getD k 0 else 0
    let fields := fields.set 11 (UInt8.ofNat attributes)
    let fields := ((fields.put16 20 (cluster / 65536)).put16 26 cluster).put32 28 size
    fields (a % 32)
  else buffer a

def zeroSector : Bytes := fun _ => 0

/-- The sectors of a fresh directory cluster: the first as given, the others zero. -/
def fillCluster : Nat → Nat → Bytes → F Bool
  | 0, _, _ => pure true
  | n + 1, sector, buffer => do
    if ! (← diskWriteSector sector buffer) then return false
    fillCluster n ((sector + 1) % 2 ^ 32) zeroSector

def fsWriteDirectoryEntry (fuel cluster : Nat) (name : List UInt8) (attributes first size : Nat) :
    F Bool := do
  let s ← get
  let cluster := if cluster = 0 then s.rootCluster else cluster
  let look (sector : Nat) (buffer : Bytes) : F (Option Bool) := do
    match firstSlot fun i => buffer (32 * i) == 0 || buffer (32 * i) == 0xE5 with
    | some i => return some (← diskWriteSector sector (putDirEntry buffer i name attributes first size))
    | none => return none
  match ← walk (inCluster look (some false)) fuel 0 cluster with
  | .inl ok => return ok
  | .inr prev =>
    let new ← fatAllocCluster
    if new = 0 then return false
    if prev = 0 then
      let _ ← fatWriteEntry new 0
      return false
    if ! (← fatWriteEntry prev new) then
      let _ ← fatWriteEntry new 0
      return false
    let s ← get
    if ← fillCluster s.sectorsPerCluster (s.clusterToSector new)
        (putDirEntry zeroSector 0 name attributes first size) then return true
    let _ ← fatWriteEntry new 0
    let _ ← fatWriteEntry prev fat32EocMark
    return false

-- Short names.

/-- The bytes of `* ? : " < > | / \`. -/
def illegalChars : List UInt8 := [0x2A, 0x3F, 0x3A, 0x22, 0x3C, 0x3E, 0x7C, 0x2F, 0x5C]

def toUpper (c : UInt8) : UInt8 := if 0x61 ≤ c ∧ c ≤ 0x7A then c - 32 else c

variable (name : CString)

def shortChars : List UInt8 :=
  (name.filter fun c => ! illegalChars.contains c).map toUpper

def padTo (n : Nat) (l : List UInt8) : List UInt8 := l ++ List.replicate (n - l.length) 0x20

/-- A first byte 0xE5 is stored as 0x05. -/
def escapeFirst : List UInt8 → List UInt8
  | c :: l => (if c = 0xE5 then 0x05 else c) :: l
  | [] => []

def stemOf : CString := name.takeWhile (· ≠ 0x2E)

def extOf : CString := (name.dropWhile (· ≠ 0x2E)).tail

def formatShortName : List UInt8 :=
  escapeFirst (padTo 8 (shortChars ((stemOf name).take 8))) ++
    padTo 3 (shortChars ((extOf name).take 3))

def fatShortNameExists (fuel cluster : Nat) (sn : List UInt8) : F Bool := do
  let s ← get
  let cluster := if cluster = 0 then s.rootCluster else cluster
  let look (_ : Nat) (buffer : Bytes) : F (Option Bool) :=
    match firstSlot fun i =>
        buffer (32 * i) == 0 || (buffer (32 * i) != 0xE5 && slotName buffer i == sn) with
    | some i => return some (buffer (32 * i) != 0)
    | none => return none
  match ← walk (inCluster look (some false)) fuel 0 cluster with
  | .inl found => return found
  | .inr _ => return false

def decimal (n : Nat) : List UInt8 := (Nat.toDigits 10 n).map fun c => UInt8.ofNat c.toNat

/-- The short name of the form NAME~N.EXT. -/
def mangled (n : Nat) : List UInt8 :=
  let num := decimal n
  let stem := ((shortChars (stemOf name)).take 6).take (6 - num.length)
  escapeFirst (padTo 8 (stem ++ 0x7E :: num)) ++ padTo 3 ((shortChars (extOf name)).take 3)

/-- The numbers still to try are the last `k` up to 999999. -/
def mangleLoop (fuel cluster : Nat) (name : CString) : Nat → List UInt8 → F (List UInt8)
  | 0, output => pure output
  | k + 1, _ => do
    let output := mangled name (999999 - k)
    if ← fatShortNameExists fuel cluster output then mangleLoop fuel cluster name k output
    else return output

def formatShortNameUnique (fuel : Nat) (name : CString) (dirCluster : Nat) : F (List UInt8) := do
  let output := formatShortName name
  let s ← get
  let dirCluster := if dirCluster = 0 then s.rootCluster else dirCluster
  if ← fatShortNameExists fuel dirCluster output then
    mangleLoop fuel dirCluster name 999999 output
  else return output

-- Formatting.

def formatSectorsPerFat : Nat → Nat → Nat
  | 0, spf => spf
  | iter + 1, spf =>
    let clusters := (diskMaxSectors - 32 - 1 * spf) / 1 + 2
    formatSectorsPerFat iter ((clusters * 4 + diskSectorSize - 1) / diskSectorSize)

def putString (b : Bytes) (i : Nat) (s : List UInt8) : Bytes := fun j =>
  if i ≤ j ∧ j < i + s.length then s.getD (j - i) 0 else b j

def fsTypeName : List UInt8 := [0x46, 0x41, 0x54, 0x33, 0x32, 0x20, 0x20, 0x20]

/-- The boot sector fs_format builds; what it leaves 0 is not listed. -/
def formatBootSector : Bytes :=
  let b := putString zeroSector 0 [0xEB, 0x58, 0x90]
  -- "KIL0YOS "
  let b := putString b 3 [0x4B, 0x49, 0x4C, 0x30, 0x59, 0x4F, 0x53, 0x20]
  let b := b.put16 11 diskSectorSize
  let b := b.set 13 1
  let b := b.put16 14 32
  let b := b.set 16 1
  let b := b.set 21 0xF8
  let b := b.put16 24 1
  let b := b.put16 26 1
  let b := b.put32 32 diskMaxSectors
  let b := b.put32 36 (formatSectorsPerFat 4 1)
  let b := b.put32 44 2
  let b := b.put16 48 1
  let b := b.set 64 0x80
  let b := b.set 66 0x29
  let b := b.put32 67 0x12345678
  -- "KIL0YOS    "
  let b := putString b 71 [0x4B, 0x49, 0x4C, 0x30, 0x59, 0x4F, 0x53, 0x20, 0x20, 0x20, 0x20]
  let b := putString b 82 fsTypeName
  b.put16 510 0xAA55

def clearSectors : Nat → Nat → F Unit
  | 0, _ => pure ()
  | n + 1, sector => do
    let _ ← diskWriteSector sector zeroSector
    clearSectors n (sector + 1)

/-- The first sector of the FAT as fs_format writes it: entries 0 and 1 only. -/
def formatFatSector : Bytes := (zeroSector.put32 0 0x0FFFFFF8).put32 4 fat32EocMark

def writeTables (sectorsPerFat : Nat) : F Unit := do
  modify fun s => { s with bootSector := formatBootSector }
  let _ ← diskWriteSector 0 formatBootSector
  -- The FSInfo structure is 488 bytes; the rest of the buffer still holds the boot sector.
  let _ ← diskWriteSector 1 fun i =>
    if i < 8 then 0xFF else if i < 488 then 0 else formatBootSector i
  clearSectors sectorsPerFat 32
  let _ ← diskWriteSector 32 formatFatSector
  clearSectors (sectorsPerFat - 1) 33

def fsFormat : F Unit := do
  writeTables (formatSectorsPerFat 4 1)
  let s ← get
  let _ ← diskWriteSector (s.clusterToSector 2) zeroSector

end Kil0yOS.Fs
