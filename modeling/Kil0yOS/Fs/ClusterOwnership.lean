/-
Who owns the clusters of the RAM disk.

The root directory and every live node with a first cluster should own the clusters of
their chains, one owner for each cluster in use.  The formatter leaves the FAT entry of
the root directory's own cluster zero, so no run begins in such a state, and the first
cluster the allocator hands out is the root directory's.
-/
import Kil0yOS.Fs.Tree
import Kil0yOS.Lib.Chain

namespace Kil0yOS.Fs

open Lib State Bytes List Option

namespace State

variable (s : State)

def nextCluster (c : Nat) : Option Nat :=
  if s.fatEntry c = fat32EocMark then none else some (s.fatEntry c)

/-- Where the chain of an owner begins.  The owner `none` is the root directory; a node
without clusters has no chain. -/
def firstOf : Option Nat → Option Nat
  | none => some s.rootCluster
  | some a =>
    if s.root = some a then none
    else (s.entries a).bind fun e => if e.firstCluster = 0 then none else some e.firstCluster

/-- The chains are finite and disjoint, their clusters are in use, and every cluster in
use is on one. -/
structure OwnsClusters (chain : Option Nat → List Nat) : Prop where
  finite : ∀ o, Chain s.nextCluster (s.firstOf o) (chain o)
  used : ∀ o, ∀ c ∈ chain o, s.fatEntry c ≠ 0
  disjoint : ∀ o o', o ≠ o' → (chain o).Disjoint (chain o')
  cover : ∀ c, 2 ≤ c → c < s.fatEntryCount → s.fatEntry c ≠ 0 → ∃ o, c ∈ chain o

/-- Every cluster in use has exactly one owner. -/
def ClustersOwned : Prop := ∃ chain, s.OwnsClusters chain

end State

/-- The statics at boot, over any RAM disk and any refusals of the heap. -/
def boot (disk : Bytes) (fails : Nat → Bool) : State :=
  { disk := disk
    bootSector := zeroSector
    fatBuffer := none
    fatAllocHint := 2
    entries := fun _ => none
    fresh := 0
    root := none
    current := none
    fails := fails }

/-- The states in which fs_format and then fs_load have returned. -/
def Started (s : State) : Prop :=
  ∃ disk fails fuel ok, (do fsFormat; fsLoad fuel : F Bool) (boot disk fails) = some (ok, s)

inductive Call where
  | createFile (name : CString)
  | createDir (name : CString)
  | writeFile (file : Nat) (data : List UInt8)
  | deleteEntry (name : CString)

def Call.exec (fuel : Nat) : Call → F Unit
  | .createFile name => do let _ ← fsCreateFile fuel name
  | .createDir name => do let _ ← fsCreateDir fuel name
  | .writeFile file data => do let _ ← fsWriteFile fuel file data
  | .deleteEntry name => do let _ ← fsDeleteEntry fuel name

def Step (s s' : State) : Prop := ∃ fuel call, Call.exec fuel call s = some ((), s')

/-- The states of a run, in order: a started state, and one more after each call. -/
def IsRun (run : List State) : Prop :=
  ∃ s rest, run = s :: rest ∧ Started s ∧ IsChain Step (s :: rest)

section Format

variable (disk : Bytes) {β : Type}

def clearDisk (sector n : Nat) : Bytes := fun a =>
  if sector ≤ a / 512 ∧ a / 512 < sector + n then 0 else disk a

theorem bind_run {α : Type} (x : F α) (f : α → F β) (s : State) :
    (x >>= f) s = (x s).bind fun p => f p.1 p.2 := rfl

theorem get_run (f : State → F β) (s : State) : (get >>= f) s = f s s := rfl

theorem modify_run (g : State → State) (f : PUnit → F β) (s : State) :
    (modify g >>= f) s = f ⟨⟩ (g s) := rfl

theorem diskWriteSector_run {sector : Nat} (h : sector < diskMaxSectors) (buffer : Bytes)
    (s : State) : diskWriteSector sector buffer s =
      some (true, { s with disk := storeSector s.disk sector buffer }) := if_pos h

theorem clearSectors_run (n : Nat) : ∀ (sector : Nat) (s : State), sector + n ≤ diskMaxSectors →
    clearSectors n sector s = some ((), { s with disk := clearDisk s.disk sector n }) := by
  induction n with
  | zero =>
    intro sector s _
    have hdisk : clearDisk s.disk sector 0 = s.disk := by
      funext a
      exact if_neg (by omega)
    rw [hdisk]
    rfl
  | succ n ih =>
    intro sector s h
    rw [clearSectors, bind_run, diskWriteSector_run (by omega), bind_some,
      ih (sector + 1) _ (by omega)]
    have hdisk : clearDisk (storeSector s.disk sector zeroSector) (sector + 1) n =
        clearDisk s.disk sector (n + 1) := by
      unfold clearDisk storeSector zeroSector
      grind
    rw [hdisk]

theorem formatSectorsPerFat_eq : formatSectorsPerFat 4 1 = 508 := by decide

theorem formatBootSector_of_le {i : Nat} (h : 512 ≤ i) : formatBootSector i = 0 := by
  unfold formatBootSector
  rw [put16_of_out _ _ (by omega)]
  unfold putString
  rw [if_neg (by simp only [fsTypeName, length_cons, length_nil]; omega),
    if_neg (by simp only [length_cons, length_nil]; omega),
    put32_of_out _ _ (by omega), set_of_ne _ _ (by omega),
    set_of_ne _ _ (by omega), put16_of_out _ _ (by omega),
    put32_of_out _ _ (by omega), put32_of_out _ _ (by omega),
    put32_of_out _ _ (by omega), put16_of_out _ _ (by omega),
    put16_of_out _ _ (by omega), set_of_ne _ _ (by omega),
    set_of_ne _ _ (by omega), put16_of_out _ _ (by omega),
    set_of_ne _ _ (by omega), put16_of_out _ _ (by omega),
    if_neg (by simp only [length_cons, length_nil]; omega),
    if_neg (by simp only [length_cons, length_nil]; omega)]
  rfl

def tablesDisk (n : Nat) (disk : Bytes) : Bytes :=
  let disk := storeSector disk 0 formatBootSector
  let disk := storeSector disk 1 fun i =>
    if i < 8 then 0xFF else if i < 488 then 0 else formatBootSector i
  let disk := clearDisk disk 32 n
  let disk := storeSector disk 32 formatFatSector
  clearDisk disk 33 (n - 1)

theorem writeTables_run {n : Nat} (hn : n = 508) (s : State) :
    writeTables n s =
      some ((), { s with bootSector := formatBootSector, disk := tablesDisk n s.disk }) := by
  unfold writeTables
  rw [modify_run, bind_run, diskWriteSector_run (by decide), bind_some, bind_run,
    diskWriteSector_run (by decide), bind_some, bind_run,
    clearSectors_run n 32 _ (by rw [hn]; decide), bind_some,
    bind_run, diskWriteSector_run (by decide), bind_some,
    clearSectors_run (n - 1) 33 _ (by rw [hn]; decide)]
  rfl

theorem clusterToSector_two {s : State} (h : s.bootSector = formatBootSector) :
    s.clusterToSector 2 = 540 := by
  unfold clusterToSector getFirstDataSector getFirstFatSector
    reservedSectors fatCount getSectorsPerFat sectorsPerCluster
  rw [h]
  decide

def formatDisk : Bytes := storeSector (tablesDisk 508 disk) 540 zeroSector

theorem fsFormat_run (s : State) :
    fsFormat s =
      some ((), { s with bootSector := formatBootSector, disk := formatDisk s.disk }) := by
  unfold fsFormat formatDisk
  rw [bind_run, writeTables_run formatSectorsPerFat_eq, bind_some, get_run, clusterToSector_two rfl]
  rfl

theorem sectorOf_formatDisk_zero : sectorOf (formatDisk disk) 0 = formatBootSector := by
  funext i
  unfold sectorOf
  split
  next hi =>
    unfold formatDisk tablesDisk clearDisk storeSector
    have hdiv : (512 * 0 + i) / 512 = 0 := by omega
    have hmod : (512 * 0 + i) % 512 = i := by omega
    simp only [hdiv, hmod]
    rfl
  next hi => exact (formatBootSector_of_le (by omega)).symm

theorem sectorOf_formatDisk_root : sectorOf (formatDisk disk) 540 = zeroSector := by
  funext i
  unfold sectorOf zeroSector
  split
  next hi =>
    exact if_pos (by omega)
  next => rfl

theorem formatDisk_entry_two : (formatDisk disk).get32 (512 * 32 + 8) = 0 := by
  refine get32_zero fun j h₁ h₂ => ?_
  have hdiv : j / 512 = 32 := by omega
  unfold formatDisk tablesDisk clearDisk storeSector
  simp only [hdiv]
  show formatFatSector (j % 512) = 0
  unfold formatFatSector
  rw [put32_of_out _ _ (by omega), put32_of_out _ _ (by omega)]
  rfl

end Format

/-- What fs_format leaves for the driver, and fs_load keeps: the geometry, an empty root
directory whose cluster has a zero FAT entry, and the hint at that cluster. -/
structure FreshFat (s : State) : Prop where
  boot : s.bootSector = formatBootSector
  rootSector : sectorOf s.disk 540 = zeroSector
  entry : s.disk.get32 (512 * 32 + 8) = 0
  cached : ∀ buf, s.fatBuffer = some buf → buf.get32 8 = 0
  hint : s.fatAllocHint = 2

namespace FreshFat

variable {s : State}

section

variable (h : FreshFat s)
include h

theorem congr {s' : State} (hboot : s'.bootSector = s.bootSector)
    (hdisk : s'.disk = s.disk) (hfat : s'.fatBuffer = s.fatBuffer)
    (hhint : s'.fatAllocHint = s.fatAllocHint) : FreshFat s' :=
  ⟨hboot.trans h.boot, hdisk ▸ h.rootSector, hdisk ▸ h.entry, hfat ▸ h.cached, hhint.trans h.hint⟩

theorem rootCluster_eq : s.rootCluster = 2 := by
  unfold rootCluster
  rw [h.boot]
  decide

theorem sectorsPerCluster_eq : s.sectorsPerCluster = 1 := by
  unfold sectorsPerCluster
  rw [h.boot]
  decide

theorem fatEntrySector_two : s.getFatEntrySector 2 = 32 := by
  unfold getFatEntrySector getFirstFatSector reservedSectors bytesPerSector
  rw [h.boot]
  decide

theorem fatEntryOffset_two : s.getFatEntryOffset 2 = 8 := by
  unfold getFatEntryOffset bytesPerSector
  rw [h.boot]
  decide

theorem fatEntry_two : s.fatEntry 2 = 0 := by
  have hdisk : s.diskFatEntry 2 = 0 := by
    unfold diskFatEntry
    rw [h.fatEntrySector_two, h.fatEntryOffset_two]
    exact h.entry
  unfold fatEntry
  split
  next buf hbuf =>
    split
    · exact h.cached buf hbuf
    · exact hdisk
  next => exact hdisk

theorem not_clustersOwned : ¬ s.ClustersOwned := by
  intro ⟨chain, howns⟩
  have hroot := howns.finite none
  have hused := howns.used none
  rw [show s.firstOf none = some 2 from congrArg some h.rootCluster_eq] at hroot
  cases hl : chain none with
  | nil =>
    rw [hl] at hroot
    cases hroot
  | cons c l =>
    rw [hl] at hroot hused
    obtain ⟨hc, _⟩ := hroot
    cases hc
    exact hused 2 mem_cons_self h.fatEntry_two

end

end FreshFat

section Load

variable {s : State}

theorem kmalloc_run (s : State) :
    kmalloc s = some (! s.fails 0, { s with fails := fun n => s.fails (n + 1) }) := rfl

section

variable (h : FreshFat s)
include h

/-- A pass over the empty root directory finds nothing. -/
theorem passEntries_root (first : Nat → Bool) (hfirst : first 2 = true)
    (fuel : Nat) : passEntries first (fuel + 1) 2 [] s = some (some [], s) := by
  have hread : clusterEntries 1 540 [] s = some (some ([], true), s) := by
    rw [clusterEntries, bind_run]
    show (some (some (sectorOf s.disk 540), s)).bind _ = _
    rw [h.rootSector]
    rfl
  unfold passEntries
  rw [hfirst]
  rw [Bool.not_true, if_neg Bool.false_ne_true, get_run, clusterToSector_two h.boot,
    h.sectorsPerCluster_eq, bind_run, hread]
  rfl

theorem readDirectoryEntries_root (fuel : Nat) :
    readDirectoryEntries (fuel + 1) 2 s = some (some [], s) := by
  have hcount := passEntries_root h (fun c => c ≠ 0 && c ≠ fat32EocMark) (by decide) fuel
  have hcopy := passEntries_root h chainGoesOn (by decide) fuel
  unfold readDirectoryEntries
  rw [get_run, if_neg (by decide), bind_run, hcount]
  exact hcopy

theorem fsLoadDirectory_root {a : Nat} (ha : s.entries a = some (rootEntry 2))
    (fuel : Nat) : fsLoadDirectory (fuel + 1) a s = some ((), s) := by
  have hderef : deref a s = some (rootEntry 2, s) := by
    unfold deref
    rw [ha]
    rfl
  unfold fsLoadDirectory
  rw [bind_run, hderef, bind_some, if_neg (fun hne => hne rfl), bind_run,
    show (rootEntry 2).firstCluster = 2 from rfl, readDirectoryEntries_root h]
  cases fuel <;> rfl

theorem fatCacheLoad_run :
    ∃ ok s', fatCacheLoad s = some (ok, s') ∧ FreshFat s' := by
  have hspf : s.getSectorsPerFat = 508 ∧ s.getFirstFatSector = 32 := by
    unfold getSectorsPerFat getFirstFatSector reservedSectors
    rw [h.boot]
    decide
  unfold fatCacheLoad
  rw [bind_run, kmalloc_run, bind_some]
  cases hfail : s.fails 0 with
  | true => exact ⟨_, _, rfl, h.congr rfl rfl rfl rfl⟩
  | false =>
    rw [Bool.not_false, Bool.not_true, if_neg Bool.false_ne_true, get_run, if_neg (by
      show ¬ (s.getSectorsPerFat ≠ 0 ∧ diskMaxSectors < s.getFirstFatSector + s.getSectorsPerFat)
      rw [hspf.1, hspf.2]
      decide)]
    refine ⟨_, _, rfl, h.boot, h.rootSector, h.entry, ?_, h.hint⟩
    intro buf hbuf
    cases hbuf
    show (get32 (fun i => s.disk (512 * s.getFirstFatSector + i)) 8) = 0
    rw [hspf.2]
    exact h.entry

end

def withRoot (s : State) : State :=
  { s with
    fails := fun n => s.fails (n + 2)
    fresh := s.fresh + 1
    root := some s.fresh
    entries := fun b => if b = s.fresh then some (rootEntry s.rootCluster) else s.entries b }

theorem loadRoot_eq (fuel : Nat) (s : State) :
    loadRoot fuel s =
      if s.fails 0 then some (false, { s with fails := fun n => s.fails (n + 1), root := none })
      else if s.fails 1 then
        some (true, { s with
          fails := fun n => s.fails (n + 2), fresh := s.fresh + 1, root := some s.fresh })
      else (fsLoadDirectory fuel s.fresh (withRoot s)).bind fun p =>
        some (true, { p.2 with current := some s.fresh }) := by
  unfold loadRoot
  rw [bind_run, kmalloc_run, bind_some]
  cases s.fails 0 with
  | true => rfl
  | false =>
    simp only [Bool.not_false, Bool.not_true, Bool.false_eq_true, if_false]
    rw [bind_run, newAddress, bind_some, modify_run, bind_run, kmalloc_run]
    cases s.fails 1 with
    | true => rfl
    | false => rfl

/-- However much fuel there is, loading the root leaves the FAT as it was formatted. -/
theorem loadRoot_run (h : FreshFat s) :
    (∀ fuel ok s', loadRoot fuel s = some (ok, s') → FreshFat s') ∧
      ∃ ok s', loadRoot 1 s = some (ok, s') := by
  have hfresh : FreshFat (withRoot s) := h.congr rfl rfl rfl rfl
  have hroot : (withRoot s).entries s.fresh = some (rootEntry 2) := by
    rw [← h.rootCluster_eq]
    exact if_pos rfl
  have hload (fuel : Nat) :
      fsLoadDirectory (fuel + 1) s.fresh (withRoot s) = some ((), withRoot s) :=
    fsLoadDirectory_root hfresh hroot fuel
  constructor
  · intro fuel ok s' hrun
    rw [loadRoot_eq] at hrun
    split at hrun
    · cases hrun
      exact h.congr rfl rfl rfl rfl
    split at hrun
    · cases hrun
      exact h.congr rfl rfl rfl rfl
    cases fuel with
    | zero => cases hrun
    | succ fuel =>
      rw [hload] at hrun
      cases hrun
      exact hfresh.congr rfl rfl rfl rfl
  · rw [loadRoot_eq, hload]
    split
    · exact ⟨_, _, rfl⟩
    split
    all_goals exact ⟨_, _, rfl⟩

theorem fsLoad_run (h : FreshFat s) (hboot : sectorOf s.disk 0 = formatBootSector) :
    (∀ fuel ok s', fsLoad fuel s = some (ok, s') → FreshFat s') ∧
      ∃ ok s', fsLoad 1 s = some (ok, s') := by
  have hread : diskReadSector 0 s = some (some formatBootSector, s) := by
    rw [← hboot]
    rfl
  have hok : bootSectorOk formatBootSector = true := by decide
  have hsame : { s with bootSector := formatBootSector } = s := by
    rw [← h.boot]
  obtain ⟨ok, s₁, hcache, hfresh₁⟩ := fatCacheLoad_run h
  -- The cache is loaded only if it is not there yet.
  have hload (fuel : Nat) : fsLoad fuel s = loadRoot fuel (if s.fatBuffer.isNone then s₁ else s) := by
    unfold fsLoad
    rw [bind_run, hread, bind_some]
    simp only [hok, Bool.not_true, Bool.false_eq_true, if_false]
    rw [modify_run, hsame, get_run]
    cases s.fatBuffer with
    | none =>
      show ((fatCacheLoad >>= fun _ => loadRoot fuel) s) = _
      rw [bind_run, hcache]
      rfl
    | some _ => rfl
  have hfresh : FreshFat (if s.fatBuffer.isNone then s₁ else s) := by
    split
    · exact hfresh₁
    · exact h
  obtain ⟨hall, ok, s', hrun⟩ := loadRoot_run hfresh
  exact ⟨fun fuel ok s' hrun => hall fuel ok s' (hload fuel ▸ hrun), ok, s', (hload 1).trans hrun⟩

theorem freshFat_format (disk : Bytes) (fails : Nat → Bool) :
    FreshFat { boot disk fails with
      bootSector := formatBootSector, disk := formatDisk disk } :=
  ⟨rfl, sectorOf_formatDisk_root disk, formatDisk_entry_two disk, (fun _ h => nomatch h), rfl⟩

theorem Started.freshFat {s : State} (h : Started s) : FreshFat s := by
  obtain ⟨disk, fails, fuel, ok, hrun⟩ := h
  rw [bind_run, fsFormat_run] at hrun
  exact (fsLoad_run (freshFat_format disk fails) (sectorOf_formatDisk_zero disk)).1 fuel ok s hrun

theorem exists_started (disk : Bytes) (fails : Nat → Bool) :
    ∃ s fuel ok, (do fsFormat; fsLoad fuel : F Bool) (boot disk fails) = some (ok, s) := by
  obtain ⟨ok, s, hrun⟩ :=
    (fsLoad_run (freshFat_format disk fails) (sectorOf_formatDisk_zero disk)).2
  refine ⟨s, 1, ok, ?_⟩
  rw [bind_run, fsFormat_run]
  exact hrun

end Load

section Alloc

variable {s : State}

theorem noteAlloc_run (cluster max : Nat) (s : State) :
    ∃ s', noteAlloc cluster max s = some ((), s') := by
  unfold noteAlloc
  rw [get_run]
  unfold diskReadSector diskWriteSector
  split <;> exact ⟨_, rfl⟩

theorem fatWriteEntry_two (h : FreshFat s) (value : Nat) :
    ∃ s', fatWriteEntry 2 value s = some (true, s') := by
  have hsector (t : State) (ht : t.bootSector = s.bootSector) : t.getFatEntrySector 2 = 32 := by
    rw [← h.fatEntrySector_two]
    unfold getFatEntrySector getFirstFatSector reservedSectors bytesPerSector
    rw [ht]
  unfold fatWriteEntry
  rw [modify_run, get_run]
  have hboot : (s.cacheEntry 2 value).bootSector = s.bootSector := by
    unfold cacheEntry
    split
    · split <;> rfl
    · rfl
  rw [hsector _ hboot]
  exact ⟨_, rfl⟩

theorem fatAllocCluster_fresh (h : FreshFat s) :
    ∃ s', fatAllocCluster s = some (s.rootCluster, s') := by
  obtain ⟨s₁, hwrite⟩ := fatWriteEntry_two h fat32EocMark
  obtain ⟨s₂, hnote⟩ := noteAlloc_run 2 s.maxCluster s₁
  have hread : fatReadEntry 2 s = some (0, s) := by
    unfold fatReadEntry
    rw [h.fatEntry_two]
  unfold fatAllocCluster
  rw [get_run, h.hint, ite_self, h.rootCluster_eq, allocScan, bind_run, hread, bind_some, if_pos rfl,
    bind_run, hwrite, bind_some, if_pos rfl, bind_run, hnote]
  exact ⟨_, rfl⟩

end Alloc

/-- No run keeps one owner for each cluster in use: its first state does not have that,
and there the next cluster to be handed out is the root directory's own.  Formatting and
loading do return, on every RAM disk and whatever the heap refuses. -/
theorem no_run_keeps_clusters_owned (disk : Bytes) (fails : Nat → Bool) (run : List State) :
    (∃ s fuel ok, (do fsFormat; fsLoad fuel : F Bool) (boot disk fails) = some (ok, s)) ∧
      (IsRun run →
        (¬ ∀ s ∈ run, s.ClustersOwned) ∧
        ¬ ∀ s ∈ run, ∀ c s', fatAllocCluster s = some (c, s') → c ≠ s.rootCluster) := by
  refine ⟨exists_started disk fails, ?_⟩
  rintro ⟨s, rest, rfl, hstarted, -⟩
  have hfresh := hstarted.freshFat
  obtain ⟨s', halloc⟩ := fatAllocCluster_fresh hfresh
  refine ⟨fun hall => hfresh.not_clustersOwned (hall s mem_cons_self), fun hall => ?_⟩
  exact hall s mem_cons_self _ s' halloc rfl

/-- The run without a call on a RAM disk of zeros. -/
theorem formatted_root_cluster_unowned : ¬ ∀ run, IsRun run → ∀ s ∈ run, s.ClustersOwned := by
  intro hall
  obtain ⟨s, fuel, ok, hrun⟩ := exists_started zeroSector fun _ => false
  have hstarted : Started s := ⟨_, _, fuel, ok, hrun⟩
  exact hstarted.freshFat.not_clustersOwned
    (hall [s] ⟨s, [], rfl, hstarted, .singleton s⟩ s mem_cons_self)

end Kil0yOS.Fs
