/-
The block device layer and its MBR partitions (kernel/drivers/blkdev.c).

A device is a record with two functions, as in the source, and a partition's functions
call those of its parent.  What a call does to the disk is the request that reaches the
disk's driver.  Whether the driver then fails plays no part here.
-/
import Kil0yOS.Lib.Bytes

namespace Kil0yOS.Drivers

open Lib UInt32

inductive Direction where
  | read
  | write
deriving DecidableEq, Repr

structure Transfer where
  direction : Direction
  lba : UInt32
  count : UInt32
deriving DecidableEq, Repr

def Transfer.Touches (t : Transfer) (sector : Nat) : Prop :=
  t.lba.toNat ≤ sector ∧ sector < t.lba.toNat + t.count.toNat

/-- The functions `read` and `write` of a device, NULL where they are missing.  A call
that returns -1 before it reaches a driver makes no request. -/
structure Blkdev where
  name : List UInt8
  sectorCount : UInt32
  io : Direction → Option (UInt32 → UInt32 → Option Transfer)

variable {count lba n : UInt32} {d : Direction} {dev : Blkdev} {t : Transfer}

/-- The body that blkdev_read and blkdev_write share. -/
def blkdevIo (d : Direction) (dev : Blkdev) (lba count : UInt32) : Option Transfer :=
  match dev.io d with
  | none => none
  | some f =>
    if count = 0 then none
    else if dev.sectorCount ≤ lba ∨ dev.sectorCount - lba < count then none
    else f lba count

def blkdevRead : Blkdev → UInt32 → UInt32 → Option Transfer := blkdevIo .read

def blkdevWrite : Blkdev → UInt32 → UInt32 → Option Transfer := blkdevIo .write

structure Part where
  parent : Blkdev
  lbaStart : UInt32
  lbaCount : UInt32

/-- The body that part_read and part_write share. -/
def partIo (d : Direction) (p : Part) (lba count : UInt32) : Option Transfer :=
  if p.lbaCount ≤ lba ∨ p.lbaCount - lba < count then none
  else blkdevIo d p.parent (p.lbaStart + lba) count

def partRead : Part → UInt32 → UInt32 → Option Transfer := partIo .read

def partWrite : Part → UInt32 → UInt32 → Option Transfer := partIo .write

def Part.functions (p : Part) : Direction → Option (UInt32 → UInt32 → Option Transfer)
  | .read => some (partRead p)
  | .write => some (partWrite p)

structure PartEntry where
  type : UInt8
  start : UInt32
  count : UInt32
deriving DecidableEq, Repr

def partEntry (sec : Bytes) (slot : Nat) : PartEntry :=
  let e := 446 + slot * 16
  { type := sec (e + 4)
    start := UInt32.ofNat (sec.get32 (e + 8))
    count := UInt32.ofNat (sec.get32 (e + 12)) }

/-- A Linux entry outside the area of the boot loader. -/
def PartEntry.Usable (e : PartEntry) : Prop :=
  e.type = 0x83 ∧ e.count ≠ 0 ∧ 2048 ≤ e.start
deriving Decidable

/-- The name `<disk>p<slot>`, in a buffer of 12 bytes. -/
def partName (disk : List UInt8) (slot : Nat) : List UInt8 :=
  disk.take 10 ++ [0x70, 0x31 + UInt8.ofNat slot]

/-- What mbr_first_linux finds in the boot sector of `disk`, and the list of devices
after the call.  `sec` is the sector as the driver delivers it; the two truth values say
whether the requests to the heap are met. -/
def mbrFirstLinux (disk : Blkdev) (sec : Option Bytes) (partOk devOk : Bool)
    (devices : List Blkdev) : Option Blkdev × List Blkdev :=
  match blkdevRead disk 0 1, sec with
  | some _, some sec =>
    if sec 510 ≠ 0x55 ∨ sec 511 ≠ 0xAA then (none, devices)
    else
      match [0, 1, 2, 3].find? fun slot => (partEntry sec slot).Usable with
      | none => (none, devices)
      | some slot =>
        if ! partOk then (none, devices)
        else if ! devOk then (none, devices)
        else
          let e := partEntry sec slot
          let p : Part := { parent := disk, lbaStart := e.start, lbaCount := e.count }
          let dev : Blkdev :=
            { name := partName disk.name slot, sectorCount := e.count, io := p.functions }
          (some dev, dev :: devices)
  | _, _ => (none, devices)

/-- A whole disk: its driver takes every request it is given. -/
def wholeDisk (name : List UInt8) (sectorCount : UInt32) (has : Direction → Bool) : Blkdev :=
  { name := name
    sectorCount := sectorCount
    io := fun d => if has d then some fun lba count => some ⟨d, lba, count⟩ else none }

/-! ## Containment -/

/-- What the device returned does, entry by entry. -/
theorem mbrFirstLinux_eq_some {disk : Blkdev} {sec : Option Bytes} {partOk devOk : Bool}
    {devices : List Blkdev} (h : (mbrFirstLinux disk sec partOk devOk devices).1 = some dev) :
    (∃ t, blkdevRead disk 0 1 = some t) ∧ ∃ bytes slot, sec = some bytes ∧
      ([0, 1, 2, 3].find? fun slot => (partEntry bytes slot).Usable) = some slot ∧
      (partEntry bytes slot).Usable ∧
      dev.sectorCount = (partEntry bytes slot).count ∧
      dev.io = Part.functions
        { parent := disk
          lbaStart := (partEntry bytes slot).start
          lbaCount := (partEntry bytes slot).count } := by
  simp only [mbrFirstLinux] at h
  cases hread : blkdevRead disk 0 1 with
  | none => simp only [hread, reduceCtorEq] at h
  | some t =>
    cases sec with
    | none => simp only [hread, reduceCtorEq] at h
    | some bytes =>
      simp only [hread] at h
      by_cases hmagic : bytes 510 ≠ 0x55 ∨ bytes 511 ≠ 0xAA
      · simp only [if_pos hmagic, reduceCtorEq] at h
      rw [if_neg hmagic] at h
      cases hfind : [0, 1, 2, 3].find? fun slot => (partEntry bytes slot).Usable with
      | none => simp only [hfind, reduceCtorEq] at h
      | some slot =>
        simp only [hfind] at h
        split_ifs at h with hpart hdev
        have husable : (partEntry bytes slot).Usable := by
          simpa only [decide_eq_true_eq] using List.find?_some hfind
        cases h
        exact ⟨⟨t, rfl⟩, bytes, slot, rfl, hfind, husable, rfl, rfl⟩

theorem blkdevIo_eq_some (h : blkdevIo d dev lba count = some t) :
    ∃ f, dev.io d = some f ∧ count ≠ 0 ∧ lba < dev.sectorCount ∧
      count ≤ dev.sectorCount - lba ∧ f lba count = some t := by
  simp only [blkdevIo] at h
  cases hf : dev.io d with
  | none => simp only [hf, reduceCtorEq] at h
  | some f =>
    simp only [hf] at h
    split_ifs at h with hcount hrange
    obtain ⟨hlba, hlen⟩ := not_or.mp hrange
    exact ⟨f, rfl, hcount, UInt32.not_le.mp hlba, UInt32.not_lt.mp hlen, h⟩

theorem not_outside (hlba : lba < n) (hlen : count ≤ n - lba) : ¬ (n ≤ lba ∨ n - lba < count) :=
  not_or.mpr ⟨UInt32.not_le.mpr hlba, UInt32.not_lt.mpr hlen⟩

theorem blkdevIo_of_ok {f : UInt32 → UInt32 → Option Transfer} (hf : dev.io d = some f)
    (hcount : count ≠ 0) (hlba : lba < dev.sectorCount) (hlen : count ≤ dev.sectorCount - lba) :
    blkdevIo d dev lba count = f lba count := by
  simp [blkdevIo, hf, hcount, not_outside hlba hlen]

theorem Part.functions_eq (p : Part) (d : Direction) : p.functions d = some (partIo d p) := by
  cases d <;> rfl

/-- Every request to the device stays in `[start, start + count)` of its entry and away
from the first 2048 sectors. -/
def Contained (dev : Blkdev) (start count : UInt32) : Prop :=
  ∀ d lba n t, blkdevIo d dev lba n = some t → ∀ sector, t.Touches sector →
    start.toNat ≤ sector ∧ sector < start.toNat + count.toNat ∧ 2048 ≤ sector

section Partition

variable {name : List UInt8} {size : UInt32} {has : Direction → Bool} {dev : Blkdev}
  {start count : UInt32}

theorem toNat_add_of_fits (hlba : lba < count) (hfits : start.toNat + count.toNat ≤ 2 ^ 32) :
    (start + lba).toNat = start.toNat + lba.toNat := by
  have hlt : lba.toNat < count.toNat := lt_iff_toNat_lt.mp hlba
  rw [UInt32.toNat_add]
  omega

theorem toNat_add_le_of_le_sub (hlba : lba < count) (hlen : n ≤ count - lba) :
    lba.toNat + n.toNat ≤ count.toNat := by
  have hlt : lba.toNat < count.toNat := lt_iff_toNat_lt.mp hlba
  have hle : n.toNat ≤ (count - lba).toNat := le_iff_toNat_le.mp hlen
  rw [UInt32.toNat_sub_of_le _ _ (UInt32.le_of_lt hlba)] at hle
  omega

variable (hsize : dev.sectorCount = count) (hio : dev.io = Part.functions
  { parent := wholeDisk name size has, lbaStart := start, lbaCount := count })
include hsize hio

/-- A request to a partition of a whole disk arrives at the sector `start + lba`, reduced
to 32 bits. -/
theorem part_transfer (h : blkdevIo d dev lba n = some t) :
    n ≠ 0 ∧ lba < count ∧ n ≤ count - lba ∧ t = ⟨d, start + lba, n⟩ := by
  obtain ⟨f, hf, hn, hlba, hlen, hcall⟩ := blkdevIo_eq_some h
  rw [hio, Part.functions_eq] at hf
  cases hf
  rw [hsize] at hlba hlen
  simp only [partIo, if_neg (not_outside hlba hlen)] at hcall
  obtain ⟨g, hg, -, -, -, hdriver⟩ := blkdevIo_eq_some hcall
  simp only [wholeDisk] at hg
  split_ifs at hg
  cases hg
  cases hdriver
  exact ⟨hn, hlba, hlen, rfl⟩

/-- If the entry ends inside the 32-bit sector numbers, no request leaves it. -/
theorem contained_of_fits (hstart : 2048 ≤ start) (hfits : start.toNat + count.toNat ≤ 2 ^ 32) :
    Contained dev start count := by
  intro d lba n t ht sector htouch
  obtain ⟨-, hlba, hlen, rfl⟩ := part_transfer hsize hio ht
  obtain ⟨hlo, hhi⟩ := htouch
  have hbound := toNat_add_le_of_le_sub hlba hlen
  have hbase : 2048 ≤ start.toNat := le_iff_toNat_le.mp hstart
  rw [toNat_add_of_fits hlba hfits] at hlo hhi
  have hend : sector < start.toNat + lba.toNat + n.toNat := hhi
  exact ⟨by omega, by omega, by omega⟩

/-- If it does not, the sector right after the last one of 32 bits is sector 0 of the
disk, and the first request of mbr_first_linux has shown that the disk has it. -/
theorem not_contained_of_wraps (hread : ∃ t, blkdevRead (wholeDisk name size has) 0 1 = some t)
    (hwraps : 2 ^ 32 < start.toNat + count.toNat) : ¬ Contained dev start count := by
  intro hall
  obtain ⟨t, hread⟩ := hread
  have hstart := start.toNat_lt
  have hcount := count.toNat_lt
  have hneg : (0 - start).toNat = 2 ^ 32 - start.toNat := by
    rw [UInt32.toNat_sub]
    simp only [UInt32.toNat_zero, Nat.add_zero]
    omega
  have hlba : 0 - start < count := by
    rw [lt_iff_toNat_lt]
    omega
  have hlen : (1 : UInt32) ≤ count - (0 - start) := by
    rw [le_iff_toNat_le, UInt32.toNat_sub_of_le _ _ (UInt32.le_of_lt hlba)]
    show 1 ≤ _
    omega
  have hzero : start + (0 - start) = 0 := by
    rw [UInt32.add_comm, UInt32.sub_add_cancel]
  have hpart : blkdevIo .read dev (0 - start) 1 = some t := by
    rw [blkdevIo_of_ok (by rw [hio, Part.functions_eq]) (by decide)
      (by rw [hsize]; exact hlba) (by rw [hsize]; exact hlen)]
    simp only [partIo, if_neg (not_outside hlba hlen), hzero]
    exact hread
  obtain ⟨-, -, -, rfl⟩ := part_transfer hsize hio hpart
  have htouch : Transfer.Touches ⟨.read, start + (0 - start), 1⟩ 0 := by
    rw [hzero]
    exact ⟨Nat.le_refl 0, Nat.zero_lt_one⟩
  have hlow := (hall .read _ 1 _ hpart 0 htouch).2.2
  omega

end Partition

/-- Whatever the boot sector holds and however large the disk is: the device that
mbr_first_linux returns keeps to its partition exactly when the partition's end is a
32-bit sector number. -/
theorem partition_contained_iff (name : List UInt8) (size : UInt32) (has : Direction → Bool)
    (sec : Option Bytes) (partOk devOk : Bool) (devices : List Blkdev) (dev : Blkdev)
    (h : (mbrFirstLinux (wholeDisk name size has) sec partOk devOk devices).1 = some dev) :
    ∃ bytes slot, sec = some bytes ∧
      ([0, 1, 2, 3].find? fun slot => (partEntry bytes slot).Usable) = some slot ∧
      (Contained dev (partEntry bytes slot).start (partEntry bytes slot).count ↔
        (partEntry bytes slot).start.toNat + (partEntry bytes slot).count.toNat ≤ 2 ^ 32) := by
  obtain ⟨hread, bytes, slot, hsec, hfind, husable, hsize, hio⟩ := mbrFirstLinux_eq_some h
  refine ⟨bytes, slot, hsec, hfind, fun hall => ?_, contained_of_fits hsize hio husable.2.2⟩
  by_contra hwraps
  exact not_contained_of_wraps hsize hio hread (Nat.lt_of_not_le hwraps) hall

def mbrSector (start count : UInt32) : Bytes :=
  let empty : Bytes := fun _ => 0
  let signed := (empty.set 510 0x55).set 511 0xAA
  ((signed.set 450 0x83).put32 454 start.toNat).put32 458 count.toNat

def sd0 : Blkdev := wholeDisk [0x73, 0x64, 0x30] 65536 fun _ => true

/-- A partition of 4096 sectors at 2048 on a disk of 65536. -/
theorem partition_contained_sd0 :
    ∃ dev, (mbrFirstLinux sd0 (some (mbrSector 2048 4096)) true true []).1 = some dev ∧
      Contained dev 2048 4096 := by
  obtain ⟨dev, hdev⟩ : ∃ dev,
      (mbrFirstLinux sd0 (some (mbrSector 2048 4096)) true true []).1 = some dev := ⟨_, rfl⟩
  obtain ⟨bytes, slot, hsec, hslot, hiff⟩ :=
    partition_contained_iff [0x73, 0x64, 0x30] 65536 (fun _ => true) _ true true [] dev hdev
  cases hsec
  cases hslot
  exact ⟨dev, hdev, hiff.mpr (by decide)⟩

/-- An entry of 4096 sectors that starts at `2 ^ 32 - 2048`: the partition's sector 2048
is the boot sector of the disk. -/
theorem partition_writes_mbr :
    ∃ dev, (mbrFirstLinux sd0 (some (mbrSector 0xFFFFF800 4096)) true true []).1 = some dev ∧
      blkdevWrite dev 2048 1 = some ⟨.write, 0, 1⟩ ∧ ¬ Contained dev 0xFFFFF800 4096 := by
  obtain ⟨dev, hdev⟩ : ∃ dev,
      (mbrFirstLinux sd0 (some (mbrSector 0xFFFFF800 4096)) true true []).1 = some dev ∧
        blkdevWrite dev 2048 1 = some ⟨.write, 0, 1⟩ := ⟨_, rfl, rfl⟩
  refine ⟨dev, hdev.1, hdev.2, fun hall => ?_⟩
  have hlow := (hall .write 2048 1 _ hdev.2 0 ⟨Nat.le_refl 0, Nat.zero_lt_one⟩).2.2
  omega

end Kil0yOS.Drivers
