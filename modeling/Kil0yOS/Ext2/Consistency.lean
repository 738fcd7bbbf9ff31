/-
Consistency of the block maps over runs of calls on a formatted device.

A call starts from any state between calls and may meet refused requests at any
point.  The run theorem holds where a file is written past its direct blocks only
while free blocks hold zeros or the indirect blocks are there.
-/
import Kil0yOS.Ext2.DirWrites
import Kil0yOS.Ext2.Formatted
import Kil0yOS.Lib.Run

namespace Kil0yOS.Ext2

open Lib

def mounted (n : Nat) : Mount := { mkfsMount n with writable := true }

section Formatted

variable {n b k : Nat} {gd : Bytes} {C₀ C : Nat → Bytes} {B : Bytes}

theorem Layout.mounted (hm : Layout (mkfsMount n) n) : Layout (mounted n) n :=
  { hm with }

/-- A word of a block that holds one directory inode. -/
theorem get32_mkfsDirInode {off block : Nat} (hk : k % 4 = 0) (hoff : off % 128 = 0)
    (hblock : block < 2 ^ 32) (hin : 40 ≤ k % 128) :
    (mkfsDirInode off block).get32 k = if k = off + 40 then block else 0 := by
  unfold mkfsDirInode
  by_cases h : k = off + 40
  · rw [if_pos h, h, Bytes.get32_put32, Nat.mod_eq_of_lt hblock]
  · rw [if_neg h, Bytes.get32_put32_of_out _ _ (by omega), Bytes.get32_put32_of_out _ _ (by omega),
      Bytes.get32_put16_of_out _ _ (by omega)]
    rfl

def formattedTop (k ino i : Nat) : Nat :=
  if ino = rootIno ∧ i = 0 then metaEnd k
  else if ino = lostFoundIno ∧ i = 0 then metaEnd k + 1
  else 0

/-- The maps of a formatted device: the two directories have a block each. -/
theorem blockMap_formattedTop {word : Nat → Nat → Nat} {c : Nat × Pos}
    (h : blockMap word (formattedTop k) c = some b) :
    c = (rootIno, .direct 0) ∧ b = metaEnd k ∨ c = (lostFoundIno, .direct 0) ∧ b = metaEnd k + 1 := by
  obtain ⟨ino, p⟩ := c
  have htop : ∀ {p i b}, p.slot = some i → blockMap word (formattedTop k) (ino, p) = some b →
      i = 0 ∧ (ino = rootIno ∧ b = metaEnd k ∨ ino = lostFoundIno ∧ b = metaEnd k + 1) := by
    intro p i b hp hb
    rw [blockMap_slot hp] at hb
    obtain ⟨rfl, hne⟩ := eq_of_pointer hb
    unfold formattedTop at hne ⊢
    split at hne <;> split <;> simp_all
  have hbelow : ∀ {p q j b}, p.parent = some (q, j) →
      blockMap word (formattedTop k) (ino, p) = some b →
      ∃ b', blockMap word (formattedTop k) (ino, q) = some b' := by
    intro p q j b hp hb
    rw [blockMap_parent hp] at hb
    obtain ⟨b', hb', _⟩ := Option.bind_eq_some_iff.mp hb
    exact ⟨b', hb'⟩
  cases p with
  | direct i =>
    obtain ⟨hi, hino⟩ := htop rfl h
    obtain rfl : i = 0 := Fin.ext hi
    rcases hino with ⟨rfl, rfl⟩ | ⟨rfl, rfl⟩
    · exact .inl ⟨rfl, rfl⟩
    · exact .inr ⟨rfl, rfl⟩
  | ind => exact absurd (htop rfl h).1 (by omega)
  | dind => exact absurd (htop rfl h).1 (by omega)
  | single j =>
    obtain ⟨b', hb'⟩ := hbelow rfl h
    exact absurd (htop rfl hb').1 (by omega)
  | mid j =>
    obtain ⟨b', hb'⟩ := hbelow rfl h
    exact absurd (htop rfl hb').1 (by omega)
  | double i j =>
    obtain ⟨b', hb'⟩ := hbelow rfl h
    obtain ⟨b'', hb''⟩ := hbelow rfl hb'
    exact absurd (htop rfl hb'').1 (by omega)

variable (hm : Layout (mounted n) n) (hC : FormattedBlocks (mkfsMount n) gd C₀ C) (hB : Disk C B)
include hm hC hB

theorem diskTop_formatted :
    diskTop (mounted n) B = formattedTop (mounted n).ngroups := by
  have hfits := hm.fits
  have hdevice := hm.device
  have hsectors := hm.sectors
  have hgroups := hm.groups
  have hinodes := hm.inodesCount
  funext ino i
  unfold diskTop
  by_cases hin : 1 ≤ ino ∧ ino ≤ (mounted n).inodesCount ∧ i < 15
  · rw [if_pos hin]
    obtain ⟨hg, hblk, hoff⟩ := hm.inode_at hin.1 hin.2.1
    have hword : (inodeAt (blk B (inodeBlock (mounted n) ino)) (inodeOff (mounted n) ino)).block i =
        (C (inodeBlock (mounted n) ino)).get32 ((ino - 1) % 8 * 128 + 40 + 4 * i) := by
      rw [← hoff]
      exact Bytes.get32_congr fun j _ _ => hB _ j (by omega)
    rw [hword, hblk]
    unfold formattedTop rootIno lostFoundIno
    by_cases h₀ : (ino - 1) / 8 = 0
    · -- The block of the root directory's inode.
      have hroot : C (metaBase (mounted n).ngroups 0 + 2) =
          mkfsDirInode 128 (metaEnd (mounted n).ngroups) := hC.rootInode
      rw [show (ino - 1) / 2048 = 0 by omega, show (ino - 1) % 2048 / 8 = 0 by omega,
        hroot, get32_mkfsDirInode (by omega) (by omega) (by omega) (by omega)]
      by_cases hroot : ino = 2 ∧ i = 0
      · rw [if_pos (by omega), if_pos hroot]
      · rw [if_neg (by omega), if_neg hroot, if_neg (by omega)]
    by_cases h₁ : (ino - 1) / 8 = 1
    · -- The block of the inode of lost+found.
      have hlost : C (metaBase (mounted n).ngroups 0 + 2 + 1) =
          mkfsDirInode 256 (metaEnd (mounted n).ngroups + 1) := hC.lostFoundInode
      rw [show (ino - 1) / 2048 = 0 by omega, show (ino - 1) % 2048 / 8 = 1 by omega, hlost,
        get32_mkfsDirInode (by omega) (by omega) (by omega) (by omega)]
      by_cases hlost : ino = 11 ∧ i = 0
      · rw [if_pos (by omega), if_neg (by omega), if_pos hlost]
      · rw [if_neg (by omega), if_neg (by omega), if_neg hlost]
    · have hzero : C (metaBase (mounted n).ngroups ((ino - 1) / 2048) + 2 +
          (ino - 1) % 2048 / 8) = zeros :=
        hC.table _ hg _ (by omega) (by omega)
      rw [hzero, if_neg (by omega), if_neg (by omega)]
      rfl
  · rw [if_neg hin]
    unfold formattedTop rootIno lostFoundIno
    rw [if_neg (by omega), if_neg (by omega)]

theorem blockUsed_formatted (h₁ : 1 ≤ b) (h₂ : b < (mounted n).blocksCount) :
    blockUsed (mounted n) B b = decide (b < metaEnd (mounted n).ngroups + 2) := by
  have hg := hm.group_lt h₂
  rw [hm.firstDataBlock, hm.blocksPerGroup] at hg
  have hb : b = 1 + (b - 1) / 8192 * 8192 + (b - 1) % 8192 := by omega
  have hbit : bitAt (blk B (metaBase (mounted n).ngroups ((b - 1) / 8192))) ((b - 1) % 8192) =
      bitAt (mkfsBlockBitmap (mkfsMount n) ((b - 1) / 8192)) ((b - 1) % 8192) := by
    have hblock : C (metaBase (mounted n).ngroups ((b - 1) / 8192)) =
      mkfsBlockBitmap (mkfsMount n) ((b - 1) / 8192) := hC.blockBitmap _ hg
    rw [← hblock]
    exact bitAt_congr (hB _ _ (by omega))
  have hin : (b - 1) % 8192 < 8192 := Nat.mod_lt _ (by omega)
  conv_lhs => rw [hb]
  rw [blockUsed_eq hm hin (by omega), hm.blockBitmap _ hg, hbit]
  unfold mkfsBlockBitmap
  rw [bitAt_bitmapOf, decide_eq_true hin]
  show (decide (1 + (b - 1) / 8192 * 8192 + (b - 1) % 8192 ≥ (mounted n).blocksCount) ||
    decide (1 + (b - 1) / 8192 * 8192 + (b - 1) % 8192 < metaEnd (mounted n).ngroups + 2)) = _
  rw [← hb, decide_eq_false (by omega), Bool.false_or]

theorem sound_formatted : Sound (mounted n) False B := by
  have hfits := hm.fits
  refine ⟨rfl, ⟨⟨?_, ?_⟩, ?_, ?_⟩, False.elim⟩
  · intro c b hc
    rw [diskTop_formatted hm hC hB] at hc
    have hbase := metaBase_le hm.groups.1
    rcases blockMap_formattedTop hc with ⟨-, rfl⟩ | ⟨-, rfl⟩
    all_goals
      rw [blockUsed_formatted hm hC hB (by omega) (by omega)]
      exact decide_eq_true (by omega)
  · intro c c' b hc hc'
    rw [diskTop_formatted hm hC hB] at hc hc'
    rcases blockMap_formattedTop hc with ⟨rfl, h⟩ | ⟨rfl, h⟩ <;>
      rcases blockMap_formattedTop hc' with ⟨rfl, h'⟩ | ⟨rfl, h'⟩
    · rfl
    · omega
    · omega
    · rfl
  · intro c b hc
    rw [diskTop_formatted hm hC hB] at hc
    rcases blockMap_formattedTop hc with ⟨-, rfl⟩ | ⟨-, rfl⟩ <;> omega
  · intro b h₁ h₂
    rw [blockUsed_formatted hm hC hB h₁ (by omega)]
    exact decide_eq_true (by omega)

theorem freeZero_formatted (hzero : ∀ x, C₀ x = zeros) : FreeZero (mounted n) B := by
  intro b h₁ h₂ hfree j
  have hbase := metaBase_le hm.groups.1
  rw [blockUsed_formatted hm hC hB (by omega) h₂] at hfree
  have hdata : C b = zeros :=
    (hC.data b (.inr (Nat.not_lt.mp (of_decide_eq_false hfree)))).trans (hzero b)
  have hword : word B b j = (C b).get32 (j * 4) :=
    Bytes.get32_congr fun i _ _ => hB b i (by omega)
  rw [hword, hdata]
  rfl

end Formatted

structure System where
  mount : Mount
  dev : Device

inductive Call where
  | createFile (dirIno : Nat) (name : List UInt8)
  | createDir (dirIno : Nat) (name : List UInt8)
  | writeFile (ino : Nat) (data : List UInt8)

/-- The device after a call, whatever the call returned. -/
def endDevice {α : Type} : EStateM.Result Unit Device α → Device
  | .ok _ d => d
  | .error _ d => d

def Call.run (m : Mount) : Call → E Nat
  | .createFile dirIno name => ext2CreateFile m dirIno name
  | .createDir dirIno name => ext2CreateDir m dirIno name
  | .writeFile ino data => ext2WriteFile m ino data

namespace System

variable (s : System)

def exec (c : Call) : System := { s with dev := endDevice (c.run s.mount s.dev) }

def Step (c : Call) (t : System) : Prop := t = s.exec c

/-- A device that `ext2_mkfs` formatted and the probe took, no request having failed so
far.  Later requests may. -/
def Formatted : Prop :=
  ∃ (d₀ d₁ d₂ : Device) (gd gb : Bytes), d₀.sectorCount < 2 ^ 32 ∧ (∀ k, d₀.fails k = false) ∧
    ext2Mkfs gd d₀ = .ok () d₁ ∧ ext2ProbeM gb true d₁ = .ok s.mount d₂ ∧
    s.dev.sectorCount = d₂.sectorCount ∧ s.dev.bytes = d₂.bytes

/-- The blocks that the maps of the inodes lead to. -/
def map : Nat × Pos → Option Nat :=
  blockMap (word s.dev.bytes) (diskTop s.mount s.dev.bytes)

/-- Superblock, descriptors, bitmaps and inode tables. -/
def IsMeta (m : Mount) (b : Nat) : Prop :=
  b < m.firstDataBlock + 1 + gdtBlocks m.ngroups ∨
    ∃ g < m.ngroups, b = m.bgBlockBitmap g ∨ b = m.bgInodeBitmap g ∨
      m.bgInodeTable g ≤ b ∧ b < m.bgInodeTable g + m.inodesPerGroup * m.inodeSize / m.blockSize

/-- Every block of a map is a data block of the file system marked used, at one place. -/
structure Consistent (s : System) : Prop where
  inside : ∀ {c b}, s.map c = some b → s.mount.firstDataBlock ≤ b ∧ b < s.mount.blocksCount
  used : ∀ {c b}, s.map c = some b → blockUsed s.mount s.dev.bytes b = true
  data : ∀ {c b}, s.map c = some b → ¬ IsMeta s.mount b
  once : ∀ {c c' b}, s.map c = some b → s.map c' = some b → c = c'

/-- A file is written past its direct blocks only while free blocks hold zeros or the
indirect blocks the call goes through are there. -/
def Safe : Call → Prop
  | .writeFile ino data =>
    FreeZero s.mount s.dev.bytes ∨
      ∀ bn < (data.length + 1023) / 1024 % 2 ^ 32, ∀ q, indirectOf bn = some q →
        s.map (ino, q) ≠ none
  | .createFile _ _ | .createDir _ _ => True

/-- What holds between calls. -/
def Inv : Prop :=
  Layout s.mount s.dev.sectorCount ∧ Sound s.mount False s.dev.bytes

variable {s : System} {d : Device} {c : Call}

theorem Inv.consistent (h : s.Inv) : s.Consistent := by
  obtain ⟨hm, hsound⟩ := h
  refine ⟨?_, hsound.good.owned.used, ?_, hsound.good.owned.inj⟩
  · intro c b hc
    have := hsound.good.range hc
    have := metaBase_le hm.groups.1
    rw [hm.firstDataBlock]
    omega
  rintro c b hc (hlow | ⟨g, hg, hg'⟩)
  · have := hsound.good.range hc
    rw [hm.firstDataBlock] at hlow
    unfold metaEnd at this
    omega
  have := hsound.good.range hc
  have := metaBase_le hg
  rw [hm.blockBitmap g hg, hm.inodeBitmap g hg, hm.inodeTable g hg, hm.inodesPerGroup,
    hm.inodeSize, hm.blockSize] at hg'
  omega

theorem Formatted.inv (h : s.Formatted) : s.Inv := by
  obtain ⟨d₀, d₁, d₂, gd, gb, -, hfails, hmkfs, hprobe, hcount, hbytes⟩ := h
  have hstart : Clean d₀.sectorCount (Disk (blk d₀.bytes)) d₀ :=
    ⟨rfl, hfails, fun _ _ _ => rfl⟩
  obtain ⟨hm, hn₁, hf₁, C, hC, hblocks⟩ := (ext2Mkfs_clean gd (blk d₀.bytes)).ok hstart hmkfs
  obtain ⟨hn₂, -, hC₂, hmount⟩ :=
    (ext2ProbeM_clean (F := fun _ => True) hm hblocks gb true).ok ⟨hn₁, hf₁, hC⟩ hprobe
  have hmount' : s.mount = mounted d₀.sectorCount := hmount
  unfold Inv
  rw [hmount', hcount, hn₂, hbytes]
  exact ⟨hm.mounted, sound_formatted hm.mounted hblocks hC₂⟩

/-- What a call leaves, whether it succeeds or stops. -/
theorem endDevice_of_triple {α : Type} {P R : Device → Prop} {x : E α}
    (h : Triple P x (fun _ => R) R) (hd : P d) : R (endDevice (x d)) := by
  have hx := h d hd
  cases hres : x d with
  | ok a d' =>
    rw [hres] at hx
    exact hx
  | error e d' =>
    rw [hres] at hx
    exact hx

theorem Inv.of_on {z : Prop} (hm : Layout s.mount s.dev.sectorCount)
    (h : On s.dev.sectorCount (Sound s.mount z) d) : Inv { s with dev := d } := by
  refine ⟨?_, h.2.disk, h.2.good, False.elim⟩
  rw [h.1]
  exact hm

/-- A call keeps the maps sound, and zeros in the free blocks if it found them there. -/
theorem Inv.on_exec (h : s.Inv) (hsafe : s.Safe c) :
    On s.dev.sectorCount (Sound s.mount (FreeZero s.mount s.dev.bytes))
      (endDevice (c.run s.mount s.dev)) := by
  obtain ⟨hm, hsound⟩ := h
  have hsound : Sound s.mount (FreeZero s.mount s.dev.bytes) s.dev.bytes :=
    ⟨hsound.disk, hsound.good, id⟩
  cases c with
  | createFile dirIno name =>
    exact endDevice_of_triple (ext2CreateFile_spec hm dirIno name) ⟨rfl, hsound⟩
  | createDir dirIno name =>
    exact endDevice_of_triple (ext2CreateDir_spec hm dirIno name) ⟨rfl, hsound⟩
  | writeFile ino data =>
    refine endDevice_of_triple (ext2WriteFile_spec hm data hsound ?_) ⟨rfl, rfl⟩
    exact fun bn hbn q hq hnone => hsafe.resolve_right fun hthere => hthere bn hbn q hq hnone

theorem Inv.step {t : System} (h : s.Inv) (hsafe : s.Safe c) (hst : s.Step c t) : t.Inv := by
  subst hst
  exact .of_on h.1 (h.on_exec hsafe)

end System

/-- After every run of calls on a formatted device whose writes meet the condition, each
block that an inode's map leads to is a used data block at one place. -/
theorem block_maps_consistent {s : System}
    (h : Reach System.Formatted System.Safe System.Step s) : s.Consistent := by
  have hinv : s.Inv :=
    h.invariant (fun _ hs => hs.inv) fun _ _ _ hs hsafe hst => hs.step hsafe hst
  exact hinv.consistent

/-- With zeros in the free blocks to begin with, no condition is needed: a block is
written only once it has been taken. -/
theorem block_maps_consistent_of_zeroed
    (h : Reach (fun s => s.Formatted ∧ FreeZero s.mount s.dev.bytes) (fun _ _ => True)
      System.Step s) : s.Consistent := by
  have hinv : s.Inv ∧ FreeZero s.mount s.dev.bytes := by
    refine h.invariant (I := fun s => s.Inv ∧ FreeZero s.mount s.dev.bytes)
      (fun _ hs => ⟨hs.1.inv, hs.2⟩) ?_
    rintro s c t ⟨hs, hzero⟩ - rfl
    have hsafe : s.Safe c := by
      cases c with
      | writeFile ino data => exact .inl hzero
      | createFile dirIno name | createDir dirIno name => trivial
    exact ⟨hs.step hsafe rfl, (hs.on_exec hsafe).2.zero hzero⟩
  exact hinv.1.consistent

/-- Every device that fits can be formatted and mounted. -/
theorem exists_formatted (d₀ : Device) (hn : d₀.sectorCount < 2 ^ 32)
    (hfails : ∀ k, d₀.fails k = false) (hfit : MkfsFits d₀.sectorCount) (gd : Bytes) :
    ∃ C B, FormattedBlocks (mkfsMount d₀.sectorCount) gd (blk d₀.bytes) C ∧ Disk C B ∧
      ∀ fails, System.Formatted
        { mount := mounted d₀.sectorCount
          dev := { d₀ with bytes := B, fails := fails } } := by
  have hstart : Clean d₀.sectorCount (Disk (blk d₀.bytes)) d₀ :=
    ⟨rfl, hfails, fun _ _ _ => rfl⟩
  have hmkfs := ext2Mkfs_clean (n := d₀.sectorCount) gd (blk d₀.bytes)
  cases h₁ : ext2Mkfs gd d₀ with
  | error e d₁ => exact absurd hfit (hmkfs.error hstart h₁)
  | ok _ d₁ =>
    obtain ⟨hm, hn₁, hf₁, C, hC, hblocks⟩ := hmkfs.ok hstart h₁
    have hprobe := ext2ProbeM_clean (F := fun _ => False) hm hblocks zeros true
    cases h₂ : ext2ProbeM zeros true d₁ with
    | error e d₂ => exact absurd (hprobe.error ⟨hn₁, hf₁, hC⟩ h₂) id
    | ok m d₂ =>
      obtain ⟨hn₂, -, hC₂, rfl⟩ := hprobe.ok ⟨hn₁, hf₁, hC⟩ h₂
      exact ⟨C, d₂.bytes, hblocks, hC₂, fun fails =>
        ⟨d₀, d₁, d₂, gd, zeros, hn, hfails, h₁, h₂, hn₂.symm, rfl⟩⟩

def blank : Device :=
  { sectorCount := 16384, bytes := zeros, fails := fun _ => false, behind := zeros }

/-- A write that outgrows the direct blocks, on a device of zeros. -/
theorem block_maps_consistent_zeros : ∃ s : System, s.mount = mounted 16384 ∧
    ((s.exec (.createFile rootIno [0x41])).exec
      (.writeFile 12 (List.replicate 12289 7))).Consistent := by
  obtain ⟨C, B, hC, hB, hformatted⟩ :=
    exists_formatted blank (by decide) (fun _ => rfl) ⟨by decide, by decide, by decide⟩ zeros
  have hstart := hformatted fun _ => false
  have hzero := (hstart.inv.on_exec (c := .createFile rootIno [0x41]) trivial).2.zero
    (freeZero_formatted hstart.inv.1 hC hB fun _ => rfl)
  exact ⟨_, rfl, block_maps_consistent (.next (.writeFile 12 _)
    (.next (.createFile rootIno [0x41]) (.start hstart) trivial rfl) (.inl hzero) rfl)⟩

section Stale

theorem eq_of_bitAt {x y : Bytes} {i j : Nat} (h : ∀ k < 8, bitAt x (i * 8 + k) = bitAt y (j * 8 + k)) :
    x i = y j := by
  apply UInt8.toNat_inj.mp
  apply Nat.eq_of_testBit_eq
  intro k
  by_cases hk : k < 8
  · have hbit := h k hk
    unfold bitAt at hbit
    rwa [show (i * 8 + k) / 8 = i by omega, show (i * 8 + k) % 8 = k by omega,
      show (j * 8 + k) / 8 = j by omega, show (j * 8 + k) % 8 = k by omega] at hbit
  · have hpow : 2 ^ 8 ≤ 2 ^ k := Nat.pow_le_pow_right (by omega) (by omega)
    rw [Nat.testBit_eq_false_of_lt (lt_of_lt_of_le (x i).toNat_lt hpow),
      Nat.testBit_eq_false_of_lt (lt_of_lt_of_le (y j).toNat_lt hpow)]

def bitmapByte (used : Nat → Bool) (n j : Nat) : UInt8 :=
  bitmapOf (fun k => decide (j * 8 + k < n) && used (j * 8 + k)) 8 0

theorem bitmapOf_eq (used : Nat → Bool) (n : Nat) : bitmapOf used n = bitmapByte used n := by
  funext j
  show bitmapOf used n j = bitmapOf _ 8 0
  apply eq_of_bitAt
  intro k hk
  simp [bitAt_bitmapOf, decide_eq_true hk]

/-- A device of 8 MiB on which every word is 1, the number of the superblock. -/
def ones : Device :=
  { sectorCount := 16384, bytes := fun a => if a % 4 = 0 then 1 else 0, fails := fun _ => false
    behind := zeros }

def onesBlocks (x : Nat) : Bytes :=
  if x = 1 then mkfsSuper (mkfsMount 16384)
  else if x = 2 then putGroup (mkfsMount 16384) zeros 0
  else if x = 3 then bitmapByte (fun i => 1 + i ≥ 8192 || 1 + i < 263) 8192
  else if x = 4 then mkfsInodeBitmap 0
  else if x = 5 then mkfsDirInode 128 261
  else if x = 6 then mkfsDirInode 256 262
  else if x = 261 then mkfsRootDir
  else if x = 262 then mkfsLostFound
  else if 0 < x ∧ x < 261 then zeros
  else fun i => if i % 4 = 0 then 1 else 0

theorem onesBlocks_eq {C : Nat → Bytes}
    (h : FormattedBlocks (mkfsMount 16384) zeros (blk ones.bytes) C) : C = onesBlocks := by
  -- One group: the metadata run is 3, 4 and 5 to 260, and 261 is its end.
  have hbitmap : C 3 = mkfsBlockBitmap (mkfsMount 16384) 0 := h.blockBitmap 0 (by decide)
  have htable : ∀ k < 256, 2 ≤ k → C (5 + k) = zeros :=
    fun k hk h2 => h.table 0 (by decide) k hk (by omega)
  have hdata : ∀ x, x = 0 ∨ 263 ≤ x → C x = blk ones.bytes x := h.data
  funext x
  unfold onesBlocks
  split
  next hx => exact hx ▸ h.super
  split
  next hx => exact hx ▸ h.gdt 0 (by decide) (.inl rfl)
  split
  next hx =>
    rw [hx, hbitmap, ← bitmapOf_eq]
    rfl
  split
  next hx => exact hx ▸ h.inodeBitmap 0 (by decide)
  split
  next hx => exact hx ▸ h.rootInode
  split
  next hx => exact hx ▸ h.lostFoundInode
  split
  next hx => exact hx ▸ h.rootDir
  split
  next hx => exact hx ▸ h.lostFoundDir
  split
  next hx =>
    rw [show x = 5 + (x - 5) by omega]
    exact htable (x - 5) (by omega) (by omega)
  next =>
    rw [hdata x (by omega)]
    funext i
    show (if (1024 * x + i) % 4 = 0 then (1 : UInt8) else 0) = _
    rw [show (1024 * x + i) % 4 = i % 4 by omega]

def onesSystem : System :=
  { mount := mounted 16384
    dev := { ones with bytes := fun a => onesBlocks (a / 1024) (a % 1024) } }

theorem onesSystem_formatted : onesSystem.Formatted := by
  obtain ⟨C, B, hC, hB, hformatted⟩ :=
    exists_formatted ones (by decide) (fun _ => rfl) ⟨by decide, by decide, by decide⟩ zeros
  have hbytes : (fun a => onesBlocks (a / 1024) (a % 1024)) = B := by
    funext a
    rw [← onesBlocks_eq hC, ← hB _ _ (Nat.mod_lt _ (by omega))]
    show B (1024 * (a / 1024) + a % 1024) = B a
    rw [Nat.div_add_mod]
  unfold onesSystem
  rw [hbytes]
  exact hformatted fun _ => false

/-- A file that outgrows its direct blocks takes a stale block for its indirect block,
and what the block held become blocks of the file. -/
theorem stale_pointer_in_map :
    ¬ ∀ s, Reach System.Formatted (fun _ _ => True) System.Step s → s.Consistent := by
  intro hall
  have h := hall _ (.next (.writeFile 12 (List.replicate 12289 7))
    (.next (.createFile rootIno [0x41]) (.start onesSystem_formatted) trivial rfl) trivial rfl)
  have hmap : ((onesSystem.exec (.createFile rootIno [0x41])).exec
      (.writeFile 12 (List.replicate 12289 7))).map (12, .single 0) = some 1 := by
    decide +kernel
  exact h.data hmap (.inl (by decide))

end Stale

end Kil0yOS.Ext2
