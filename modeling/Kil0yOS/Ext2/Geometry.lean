/-
The geometry that `ext2_probe_m` accepts.

The probe rounds the counts of the superblock up to groups in 32 bits, keeps the number of
groups in an int, and takes any inode size from 128 on.  So a count near 2^32 gives no
group at all, one of 2^31 groups passes as negative, and an inode may run over the end of
its block.
-/
import Kil0yOS.Ext2.Layout

namespace Kil0yOS.Ext2

open Lib

/-- Every inode is in a group of the table, and the fields the driver uses are in the block it
reads. -/
structure Mount.Addressed (m : Mount) : Prop where
  groups : 1 ≤ m.ngroups ∧ m.ngroups ≤ maxGroups
  group : ∀ ino, 1 ≤ ino → ino ≤ m.inodesCount → (ino - 1) / m.inodesPerGroup < m.ngroups
  fields : ∀ ino d d' blk off, 1 ≤ ino → ino ≤ m.inodesCount →
    mInodeLocate m ino d = .ok (blk, off) d' → off + 40 + 4 * 15 ≤ m.blockSize

/-- The sector that the probe reads. -/
def Device.superblock (d : Device) : Bytes := fun i => d.bytes (1024 + i)

/-- The counts give a number of groups that fits, and no inode crosses the end of a block. -/
structure Mount.Regular (m : Mount) : Prop where
  blocks : m.blocksPerGroup = 1 → m.blocksCount < 2 ^ 31
  inodes : m.inodesPerGroup = 1 → m.inodesCount < 2 ^ 31
  nonempty : 0 < m.blocksCount ∧ m.blocksCount + m.blocksPerGroup ≤ 2 ^ 32 ∨
    0 < m.inodesCount ∧ m.inodesCount + m.inodesPerGroup ≤ 2 ^ 32
  covered : m.inodesCount + m.inodesPerGroup ≤ 2 ^ 32 ∨
    m.blocksCount + m.blocksPerGroup ≤ 2 ^ 32 ∧
      (m.inodesCount - 1) / m.inodesPerGroup <
        (m.blocksCount + m.blocksPerGroup - 1) / m.blocksPerGroup
  slots : ∀ i < m.inodesPerGroup, i < m.inodesCount →
    i * m.inodeSize % 2 ^ 32 % m.blockSize + 40 + 4 * 15 ≤ m.blockSize

/-! ## Rounding up -/

section Rounding

variable {c k : Nat}

theorem roundUp_of_le (h : c + k ≤ 2 ^ 32) : (c + k - 1) % 2 ^ 32 / k = (c + k - 1) / k := by
  have hlt : c + k - 1 < 2 ^ 32 := by omega
  rw [Nat.mod_eq_of_lt hlt]

theorem roundUp_of_gt (hc : c < 2 ^ 32) (hk : k < 2 ^ 32) (h : 2 ^ 32 < c + k) :
    (c + k - 1) % 2 ^ 32 / k = 0 :=
  Nat.div_eq_of_lt (by omega)

theorem roundUp_pos_iff (hc : c < 2 ^ 32) (hk : 0 < k) (hk' : k < 2 ^ 32) :
    0 < (c + k - 1) % 2 ^ 32 / k ↔ 0 < c ∧ c + k ≤ 2 ^ 32 := by
  by_cases h : c + k ≤ 2 ^ 32
  · rw [roundUp_of_le h, Nat.div_pos_iff]
    omega
  · rw [roundUp_of_gt hc hk' (by omega)]
    omega

theorem roundUp_lt_iff (hc : c < 2 ^ 32) (hk : 0 < k) :
    (c + k - 1) % 2 ^ 32 / k < 2 ^ 31 ↔ (k = 1 → c < 2 ^ 31) := by
  by_cases h1 : k = 1
  · rw [h1]
    omega
  · rw [Nat.div_lt_iff_lt_mul hk]
    have := Nat.mul_le_mul_left (2 ^ 31) (show 2 ≤ k by omega)
    omega

end Rounding

/-! ## What the probe leaves -/

/-- A mount with its group descriptors. -/
def Mount.probed (p : Mount) (writable : Bool) (x y z : Nat → Nat) : Mount :=
  { p with
    ready := true
    writable := writable
    bgBlockBitmap := x
    bgInodeBitmap := y
    bgInodeTable := z }

theorem probeGroups_spec (n g cur : Nat) (gb : Bytes) (m : Mount) :
    Triple (fun _ => True) (probeGroups n g cur gb m) (fun m' _ => ∃ x y z, m' =
      { m with bgBlockBitmap := x, bgInodeBitmap := y, bgInodeTable := z }) fun _ => True := by
  induction n generalizing g cur gb m with
  | zero => exact .pure fun _ _ => ⟨_, _, _, rfl⟩
  | succ n ih =>
    refine .bind (fun d _ => ?_) fun gb => (ih _ _ _ _).post fun m' _ => ?_
    · cases descBlock m cur gb _ d <;> trivial
    · rintro ⟨x, y, z, rfl⟩
      exact ⟨x, y, z, rfl⟩

theorem ext2ProbeM_spec (gb : Bytes) (writable : Bool) (d₀ : Device) :
    Triple (· = d₀) (ext2ProbeM gb writable) (fun m _ =>
      let p := probeSuper d₀.superblock
      0 < p.blocksPerGroup ∧ 0 < p.inodesPerGroup ∧ (p.ngroups ≤ maxGroups ∨ 2 ^ 31 ≤ p.ngroups) ∧
        ∃ x y z, m = p.probed writable x y z) fun _ => True := by
  refine .bind (R := fun buf _ => buf = d₀.superblock) (fun d hd => ?_) fun buf d hbuf => ?_
  · subst hd
    cases hin : d.inside 2 1 <;> cases hf : d.fails 0 <;> simp [blkdevRead, hin, hf]
    rfl
  subst hbuf
  revert d
  suffices h : Triple (fun _ => True) _ _ _ from fun d => h d trivial
  refine require_bind (fun _ => ?_) fun _ _ _ => trivial
  refine require_bind (fun _ => ?_) fun _ _ _ => trivial
  refine require_bind (fun _ => ?_) fun _ _ _ => trivial
  refine require_bind (fun hpos => ?_) fun _ _ _ => trivial
  refine require_bind (fun hgroups => ?_) fun _ _ _ => trivial
  refine .bind (R := fun _ _ => True) (fun d _ => ?_) fun _ => ?_
  · split <;> trivial
  refine (probeGroups_spec _ _ _ _ _).bind fun m => .pure fun _ => ?_
  rintro ⟨x, y, z, rfl⟩
  exact ⟨Nat.pos_of_ne_zero hpos.1, Nat.pos_of_ne_zero hpos.2.2, hgroups, x, y, z, rfl⟩

theorem mInodeLocate_eq {m : Mount} {ino : Nat} (h1 : 1 ≤ ino) (h2 : ino ≤ 2 ^ 32)
    (hgroup : (ino - 1) / m.inodesPerGroup < m.ngroups) (d : Device) :
    mInodeLocate m ino d = .ok ((m.bgInodeTable ((ino - 1) / m.inodesPerGroup) +
      (ino - 1) % m.inodesPerGroup * m.inodeSize % 2 ^ 32 / m.blockSize) % 2 ^ 32,
      (ino - 1) % m.inodesPerGroup * m.inodeSize % 2 ^ 32 % m.blockSize) d := by
  have hn : (ino + 2 ^ 32 - 1) % 2 ^ 32 = ino - 1 := by omega
  unfold mInodeLocate require
  simp only [hn, if_pos hgroup]
  rfl

/-- The group of an inode is below the number of groups, which is the larger of the two
counts. -/
theorem group_lt_iff {c k c' k' : Nat} (hc : c < 2 ^ 32) (hk : 0 < k) (hk' : k < 2 ^ 32)
    (hc' : c' < 2 ^ 32) (hkk : k' < 2 ^ 32) :
    (∀ ino, 1 ≤ ino → ino ≤ c → (ino - 1) / k < max ((c' + k' - 1) % 2 ^ 32 / k')
      ((c + k - 1) % 2 ^ 32 / k)) ↔
      c + k ≤ 2 ^ 32 ∨ c' + k' ≤ 2 ^ 32 ∧ (c - 1) / k < (c' + k' - 1) / k' := by
  have hlast : ∀ ino, ino ≤ c → (ino - 1) / k ≤ (c - 1) / k := fun ino h =>
    Nat.div_le_div_right (by omega)
  by_cases h : c + k ≤ 2 ^ 32
  · refine ⟨fun _ => .inl h, fun _ ino h1 h2 => ?_⟩
    have hup : (c + k - 1) / k = (c - 1) / k + 1 := by
      rw [show c + k - 1 = c - 1 + k by omega, Nat.add_div_right _ hk]
    have := hlast ino h2
    rw [roundUp_of_le h, hup]
    omega
  rw [roundUp_of_gt hc hk' (by omega), Nat.max_zero]
  by_cases h' : c' + k' ≤ 2 ^ 32
  · rw [roundUp_of_le h']
    refine ⟨fun hall => .inr ⟨h', hall c (by omega) (Nat.le_refl _)⟩, fun hor ino _ h2 => ?_⟩
    exact (hlast ino h2).trans_lt (hor.resolve_left h).2
  · rw [roundUp_of_gt hc' hkk (by omega)]
    refine ⟨fun hall => absurd (hall 1 (Nat.le_refl _) (by omega)) (Nat.not_lt_zero _), fun hor => ?_⟩
    omega

/-- A mount that the probe accepts is safe to use exactly when the geometry on disk is regular. -/
theorem ext2ProbeM_addressed_iff {gb : Bytes} {writable : Bool} {d d' : Device} {m : Mount}
    (h : ext2ProbeM gb writable d = .ok m d') :
    m.Addressed ↔ (probeSuper d.superblock).Regular := by
  obtain ⟨hbpg, hipg, hfit, x, y, z, rfl⟩ := (ext2ProbeM_spec gb writable d).ok rfl h
  generalize hp : probeSuper d.superblock = p at *
  have hblocks : p.blocksCount < 2 ^ 32 := hp ▸ Bytes.get32_lt _ _
  have hinodes : p.inodesCount < 2 ^ 32 := hp ▸ Bytes.get32_lt _ _
  have hbpg' : p.blocksPerGroup < 2 ^ 32 := hp ▸ Bytes.get32_lt _ _
  have hipg' : p.inodesPerGroup < 2 ^ 32 := hp ▸ Bytes.get32_lt _ _
  have hn : p.ngroups = max ((p.blocksCount + p.blocksPerGroup - 1) % 2 ^ 32 / p.blocksPerGroup)
      ((p.inodesCount + p.inodesPerGroup - 1) % 2 ^ 32 / p.inodesPerGroup) := hp ▸ rfl
  have hposB := roundUp_pos_iff hblocks hbpg hbpg'
  have hposI := roundUp_pos_iff hinodes hipg hipg'
  have hltB := roundUp_lt_iff hblocks hbpg
  have hltI := roundUp_lt_iff hinodes hipg
  have hcover := group_lt_iff hinodes hipg hipg' hblocks hbpg'
  rw [← hn] at hcover
  unfold maxGroups at hfit
  constructor
  · rintro ⟨⟨h1, h2⟩, hgroup, hfields⟩
    change 1 ≤ p.ngroups at h1
    change p.ngroups ≤ 256 at h2
    refine ⟨hltB.mp (by omega), hltI.mp (by omega), ?_, hcover.mp hgroup, fun i hi hic => ?_⟩
    · rw [← hposB, ← hposI]
      omega
    have hrun := mInodeLocate_eq (Nat.le_add_left 1 i) (by omega)
      (hgroup (i + 1) (by omega) hic) d
    have hoff : i % p.inodesPerGroup * p.inodeSize % 2 ^ 32 % p.blockSize + 40 + 4 * 15 ≤
        p.blockSize := hfields _ _ _ _ _ (by omega) hic hrun
    rwa [Nat.mod_eq_of_lt hi] at hoff
  rintro ⟨hb, hi, hne, hcov, hslots⟩
  have hgroup := hcover.mpr hcov
  rw [← hposB, ← hposI] at hne
  rw [← hltB] at hb
  rw [← hltI] at hi
  refine ⟨⟨?_, ?_⟩, hgroup, fun ino e e' blk off h1 (h2 : ino ≤ p.inodesCount) hrun => ?_⟩
  · show 1 ≤ p.ngroups
    omega
  · show p.ngroups ≤ 256
    omega
  · rw [mInodeLocate_eq (m := p.probed writable x y z) h1 (h2.trans hinodes.le)
      (hgroup ino h1 h2)] at hrun
    cases hrun
    exact hslots _ (Nat.mod_lt _ hipg) ((Nat.mod_le _ _).trans_lt (by omega))

/-- One group of eight inodes. -/
def eightInodes (inodeSize : Nat) : Device where
  sectorCount := 128
  bytes a :=
    let sb := (((zeros.put32 0 8).put32 4 64).put32 32 8192).put32 40 8
    if a < 1024 then 0 else (((sb.put16 56 superMagic).put32 76 1).put16 88 inodeSize) (a - 1024)
  fails _ := false
  behind := zeros

theorem eightInodes_addressed : ∃ m d', ext2ProbeM zeros true (eightInodes 128) = .ok m d' ∧
    m.Addressed := by
  obtain ⟨m, d', hm⟩ : ∃ m d', ext2ProbeM zeros true (eightInodes 128) = .ok m d' := ⟨_, _, rfl⟩
  refine ⟨m, d', hm, (ext2ProbeM_addressed_iff hm).mpr ⟨?_, ?_, ?_, ?_, ?_⟩⟩ <;> decide +kernel

/-- With 192 bytes each the sixth inode starts 64 bytes before the end of its block. -/
theorem wide_inode_crosses : ¬ ∀ gb writable d m d', ext2ProbeM gb writable d = .ok m d' →
    m.Addressed := by
  intro hall
  obtain ⟨m, d', hm, hcount, hblock, hrun⟩ : ∃ m d',
      ext2ProbeM zeros true (eightInodes 192) = .ok m d' ∧ m.inodesCount = 8 ∧
        m.blockSize = 1024 ∧ mInodeLocate m 6 d' = .ok (0, 960) d' := ⟨_, _, rfl, rfl, rfl, rfl⟩
  have hoff := (hall _ _ _ _ _ hm).fields 6 _ _ _ _ (by decide) (by omega) hrun
  omega

end Kil0yOS.Ext2
