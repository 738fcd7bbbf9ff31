/-
What the driver's functions do to the block maps.

Each function gets one triple.  `Writing` is what holds inside a call that works with
an inode, `Sound` what holds between calls, and a call that stops in the middle leaves
the device sound, since the inode on the device has fewer entries than the one the
call worked with.
-/
import Kil0yOS.Ext2.MapInvariant

namespace Kil0yOS.Ext2

open Lib

variable {m : Mount} {n : Nat} {B B₀ : Bytes} {top top₀ : Nat → Nat → Nat} {z : Prop}
variable {ino : Nat} {block : Nat → Nat} {own : Nat × Pos → Option Nat}
variable {F : Device → Prop} {g i r : Nat}

/-- The maps of the inodes on the device are sound. -/
def Sound (m : Mount) (z : Prop) (B : Bytes) : Prop := Held m (diskTop m B) (diskTop m B) z B

theorem Held.sound (h : Held m top top z B) : Sound m z B := by
  unfold Sound
  rw [h.disk]
  exact h

/-- A call works with `block` as the entries of inode `ino`, and the maps are `own`. -/
structure Writing (m : Mount) (top₀ : Nat → Nat → Nat) (ino : Nat) (z : Prop) (block : Nat → Nat)
    (own : Nat × Pos → Option Nat) (B : Bytes) : Prop where
  held : Held m top₀ (withInode top₀ ino block) z B
  kept : ∀ i, top₀ ino i = 0 ∨ top₀ ino i = block i
  small : ∀ i, block i < 2 ^ 32
  map : blockMap (word B) (withInode top₀ ino block) = own

theorem Writing.sound (h : Writing m top₀ ino z block own B) : Sound m z B := by
  suffices hheld : Held m top₀ top₀ z B from hheld.sound
  apply h.held.sub
  intro n' i
  unfold withInode
  by_cases hn : n' = ino
  · rw [if_pos hn, hn]
    by_cases hi : i < 15
    · rw [if_pos hi]
      exact h.kept i
    · left
      rw [← h.held.disk]
      exact if_neg (by omega)
  · rw [if_neg hn]
    exact .inr rfl

theorem Writing.stop (d : Device) (h : On n (Writing m top₀ ino z block own) d) :
    On n (Sound m z) d := ⟨h.1, h.2.sound⟩

/-- Triples are proved from one device at a time. -/
theorem triple_on {α : Type} {P : Bytes → Prop} {x : E α} {Q : α → Device → Prop}
    (h : ∀ B₀, P B₀ → Triple (On n (· = B₀)) x Q F) :
    Triple (On n P) x Q F := fun d hd => h d.bytes hd.2 d ⟨hd.1, rfl⟩

section Allocation

variable (hm : Layout m n)
include hm

theorem blockNumber_eq (hg : g < m.ngroups) (hi : i < 8192)
    (h : blockNumber m g i = some r) : r = 1 + g * 8192 + i ∧ r < m.blocksCount := by
  have := hm.groups
  unfold blockNumber at h
  rw [hm.firstDataBlock, hm.blocksPerGroup] at h
  simp only [ge_iff_le, Option.ite_none_left_eq_some, Option.some.injEq] at h
  omega

theorem blockUsed_eq (hi : i < 8192) (hb : 1 + g * 8192 + i < m.blocksCount) :
    blockUsed m B (1 + g * 8192 + i) = bitAt (blk B (m.bgBlockBitmap g)) i := by
  unfold blockUsed
  rw [hm.firstDataBlock, hm.blocksPerGroup, decide_eq_true ⟨by omega, hb⟩, Bool.true_and,
    show (1 + g * 8192 + i - 1) / 8192 = g by omega,
    show (1 + g * 8192 + i - 1) % 8192 = i by omega]

theorem blockUsed_mark (hg : g < m.ngroups) {bm : Bytes}
    (hmore : ∀ j, bitAt (blk B (m.bgBlockBitmap g)) j = true → bitAt bm j = true) (b : Nat)
    (hb : blockUsed m B b = true) : blockUsed m (writeAt B (m.bgBlockBitmap g) bm) b = true := by
  unfold blockUsed at hb ⊢
  rw [Bool.and_eq_true, decide_eq_true_eq] at hb ⊢
  refine ⟨hb.1, ?_⟩
  have hg' := hm.group_lt hb.1.2
  have hbyte : (b - m.firstDataBlock) % m.blocksPerGroup / 8 < 1024 := by
    rw [hm.blocksPerGroup]
    omega
  by_cases hgg : (b - m.firstDataBlock) / m.blocksPerGroup = g
  · rw [hgg] at hb ⊢
    rw [bitAt_congr (blk_writeAt_self hbyte)]
    exact hmore _ hb.2
  have hne : m.bgBlockBitmap ((b - m.firstDataBlock) / m.blocksPerGroup) ≠ m.bgBlockBitmap g := by
    rw [hm.blockBitmap _ hg', hm.blockBitmap g hg]
    have := metaBase_ne (k := m.ngroups) hgg
    omega
  rw [bitAt_congr (blk_writeAt_of_ne hne hbyte)]
  exact hb.2

/-- Block `r` has been taken from the bitmap of `B₀`, and nothing else has changed. -/
structure Taken (m : Mount) (top₀ top : Nat → Nat → Nat) (z : Prop) (B₀ : Bytes) (r : Nat) (B : Bytes) :
    Prop where
  held : Held m top₀ top z B
  fresh : Fresh m top B r
  zero : z → ∀ j : Fin 256, word B r j = 0
  map : blockMap (word B) top = blockMap (word B₀) top
  more : ∀ b, blockUsed m B₀ b = true → blockUsed m B b = true ∧ b ≠ r

/-- A block taken from a sound device is fresh. -/
theorem Held.alloc (h : Held m top₀ top z B₀) (hg : g < m.ngroups)
    (hmark : MarkedIn B₀ (m.bgBlockBitmap g) (blockNumber m g) 1024 r B) :
    Taken m top₀ top z B₀ r B := by
  obtain ⟨i, bm, hi, hnum, hclear, hset, hmore, rfl⟩ := hmark
  obtain ⟨rfl, hlt⟩ := blockNumber_eq hm hg (by omega) hnum
  have hmeta := (hm.blockBitmap_range hg).1
  have hmap := h.good.blockMap_write_meta bm hmeta
  have hfree : blockUsed m B₀ (1 + g * 8192 + i) = false := by
    rw [blockUsed_eq hm (by omega) hlt]
    exact hclear
  have hdata : metaEnd m.ngroups ≤ 1 + g * 8192 + i := by
    by_contra hlow
    rw [h.good.marked _ (by omega) (by omega)] at hfree
    cases hfree
  have hused := blockUsed_mark hm hg hmore
  refine ⟨h.mark hm hg hused, ⟨⟨hdata, hlt⟩, ?_, ?_⟩, ?_, hmap, fun b hb => ⟨hused b hb, ?_⟩⟩
  · rw [blockUsed_eq hm (by omega) hlt, bitAt_congr (blk_writeAt_self (by omega))]
    exact hset
  · intro c hc
    rw [hmap] at hc
    rw [h.good.owned.used hc] at hfree
    cases hfree
  · intro hz j
    rw [word_writeAt_of_ne (by omega) j.isLt]
    exact h.zero hz _ hdata hlt hfree j
  · rintro rfl
    rw [hb] at hfree
    cases hfree

theorem Layout.groups_eq : m.groups = m.ngroups := by
  have := hm.groups
  exact if_pos (by omega)

/-- Both allocators: a group's bitmap gets one item, or nothing changes. -/
theorem allocate_spec {bitmap : Nat → Nat} {nbytes : Nat}
    (hbitmap : ∀ g < m.ngroups, bitmap g < metaEnd m.ngroups) {number : Nat → Nat → Option Nat}
    (hnum : ∀ {g i r}, g < m.ngroups → i < 8 * nbytes → number g i = some r → 1 ≤ r) :
    Triple (On n (· = B₀))
      (do
        kmalloc
        let result ← scanGroups m bitmap nbytes number m.groups 0
        require (result ≠ 0)
        pure result)
      (fun r => On n fun B => ∃ g < m.ngroups, MarkedIn B₀ (bitmap g) (number g) nbytes r B)
      (On n (· = B₀)) := by
  have hinside : ∀ g < m.ngroups, bitmap g < m.blocksCount := by
    intro g hg
    have := hbitmap g hg
    have := hm.fits
    omega
  have hne : ∀ {g i r}, g < m.ngroups → i < 8 * nbytes → number g i = some r → r ≠ 0 :=
    fun hg hi hr => Nat.ne_of_gt (hnum hg hi hr)
  rw [hm.groups_eq]
  refine .bind kmalloc_spec fun _ => ?_
  refine (scanGroups_spec hm hinside hne m.ngroups 0 (by omega)).bind fun r => ?_
  refine require_bind (fun hr => .pure ?_) fun hr => ?_
  · rintro d ⟨hn, ⟨h0, _⟩ | ⟨_, hmark⟩⟩
    · exact absurd h0 hr
    · exact ⟨hn, hmark⟩
  · rintro d ⟨hn, ⟨_, hB⟩ | ⟨hr', _⟩⟩
    · exact ⟨hn, hB⟩
    · exact absurd hr' hr

theorem mAllocBlock_spec (h : Held m top₀ top z B₀) :
    Triple (On n (· = B₀)) (mAllocBlock m) (fun r => On n (Taken m top₀ top z B₀ r))
      (On n (· = B₀)) := by
  unfold mAllocBlock
  rw [hm.blockSize]
  refine require_bind (fun _ => ?_) fun _ _ hd => hd
  refine (allocate_spec hm (fun g hg => (hm.blockBitmap_range hg).1) fun hg hi hr => ?_).post ?_
  · have := (blockNumber_eq hm hg hi hr).1
    omega
  · rintro r d ⟨hn, g, hg, hmark⟩
    exact ⟨hn, h.alloc hm hg hmark⟩

theorem inodeNumber_range (hg : g < m.ngroups)
    (h : inodeNumber m g i = some r) : 1 ≤ r ∧ r ≤ m.inodesCount := by
  have := hm.groups
  unfold inodeNumber at h
  rw [hm.inodesPerGroup] at h
  simp only [ge_iff_le, gt_iff_lt, Option.ite_none_left_eq_some, Option.some.injEq, not_or,
    Nat.not_le, Nat.not_lt] at h
  omega

theorem mAllocInode_spec :
    Triple (On n (Sound m z)) (mAllocInode m)
      (fun r => On n fun B => (1 ≤ r ∧ r ≤ m.inodesCount) ∧ Sound m z B) (On n (Sound m z)) := by
  apply triple_on
  intro B₀ hB₀
  refine require_bind (fun _ => ?_) fun _ => .of_eq hB₀
  refine (allocate_spec hm (fun g hg => (hm.blockBitmap_range hg).2)
    fun hg _ hr => (inodeNumber_range hm hg hr).1).conseq (fun _ => id) ?_ (.of_eq hB₀)
  rintro r d ⟨hn, g, hg, i, bm, hi, hnum, _, _, _, hB⟩
  refine ⟨hn, inodeNumber_range hm hg hnum, ?_⟩
  rw [hB]
  exact (hB₀.write_inodeBitmap hm hg).sound

end Allocation

section Inodes

theorem withInode_diskTop {B : Bytes} (h₁ : 1 ≤ ino) (h₂ : ino ≤ m.inodesCount) :
    withInode (diskTop m B) ino (inodeAt (blk B (inodeBlock m ino)) (inodeOff m ino)).block =
      diskTop m B := by
  funext n' i
  unfold withInode
  by_cases hn : n' = ino
  · rw [if_pos hn]
    unfold diskTop
    by_cases hi : i < 15
    · rw [if_pos hi, hn, if_pos ⟨h₁, h₂, hi⟩]
    · simp [hi]
  · rw [if_neg hn]

variable (hm : Layout m n)
include hm

theorem mInodeLocate_spec (h₁ : 1 ≤ ino) (h₂ : ino ≤ m.inodesCount) {P : Device → Prop} :
    Triple P (mInodeLocate m ino) (fun r d => r = (inodeBlock m ino, inodeOff m ino) ∧ P d) F := by
  have := hm.groups
  have h₃ := h₂
  rw [hm.inodesCount] at h₃
  have hn : (ino + 2 ^ 32 - 1) % 2 ^ 32 = ino - 1 := by omega
  have hg : (ino - 1) / m.inodesPerGroup < m.ngroups := by
    rw [hm.inodesPerGroup]
    omega
  have hoff : (ino - 1) % m.inodesPerGroup * m.inodeSize % 2 ^ 32 =
      (ino - 1) % m.inodesPerGroup * m.inodeSize := by
    rw [hm.inodesPerGroup, hm.inodeSize]
    omega
  have hblk : inodeBlock m ino % 2 ^ 32 = inodeBlock m ino := by
    have := (hm.inodeBlock_range h₁ h₂).1
    have := hm.fits
    have := hm.device
    have := hm.sectors
    omega
  refine require_bind (fun _ => .pure fun d hd => ⟨?_, hd⟩) fun hneg => ?_
  · rw [hn, hoff]
    show (inodeBlock m ino % 2 ^ 32, inodeOff m ino) = _
    rw [hblk]
  · rw [hn] at hneg
    exact absurd hg hneg

theorem Layout.inodeBlock_lt (h₁ : 1 ≤ ino) (h₂ : ino ≤ m.inodesCount) :
    inodeBlock m ino < m.blocksCount := by
  have := (hm.inodeBlock_range h₁ h₂).1
  have := hm.fits
  omega

theorem mReadInode_spec (h : Sound m z B₀) :
    Triple (On n (· = B₀)) (mReadInode m ino)
      (fun nd => On n fun B => (1 ≤ ino ∧ ino ≤ m.inodesCount) ∧
        Writing m (diskTop m B₀) ino z nd.block (blockMap (word B₀) (diskTop m B₀)) B)
      (On n (Sound m z)) := by
  refine require_bind (fun hino => ?_) fun _ => .of_eq h
  obtain ⟨_, h₁, h₂⟩ := hino
  refine (mInodeLocate_spec hm h₁ h₂).bind fun r => .of_fact ?_
  rintro rfl
  refine kmalloc_spec.bindStop (.of_eq h) fun _ => ?_
  refine (mReadBlock_spec hm (hm.inodeBlock_lt h₁ h₂)).bindStop (.of_eq h) fun buf => ?_
  have hoff : inodeOff m ino + 100 ≤ m.blockSize := by
    rw [(hm.inode_at h₁ h₂).2.2, hm.blockSize]
    omega
  rw [if_pos hoff]
  refine .pure ?_
  rintro d ⟨hn, hB, rfl⟩
  refine ⟨hn, ⟨h₁, h₂⟩, ?_⟩
  rw [hB]
  have htop := withInode_diskTop (B := B₀) h₁ h₂
  refine ⟨?_, fun i => ?_, fun i => Bytes.get32_lt _ _, ?_⟩
  · rw [htop]
    exact h
  · by_cases hi : i < 15
    · exact .inr (if_pos ⟨h₁, h₂, hi⟩)
    · exact .inl (if_neg (by omega))
  · rw [htop]

theorem mWriteInode_spec (h₁ : 1 ≤ ino) (h₂ : ino ≤ m.inodesCount)
    (top₀ : Nat → Nat → Nat) (nd : Inode) :
    Triple (On n fun B => Held m top₀ (withInode top₀ ino nd.block) z B ∧
        (∀ i < 15, nd.block i < 2 ^ 32) ∧ Sound m z B)
      (mWriteInode m ino nd) (fun _ => On n (Sound m z)) (On n (Sound m z)) := by
  apply triple_on
  rintro B₀ ⟨hheld, hsmall, hsound⟩
  refine require_bind (fun _ => ?_) fun _ => .of_eq hsound
  refine (mInodeLocate_spec hm h₁ h₂).bind fun r => .of_fact ?_
  rintro rfl
  refine kmalloc_spec.bindStop (.of_eq hsound) fun _ => ?_
  refine (mReadBlock_spec hm (hm.inodeBlock_lt h₁ h₂)).bindStop (.of_eq hsound) fun buf => ?_
  apply (mWriteBlock_spec hm (hm.inodeBlock_lt h₁ h₂)).pre
  rintro d ⟨hn, hB, rfl⟩
  exact ⟨hn, hB ▸ (hheld.write_inode hm h₁ h₂ hsmall).sound, hB ▸ hsound⟩

end Inodes

end Kil0yOS.Ext2
