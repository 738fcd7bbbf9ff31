/-
The invariant of the block maps on a device laid out by `ext2_mkfs`.

`Held` speaks of two sets of inodes: the ones on the device and the ones a running
call works with.  A call adds blocks to the maps it works with, and its changes reach
the device when it writes the inode.
-/
import Kil0yOS.Ext2.Layout

namespace Kil0yOS.Ext2

open Lib Bytes

variable {buf : Bytes} {g ino : Nat} {top' : Nat → Nat → Nat}

def blockUsed (m : Mount) (B : Bytes) (b : Nat) : Bool :=
  decide (m.firstDataBlock ≤ b ∧ b < m.blocksCount) &&
    bitAt (blk B (m.bgBlockBitmap ((b - m.firstDataBlock) / m.blocksPerGroup)))
      ((b - m.firstDataBlock) % m.blocksPerGroup)

def inodeBlock (m : Mount) (ino : Nat) : Nat :=
  m.bgInodeTable ((ino - 1) / m.inodesPerGroup) +
    (ino - 1) % m.inodesPerGroup * m.inodeSize / m.blockSize

def inodeOff (m : Mount) (ino : Nat) : Nat :=
  (ino - 1) % m.inodesPerGroup * m.inodeSize % m.blockSize

def diskTop (m : Mount) (B : Bytes) (ino i : Nat) : Nat :=
  if 1 ≤ ino ∧ ino ≤ m.inodesCount ∧ i < 15 then
    (inodeAt (blk B (inodeBlock m ino)) (inodeOff m ino)).block i
  else 0

def withInode (top : Nat → Nat → Nat) (ino : Nat) (block : Nat → Nat) : Nat → Nat → Nat :=
  fun n i => if n = ino then if i < 15 then block i else 0 else top n i

variable {m : Mount} {n : Nat} {B B' : Bytes} {top top₀ : Nat → Nat → Nat} {z : Prop} {b x : Nat}

/-- Every block of the maps is a data block marked used, at one place. -/
structure Good (m : Mount) (top : Nat → Nat → Nat) (B : Bytes) : Prop where
  owned : Owned (blockMap (word B) top) (blockUsed m B)
  range : ∀ {c b}, blockMap (word B) top c = some b → metaEnd m.ngroups ≤ b ∧ b < m.blocksCount
  marked : ∀ b, 1 ≤ b → b < metaEnd m.ngroups → blockUsed m B b = true

/-- A block that has been taken and is in no map yet. -/
structure Fresh (m : Mount) (top : Nat → Nat → Nat) (B : Bytes) (b : Nat) : Prop where
  range : metaEnd m.ngroups ≤ b ∧ b < m.blocksCount
  used : blockUsed m B b = true
  unowned : ∀ c, blockMap (word B) top c ≠ some b

/-- Every free block holds zeros. -/
def FreeZero (m : Mount) (B : Bytes) : Prop :=
  ∀ b, metaEnd m.ngroups ≤ b → b < m.blocksCount → blockUsed m B b = false →
    ∀ j : Fin 256, word B b j = 0

/-- The device holds the inodes `top₀`, the maps of `top` are sound, and, if `z`, free
blocks hold zeros. -/
structure Held (m : Mount) (top₀ top : Nat → Nat → Nat) (z : Prop) (B : Bytes) : Prop where
  disk : diskTop m B = top₀
  good : Good m top B
  zero : z → FreeZero m B

section Geometry

variable (hm : Layout m n)
include hm

theorem Layout.group_lt (hb : b < m.blocksCount) :
    (b - m.firstDataBlock) / m.blocksPerGroup < m.ngroups := by
  have := hm.covered
  rw [hm.blocksPerGroup]
  omega

theorem Layout.inode_at (h₁ : 1 ≤ ino) (h₂ : ino ≤ m.inodesCount) :
    (ino - 1) / 2048 < m.ngroups ∧
      inodeBlock m ino = metaBase m.ngroups ((ino - 1) / 2048) + 2 + (ino - 1) % 2048 / 8 ∧
      inodeOff m ino = (ino - 1) % 8 * 128 := by
  have hg : (ino - 1) / 2048 < m.ngroups := by
    rw [hm.inodesCount] at h₂
    omega
  refine ⟨hg, ?_, ?_⟩
  · unfold inodeBlock
    rw [hm.inodesPerGroup, hm.inodeSize, hm.blockSize, hm.inodeTable _ hg]
    omega
  · unfold inodeOff
    rw [hm.inodesPerGroup, hm.inodeSize, hm.blockSize]
    omega

/-- Inode tables lie in the metadata run, beside the bitmaps. -/
theorem Layout.inodeBlock_range (h₁ : 1 ≤ ino) (h₂ : ino ≤ m.inodesCount) :
    inodeBlock m ino < metaEnd m.ngroups ∧
      (∀ g < m.ngroups, inodeBlock m ino ≠ m.bgBlockBitmap g ∧ inodeBlock m ino ≠ m.bgInodeBitmap g)
      := by
  obtain ⟨hg, hblk, _⟩ := hm.inode_at h₁ h₂
  have hbase := metaBase_le hg
  refine ⟨by omega, fun g hg' => ?_⟩
  rw [hm.blockBitmap g hg', hm.inodeBitmap g hg', hblk]
  by_cases hgg : (ino - 1) / 2048 = g
  · rw [hgg]
    omega
  · have := metaBase_ne (k := m.ngroups) hgg
    omega

end Geometry

section Frames

/-- The maps of sound inodes do not read the metadata. -/
theorem Good.blockMap_write_meta (h : Good m top B) (buf : Bytes) (hx : x < metaEnd m.ngroups) :
    blockMap (word (writeAt B x buf)) top = blockMap (word B) top := by
  apply blockMap_congr_word
  intro c y _ hy j
  have := (h.range hy).1
  exact word_writeAt_of_ne (by omega) j.isLt

theorem FreeZero.write_meta (h : FreeZero m B) (hx : x < metaEnd m.ngroups)
    (hmore : ∀ b, blockUsed m B b = true → blockUsed m (writeAt B x buf) b = true) :
    FreeZero m (writeAt B x buf) := by
  intro b hlo hhi hfree j
  rw [word_writeAt_of_ne (by omega) j.isLt]
  apply h b hlo hhi _ j
  by_contra hused
  rw [hmore b (by simpa using hused)] at hfree
  cases hfree

variable (hm : Layout m n)
include hm

/-- A write beside the block bitmaps. -/
theorem blockUsed_writeAt (buf : Bytes) (hx : ∀ g < m.ngroups, m.bgBlockBitmap g ≠ x) :
    blockUsed m (writeAt B x buf) = blockUsed m B := by
  funext b
  unfold blockUsed
  by_cases hb : m.firstDataBlock ≤ b ∧ b < m.blocksCount
  · have hne := hx _ (hm.group_lt hb.2)
    rw [bitAt_congr (blk_writeAt_of_ne hne (by rw [hm.blocksPerGroup]; omega))]
  · simp [decide_eq_false hb]

/-- A write beside the inode tables. -/
theorem diskTop_writeAt (buf : Bytes)
    (hx : ∀ ino, 1 ≤ ino → ino ≤ m.inodesCount → inodeBlock m ino ≠ x) :
    diskTop m (writeAt B x buf) = diskTop m B := by
  funext ino i
  unfold diskTop
  by_cases hin : 1 ≤ ino ∧ ino ≤ m.inodesCount ∧ i < 15
  · obtain ⟨_, _, hoff⟩ := hm.inode_at hin.1 hin.2.1
    rw [if_pos hin, if_pos hin]
    exact get32_congr fun j _ _ => blk_writeAt_of_ne (hx ino hin.1 hin.2.1) (by omega)
  · simp [hin]

theorem Layout.blockBitmap_range (hg : g < m.ngroups) :
    m.bgBlockBitmap g < metaEnd m.ngroups ∧ m.bgInodeBitmap g < metaEnd m.ngroups := by
  have := metaBase_le hg
  rw [hm.blockBitmap g hg, hm.inodeBitmap g hg]
  omega

theorem blockUsed_write_data (buf : Bytes) (hx : metaEnd m.ngroups ≤ x) :
    blockUsed m (writeAt B x buf) = blockUsed m B := by
  apply blockUsed_writeAt hm
  intro g hg
  have := (hm.blockBitmap_range hg).1
  omega

theorem diskTop_write_data (buf : Bytes) (hx : metaEnd m.ngroups ≤ x) :
    diskTop m (writeAt B x buf) = diskTop m B := by
  apply diskTop_writeAt hm
  intro ino h₁ h₂
  have := (hm.inodeBlock_range h₁ h₂).1
  omega

theorem FreeZero.write_used (h : FreeZero m B) (hx : metaEnd m.ngroups ≤ x)
    (hxused : blockUsed m B x = true) : FreeZero m (writeAt B x buf) := by
  intro b hlo hhi hfree j
  rw [blockUsed_write_data hm buf hx] at hfree
  have hne : b ≠ x := by
    rintro rfl
    rw [hxused] at hfree
    cases hfree
  rw [word_writeAt_of_ne hne j.isLt]
  exact h b hlo hhi hfree j

end Frames

namespace Held

/-- A block of the metadata is written; the bitmaps only gain bits. -/
theorem write_meta (h : Held m top₀ top z B) (hx : x < metaEnd m.ngroups)
    (hmore : ∀ b, blockUsed m B b = true → blockUsed m (writeAt B x buf) b = true)
    {top₁ : Nat → Nat → Nat} (hdisk : diskTop m (writeAt B x buf) = top₁) :
    Held m top₁ top z (writeAt B x buf) := by
  have hmap := h.good.blockMap_write_meta buf hx
  refine ⟨hdisk, ⟨?_, ?_, ?_⟩, fun hz => (h.zero hz).write_meta hx hmore⟩
  · rw [hmap]
    exact h.good.owned.mono hmore
  · rw [hmap]
    exact h.good.range
  · exact fun b h₁ h₂ => hmore b (h.good.marked b h₁ h₂)

theorem mark (hm : Layout m n) (h : Held m top₀ top z B) (hg : g < m.ngroups) {bm : Bytes}
    (hmore : ∀ b, blockUsed m B b = true →
      blockUsed m (writeAt B (m.bgBlockBitmap g) bm) b = true) :
    Held m top₀ top z (writeAt B (m.bgBlockBitmap g) bm) := by
  apply h.write_meta (hm.blockBitmap_range hg).1 hmore
  rw [← h.disk]
  exact diskTop_writeAt hm _ fun ino h₁ h₂ => ((hm.inodeBlock_range h₁ h₂).2 g hg).1

theorem write_inodeBitmap (hm : Layout m n) (h : Held m top₀ top z B)
    (hg : g < m.ngroups) : Held m top₀ top z (writeAt B (m.bgInodeBitmap g) buf) := by
  have hused : blockUsed m (writeAt B (m.bgInodeBitmap g) buf) = blockUsed m B := by
    apply blockUsed_writeAt hm
    intro g' hg'
    rw [hm.blockBitmap g' hg', hm.inodeBitmap g hg]
    unfold metaBase
    omega
  apply h.write_meta (hm.blockBitmap_range hg).2 (fun b hb => by rwa [hused])
  rw [← h.disk]
  exact diskTop_writeAt hm _ fun ino h₁ h₂ => ((hm.inodeBlock_range h₁ h₂).2 g hg).2

/-- A block that holds no pointers leaves the maps as they are. -/
theorem blockMap_write_leaf (buf : Bytes)
    (hleaf : ∀ c, c.2.inner = true → blockMap (word B) top c ≠ some x) :
    blockMap (word (writeAt B x buf)) top = blockMap (word B) top := by
  apply blockMap_congr_word
  intro c y hc hy j
  apply word_writeAt_of_ne _ j.isLt
  rintro rfl
  exact hleaf c hc hy

/-- The contents of a used data block without pointers are written. -/
theorem write_leaf (hm : Layout m n) (h : Held m top₀ top z B) (hx : metaEnd m.ngroups ≤ x)
    (hxused : blockUsed m B x = true)
    (hleaf : ∀ c, c.2.inner = true → blockMap (word B) top c ≠ some x) :
    Held m top₀ top z (writeAt B x buf) := by
  have hmap := blockMap_write_leaf buf hleaf
  have hused := blockUsed_write_data (B := B) hm buf hx
  refine ⟨(diskTop_write_data hm _ hx).trans h.disk, ⟨?_, ?_, ?_⟩,
    fun hz => (h.zero hz).write_used hm hx hxused⟩
  · rw [hmap, hused]
    exact h.good.owned
  · rw [hmap]
    exact h.good.range
  · rw [hused]
    exact h.good.marked

theorem sub (h : Held m top₀ top z B)
    (hsub : ∀ ino i, top' ino i = 0 ∨ top' ino i = top ino i) : Held m top₀ top' z B :=
  ⟨h.disk, ⟨h.good.owned.sub (blockMap_sub hsub), fun hc => h.good.range (blockMap_sub hsub _ _ hc),
    h.good.marked⟩, h.zero⟩

end Held

/-- A fresh block enters the maps at one place. -/
theorem Good.link (h : Good m top B) (hf : Fresh m top B b) {c : Nat × Pos}
    (hmap : blockMap (word B') top' = Function.update (blockMap (word B) top) c (some b))
    (hused : blockUsed m B' = blockUsed m B) : Good m top' B' := by
  refine ⟨?_, ?_, ?_⟩
  · rw [hmap, hused]
    exact h.owned.link hf.used hf.unowned c
  · intro c' b' hc'
    rw [hmap] at hc'
    rcases update_cases hc' with ⟨-, hc'⟩ | ⟨-, hc'⟩
    · rw [← Option.some.inj hc']
      exact hf.range
    · exact h.range hc'
  · rw [hused]
    exact h.marked

section Links

variable {ino i : Nat} {block : Nat → Nat} {p q : Pos} {j : Fin 256}

theorem Pos.slot_lt (hp : p.slot = some i) : i < 14 := by
  cases p <;> simp_all [Pos.slot] <;> omega

theorem Fresh.ne_zero (hm : Layout m n) (h : Fresh m top B b) : b ≠ 0 := by
  have := h.range.1
  have := metaBase_le hm.groups.1
  omega

theorem Fresh.lt_two_pow (hm : Layout m n) (h : Fresh m top B b) : b < 2 ^ 32 := by
  have := h.range.2
  have := hm.device
  have := hm.sectors
  omega

theorem setSlot_lt (hblock : ∀ k, block k < 2 ^ 32) (hb : b < 2 ^ 32) (k : Nat) :
    setSlot block i b k < 2 ^ 32 := by
  unfold setSlot
  split
  · exact hb
  · exact hblock k

variable (hm : Layout m n)
include hm

section

variable (hp : p.slot = some i) (hf : Fresh m (withInode top₀ ino block) B b)
  (hempty : p.inner = true → blockMap (word B) (withInode top₀ ino block) (ino, p) = none ∧
    ∀ j : Fin 256, word B b j = 0)
include hp hf hempty

theorem blockMap_setSlot : blockMap (word B) (withInode top₀ ino (setSlot block i b)) =
    Function.update (blockMap (word B) (withInode top₀ ino block)) (ino, p) (some b) := by
  have hi := Pos.slot_lt hp
  apply blockMap_set_slot hp (hf.ne_zero hm) _ _ hempty
  · unfold withInode setSlot
    rw [if_pos rfl, if_pos (by omega), if_pos rfl]
  intro n' k hne
  unfold withInode setSlot
  by_cases hn : n' = ino
  · have hk : k ≠ i := by
      rintro rfl
      exact hne (by rw [hn])
    simp [hk]
  · simp [hn]

theorem Held.link_slot (h : Held m top₀ (withInode top₀ ino block) z B) :
    Held m top₀ (withInode top₀ ino (setSlot block i b)) z B :=
  ⟨h.disk, h.good.link hf (blockMap_setSlot hm hp hf hempty) rfl, h.zero⟩

end

section

variable (hp : p.parent = some (q, j)) (hx : blockMap (word B) top (ino, q) = some x)
  (hf : Fresh m top B b) (hempty : p.inner = true → blockMap (word B) top (ino, p) = none ∧
    ∀ k : Fin 256, word B b k = 0)
include hp hx hf hempty

theorem blockMap_setWord (hg : Good m top B) :
    blockMap (word (writeAt B x ((blk B x).put32 (j * 4) b))) top =
      Function.update (blockMap (word B) top) (ino, p) (some b) := by
  have hbx : b ≠ x := by
    rintro rfl
    exact hf.unowned _ hx
  apply blockMap_set_word hp (hf.ne_zero hm) hx (fun c hc => hg.owned.inj hc hx)
  · rw [word_writeAt_self j.isLt, get32_put32, Nat.mod_eq_of_lt (hf.lt_two_pow hm)]
  · intro y k hne
    by_cases hy : y = x
    · have hkj : (k : Nat) ≠ j := fun e => hne (by rw [hy, Fin.ext e])
      rw [hy, word_writeAt_self k.isLt, get32_put32_of_out _ _ (by omega)]
      rfl
    · exact word_writeAt_of_ne hy k.isLt
  · intro hin
    refine ⟨(hempty hin).1, fun k => ?_⟩
    rw [word_writeAt_of_ne hbx k.isLt]
    exact (hempty hin).2 k

theorem Held.link_word (h : Held m top₀ top z B) :
    Held m top₀ top z (writeAt B x ((blk B x).put32 (j * 4) b)) := by
  have hxdata := (h.good.range hx).1
  exact ⟨(diskTop_write_data hm _ hxdata).trans h.disk,
    h.good.link hf (blockMap_setWord hm hp hx hf hempty h.good) (blockUsed_write_data hm _ hxdata),
    fun hz => (h.zero hz).write_used hm hxdata (h.good.owned.used hx)⟩

end

/-- Two inodes lie in different blocks or apart in one. -/
theorem Layout.inode_apart {ino' : Nat} (h₁ : 1 ≤ ino) (h₂ : ino ≤ m.inodesCount)
    (h₁' : 1 ≤ ino') (h₂' : ino' ≤ m.inodesCount) (hne : ino' ≠ ino) :
    inodeBlock m ino' ≠ inodeBlock m ino ∨ inodeOff m ino' + 128 ≤ inodeOff m ino ∨
      inodeOff m ino + 128 ≤ inodeOff m ino' := by
  obtain ⟨_, hblk, hoff⟩ := hm.inode_at h₁ h₂
  obtain ⟨_, hblk', hoff'⟩ := hm.inode_at h₁' h₂'
  rw [hblk']
  by_cases hgg : (ino' - 1) / 2048 = (ino - 1) / 2048
  · rw [hgg]
    omega
  · have := metaBase_ne (k := m.ngroups) hgg
    omega

theorem diskTop_write_inode (h₁ : 1 ≤ ino) (h₂ : ino ≤ m.inodesCount) (nd : Inode)
    (hsmall : ∀ k < 15, nd.block k < 2 ^ 32) :
    diskTop m (writeAt B (inodeBlock m ino)
        (putInode (blk B (inodeBlock m ino)) (inodeOff m ino) nd)) =
      withInode (diskTop m B) ino nd.block := by
  obtain ⟨_, _, hoff⟩ := hm.inode_at h₁ h₂
  funext n' k
  unfold withInode
  by_cases hn : n' = ino
  · subst hn
    rw [if_pos rfl]
    unfold diskTop
    by_cases hk : k < 15
    · rw [if_pos ⟨h₁, h₂, hk⟩, if_pos hk]
      calc _ = (putInode (blk B (inodeBlock m n')) (inodeOff m n') nd).get32
                (inodeOff m n' + 40 + 4 * k) :=
              get32_congr fun j _ _ => blk_writeAt_self (by omega)
        _ = nd.block k % 2 ^ 32 := get32_putWords _ _ _ hk
        _ = nd.block k := Nat.mod_eq_of_lt (hsmall k hk)
    · rw [if_neg (by omega), if_neg hk]
  rw [if_neg hn]
  unfold diskTop
  by_cases hin : 1 ≤ n' ∧ n' ≤ m.inodesCount ∧ k < 15
  · rw [if_pos hin, if_pos hin]
    obtain ⟨_, _, hoff'⟩ := hm.inode_at hin.1 hin.2.1
    by_cases hb : inodeBlock m n' = inodeBlock m ino
    · have hapart := (hm.inode_apart h₁ h₂ hin.1 hin.2.1 hn).resolve_left (absurd hb)
      apply get32_congr
      intro j hj₁ hj₂
      rw [hb, blk_writeAt_self (by omega)]
      unfold putInode
      rw [putWords_of_out _ _ (by omega), put32_of_out _ _ (by omega), put16_of_out _ _ (by omega)]
    · exact get32_congr fun j _ _ => blk_writeAt_of_ne hb (by omega)
  · simp [hin]

theorem Held.write_inode (h₁ : 1 ≤ ino) (h₂ : ino ≤ m.inodesCount) {nd : Inode}
    (h : Held m top₀ (withInode top₀ ino nd.block) z B) (hsmall : ∀ k < 15, nd.block k < 2 ^ 32) :
    Held m (withInode top₀ ino nd.block) (withInode top₀ ino nd.block) z
      (writeAt B (inodeBlock m ino) (putInode (blk B (inodeBlock m ino)) (inodeOff m ino) nd)) := by
  obtain ⟨hmeta, hother⟩ := hm.inodeBlock_range h₁ h₂
  have hused : blockUsed m (writeAt B (inodeBlock m ino)
      (putInode (blk B (inodeBlock m ino)) (inodeOff m ino) nd)) = blockUsed m B :=
    blockUsed_writeAt hm _ fun g hg => (hother g hg).1.symm
  apply h.write_meta hmeta (fun b hb => by rwa [hused])
  rw [diskTop_write_inode hm h₁ h₂ nd hsmall, h.disk]

end Links

end Kil0yOS.Ext2
