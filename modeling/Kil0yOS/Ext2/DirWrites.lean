/-
Linking names into directories and creating nodes keep the block maps sound.
-/
import Kil0yOS.Ext2.FileWrites

namespace Kil0yOS.Ext2

open Lib

variable {m : Mount} {n : Nat} {B B₀ : Bytes} {top top₀ : Nat → Nat → Nat} {z : Prop} {ino b x : Nat}
variable {block : Nat → Nat} {own : Nat × Pos → Option Nat} {p q : Pos} {j : Fin 256}

/-- What was fresh stays fresh when another block is taken. -/
theorem Taken.fresh_of (ht : Taken m top₀ top z B₀ x B) (h : Fresh m top B₀ b) :
    Fresh m top B b ∧ b ≠ x := by
  obtain ⟨hused, hne⟩ := ht.more b h.used
  refine ⟨⟨h.range, hused, ?_⟩, hne⟩
  rw [ht.map]
  exact h.unowned

theorem withInode_none_sub (top : Nat → Nat → Nat) (ino n' i : Nat) :
    withInode top ino (fun _ => 0) n' i = 0 ∨ withInode top ino (fun _ => 0) n' i = top n' i := by
  unfold withInode
  by_cases hn : n' = ino
  · rw [if_pos hn, ite_self]
    exact .inl rfl
  · rw [if_neg hn]
    exact .inr rfl

variable (hm : Layout m n)
include hm

section Reading

theorem mEntry_spec (hp : p.parent = some (q, j)) (hx : x ≠ 0 → own (ino, q) = some x) :
    Triple (On n (Writing m top₀ ino z block own)) (mEntry m x j)
      (fun r => On n fun B => (r ≠ 0 → own (ino, p) = some r) ∧ Writing m top₀ ino z block own B)
      (On n (Writing m top₀ ino z block own)) := by
  refine .ite (fun h0 => .pure ?_) fun h0 => ?_
  · rintro d ⟨hn, h⟩
    exact ⟨hn, fun hr => absurd rfl hr, h⟩
  apply triple_on
  intro B₀ h
  refine .bind ((mReadBlock_spec hm (h.range (hx h0)).2).attempt) ?_
  rintro (_ | ibuf)
  · rintro d ⟨hn, hB⟩
    exact ⟨hn, fun hr => absurd rfl hr, hB ▸ h⟩
  rintro d ⟨hn, hB, rfl⟩
  rw [hB]
  refine ⟨hn, fun hr => ?_, hB ▸ h⟩
  rw [h.own_parent hp (hx h0)]
  exact pointer_of_ne hr

/-- A logical block of the inode a call works with is at a place without pointers. -/
theorem mBmap_spec (bn : Nat) :
    Triple (On n (Writing m top₀ ino z block own)) (mBmap m block bn)
      (fun r => On n fun B => (r ≠ 0 → ∃ p, p.inner = false ∧ own (ino, p) = some r) ∧
        Writing m top₀ ino z block own B)
      (On n (Writing m top₀ ino z block own)) := by
  have hppb : m.blockSize / 4 = 256 := by rw [hm.blockSize]
  apply triple_on
  intro B₀ h
  have htop : ∀ {p i}, p.slot = some i → block i ≠ 0 → own (ino, p) = some (block i) := by
    intro p i hp h0
    rw [h.own_slot hp, pointer_of_ne h0]
  simp only [mBmap, hppb]
  refine .ite (fun h12 => .pure ?_) fun h12 => ?_
  · rintro d ⟨hn, hB⟩
    exact ⟨hn, fun hr => ⟨.direct ⟨bn, h12⟩, rfl, htop rfl hr⟩, hB ▸ h⟩
  refine .ite (fun hs => ?_) fun hs => ?_
  · refine (mEntry_spec (p := .single ⟨bn - 12, hs⟩) hm rfl (htop rfl)).conseq
      (.of_eq h) ?_ fun _ => id
    rintro r d ⟨hn, hr, h⟩
    exact ⟨hn, fun hne => ⟨_, rfl, hr hne⟩, h⟩
  split
  next hd =>
    have hk : (bn - 12 - 256) / 256 < 256 := by omega
    have hj : (bn - 12 - 256) % 256 < 256 := Nat.mod_lt _ (by omega)
    refine .bind ((mEntry_spec (p := .mid ⟨_, hk⟩) hm rfl
      (htop rfl)).pre (.of_eq h)) fun l1 => ?_
    rintro d ⟨hn, hl1, h⟩
    refine (mEntry_spec (p := .double ⟨_, hk⟩ ⟨_, hj⟩) hm rfl hl1).post ?_ d ⟨hn, h⟩
    rintro r d ⟨hn, hr, h⟩
    exact ⟨hn, fun hne => ⟨_, rfl, hr hne⟩, h⟩
  next =>
    rintro d ⟨hn, hB⟩
    exact ⟨hn, fun hr => absurd rfl hr, hB ▸ h⟩

end Reading

theorem direntScan_spec (e : Entry) :
    ∀ k bn, Keeps n (Writing m top₀ ino z block own) (direntScan m block e k bn) := by
  intro k
  induction k with
  | zero =>
    intro bn
    exact .pure fun _ => id
  | succ k ih =>
    intro bn
    refine (mBmap_spec hm bn).bind fun phys => ?_
    refine .ite (fun _ => ?_) fun h0 => ?_
    · exact (ih (bn + 1)).pre fun d hd => ⟨hd.1, hd.2.2⟩
    rintro d ⟨hn, hphys, h⟩
    obtain ⟨p, hleaf, hown⟩ := hphys h0
    refine ((mReadBlock_spec hm (h.range hown).2).attempt).bind ?_ d ⟨hn, h⟩
    rintro (_ | dbuf)
    · exact ih (bn + 1)
    dsimp only
    have hdrop : ∀ d, On n (fun B => Writing m top₀ ino z block own B ∧ dbuf = blk B phys) d →
        On n (Writing m top₀ ino z block own) d := fun d hd => ⟨hd.1, hd.2.1⟩
    cases direntInsert m e dbuf m.blockSize 0 with
    | none => exact (ih (bn + 1)).pre hdrop
    | some dbuf' =>
      refine .bind ((Triple.attempt
        (Writing.mWriteBlock_spec hm hleaf hown dbuf')).pre hdrop) ?_
      rintro (_ | ⟨⟩)
      · exact ih (bn + 1)
      · exact .pure fun _ => id

section Appending

theorem Fresh.write (h : Fresh m top B b) (hx : Fresh m top B x) (buf : Bytes) :
    Fresh m top (writeAt B x buf) b := by
  refine ⟨h.range, ?_, ?_⟩
  · rw [blockUsed_write_data hm buf hx.range.1]
    exact h.used
  · rw [Held.blockMap_write_leaf buf fun c _ => hx.unowned c]
    exact h.unowned

theorem Writing.write_fresh (h : Writing m top₀ ino z block own B)
    (hx : Fresh m (withInode top₀ ino block) B x) (buf : Bytes) :
    Writing m top₀ ino z block own (writeAt B x buf) := by
  apply h.write_leaf hm buf hx.range.1 hx.used
  intro c _
  rw [← h.map]
  exact hx.unowned c

/-- A zeroed block becomes the indirect block, and another stays fresh. -/
theorem Writing.link_zeroed (h : Writing m top₀ ino z block own B)
    (h0 : block 12 = 0) (hx : Fresh m (withInode top₀ ino block) B x)
    (hb : Fresh m (withInode top₀ ino block) B b) (hne : b ≠ x) :
    Writing m top₀ ino z (setSlot block 12 x) (Function.update own (ino, .ind) (some x))
        (writeAt B x zeros) ∧
      Fresh m (withInode top₀ ino (setSlot block 12 x)) (writeAt B x zeros) b := by
  have hzero : ∀ j : Fin 256, word (writeAt B x zeros) x j = 0 := by
    intro j
    rw [word_writeAt_self j.isLt]
    exact Bytes.get32_zero fun _ _ _ => rfl
  have hbase := h.write_fresh hm hx zeros
  have hnew := hbase.link_slot (p := .ind) hm rfl h0 (hx.write hm hx zeros) fun _ => hzero
  have hb' := hb.write hm hx zeros
  refine ⟨hnew, hb'.range, hb'.used, fun c hc => ?_⟩
  rw [hnew.map] at hc
  rcases update_cases hc with ⟨-, hc⟩ | ⟨-, hc⟩
  · exact hne (Option.some.inj hc).symm
  · rw [← hbase.map] at hc
    exact hb'.unowned c hc

theorem dirIndirect_spec :
    Triple (On n fun B => Writing m top₀ ino z block own B ∧ Fresh m (withInode top₀ ino block) B b)
      (dirIndirect m block)
      (fun block' => On n fun B => ∃ own', own' (ino, .ind) = some (block' 12) ∧
        Writing m top₀ ino z block' own' B ∧ Fresh m (withInode top₀ ino block') B b)
      (On n (Sound m z)) := by
  apply triple_on
  rintro B₀ ⟨h, hb⟩
  refine .ite (fun h0 => ?_) fun h0 => .pure ?_
  · refine (Ext2.mAllocBlock_spec hm h.held).bindStop (.of_eq h.sound) fun ind => ?_
    apply triple_on
    intro B₁ ht
    obtain ⟨hb₁, hne⟩ := ht.fresh_of hb
    have h₁ : Writing m top₀ ino z block own B₁ :=
      ⟨ht.held, h.kept, h.small, ht.map.trans h.map⟩
    obtain ⟨h₂, hb₂⟩ := h₁.link_zeroed hm h0 ht.fresh hb₁ hne
    refine .bind ((mWriteBlock_spec (P := (· = writeAt B₁ ind zeros)) hm
      ht.fresh.range.2).pre fun d hd => ⟨hd.1, by rw [hd.2], hd.2 ▸ h₁.sound⟩) fun _ => .pure ?_
    rintro d ⟨hn, hB⟩
    refine ⟨hn, _, ?_, hB ▸ h₂, hB ▸ hb₂⟩
    rw [Function.update_self]
    rfl
  · rintro d ⟨hn, hB⟩
    refine ⟨hn, own, ?_, hB ▸ h, hB ▸ hb⟩
    rw [h.own_slot rfl, pointer_of_ne h0]

/-- The inode with a fresh block as its logical block `bn` can be written. -/
theorem dirLink_spec (bn : Nat) :
    Triple (On n fun B => Writing m top₀ ino z block own B ∧ Fresh m (withInode top₀ ino block) B b)
      (dirLink m block bn b)
      (fun block' => On n fun B => Held m top₀ (withInode top₀ ino block') z B ∧
        (∀ i < 15, block' i < 2 ^ 32) ∧ Sound m z B)
      (On n (Sound m z)) := by
  have hppb : m.blockSize / 4 = 256 := by rw [hm.blockSize]
  unfold dirLink
  rw [hppb]
  refine .ite (fun h12 => .pure ?_) fun h12 => ?_
  · rintro d ⟨hn, h, hb⟩
    exact ⟨hn, h.held.link_slot (p := .direct ⟨bn, h12⟩) hm rfl hb (by simp [Pos.inner]),
      fun i _ => setSlot_lt h.small (hb.lt_two_pow hm) i, h.sound⟩
  refine .ite (fun hs => ?_) fun hs => .throw fun d hd => ⟨hd.1, hd.2.1.sound⟩
  refine (dirIndirect_spec hm).bind fun block' => ?_
  rintro d ⟨hn, own', hind, h, hb⟩
  have hset : Triple (On n fun B => Writing m top₀ ino z block' own' B ∧
      Fresh m (withInode top₀ ino block') B b ∧ _) _ _ _ :=
    Writing.mIndSet_spec (p := .single ⟨bn - 12, hs⟩) hm rfl hind b
  refine hset.bindStop Writing.stop (fun _ => .pure ?_) d ⟨hn, h, hb, by simp [Pos.inner]⟩
  rintro d ⟨hn, h⟩
  exact ⟨hn, h.held, fun i _ => h.small i, h.sound⟩

theorem dirAppend_spec (h₁ : 1 ≤ ino) (h₂ : ino ≤ m.inodesCount) (dir : Inode)
    (nblocks : Nat) (e : Entry) :
    Triple (On n (Writing m top₀ ino z dir.block own)) (dirAppend m ino dir nblocks e)
      (fun _ => On n (Sound m z)) (On n (Sound m z)) := by
  refine (Writing.mAllocBlock_spec hm).bindStop Writing.stop fun nb => ?_
  apply triple_on
  rintro B₀ ⟨h, hnb, _⟩
  refine .bind ((mWriteBlock_spec (P := fun B =>
    Writing m top₀ ino z dir.block own B ∧ Fresh m (withInode top₀ ino dir.block) B nb) hm
    hnb.range.2).pre ?_) fun _ => ?_
  · rintro d ⟨hn, hB⟩
    rw [hB.symm] at h hnb
    exact ⟨hn, ⟨h.write_fresh hm hnb _, hnb.write hm hnb _⟩, h.sound⟩
  · exact (dirLink_spec hm nblocks).bind fun block' =>
      mWriteInode_spec hm h₁ h₂ top₀
        { dir with size := (dir.size + m.blockSize) % 2 ^ 32, block := block' }

end Appending

theorem mAddDirent_spec (dirIno : Nat) (e : Entry) :
    Keeps n (Sound m z) (mAddDirent m dirIno e) := by
  apply triple_on
  intro B₀ h
  refine (mReadInode_spec hm h).bind fun dir => ?_
  rintro d ⟨hn, ⟨h₁, h₂⟩, hw⟩
  refine require_bind (fun _ => ?_) (fun _ => Writing.stop) d ⟨hn, hw⟩
  refine require_bind (fun _ => ?_) fun _ => Writing.stop
  refine kmalloc_spec.bindStop Writing.stop fun _ => ?_
  refine kmalloc_spec.bindStop Writing.stop fun _ => ?_
  refine (direntScan_spec hm e _ 0).bindStop Writing.stop fun found => ?_
  refine .ite (fun _ => .pure Writing.stop) fun _ => ?_
  exact dirAppend_spec hm h₁ h₂ dir _ e

theorem Held.first_block (h : Held m top₀ top₀ z B) (hb : Fresh m top₀ B b)
    (ino : Nat) : Held m top₀ (withInode top₀ ino (setSlot (fun _ => 0) 0 b)) z B := by
  have hsub := withInode_none_sub top₀ ino
  have hb' : Fresh m (withInode top₀ ino fun _ => 0) B b :=
    ⟨hb.range, hb.used, fun c hc => hb.unowned c (blockMap_sub hsub c b hc)⟩
  exact (h.sub hsub).link_slot (p := .direct 0) hm rfl hb' (by simp [Pos.inner])

theorem ext2CreateFile_spec (dirIno : Nat) (name : List UInt8) :
    Keeps n (Sound m z) (ext2CreateFile m dirIno name) := by
  refine require_bind (fun _ => ?_) fun _ _ => id
  refine require_bind (fun _ => ?_) fun _ _ => id
  refine (mAllocInode_spec hm).bind fun ino => ?_
  apply triple_on
  rintro B₀ ⟨⟨h₁, h₂⟩, h⟩
  have hnone := Held.sub h (withInode_none_sub _ ino)
  refine ((mWriteInode_spec hm h₁ h₂ (diskTop m B₀) _).pre ?_).bind fun _ =>
    (mAddDirent_spec hm dirIno _).bind fun _ => .pure fun _ => id
  rintro d ⟨hn, rfl⟩
  exact ⟨hn, hnone, fun _ _ => Nat.two_pow_pos 32, h⟩

theorem ext2CreateDir_spec (dirIno : Nat) (name : List UInt8) :
    Keeps n (Sound m z) (ext2CreateDir m dirIno name) := by
  refine require_bind (fun _ => ?_) fun _ _ => id
  refine require_bind (fun _ => ?_) fun _ _ => id
  refine (mAllocInode_spec hm).bind fun ino => ?_
  apply triple_on
  rintro B₀ ⟨⟨h₁, h₂⟩, h⟩
  refine (Ext2.mAllocBlock_spec hm h).bindStop (.of_eq h) fun nb => ?_
  apply triple_on
  intro B₁ ht
  refine kmalloc_spec.bindStop (.of_eq ht.held.sound) fun _ => ?_
  refine .bind ((mWriteBlock_spec (P := fun B =>
    Held m (diskTop m B₀) (diskTop m B₀) z B ∧ Fresh m (diskTop m B₀) B nb) hm
    ht.fresh.range.2).pre ?_) fun _ => ?_
  · rintro d ⟨hn, hB⟩
    refine ⟨hn, hB ▸ ⟨?_, ht.fresh.write hm ht.fresh _⟩, hB ▸ ht.held.sound⟩
    exact ht.held.write_leaf hm ht.fresh.range.1 ht.fresh.used fun c _ => ht.fresh.unowned c
  refine ((mWriteInode_spec hm h₁ h₂ (diskTop m B₀) _).pre ?_).bind fun _ =>
    (mAddDirent_spec hm dirIno _).bind fun _ => .pure fun _ => id
  rintro d ⟨hn, hheld, hnb⟩
  exact ⟨hn, hheld.first_block hm hnb ino,
    fun i _ => setSlot_lt (fun _ => Nat.two_pow_pos 32) (hnb.lt_two_pow hm) i, hheld.sound⟩

end Kil0yOS.Ext2
