/-
Writing a file keeps the block maps sound, where every indirect block it takes from the
bitmap holds zeros.
-/
import Kil0yOS.Ext2.MapWrites

namespace Kil0yOS.Ext2

open Lib Function

variable {m : Mount} {n : Nat} {B B₀ : Bytes} {top₀ : Nat → Nat → Nat} {z : Prop} {ino i x : Nat}
variable {block : Nat → Nat} {own own' own'' : Nat × Pos → Option Nat} {p q : Pos} {j : Fin 256}
variable {b : Nat} {c : Nat × Pos}

def Grew (own own' : Nat × Pos → Option Nat) : Prop := ∀ c b, own c = some b → own' c = some b

theorem Grew.trans (h : Grew own own') (h' : Grew own' own'') : Grew own own'' :=
  fun c b hc => h' c b (h c b hc)

theorem Grew.eq_none (h : Grew own own') (hc : own' c = none) : own c = none := by
  cases ho : own c with
  | none => rfl
  | some b =>
    rw [h c b ho] at hc
    cases hc

theorem Grew.update (hc : own c = none) (b : Nat) : Grew own (update own c (some b)) := by
  intro c' b' hc'
  have hne : c' ≠ c := by
    rintro rfl
    rw [hc] at hc'
    cases hc'
  rw [update_of_ne hne]
  exact hc'

namespace Writing

section

variable (h : Writing m top₀ ino z block own B)
include h

theorem own_slot (hp : p.slot = some i) : own (ino, p) = pointer (block i) := by
  have hi := Pos.slot_lt hp
  rw [← h.map, blockMap_slot hp]
  unfold withInode
  rw [if_pos rfl, if_pos (by omega)]

theorem own_parent (hp : p.parent = some (q, j))
    (hx : own (ino, q) = some x) : own (ino, p) = pointer (word B x j) := by
  rw [← h.map] at hx ⊢
  rw [blockMap_parent hp, hx]
  rfl

theorem range (hx : own c = some x) : metaEnd m.ngroups ≤ x ∧ x < m.blocksCount := by
  rw [← h.map] at hx
  exact h.held.good.range hx

/-- The block of a place that holds no pointers is no indirect block. -/
theorem leaf (hc : c.2.inner = false)
    (hx : own c = some x) : ∀ c', c'.2.inner = true → own c' ≠ some x := by
  rintro c' hin hc'
  rw [← h.map] at hx hc'
  rw [h.held.good.owned.inj hx hc', hin] at hc
  cases hc

end

variable (hm : Layout m n)
include hm

theorem write_leaf (h : Writing m top₀ ino z block own B) (buf : Bytes)
    (hx : metaEnd m.ngroups ≤ x) (hused : blockUsed m B x = true)
    (hleaf : ∀ c, c.2.inner = true → own c ≠ some x) :
    Writing m top₀ ino z block own (writeAt B x buf) := by
  rw [← h.map] at hleaf
  exact ⟨h.held.write_leaf hm hx hused hleaf, h.kept, h.small,
    (Held.blockMap_write_leaf buf hleaf).trans h.map⟩

theorem mWriteBlock_spec (hc : c.2.inner = false) (hx : own c = some x) (buf : Bytes) :
    Keeps n (Writing m top₀ ino z block own) (mWriteBlock m x buf) := by
  rintro d ⟨hn, h⟩
  have hx' := hx
  rw [← h.map] at hx'
  exact Ext2.mWriteBlock_spec hm (h.range hx).2 d
    ⟨hn, h.write_leaf hm buf (h.range hx).1 (h.held.good.owned.used hx') (h.leaf hc hx), h⟩

theorem mAllocBlock_spec :
    Triple (On n (Writing m top₀ ino z block own)) (mAllocBlock m)
      (fun r => On n fun B => Writing m top₀ ino z block own B ∧
        Fresh m (withInode top₀ ino block) B r ∧ (z → ∀ j : Fin 256, word B r j = 0))
      (On n (Writing m top₀ ino z block own)) := by
  apply triple_on
  intro B₀ h
  refine (Ext2.mAllocBlock_spec hm h.held).conseq (fun _ => id) ?_ (.of_eq h)
  rintro r d ⟨hn, ht⟩
  exact ⟨hn, ⟨ht.held, h.kept, h.small, ht.map.trans h.map⟩, ht.fresh, ht.zero⟩

theorem link_slot (h : Writing m top₀ ino z block own B) (hp : p.slot = some i)
    (h0 : block i = 0) (hf : Fresh m (withInode top₀ ino block) B b)
    (hzero : p.inner = true → ∀ j : Fin 256, word B b j = 0) :
    Writing m top₀ ino z (setSlot block i b) (update own (ino, p) (some b)) B := by
  have hnone : own (ino, p) = none := by
    rw [h.own_slot hp, h0, pointer_zero]
  have hempty : p.inner = true → blockMap (word B) (withInode top₀ ino block) (ino, p) = none ∧
      ∀ j : Fin 256, word B b j = 0 := fun hin => ⟨h.map ▸ hnone, hzero hin⟩
  refine ⟨h.held.link_slot hm hp hf hempty, fun k => ?_, setSlot_lt h.small (hf.lt_two_pow hm), ?_⟩
  · unfold setSlot
    by_cases hk : k = i
    · left
      rcases h.kept k with hk' | hk'
      · exact hk'
      · rw [hk', hk, h0]
    · rw [if_neg hk]
      exact h.kept k
  · rw [blockMap_setSlot hm hp hf hempty, h.map]

theorem link_word (h : Writing m top₀ ino z block own B)
    (hp : p.parent = some (q, j)) (hx : own (ino, q) = some x)
    (hf : Fresh m (withInode top₀ ino block) B b)
    (hempty : p.inner = true → own (ino, p) = none ∧ ∀ j : Fin 256, word B b j = 0) :
    Writing m top₀ ino z block (update own (ino, p) (some b))
      (writeAt B x ((blk B x).put32 (j * 4) b)) := by
  rw [← h.map] at hx hempty
  refine ⟨h.held.link_word hm hp hx hf hempty, h.kept, h.small, ?_⟩
  rw [blockMap_setWord hm hp hx hf hempty h.held.good, h.map]

theorem mIndGet_spec (hp : p.parent = some (q, j)) (hx : own (ino, q) = some x) :
    Triple (On n (Writing m top₀ ino z block own)) (mIndGet m x j)
      (fun r => On n fun B => own (ino, p) = pointer r ∧ Writing m top₀ ino z block own B)
      (On n (Writing m top₀ ino z block own)) := by
  apply triple_on
  intro B₀ h
  refine (mReadBlock_spec hm (h.range hx).2).bindStop (.of_eq h) fun buf => .pure ?_
  rintro d ⟨hn, hB, rfl⟩
  rw [hB]
  exact ⟨hn, h.own_parent hp hx, hB ▸ h⟩

theorem mIndSet_spec (hp : p.parent = some (q, j)) (hx : own (ino, q) = some x) (b : Nat) :
    Triple (On n fun B => Writing m top₀ ino z block own B ∧
        Fresh m (withInode top₀ ino block) B b ∧
        (p.inner = true → own (ino, p) = none ∧ ∀ j : Fin 256, word B b j = 0))
      (mIndSet m x j b)
      (fun _ => On n (Writing m top₀ ino z block (update own (ino, p) (some b))))
      (On n (Writing m top₀ ino z block own)) := by
  apply triple_on
  rintro B₀ ⟨h, hf, hempty⟩
  refine (mReadBlock_spec hm (h.range hx).2).bindStop (.of_eq h) fun buf => ?_
  apply (Ext2.mWriteBlock_spec hm (h.range hx).2).pre
  rintro d ⟨hn, hB, rfl⟩
  refine ⟨hn, ?_, hB ▸ h⟩
  rw [hB]
  exact h.link_word hm hp hx hf hempty

end Writing

section Steps

variable (hm : Layout m n)
include hm

theorem slotBlock_spec (hp : p.slot = some i) (hz : p.inner = true → own (ino, p) = none → z) :
    Triple (On n (Writing m top₀ ino z block own)) (slotBlock m block i)
      (fun r => On n fun B => ∃ own', Grew own own' ∧ own' (ino, p) = some r.1 ∧
        Writing m top₀ ino z r.2 own' B)
      (On n (Sound m z)) := by
  refine .ite (fun h0 => ?_) fun h0 => ?_
  · refine (Writing.mAllocBlock_spec hm).bindStop Writing.stop fun b => .pure ?_
    rintro d ⟨hn, h, hf, hzero⟩
    have hnone : own (ino, p) = none := by
      rw [h.own_slot hp, h0, pointer_zero]
    exact ⟨hn, _, Grew.update hnone b, update_self _ _ _,
      h.link_slot hm hp h0 hf fun hin => hzero (hz hin hnone)⟩
  · rintro d ⟨hn, h⟩
    refine ⟨hn, own, fun _ _ => id, ?_, h⟩
    rw [h.own_slot hp, pointer_of_ne h0]

theorem entryBlock_spec (hp : p.parent = some (q, j))
    (hx : own (ino, q) = some x) (hz : p.inner = true → own (ino, p) = none → z) :
    Triple (On n (Writing m top₀ ino z block own)) (entryBlock m x j)
      (fun r => On n fun B => ∃ own', Grew own own' ∧ own' (ino, p) = some r ∧
        Writing m top₀ ino z block own' B)
      (On n (Sound m z)) := by
  refine (Writing.mIndGet_spec hm hp hx).bindStop Writing.stop fun phys => ?_
  refine .ite (fun h0 => ?_) fun h0 => ?_
  · rintro d ⟨hn, hnone, h⟩
    rw [h0] at hnone
    refine (Writing.mAllocBlock_spec hm).bindStop Writing.stop (fun b => ?_) d ⟨hn, h⟩
    have hset : Triple _ _ _ (On n (Writing m top₀ ino z block own)) :=
      Writing.mIndSet_spec hm hp hx b
    refine (hset.pre ?_).bindStop Writing.stop fun _ => .pure ?_
    · rintro d ⟨hn, h, hf, hzero⟩
      exact ⟨hn, h, hf, fun hin => ⟨hnone, hzero (hz hin hnone)⟩⟩
    · rintro d ⟨hn, h⟩
      exact ⟨hn, _, Grew.update hnone b, update_self _ _ _, h⟩
  · rintro d ⟨hn, hown, h⟩
    exact ⟨hn, own, fun _ _ => id, hown.trans (pointer_of_ne h0), h⟩

/-- The indirect block that holds the pointer to logical block `bn`. -/
def indirectOf (bn : Nat) : Option Pos :=
  if bn < 12 then none
  else if bn - 12 < 256 then some .ind
  else if h : (bn - 12 - 256) / 256 < 256 then some (.mid ⟨_, h⟩)
  else none

theorem writeBlockFor_spec {bn : Nat} (hz : ∀ q, indirectOf bn = some q → own (ino, q) = none → z) :
    Triple (On n (Writing m top₀ ino z block own)) (writeBlockFor m block bn)
      (fun r => On n fun B => ∃ own' p, Grew own own' ∧ p.inner = false ∧
        own' (ino, p) = some r.1 ∧ Writing m top₀ ino z r.2 own' B)
      (On n (Sound m z)) := by
  apply triple_on
  intro B₀ h₀
  have hppb : m.blockSize / 4 = 256 := by rw [hm.blockSize]
  simp only [writeBlockFor, hppb]
  refine .ite (fun h12 => ?_) fun h12 => ?_
  · -- A direct block.
    refine (slotBlock_spec (p := .direct ⟨bn, h12⟩) hm rfl (by simp [Pos.inner])).conseq
      (.of_eq h₀) ?_ fun _ => id
    rintro r d ⟨hn, own', hgrew, hr, h⟩
    exact ⟨hn, own', _, hgrew, rfl, hr, h⟩
  refine .ite (fun hs => ?_) fun hs => ?_
  · -- A block behind the indirect block.
    have hind : indirectOf bn = some .ind := by
      unfold indirectOf
      simp [h12, hs]
    refine ((slotBlock_spec hm rfl fun _ => hz _ hind).pre (.of_eq h₀)).bind ?_
    rintro ⟨ind, block'⟩ d ⟨hn, own', hgrew, hown', h⟩
    refine (entryBlock_spec (p := .single ⟨bn - 12, hs⟩) hm rfl hown'
      (by simp [Pos.inner])).bind (fun phys => .pure ?_) d ⟨hn, h⟩
    rintro d ⟨hn, own'', hgrew', hr, h⟩
    exact ⟨hn, own'', _, hgrew.trans hgrew', rfl, hr, h⟩
  split
  next hd =>
    -- A block behind a block behind the doubly indirect block.
    have hk : (bn - 12 - 256) / 256 < 256 := by omega
    have hj : (bn - 12 - 256) % 256 < 256 := Nat.mod_lt _ (by omega)
    have hmid : indirectOf bn = some (.mid ⟨_, hk⟩) := by
      unfold indirectOf
      simp [h12, hs, dif_pos hk]
    have hdind : own (ino, .dind) = none → z := by
      intro hnone
      apply hz _ hmid
      rw [← h₀.map] at hnone ⊢
      exact blockMap_eq_none rfl hnone
    refine ((slotBlock_spec hm rfl fun _ => hdind).pre (.of_eq h₀)).bind ?_
    rintro ⟨dind, block'⟩ d ⟨hn, own', hgrew, hown', h⟩
    refine (entryBlock_spec (p := .mid ⟨_, hk⟩) hm rfl hown'
      fun _ hnone => hz _ hmid (hgrew.eq_none hnone)).bind (fun l1blk => ?_) d ⟨hn, h⟩
    rintro d ⟨hn, own'', hgrew', hown'', h⟩
    refine (entryBlock_spec (p := .double ⟨_, hk⟩ ⟨_, hj⟩) hm rfl hown''
      (by simp [Pos.inner])).bind (fun phys => .pure ?_) d ⟨hn, h⟩
    rintro d ⟨hn, own₃, hgrew₃, hr, h⟩
    exact ⟨hn, own₃, _, (hgrew.trans hgrew').trans hgrew₃, rfl, hr, h⟩
  next => exact .throw (.of_eq h₀.sound)

theorem writeBlocks_spec (data : List UInt8) :
    ∀ k bn block own,
      (∀ bn', bn ≤ bn' → bn' < bn + k → ∀ q, indirectOf bn' = some q → own (ino, q) = none → z) →
      Triple (On n (Writing m top₀ ino z block own)) (writeBlocks m data k bn block)
        (fun block' => On n fun B => ∃ own', Writing m top₀ ino z block' own' B)
        (On n (Sound m z)) := by
  intro k
  induction k with
  | zero =>
    intro bn block own _
    exact .pure fun d hd => ⟨hd.1, own, hd.2⟩
  | succ k ih =>
    intro bn block own hz
    refine (writeBlockFor_spec hm (hz bn (by omega) (by omega))).bind ?_
    rintro ⟨phys, block'⟩ d ⟨hn, own', p, hgrew, hleaf, hphys, h⟩
    refine (Writing.mWriteBlock_spec hm hleaf hphys _).bindStop Writing.stop
      (fun _ => ?_) d ⟨hn, h⟩
    exact ih (bn + 1) block' own' fun bn' h₁ h₂ q hq hnone =>
      hz bn' (by omega) (by omega) q hq (hgrew.eq_none hnone)

/-- Writing a file keeps the maps sound if free blocks hold zeros or every indirect
block it goes through is there. -/
theorem ext2WriteFile_spec (data : List UInt8) (h : Sound m z B₀)
    (hz : ∀ bn < (data.length + 1023) / 1024 % 2 ^ 32, ∀ q, indirectOf bn = some q →
      blockMap (word B₀) (diskTop m B₀) (ino, q) = none → z) :
    Triple (On n (· = B₀)) (ext2WriteFile m ino data) (fun _ => On n (Sound m z))
      (On n (Sound m z)) := by
  refine require_bind (fun _ => ?_) fun _ => .of_eq h
  refine (mReadInode_spec hm h).bind fun nd => ?_
  rintro d ⟨hn, ⟨h₁, h₂⟩, hw⟩
  refine require_bind (fun _ => ?_) (fun _ => Writing.stop) d ⟨hn, hw⟩
  rw [hm.blockSize]
  refine kmalloc_spec.bindStop Writing.stop fun _ => ?_
  refine kmalloc_spec.bindStop Writing.stop fun _ => ?_
  refine kmalloc_spec.bindStop Writing.stop fun _ => ?_
  refine (writeBlocks_spec hm data _ 0 nd.block _ ?_).bind fun block => ?_
  · exact fun bn' _ hlt q hq hnone => hz bn' (by omega) q hq hnone
  refine ((mWriteInode_spec hm h₁ h₂ (diskTop m B₀) _).pre ?_).bind fun _ => .pure fun _ => id
  rintro d ⟨hn, own', hw⟩
  exact ⟨hn, hw.held, fun i _ => hw.small i, hw.sound⟩

end Steps

end Kil0yOS.Ext2
