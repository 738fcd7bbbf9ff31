/-
Block maps as trees of pointers.

The map of an inode has direct entries, an indirect block and a doubly indirect block.
Here an inode is its entries `top` and a block is its words, so that the effect of
one new pointer on all maps is stated without bytes.
-/
import Kil0yOS.Lib.Tables
import Mathlib.Data.Fin.Basic

namespace Kil0yOS.Ext2

open Lib Function Option Prod

/-- A place in the map of an inode, of blocks with 256 pointers. -/
inductive Pos where
  | direct (i : Fin 12)
  | ind
  | single (j : Fin 256)
  | dind
  | mid (k : Fin 256)
  | double (k j : Fin 256)
  deriving DecidableEq

namespace Pos

def inner : Pos → Bool
  | ind | dind | mid _ => true
  | direct _ | single _ | double _ _ => false

/-- The entry of the inode that a place is read from. -/
def slot : Pos → Option Nat
  | direct i => some i
  | ind => some 12
  | dind => some 13
  | single _ | mid _ | double _ _ => none

/-- The block and the index in it that a place is read from. -/
def parent : Pos → Option (Pos × Fin 256)
  | single j => some (ind, j)
  | mid k => some (dind, k)
  | double k j => some (mid k, j)
  | direct _ | ind | dind => none

theorem parent_inj {p p' q : Pos} {j : Fin 256} (h : p.parent = some (q, j))
    (h' : p'.parent = some (q, j)) : p = p' := by
  cases p <;> simp only [parent, reduceCtorEq, some.injEq, mk.injEq] at h <;>
    obtain ⟨rfl, rfl⟩ := h <;> cases p' <;> simp_all [parent]

theorem slot_inj {p p' : Pos} {i : Nat} (h : p.slot = some i) (h' : p'.slot = some i) : p = p' := by
  cases p <;> cases p' <;> simp_all [slot] <;> omega

theorem inner_of_parent {p q : Pos} {j : Fin 256} (h : p.parent = some (q, j)) :
    q.inner = true := by
  cases p <;> simp_all [parent] <;> simp [← h.1, inner]

/-- A place is read from the inode or from a block, not from both. -/
theorem parent_eq_none {p : Pos} {i : Nat} (h : p.slot = some i) : p.parent = none := by
  cases p <;> simp_all [slot, parent]

end Pos

def pointer (b : Nat) : Option Nat := if b = 0 then none else some b

theorem pointer_zero : pointer 0 = none := rfl

theorem pointer_of_ne {b : Nat} (h : b ≠ 0) : pointer b = some b := if_neg h

theorem eq_of_pointer {b b' : Nat} (h : pointer b = some b') : b = b' ∧ b ≠ 0 := by
  unfold pointer at h
  split at h
  · cases h
  · exact ⟨some.inj h, ‹_›⟩

def blockMap (word top : Nat → Nat → Nat) : Nat × Pos → Option Nat
  | (ino, .direct i) => pointer (top ino i)
  | (ino, .ind) => pointer (top ino 12)
  | (ino, .single j) => (pointer (top ino 12)).bind fun x => pointer (word x j)
  | (ino, .dind) => pointer (top ino 13)
  | (ino, .mid k) => (pointer (top ino 13)).bind fun x => pointer (word x k)
  | (ino, .double k j) =>
    (((pointer (top ino 13)).bind fun x => pointer (word x k))).bind fun y => pointer (word y j)

variable {word word' top top' : Nat → Nat → Nat} {ino i b x : Nat} {p q : Pos} {j : Fin 256}

theorem blockMap_slot (h : p.slot = some i) : blockMap word top (ino, p) = pointer (top ino i) := by
  cases p <;> simp_all [Pos.slot, blockMap]

theorem blockMap_parent (h : p.parent = some (q, j)) :
    blockMap word top (ino, p) = (blockMap word top (ino, q)).bind fun x => pointer (word x j) := by
  cases p <;> simp_all [Pos.parent] <;> obtain ⟨rfl, rfl⟩ := h <;> rfl

theorem blockMap_eq_none (h : p.parent = some (q, j)) (hq : blockMap word top (ino, q) = none) :
    blockMap word top (ino, p) = none := by
  rw [blockMap_parent h, hq]
  rfl

/-- A rule for facts about every place: by the entries of the inode, then by the blocks
they lead to. -/
theorem Pos.rec_parent {motive : Pos → Prop} (top : ∀ p i, p.slot = some i → motive p)
    (step : ∀ p q j, p.parent = some (q, j) → motive q → motive p) (p : Pos) : motive p := by
  have hind : motive .ind := top _ 12 rfl
  have hdind : motive .dind := top _ 13 rfl
  cases p with
  | direct i => exact top _ i rfl
  | ind => exact hind
  | dind => exact hdind
  | single j => exact step _ .ind j rfl hind
  | mid k => exact step _ .dind k rfl hdind
  | double k j => exact step _ (.mid k) j rfl (step _ .dind k rfl hdind)

/-- The maps depend on the blocks that hold pointers only. -/
theorem blockMap_congr_word
    (h : ∀ {c x}, c.2.inner = true → blockMap word top c = some x → ∀ j : Fin 256,
      word' x j = word x j) : blockMap word' top = blockMap word top := by
  funext ⟨ino, p⟩
  induction p using Pos.rec_parent with
  | top p i hp => simp [blockMap_slot hp]
  | step p q j hp ih =>
    rw [blockMap_parent hp, blockMap_parent hp, ih]
    cases hq : blockMap word top (ino, q) with
    | none => rfl
    | some x =>
      show pointer (word' x j) = pointer (word x j)
      rw [h (Pos.inner_of_parent hp) hq j]

theorem blockMap_sub (h : ∀ ino i, top' ino i = 0 ∨ top' ino i = top ino i) (c : Nat × Pos) (b : Nat)
    (hc : blockMap word top' c = some b) : blockMap word top c = some b := by
  obtain ⟨ino, p⟩ := c
  induction p using Pos.rec_parent generalizing b with
  | top p i hp =>
    rw [blockMap_slot hp] at hc ⊢
    rcases h ino i with h0 | heq
    · rw [h0] at hc
      cases hc
    · rwa [← heq]
  | step p q j hp ih =>
    rw [blockMap_parent hp] at hc ⊢
    obtain ⟨x, hx, hb⟩ := bind_eq_some_iff.mp hc
    rw [ih x hx]
    exact hb

/-- One more pointer, to a block that holds none, from an entry of an inode. -/
theorem blockMap_set_slot (hp : p.slot = some i) (hb : b ≠ 0)
    (hself : top' ino i = b) (hother : ∀ n k, (n, k) ≠ (ino, i) → top' n k = top n k)
    (hempty : p.inner = true → blockMap word top (ino, p) = none ∧ ∀ j : Fin 256, word b j = 0) :
    blockMap word top' = update (blockMap word top) (ino, p) (some b) := by
  funext ⟨n, r⟩
  induction r using Pos.rec_parent with
  | top r k hr =>
    rw [blockMap_slot hr]
    by_cases h : (n, r) = (ino, p)
    · obtain ⟨rfl, rfl⟩ := mk.inj h
      obtain rfl : k = i := some.inj (hr.symm.trans hp)
      simp [hself, pointer_of_ne hb]
    rw [update_of_ne h, hother n k, blockMap_slot hr]
    rintro heq
    obtain ⟨rfl, rfl⟩ := mk.inj heq
    exact h (by rw [Pos.slot_inj hr hp])
  | step r q j hr ih =>
    have hne : (n, r) ≠ (ino, p) := by
      rintro heq
      obtain ⟨rfl, rfl⟩ := mk.inj heq
      rw [Pos.parent_eq_none hp] at hr
      cases hr
    rw [blockMap_parent hr, ih, update_of_ne hne, blockMap_parent hr]
    by_cases h : (n, q) = (ino, p)
    · obtain ⟨rfl, rfl⟩ := mk.inj h
      obtain ⟨hnone, hzero⟩ := hempty (Pos.inner_of_parent hr)
      rw [update_self, hnone]
      show pointer (word b j) = none
      rw [hzero j, pointer_zero]
    · rw [update_of_ne h]

/-- One more pointer, to a block that holds none, from a block that one place leads to. -/
theorem blockMap_set_word (hp : p.parent = some (q, j)) (hb : b ≠ 0)
    (hx : blockMap word top (ino, q) = some x)
    (hone : ∀ c, blockMap word top c = some x → c = (ino, q))
    (hself : word' x j = b) (hother : ∀ y (k : Fin 256), (y, k) ≠ (x, j) → word' y k = word y k)
    (hempty : p.inner = true → blockMap word top (ino, p) = none ∧ ∀ k : Fin 256, word' b k = 0) :
    blockMap word' top = update (blockMap word top) (ino, p) (some b) := by
  funext ⟨n, r⟩
  induction r using Pos.rec_parent with
  | top r k hr =>
    have hne : (n, r) ≠ (ino, p) := by
      rintro heq
      obtain ⟨rfl, rfl⟩ := mk.inj heq
      rw [Pos.parent_eq_none hr] at hp
      cases hp
    simp [blockMap_slot hr, update_of_ne hne]
  | step r s k hr ih =>
    rw [blockMap_parent hr, ih]
    by_cases h : (n, s) = (ino, p)
    · -- Below the new block there is nothing, and there was nothing before.
      obtain ⟨rfl, rfl⟩ := mk.inj h
      obtain ⟨hnone, hzero⟩ := hempty (Pos.inner_of_parent hr)
      have hne : (n, r) ≠ (n, s) := by
        rintro heq
        obtain rfl := (mk.inj heq).2
        exact absurd hr (by cases r <;> simp [Pos.parent])
      rw [update_self, update_of_ne hne, blockMap_eq_none hr hnone]
      show pointer (word' b k) = none
      rw [hzero k, pointer_zero]
    rw [update_of_ne h]
    cases hs : blockMap word top (n, s) with
    | none =>
      have hne : (n, r) ≠ (ino, p) := by
        rintro heq
        obtain ⟨rfl, rfl⟩ := mk.inj heq
        obtain ⟨rfl, rfl⟩ := mk.inj (some.inj (hr.symm.trans hp))
        rw [hs] at hx
        cases hx
      rw [update_of_ne hne, blockMap_eq_none hr hs]
      rfl
    | some y =>
      show pointer (word' y k) = _
      by_cases hyk : (y, k) = (x, j)
      · obtain ⟨rfl, rfl⟩ := mk.inj hyk
        obtain ⟨rfl, rfl⟩ := mk.inj (hone (n, s) hs)
        obtain rfl := Pos.parent_inj hr hp
        simp [hself, pointer_of_ne hb]
      have hne : (n, r) ≠ (ino, p) := by
        rintro heq
        obtain ⟨rfl, rfl⟩ := mk.inj heq
        obtain ⟨rfl, rfl⟩ := mk.inj (some.inj (hr.symm.trans hp))
        exact hyk (by rw [some.inj (hs.symm.trans hx)])
      rw [update_of_ne hne, hother y k hyk, blockMap_parent hr, hs]
      rfl

end Kil0yOS.Ext2
