/-
Devices laid out by `ext2_mkfs`: blocks, bitmaps and what the allocators do to them.
-/
import Kil0yOS.Ext2.Files
import Kil0yOS.Ext2.BlockMap

namespace Kil0yOS.Ext2

open Lib

/-- A mount with the geometry of `ext2_mkfs` on a device of `n` sectors. -/
structure Layout (m : Mount) (n : Nat) : Prop where
  ready : m.ready = true
  inodesCount : m.inodesCount = m.ngroups * 2048
  firstDataBlock : m.firstDataBlock = 1
  blocksPerGroup : m.blocksPerGroup = 8192
  inodesPerGroup : m.inodesPerGroup = 2048
  inodeSize : m.inodeSize = 128
  blockSize : m.blockSize = 1024
  sectorsPerBlock : m.sectorsPerBlock = 2
  groups : 1 ≤ m.ngroups ∧ m.ngroups ≤ 256
  blockBitmap : ∀ g < m.ngroups, m.bgBlockBitmap g = metaBase m.ngroups g
  inodeBitmap : ∀ g < m.ngroups, m.bgInodeBitmap g = metaBase m.ngroups g + 1
  inodeTable : ∀ g < m.ngroups, m.bgInodeTable g = metaBase m.ngroups g + 2
  fits : metaEnd m.ngroups + 2 < m.blocksCount
  covered : m.blocksCount ≤ m.ngroups * 8192
  device : m.blocksCount * 2 ≤ n
  sectors : n < 2 ^ 32

theorem metaBase_le {n g : Nat} (hg : g < n) :
    3 ≤ metaBase n g ∧ metaBase n g + 258 ≤ metaEnd n := by
  unfold metaBase metaEnd gdtBlocks
  omega

theorem metaBase_ne {k g g' : Nat} (h : g ≠ g') :
    metaBase k g + 258 ≤ metaBase k g' ∨ metaBase k g' + 258 ≤ metaBase k g := by
  unfold metaBase
  omega

def blk (B : Bytes) (b : Nat) : Bytes := fun i => B (1024 * b + i)

def writeAt (B : Bytes) (b : Nat) (buf : Bytes) : Bytes := fun a =>
  if 1024 * b ≤ a ∧ a < 1024 * (b + 1) then buf (a - 1024 * b) else B a

def word (B : Bytes) (b i : Nat) : Nat := (blk B b).get32 (i * 4)

section Blocks

variable {B buf : Bytes} {b b' i : Nat}

theorem blk_writeAt_self (hi : i < 1024) : blk (writeAt B b buf) b i = buf i := by
  unfold blk writeAt
  rw [if_pos (by omega), Nat.add_sub_cancel_left]

theorem blk_writeAt_of_ne (hb : b' ≠ b) (hi : i < 1024) :
    blk (writeAt B b buf) b' i = blk B b' i := by
  exact if_neg (by omega)

theorem word_writeAt_self (hi : i < 256) : word (writeAt B b buf) b i = buf.get32 (i * 4) :=
  Bytes.get32_congr fun _ _ _ => blk_writeAt_self (by omega)

theorem word_writeAt_of_ne (hb : b' ≠ b) (hi : i < 256) :
    word (writeAt B b buf) b' i = word B b' i :=
  Bytes.get32_congr fun _ _ _ => blk_writeAt_of_ne hb (by omega)

end Blocks

def On (n : Nat) (P : Bytes → Prop) (d : Device) : Prop := d.sectorCount = n ∧ P d.bytes

theorem On.of_eq {n : Nat} {P : Bytes → Prop} {B : Bytes} (h : P B) (d : Device)
    (hd : On n (· = B) d) : On n P d := ⟨hd.1, hd.2 ▸ h⟩

/-- The device after `k` requests. -/
def Device.after (d : Device) (k : Nat) (B : Bytes) : Device :=
  { d with bytes := B, fails := fun i => d.fails (i + k) }

section Requests

variable {m : Mount} {n b : Nat} {d : Device} {P F : Bytes → Prop}

theorem require_bind {α : Type} {p : Prop} [Decidable p] {P F : Device → Prop} {f : Unit → E α}
    {Q : α → Device → Prop} (hp : p → Triple P (f ()) Q F) (hF : ¬ p → ∀ d, P d → F d) :
    Triple P (require p >>= f) Q F := by
  unfold require
  by_cases h : p
  · rw [if_pos h]
    exact hp h
  · rw [if_neg h]
    exact hF h

/-- A call that keeps a property of the contents, whether it succeeds or stops. -/
abbrev Keeps (n : Nat) (P : Bytes → Prop) {α : Type} (x : E α) : Prop :=
  Triple (On n P) x (fun _ => On n P) (On n P)

theorem kmalloc_spec : Keeps n P kmalloc := by
  intro d hd
  unfold kmalloc
  by_cases hf : d.fails 0 = true
  · rw [if_pos hf]
    exact hd
  · rw [if_neg hf]
    exact hd

theorem Layout.lba_eq (hm : Layout m n) (hb : b < m.blocksCount) :
    b * m.sectorsPerBlock % 2 ^ 32 = 2 * b := by
  have := hm.device
  have := hm.sectors
  rw [hm.sectorsPerBlock]
  omega

theorem Layout.inside (hm : Layout m n) (hn : d.sectorCount = n) (hb : b < m.blocksCount) :
    d.inside (2 * b) m.sectorsPerBlock = true := by
  have := hm.device
  unfold Device.inside
  rw [hm.sectorsPerBlock]
  simp only [Bool.and_eq_true, decide_eq_true_eq]
  omega

section Runs

variable (hm : Layout m n)
include hm

theorem mReadBlock_eq (hn : d.sectorCount = n) (hb : b < m.blocksCount) : mReadBlock m b d =
    if d.fails 0 then .error () d.tick else .ok (blk d.bytes b) d.tick := by
  unfold mReadBlock blkdevRead blk
  rw [hm.lba_eq hb, if_pos (hm.inside hn hb), show 512 * (2 * b) = 1024 * b by omega]

theorem mWriteBlock_eq (hn : d.sectorCount = n) (hb : b < m.blocksCount) (buf : Bytes) :
    mWriteBlock m b buf d = if d.fails 0 then .error () (d.after 1 d.bytes)
      else .ok () (d.after 1 (writeAt d.bytes b buf)) := by
  have hstore : d.store (2 * b) m.sectorsPerBlock buf = writeAt d.bytes b buf := by
    unfold Device.store writeAt
    rw [hm.sectorsPerBlock, show 512 * (2 * b) = 1024 * b by omega,
      show 512 * (2 * b + 2) = 1024 * (b + 1) by omega]
  unfold mWriteBlock blkdevWrite
  rw [hm.lba_eq hb, if_pos (hm.inside hn hb), hstore]
  rfl

theorem mReadBlock_spec (hb : b < m.blocksCount) :
    Triple (On n P) (mReadBlock m b) (fun buf => On n fun B => P B ∧ buf = blk B b) (On n P) := by
  intro d hd
  rw [mReadBlock_eq hm hd.1 hb]
  cases d.fails 0 with
  | true => exact hd
  | false => exact ⟨hd.1, hd.2, rfl⟩

theorem mWriteBlock_spec (hb : b < m.blocksCount) {buf : Bytes} :
    Triple (On n fun B => P (writeAt B b buf) ∧ F B) (mWriteBlock m b buf)
      (fun _ => On n P) (On n F) := by
  intro d hd
  rw [mWriteBlock_eq hm hd.1 hb]
  cases d.fails 0 with
  | true => exact ⟨hd.1, hd.2.2⟩
  | false => exact ⟨hd.1, hd.2.1⟩

end Runs

end Requests

def bitAt (bm : Bytes) (i : Nat) : Bool := (bm (i / 8)).toNat.testBit (i % 8)

theorem clearBit_spec {x : UInt8} {bit : Nat} (h : clearBit x = some bit) :
    bit < 8 ∧ x.toNat.testBit bit = false := by
  have hmem := List.mem_range.mp (List.mem_of_find?_eq_some h)
  have hclear := List.find?_some h
  exact ⟨hmem, by simpa using hclear⟩

theorem bitAt_setBit (bm : Bytes) {byte bit : Nat} (hbit : bit < 8) (i : Nat) :
    bitAt (setBit bm byte bit) i = (bitAt bm i || decide (i = byte * 8 + bit)) := by
  unfold bitAt setBit
  by_cases hi : i / 8 = byte
  · have hsmall : i % 8 < 8 := Nat.mod_lt _ (by omega)
    rw [if_pos hi, ← hi, UInt8.toNat_ofNat', Nat.testBit_mod_two_pow, Nat.testBit_or,
      Nat.testBit_two_pow]
    have heq : decide (bit = i % 8) = decide (i = i / 8 * 8 + bit) :=
      decide_eq_decide.mpr (by omega)
    simp [heq, decide_eq_true hsmall]
  · have hne : ¬ i = byte * 8 + bit := by omega
    simp [hi, decide_eq_false hne]

theorem bitAt_congr {bm bm' : Bytes} {i : Nat} (h : bm (i / 8) = bm' (i / 8)) :
    bitAt bm i = bitAt bm' i := by
  unfold bitAt
  rw [h]

section Allocators

variable {m : Mount} {n nbytes : Nat} {B₀ : Bytes}

/-- One clear bit of the bitmap in `block`, that of item `r`, has been set, and perhaps
others with it. -/
def MarkedIn (B₀ : Bytes) (block : Nat) (number : Nat → Option Nat) (nbytes r : Nat) (B : Bytes) :
    Prop :=
  ∃ i bm, i < 8 * nbytes ∧ number i = some r ∧ bitAt (blk B₀ block) i = false ∧
    bitAt bm i = true ∧ (∀ j, bitAt (blk B₀ block) j = true → bitAt bm j = true) ∧
    B = writeAt B₀ block bm

theorem scanBitmap_spec (hm : Layout m n) {block : Nat} (hb : block < m.blocksCount)
    {number : Nat → Option Nat} (hnum : ∀ {i r}, i < 8 * nbytes → number i = some r → r ≠ 0) :
    ∀ k byte bm, byte + k ≤ nbytes → (∀ j, bitAt (blk B₀ block) j = true → bitAt bm j = true) →
      Triple (On n (· = B₀)) (scanBitmap m block number k byte bm)
        (fun r => On n fun B => r = 0 ∧ B = B₀ ∨ r ≠ 0 ∧ MarkedIn B₀ block number nbytes r B)
        (On n (· = B₀)) := by
  intro k
  induction k with
  | zero =>
    intro byte bm _ _
    exact .pure fun d hd => ⟨hd.1, .inl ⟨rfl, hd.2⟩⟩
  | succ k ih =>
    intro byte bm hle hsub
    unfold scanBitmap
    cases hclear : clearBit (bm byte) with
    | none => exact ih (byte + 1) bm (by omega) hsub
    | some bit =>
      obtain ⟨hbit, hfree⟩ := clearBit_spec hclear
      dsimp only
      cases hitem : number (byte * 8 + bit) with
      | none => exact ih (byte + 1) bm (by omega) hsub
      | some item =>
        have hmore : ∀ j, bitAt (blk B₀ block) j = true → bitAt (setBit bm byte bit) j = true := by
          intro j hj
          simp [bitAt_setBit bm hbit, hsub j hj]
        refine .bind (.attempt ((mWriteBlock_spec (F := (· = B₀))
          (P := (· = writeAt B₀ block (setBit bm byte bit))) hm hb).pre ?_)) ?_
        · rintro d ⟨hn, rfl⟩
          exact ⟨hn, rfl, rfl⟩
        rintro (_ | ⟨⟩)
        · exact ih (byte + 1) _ (by omega) hmore
        show Triple _ (if item = 0 then _ else _) _ _
        have hr := hnum (by omega) hitem
        rw [if_neg hr]
        refine .pure fun d hd => ⟨hd.1, .inr ⟨hr, byte * 8 + bit, _,
          by omega, hitem, ?_, ?_, hmore, hd.2⟩⟩
        · by_contra hset
          have hbm := hsub _ (by simpa using hset)
          unfold bitAt at hbm
          rw [show (byte * 8 + bit) / 8 = byte by omega,
            show (byte * 8 + bit) % 8 = bit by omega, hfree] at hbm
          cases hbm
        · simp [bitAt_setBit bm hbit]

theorem scanGroups_spec (hm : Layout m n) {bitmap : Nat → Nat}
    (hb : ∀ g < m.ngroups, bitmap g < m.blocksCount) {number : Nat → Nat → Option Nat}
    (hnum : ∀ {g i r}, g < m.ngroups → i < 8 * nbytes → number g i = some r → r ≠ 0) :
    ∀ k g, g + k ≤ m.ngroups →
      Triple (On n (· = B₀)) (scanGroups m bitmap nbytes number k g)
        (fun r => On n fun B => r = 0 ∧ B = B₀ ∨
          r ≠ 0 ∧ ∃ g < m.ngroups, MarkedIn B₀ (bitmap g) (number g) nbytes r B)
        (On n (· = B₀)) := by
  intro k
  induction k with
  | zero =>
    intro g _
    exact .pure fun d hd => ⟨hd.1, .inl ⟨rfl, hd.2⟩⟩
  | succ k ih =>
    intro g hle
    have hg : g < m.ngroups := by omega
    refine ((mReadBlock_spec hm (hb g hg)).attempt).bind ?_
    rintro (_ | bm)
    · exact .pure fun d hd => ⟨hd.1, .inl ⟨rfl, hd.2⟩⟩
    show Triple (On n fun B => B = B₀ ∧ bm = blk B (bitmap g)) _ _ _
    intro d hd
    obtain ⟨hn, hB, hbm⟩ := hd
    rw [hB] at hbm
    refine (scanBitmap_spec hm (hb g hg) (hnum hg) nbytes 0 bm (Nat.zero_add nbytes).le
      (fun j hj => hbm ▸ hj)).bind ?_ d ⟨hn, hB⟩
    intro r
    refine .ite (fun hr => ?_) fun hr => ?_
    · apply (ih (g + 1) (by omega)).pre
      rintro d ⟨hn, h | h⟩
      · exact ⟨hn, h.2⟩
      · exact absurd hr h.1
    · rintro d ⟨hn, h | h⟩
      · exact absurd h.1 hr
      · exact ⟨hn, .inr ⟨hr, g, hg, h.2⟩⟩

end Allocators

end Kil0yOS.Ext2
