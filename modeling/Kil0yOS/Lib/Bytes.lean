/-
Little-endian words in a buffer of bytes.

A buffer is a function from offsets to bytes.  A word that was put is got back, and
putting a word leaves the bytes outside of it alone.
-/
import Mathlib.Data.Nat.Bitwise

namespace Kil0yOS.Lib

variable {i j n : Nat}

abbrev Bytes := Nat → UInt8

namespace Bytes

variable (b : Bytes)

def set (i : Nat) (v : UInt8) : Bytes := fun j => if j = i then v else b j

def get16 (i : Nat) : Nat := (b i).toNat + 256 * (b (i + 1)).toNat

def get32 (i : Nat) : Nat := b.get16 i + 65536 * b.get16 (i + 2)

def put16 (i v : Nat) : Bytes :=
  (b.set i (UInt8.ofNat v)).set (i + 1) (UInt8.ofNat (v / 256))

def put32 (i v : Nat) : Bytes := (b.put16 i v).put16 (i + 2) (v / 65536)

def get64 (i : Nat) : Nat := b.get32 i + 2 ^ 32 * b.get32 (i + 4)

def put64 (i v : Nat) : Bytes := (b.put32 i v).put32 (i + 4) (v / 2 ^ 32)

def fill (i n : Nat) (v : UInt8) : Bytes := fun j =>
  if i ≤ j ∧ j < i + n then v else b j

/-- Copies `n` bytes to a place that does not overlap them. -/
def copy (dst src n : Nat) : Bytes := fun j =>
  if dst ≤ j ∧ j < dst + n then b (src + (j - dst)) else b j

def putWords (i n : Nat) (w : Nat → Nat) : Bytes := fun j =>
  if i ≤ j ∧ j < i + 4 * n then UInt8.ofNat (w ((j - i) / 4) / 256 ^ ((j - i) % 4)) else b j

theorem set_self (i : Nat) (v : UInt8) : b.set i v i = v := if_pos rfl

theorem set_of_ne (v : UInt8) (h : j ≠ i) : b.set i v j = b j := if_neg h

theorem get16_congr {b c : Bytes} (h : ∀ j, i ≤ j → j < i + 2 → b j = c j) :
    b.get16 i = c.get16 i := by
  unfold get16
  rw [h i (by omega) (by omega), h (i + 1) (by omega) (by omega)]

theorem get32_congr {b c : Bytes} (h : ∀ j, i ≤ j → j < i + 4 → b j = c j) :
    b.get32 i = c.get32 i := by
  unfold get32
  rw [get16_congr fun j h₁ h₂ => h j h₁ (by omega),
    get16_congr fun j h₁ h₂ => h j (by omega) (by omega)]

theorem get32_zero {b : Bytes} (h : ∀ j, i ≤ j → j < i + 4 → b j = 0) : b.get32 i = 0 := by
  rw [get32_congr h]
  rfl

theorem put16_of_out (v : Nat) (h : j < i ∨ i + 2 ≤ j) : b.put16 i v j = b j := by
  unfold put16
  rw [set_of_ne _ _ (by omega), set_of_ne _ _ (by omega)]

theorem put32_of_out (v : Nat) (h : j < i ∨ i + 4 ≤ j) : b.put32 i v j = b j := by
  unfold put32
  rw [put16_of_out _ _ (by omega), put16_of_out _ _ (by omega)]

theorem get16_put16 (i v : Nat) : (b.put16 i v).get16 i = v % 65536 := by
  have hlow : (b.put16 i v) i = UInt8.ofNat v := by
    unfold put16
    rw [set_of_ne _ _ (by omega), set_self]
  have hhigh : (b.put16 i v) (i + 1) = UInt8.ofNat (v / 256) := set_self _ _ _
  unfold get16
  rw [hlow, hhigh, UInt8.toNat_ofNat', UInt8.toNat_ofNat']
  omega

theorem get32_put32 (i v : Nat) : (b.put32 i v).get32 i = v % 2 ^ 32 := by
  have hlow : (b.put32 i v).get16 i = (b.put16 i v).get16 i :=
    get16_congr fun j _ h₂ => put16_of_out _ _ (.inl h₂)
  have hhigh : (b.put32 i v).get16 (i + 2) = v / 65536 % 65536 := get16_put16 _ _ _
  unfold get32
  rw [hlow, get16_put16]
  omega

theorem get16_lt (i : Nat) : b.get16 i < 65536 := by
  have h₀ := (b i).toNat_lt
  have h₁ := (b (i + 1)).toNat_lt
  unfold get16
  omega

theorem get32_lt (i : Nat) : b.get32 i < 2 ^ 32 := by
  have h₀ := b.get16_lt i
  have h₂ := b.get16_lt (i + 2)
  unfold get32
  omega

theorem get32_put32_of_out (v : Nat) (h : j + 4 ≤ i ∨ i + 4 ≤ j) :
    (b.put32 i v).get32 j = b.get32 j :=
  get32_congr fun _ h₁ h₂ => put32_of_out _ _ (by omega)

theorem get32_put16_of_out (v : Nat) (h : j + 4 ≤ i ∨ i + 2 ≤ j) :
    (b.put16 i v).get32 j = b.get32 j :=
  get32_congr fun _ h₁ h₂ => put16_of_out _ _ (by omega)

theorem get16_put32_of_out (v : Nat) (h : j + 2 ≤ i ∨ i + 4 ≤ j) :
    (b.put32 i v).get16 j = b.get16 j :=
  get16_congr fun _ h₁ h₂ => put32_of_out _ _ (by omega)

theorem get16_put16_of_out (v : Nat) (h : j + 2 ≤ i ∨ i + 2 ≤ j) :
    (b.put16 i v).get16 j = b.get16 j :=
  get16_congr fun _ h₁ h₂ => put16_of_out _ _ (by omega)

theorem get64_congr {b c : Bytes} (h : ∀ j, i ≤ j → j < i + 8 → b j = c j) :
    b.get64 i = c.get64 i := by
  rw [get64, get64, get32_congr fun j h₁ h₂ => h j h₁ (by omega),
    get32_congr fun j h₁ h₂ => h j (by omega) (by omega)]

theorem put64_of_out (v : Nat) (h : j < i ∨ i + 8 ≤ j) : b.put64 i v j = b j := by
  rw [put64, put32_of_out _ _ (by omega), put32_of_out _ _ (by omega)]

theorem get64_put64 (i v : Nat) : (b.put64 i v).get64 i = v % 2 ^ 64 := by
  have hlow : (b.put64 i v).get32 i = (b.put32 i v).get32 i :=
    get32_congr fun j _ h₂ => put32_of_out _ _ (.inl h₂)
  have hhigh : (b.put64 i v).get32 (i + 4) = v / 2 ^ 32 % 2 ^ 32 := get32_put32 _ _ _
  rw [get64, hlow, get32_put32]
  omega

theorem get64_put64_of_out (v : Nat) (h : j + 8 ≤ i ∨ i + 8 ≤ j) :
    (b.put64 i v).get64 j = b.get64 j :=
  get64_congr fun _ h₁ h₂ => put64_of_out _ _ (by omega)

theorem get64_put32_of_out (v : Nat) (h : j + 8 ≤ i ∨ i + 4 ≤ j) :
    (b.put32 i v).get64 j = b.get64 j :=
  get64_congr fun _ h₁ h₂ => put32_of_out _ _ (by omega)

theorem get32_put64_of_out (v : Nat) (h : j + 4 ≤ i ∨ i + 8 ≤ j) :
    (b.put64 i v).get32 j = b.get32 j :=
  get32_congr fun _ h₁ h₂ => put64_of_out _ _ (by omega)

theorem fill_of_out (v : UInt8) (h : j < i ∨ i + n ≤ j) : b.fill i n v j = b j := if_neg (by omega)

theorem copy_of_out {dst src : Nat} (h : j < dst ∨ dst + n ≤ j) :
    b.copy dst src n j = b j := if_neg (by omega)

theorem putWords_of_out (w : Nat → Nat) (h : j < i ∨ i + 4 * n ≤ j) :
    b.putWords i n w j = b j := if_neg (by omega)

theorem get32_putWords (i : Nat) {k : Nat} (w : Nat → Nat) (hk : k < n) :
    (b.putWords i n w).get32 (i + 4 * k) = w k % 2 ^ 32 := by
  have hbyte : ∀ r < 4, b.putWords i n w (i + 4 * k + r) = UInt8.ofNat (w k / 256 ^ r) := by
    intro r hr
    unfold putWords
    rw [if_pos (by omega), show (i + 4 * k + r - i) / 4 = k by omega,
      show (i + 4 * k + r - i) % 4 = r by omega]
  have h₀ := hbyte 0 (by omega)
  have h₁ := hbyte 1 (by omega)
  have h₂ := hbyte 2 (by omega)
  have h₃ := hbyte 3 (by omega)
  unfold get32 get16
  rw [h₁, h₂, h₃, ← Nat.add_zero (i + 4 * k), h₀]
  simp only [UInt8.toNat_ofNat']
  omega

end Bytes

end Kil0yOS.Lib
