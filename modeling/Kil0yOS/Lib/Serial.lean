/-
Serial numbers: offsets into a long sequence, carried modulo `2 ^ 32` from a base.

Offsets that lie closer together than half the number space are compared by the sign of
their difference.
-/
import Mathlib.Data.UInt

namespace Kil0yOS.Lib.Serial

variable {b : UInt32} {m n : Nat}

/-- Offsets closer than `2 ^ 32` are told apart by their serial numbers. -/
theorem eq_of_seq_eq (h : b + UInt32.ofNat m = b + UInt32.ofNat n) (hmn : m < n + 2 ^ 32)
    (hnm : n < m + 2 ^ 32) : m = n := by
  have h1 : UInt32.ofNat m = UInt32.ofNat n := by grind
  have h2 : m % 2 ^ 32 = n % 2 ^ 32 := by
    have := congrArg UInt32.toNat h1
    rwa [UInt32.toNat_ofNat'] at this
  omega

theorem toNat_sub (hmn : m ≤ n) :
    (b + UInt32.ofNat n - (b + UInt32.ofNat m)).toNat = (n - m) % 2 ^ 32 := by
  have hn : UInt32.ofNat n = UInt32.ofNat (n - m) + UInt32.ofNat m := by
    rw [← UInt32.ofNat_add, Nat.sub_add_cancel hmn]
  have h : b + UInt32.ofNat n - (b + UInt32.ofNat m) = UInt32.ofNat (n - m) := by
    grind
  simp [h]

theorem toInt_toInt32 (x : UInt32) : x.toInt32.toInt = (x.toNat : Int).bmod (2 ^ 32) := by
  show x.toBitVec.toInt = _
  rw [BitVec.toInt_eq_toNat_bmod]
  rfl

theorem pos_toInt32_iff (x : UInt32) : 0 < x.toInt32 ↔ 0 < x.toNat ∧ x.toNat < 2 ^ 31 := by
  have hx := x.toNat_lt
  rw [Int32.lt_iff_toInt_lt, toInt_toInt32, Int32.toInt_zero, Int.bmod_def]
  split <;> omega

theorem nonneg_toInt32_iff (x : UInt32) : 0 ≤ x.toInt32 ↔ x.toNat < 2 ^ 31 := by
  have hx := x.toNat_lt
  rw [Int32.le_iff_toInt_le, toInt_toInt32, Int32.toInt_zero, Int.bmod_def]
  split <;> omega

/-- An offset that is not before `n`, and not half the number space behind it, compares
as not before it. -/
theorem not_pos_of_le (hmn : m ≤ n) (hnear : n < m + 2 ^ 31) :
    ¬ 0 < (b + UInt32.ofNat m - (b + UInt32.ofNat n)).toInt32 := by
  have hsub : b + UInt32.ofNat m - (b + UInt32.ofNat n) =
      0 - (b + UInt32.ofNat n - (b + UInt32.ofNat m)) := by grind
  have hdist := toNat_sub (b := b) hmn
  rw [pos_toInt32_iff, hsub, UInt32.toNat_sub]
  simp only [UInt32.toNat_zero]
  omega

theorem pos_of_lt (hmn : m < n) (hnear : n < m + 2 ^ 31) :
    0 < (b + UInt32.ofNat n - (b + UInt32.ofNat m)).toInt32 := by
  rw [pos_toInt32_iff, toNat_sub (Nat.le_of_lt hmn)]
  omega

theorem nonneg_of_le (hmn : m ≤ n) (hnear : n < m + 2 ^ 31) :
    0 ≤ (b + UInt32.ofNat n - (b + UInt32.ofNat m)).toInt32 := by
  rw [nonneg_toInt32_iff, toNat_sub hmn]
  omega

end Kil0yOS.Lib.Serial
