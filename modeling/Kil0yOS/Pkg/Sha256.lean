/-
The checksum of downloaded packages (kernel/pkg/sha256.c).

The blocks are made one at a time from the data, without a padded copy of it.
-/
import Mathlib.Data.List.GetD
import Mathlib.Data.UInt
import Kil0yOS.Lib.Fips180

namespace Kil0yOS.Pkg.Sha256

open List
open Lib.Fips180

def K : List UInt32 :=
  [0x428a2f98, 0x71374491, 0xb5c0fbcf, 0xe9b5dba5, 0x3956c25b, 0x59f111f1, 0x923f82a4, 0xab1c5ed5,
   0xd807aa98, 0x12835b01, 0x243185be, 0x550c7dc3, 0x72be5d74, 0x80deb1fe, 0x9bdc06a7, 0xc19bf174,
   0xe49b69c1, 0xefbe4786, 0x0fc19dc6, 0x240ca1cc, 0x2de92c6f, 0x4a7484aa, 0x5cb0a9dc, 0x76f988da,
   0x983e5152, 0xa831c66d, 0xb00327c8, 0xbf597fc7, 0xc6e00bf3, 0xd5a79147, 0x06ca6351, 0x14292967,
   0x27b70a85, 0x2e1b2138, 0x4d2c6dfc, 0x53380d13, 0x650a7354, 0x766a0abb, 0x81c2c92e, 0x92722c85,
   0xa2bfe8a1, 0xa81a664b, 0xc24b8b70, 0xc76c51a3, 0xd192e819, 0xd6990624, 0xf40e3585, 0x106aa070,
   0x19a4c116, 0x1e376c08, 0x2748774c, 0x34b0bcb5, 0x391c0cb3, 0x4ed8aa4a, 0x5b9cca4f, 0x682e6ff3,
   0x748f82ee, 0x78a5636f, 0x84c87814, 0x8cc70208, 0x90befffa, 0xa4506ceb, 0xbef9a3f7, 0xc67178f2]

def ror (x n : UInt32) : UInt32 := x >>> n ||| x <<< (32 - n)

def h₀ : Words :=
  ⟨0x6a09e667, 0xbb67ae85, 0x3c6ef372, 0xa54ff53a, 0x510e527f, 0x9b05688c, 0x1f83d9ab, 0x5be0cd19⟩

/-- The 64 bytes of block `b`. -/
def block (data : List UInt8) (b i : Nat) : UInt8 :=
  let total := data.length + 1 + 8
  let off := b * 64
  if off + 64 ≤ data.length then data.getD (off + i) 0
  else if total ≤ off + 64 ∧ 56 ≤ i then
    let bits := UInt64.ofNat data.length * 8
    (bits >>> UInt64.ofNat (56 - (i - 56) * 8)).toUInt8
  else if off + i < data.length then data.getD (off + i) 0
  else if off + i = data.length then 0x80
  else 0

def word (block : Nat → UInt8) (i : Nat) : UInt32 :=
  (block (i * 4)).toUInt32 <<< 24 ||| (block (i * 4 + 1)).toUInt32 <<< 16 |||
    (block (i * 4 + 2)).toUInt32 <<< 8 ||| (block (i * 4 + 3)).toUInt32

/-- One turn of the loop that fills `w`, which has the words before `i`. -/
def extend (w : List UInt32) (i : Nat) : List UInt32 :=
  let w15 := w.getD (i - 15) 0
  let w2 := w.getD (i - 2) 0
  let s0 := ror w15 7 ^^^ ror w15 18 ^^^ w15 >>> 3
  let s1 := ror w2 17 ^^^ ror w2 19 ^^^ w2 >>> 10
  w ++ [w.getD (i - 16) 0 + s0 + w.getD (i - 7) 0 + s1]

def schedule (block : Nat → UInt8) : List UInt32 :=
  (range' 16 48).foldl extend ((range 16).map (word block))

def round (w : List UInt32) (x : Words) (i : Nat) : Words :=
  let S1 := ror x.e 6 ^^^ ror x.e 11 ^^^ ror x.e 25
  let ch := (x.e &&& x.f) ^^^ (~~~x.e &&& x.g)
  let t1 := x.h + S1 + ch + K.getD i 0 + w.getD i 0
  let S0 := ror x.a 2 ^^^ ror x.a 13 ^^^ ror x.a 22
  let maj := (x.a &&& x.b) ^^^ (x.a &&& x.c) ^^^ (x.b &&& x.c)
  let t2 := S0 + maj
  ⟨t1 + t2, x.a, x.b, x.c, x.d + t1, x.e, x.f, x.g⟩

def digest (x : Words) : List UInt8 :=
  x.toList.flatMap fun (h : UInt32) =>
    [(h >>> 24).toUInt8, (h >>> 16).toUInt8, (h >>> 8).toUInt8, h.toUInt8]

def sha256 (data : List UInt8) : List UInt8 :=
  let total := data.length + 1 + 8
  let blocks := (total + 63) / 64
  digest ((range blocks).foldl
    (fun h b => h.add ((range 64).foldl (round (schedule (block data b))) h)) h₀)

/-! ## The constants and the functions on words -/

theorem K_eq (t : Nat) : K.getD t 0 = cubeRoot (primes.getD t 0) := by
  have htable : K = primes.map cubeRoot := by decide +kernel
  rw [htable]
  exact getD_map _ 0 _

theorem h₀_eq : h₀ = initial := by decide +kernel

theorem round_eq (w : Nat → UInt32) (x : Words) {t : Nat} (ht : t < 64) :
    round ((range 64).map w) x t = turn w x t := by
  have hw : ((range 64).map w).getD t 0 = w t := by simp [ht]
  unfold round
  rw [K_eq, hw]
  rfl

theorem word_bytes (b₀ b₁ b₂ b₃ : UInt8) :
    b₀.toUInt32 <<< 24 ||| b₁.toUInt32 <<< 16 ||| b₂.toUInt32 <<< 8 ||| b₃.toUInt32 =
      UInt32.ofNat (ofBytes [b₀, b₁, b₂, b₃]) := by
  have h₀ := b₀.toNat_lt
  have h₁ := b₁.toNat_lt
  have h₂ := b₂.toNat_lt
  have h₃ := b₃.toNat_lt
  apply UInt32.toNat_inj.mp
  calc
    _ = 2 ^ 24 * b₀.toNat ||| (2 ^ 16 * b₁.toNat ||| (2 ^ 8 * b₂.toNat ||| b₃.toNat)) := by
      simp [Nat.shiftLeft_eq, Nat.or_assoc, Nat.mul_comm, Nat.mod_eq_of_lt,
        show 16777216 * b₀.toNat < 4294967296 by omega,
        show 65536 * b₁.toNat < 4294967296 by omega, show 256 * b₂.toNat < 4294967296 by omega]
    _ = 2 ^ 24 * b₀.toNat + (2 ^ 16 * b₁.toNat + (2 ^ 8 * b₂.toNat + b₃.toNat)) := by
      rw [← Nat.two_pow_add_eq_or_of_lt h₃,
        ← Nat.two_pow_add_eq_or_of_lt (i := 16) (by omega),
        ← Nat.two_pow_add_eq_or_of_lt (by omega)]
    _ = _ := by
      simp [ofBytes]
      omega

theorem word_digits (h : UInt32) :
    [(h >>> 24).toUInt8, (h >>> 16).toUInt8, (h >>> 8).toUInt8, h.toUInt8] = toBytes 4 h.toNat := by
  simp [toBytes, range_succ, ← UInt8.toNat_inj, Nat.shiftRight_eq_div_pow]

theorem length_digit {n k : Nat} (hn : n < 2 ^ 61) (hk : k < 8) :
    ((UInt64.ofNat n * 8) >>> UInt64.ofNat (56 - k * 8)).toUInt8 =
      UInt8.ofNat (8 * n / 256 ^ (7 - k)) := by
  have hpow : 2 ^ (56 - k * 8) = 256 ^ (7 - k) := by
    rw [show 56 - k * 8 = 8 * (7 - k) by omega, Nat.pow_mul]
  apply UInt8.toNat_inj.mp
  simp [Nat.shiftRight_eq_div_pow, hpow, Nat.mul_comm n,
    Nat.mod_eq_of_lt (by omega : 56 - k * 8 < 64),
    Nat.mod_eq_of_lt (by omega : 8 * n < 18446744073709551616)]

/-! ## The blocks -/

section Blocks

theorem length_padded (data : List UInt8) :
    (padded data).length = (data.length + 1 + 8 + 63) / 64 * 64 := by
  simp [padded, toBytes]
  omega

variable {data : List UInt8} {b : Nat} (hlen : data.length < 2 ^ 61)
  (hb : b < (data.length + 1 + 8 + 63) / 64)
include hlen hb

/-- The bytes of the message, the one bit, the zeros and the length stand in the blocks where
they stand in the padded message. -/
theorem block_eq {i : Nat} (hi : i < 64) : block data b i = blockOf data b i := by
  have hpad := length_padded data
  simp only [padded, length_append, length_cons, length_replicate, toBytes, length_map,
    length_range] at hpad
  simp only [block, blockOf, padded, Nat.mul_comm 64]
  generalize ((55 - (data.length : Int)) % 64).toNat = zeros at hpad ⊢
  rw [append_assoc]
  by_cases hdata : b * 64 + i < data.length
  · rw [getD_append _ _ _ _ hdata]
    split
    · rfl
    · rw [if_neg (by omega)]
  rw [if_neg (by omega), getD_append_right _ _ _ _ (by omega)]
  by_cases hbits : data.length + 1 + 8 ≤ b * 64 + 64 ∧ 56 ≤ i
  · have hpos : b * 64 + i - data.length - (zeros + 1) = i - 56 := by omega
    rw [if_pos hbits, length_digit hlen (by omega), getD_append_right _ _ _ _ (by simp; omega)]
    simp [toBytes, hpos, show i - 56 < 8 by omega]
  rw [if_neg hbits, if_neg hdata, getD_append _ _ _ _ (by simp; omega)]
  split
  · simp [*]
  · obtain ⟨k, hk⟩ := Nat.exists_eq_add_of_lt (by omega : data.length < b * 64 + i)
    rw [show b * 64 + i - data.length = k + 1 by omega, getD_cons_succ]
    simp

/-- The words that the loop has filled in once it has come to `16 + n`. -/
theorem foldl_extend (n : Nat) :
    (range' 16 n).foldl extend ((range 16).map (word (block data b))) =
      (range (16 + n)).map (W (blockOf data b)) := by
  induction n with
  | zero =>
    refine map_congr_left fun t ht => ?_
    rw [mem_range] at ht
    rw [W, if_pos ht, ← word_bytes, Nat.mul_comm, word]
    rw [block_eq hlen hb (by omega), block_eq hlen hb (by omega), block_eq hlen hb (by omega),
      block_eq hlen hb (by omega)]
  | succ n ih =>
    generalize hw : W (blockOf data b) = w at ih ⊢
    have hnew : w (16 + n) = sigma1 (w (16 + n - 2)) + w (16 + n - 7) +
        sigma0 (w (16 + n - 15)) + w (16 + n - 16) := by
      rw [← hw, W, if_neg (by omega)]
    have hget : ∀ k < 16 + n, ((range (16 + n)).map w).getD k 0 = w k := fun k hk => by simp [hk]
    rw [range'_concat, foldl_append, ih, ← Nat.add_assoc, range_succ, map_append, Nat.one_mul]
    simp only [foldl_cons, foldl_nil, extend, map_cons, map_nil, hnew]
    rw [hget _ (by omega), hget _ (by omega), hget _ (by omega), hget _ (by omega)]
    show _ ++ [w _ + sigma0 _ + w _ + sigma1 _] = _
    ac_rfl

theorem rounds_eq (x : Words) :
    x.add ((range 64).foldl (round (schedule (block data b))) x) = compress x (blockOf data b) := by
  rw [schedule, foldl_extend hlen hb]
  exact congrArg x.add (foldl_ext _ _ x fun y t ht => round_eq _ y (mem_range.mp ht))

end Blocks

/-- The code computes the digest of the standard. -/
theorem sha256_eq_messageDigest (data : List UInt8) (hlen : data.length < 2 ^ 61) :
    sha256 data = messageDigest data := by
  unfold sha256 digest messageDigest
  simp only [word_digits]
  rw [length_padded, Nat.mul_div_cancel _ (by decide), h₀_eq]
  refine congrArg (fun x : Words => x.toList.flatMap fun w => toBytes 4 w.toNat) ?_
  exact foldl_ext _ _ _ fun x b hb => rounds_eq hlen (mem_range.mp hb) x

theorem sha256_eq_messageDigest_abc :
    sha256 [0x61, 0x62, 0x63] = messageDigest [0x61, 0x62, 0x63] :=
  sha256_eq_messageDigest _ (by decide)

end Kil0yOS.Pkg.Sha256
