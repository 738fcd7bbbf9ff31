/-
What the bit reader reads.

A stream is a number with the first byte lowest, and its highest bit is the end mark.
Reads take the bits below the mark from the top down.  The container is a window on the
number, and the bits that are left follow from where the window is.
-/
import Kil0yOS.Zstd.BitReader

namespace Kil0yOS.Zstd

inductive BitOp
  | read (nb : Nat)
  | reload

namespace BitOp

/-- The number of bits that are asked for. -/
def asked : List BitOp → Nat
  | [] => 0
  | .read nb :: ops => nb + asked ops
  | .reload :: ops => asked ops

/-- After `k` bits, there is a reload before there are more than 56. -/
def Paced : Nat → List BitOp → Prop
  | _, [] => True
  | k, .read nb :: ops => k + nb ≤ 56 ∧ Paced (k + nb) ops
  | _, .reload :: ops => Paced 0 ops

/-- The lowest `left` bits of `x` from the top down, cut as they are asked for. -/
def groups (x : Nat) : Nat → List BitOp → List Nat
  | _, [] => []
  | left, .read nb :: ops => x / 2 ^ (left - nb) % 2 ^ nb :: groups x (left - nb) ops
  | left, .reload :: ops => groups x left ops

/-- The values that are read, and the reader then. -/
def run : Bitr → List BitOp → List Nat × Bitr
  | b, [] => ([], b)
  | b, .read nb :: ops =>
    ((brRead b nb).1 :: (run (brRead b nb).2 ops).1, (run (brRead b nb).2 ops).2)
  | b, .reload :: ops => run (brReload b).2 ops

end BitOp

variable {src : Ptr} {size left k nb x : Nat} {b : Bitr} {ops : List BitOp}

def stream (src : Ptr) : Nat → Nat
  | 0 => 0
  | n + 1 => stream src n + (src n).toNat * 2 ^ (8 * n)

/-- The number of bits below the end mark. -/
def markedBits (src : Ptr) (size : Nat) : Nat := 8 * (size - 1) + zHighbit32 (src (size - 1)).toNat

/-! ## The stream -/

theorem stream_lt (src : Ptr) (n : Nat) : stream src n < 2 ^ (8 * n) := by
  induction n with
  | zero => exact Nat.one_pos
  | succ n ih =>
    have hbyte := (src n).toNat_lt
    calc stream src n + (src n).toNat * 2 ^ (8 * n)
        < 2 ^ (8 * n) + 255 * 2 ^ (8 * n) :=
          Nat.add_lt_add_of_lt_of_le ih (Nat.mul_le_mul_right _ (by omega))
      _ = 2 ^ (8 * (n + 1)) := by rw [Nat.mul_succ, Nat.pow_add]; omega

theorem stream_add (src : Ptr) (p n : Nat) :
    stream src (p + n) = stream src p + stream (src.add p) n * 2 ^ (8 * p) := by
  induction n with
  | zero => simp [stream]
  | succ n ih =>
    rw [← Nat.add_assoc, stream, ih, stream, Nat.add_mul, Nat.mul_add, Nat.pow_add, Ptr.add,
      Nat.mul_comm (2 ^ (8 * p)), Nat.mul_assoc, Nat.add_assoc]

theorem shortContainer_eq (src : Ptr) (n : Nat) : shortContainer src n = stream src n := by
  induction n with
  | zero => rfl
  | succ n ih =>
    rw [stream, ← ih, shortContainer, List.range_succ, List.foldl_append]
    rfl

/-- Eight bytes of the stream. -/
theorem toNat_rd64 {p : Nat} (h : p + 8 ≤ size) :
    (UInt64.ofNat (rd64 src p)).toNat = stream src size / 2 ^ (8 * p) % 2 ^ 64 := by
  obtain ⟨m, rfl⟩ := Nat.exists_eq_add_of_le h
  have hword : rd64 src p = stream (src.add p) 8 := by
    simp only [stream, rd64, rd32, rd16, Ptr.add, Nat.add_assoc, Nat.reduceAdd, Nat.add_zero]
    omega
  rw [Nat.add_assoc, stream_add, Nat.add_mul_div_right _ _ (Nat.two_pow_pos _),
    Nat.div_eq_of_lt (stream_lt src p), Nat.zero_add, stream_add,
    Nat.add_mul_mod_self_right, ← hword]
  exact UInt64.toNat_ofNat'

/-! ## The container -/

theorem two_pow_eq {i j n : Nat} (h : n = i + j) : 2 ^ n = 2 ^ i * 2 ^ j := by
  rw [h, Nat.pow_add]

theorem brLook_eq (hnb : nb ≤ 56) (h : b.bitsConsumed + nb ≤ 64) :
    brLook b nb = b.bitContainer.toNat / 2 ^ (64 - b.bitsConsumed - nb) % 2 ^ nb := by
  have hlook : brLook b nb =
      b.bitContainer.toNat * 2 ^ (b.bitsConsumed % 64) % 2 ^ 64 / (2 * 2 ^ (63 - nb)) := by
    have hshift : (63 - nb) % 64 = 63 - nb := Nat.mod_eq_of_lt (by omega)
    simp [brLook, Nat.shiftLeft_eq, Nat.shiftRight_eq_div_pow, Nat.div_div_eq_div_mul, hshift]
  rw [hlook, ← Nat.pow_succ']
  by_cases hfull : b.bitsConsumed = 64
  · obtain rfl : nb = 0 := by omega
    rw [Nat.div_eq_of_lt (Nat.mod_lt _ (Nat.two_pow_pos _)), Nat.pow_zero, Nat.mod_one]
  obtain ⟨a, ha⟩ := Nat.exists_eq_add_of_le h
  have hpow : 2 ^ 64 = 2 ^ (a + nb) * 2 ^ b.bitsConsumed := two_pow_eq (by omega)
  have hlow : 2 ^ (63 - nb).succ = 2 ^ a * 2 ^ b.bitsConsumed := two_pow_eq (by omega)
  have hskip : b.bitsConsumed % 64 = b.bitsConsumed := Nat.mod_eq_of_lt (by omega)
  rw [hskip, hpow, Nat.mul_mod_mul_right, hlow, Nat.mul_div_mul_right _ _ (Nat.two_pow_pos _),
    Nat.pow_add, Nat.mod_mul_right_div_self]
  congr 3
  omega

/-- The reader has `left` bits to read, and `k` were read since the last reload. -/
structure Reads (src : Ptr) (size left k : Nat) (b : Bitr) : Prop where
  source : b.src = src
  window : b.bitContainer.toNat = stream src size / 2 ^ (8 * b.ptr) % 2 ^ 64
  left : left + b.bitsConsumed = 64 + 8 * b.ptr
  inside : b.ptr = 0 ∨ b.ptr + 8 ≤ size
  fresh : b.ptr ≠ 0 → b.bitsConsumed ≤ 8 + k

theorem brInit_reads (hsize : 0 < size) (hlast : src (size - 1) ≠ 0) :
    ∃ b, brInit src size = some b ∧ Reads src size (markedBits src size) 0 b := by
  have hbyte : (src (size - 1)).toNat ≠ 0 := fun hz => hlast (UInt8.toNat_inj.mp hz)
  have hhigh : zHighbit32 (src (size - 1)).toNat < 8 :=
    (Nat.log2_lt hbyte).mpr (src (size - 1)).toNat_lt
  have hlt := stream_lt src size
  unfold brInit markedBits
  simp only [if_neg (Nat.ne_of_gt hsize), if_neg hbyte]
  by_cases hlong : 8 ≤ size
  · rw [if_pos hlong]
    refine ⟨_, rfl, rfl, toNat_rd64 (by omega), ?_, .inr ?_, fun _ => ?_⟩
    all_goals
      dsimp only
      omega
  · rw [if_neg hlong]
    refine ⟨_, rfl, rfl, ?_, ?_, .inl rfl, fun h => absurd rfl h⟩
    · simp [shortContainer_eq]
    · dsimp only
      omega

section

variable (h : Reads src size left k b)
include h

theorem Reads.read (hk : k + nb ≤ 56) (hnb : nb ≤ left) :
    brLook b nb = stream src size / 2 ^ (left - nb) % 2 ^ nb ∧
      Reads src size (left - nb) (k + nb) (brSkip b nb) := by
  have hleft := h.left
  have hroom : b.bitsConsumed + nb ≤ 64 := by
    by_cases hptr : b.ptr = 0
    · omega
    · have := h.fresh hptr
      omega
  constructor
  · obtain ⟨a, ha⟩ := Nat.exists_eq_add_of_le hroom
    have hpow : 2 ^ 64 = 2 ^ a * 2 ^ (64 - a) := two_pow_eq (by omega)
    have hpos : 2 ^ (left - nb) = 2 ^ (8 * b.ptr) * 2 ^ a := two_pow_eq (by omega)
    rw [brLook_eq (by omega) hroom, h.window, show 64 - b.bitsConsumed - nb = a by omega, hpow,
      Nat.mod_mul_right_div_self, Nat.mod_mod_of_dvd _ (Nat.pow_dvd_pow 2 (by omega)), hpos,
      Nat.div_div_eq_div_mul]
  · have hmod : (b.bitsConsumed + nb) % 2 ^ 32 = b.bitsConsumed + nb := Nat.mod_eq_of_lt (by omega)
    rw [brSkip, hmod]
    refine ⟨h.source, h.window, ?_, h.inside, fun hptr => ?_⟩
    · dsimp only
      omega
    · have := h.fresh hptr
      dsimp only
      omega

theorem Reads.reload (hk : k ≤ 56) : Reads src size left 0 (brReload b).2 := by
  have hleft := h.left
  have hfresh := h.fresh
  have hin := h.inside
  have hroom : b.bitsConsumed ≤ 64 := by omega
  unfold brReload
  rw [if_neg (Nat.not_lt.mpr hroom)]
  by_cases hbulk : 8 ≤ b.ptr
  · rw [if_pos hbulk]
    refine ⟨h.source, ?_, ?_, .inr ?_, fun _ => ?_⟩
    · rw [h.source]
      exact toNat_rd64 (by omega)
    all_goals
      dsimp only
      omega
  rw [if_neg hbulk]
  by_cases hstart : b.ptr = 0
  · rw [if_pos hstart]
    split
    all_goals exact ⟨h.source, h.window, hleft, hin, fun hptr => absurd hstart hptr⟩
  rw [if_neg hstart]
  dsimp only
  generalize hbytes : (if b.ptr < b.bitsConsumed / 8 then b.ptr else b.bitsConsumed / 8) = nbBytes
  have hmin : nbBytes = min b.ptr (b.bitsConsumed / 8) := by
    split at hbytes <;> omega
  refine ⟨h.source, ?_, ?_, .inr ?_, fun hptr => ?_⟩
  · rw [h.source]
    exact toNat_rd64 (by omega)
  all_goals
    dsimp only at *
    omega

theorem Reads.brEnd_iff (hk : k ≤ 56) : brEnd b = true ↔ left = 0 := by
  have hleft := h.left
  have hfresh := h.fresh
  simp only [brEnd, Bool.and_eq_true, beq_iff_eq]
  by_cases hptr : b.ptr = 0
  · omega
  · have := hfresh hptr
    omega

end

/-! ## Runs -/

open BitOp

theorem Reads.values (h : Reads src size left k b) (hk : k ≤ 56) (hpaced : Paced k ops)
    (hasked : asked ops ≤ left) : (run b ops).1 = groups (stream src size) left ops ∧
      ∃ k' ≤ 56, Reads src size (left - asked ops) k' (run b ops).2 := by
  induction ops generalizing b left k with
  | nil => exact ⟨rfl, k, hk, h⟩
  | cons op ops ih =>
    cases op with
    | reload => exact ih (h.reload hk) (Nat.zero_le _) hpaced hasked
    | read nb =>
      simp only [asked] at hasked
      obtain ⟨hlook, hnext⟩ := h.read hpaced.1 (by omega)
      obtain ⟨hrest, k', hk', hend⟩ := ih hnext hpaced.1 hpaced.2 (by omega)
      rw [Nat.sub_sub] at hend
      exact ⟨congrArg₂ _ hlook hrest, k', hk', hend⟩

/-- Nothing ends a reader that was asked for too much. -/
theorem brEnd_of_over (hover : 64 < b.bitsConsumed) (hlt : b.bitsConsumed + asked ops < 2 ^ 32) :
    brEnd (run b ops).2 = false := by
  induction ops generalizing b with
  | nil => simp [run, brEnd, Nat.ne_of_gt hover]
  | cons op ops ih =>
    cases op with
    | reload =>
      have hsame : (brReload b).2 = b := by simp [brReload, hover]
      rw [run, hsame]
      exact ih hover hlt
    | read nb =>
      simp only [asked] at hlt
      have hmod : (brSkip b nb).bitsConsumed = b.bitsConsumed + nb := Nat.mod_eq_of_lt (by omega)
      exact ih (by rw [brRead, hmod]; omega) (by rw [brRead, hmod]; omega)

theorem Reads.over {more : List BitOp} (h : Reads src size left k b) (hk : k ≤ 56)
    (hpaced : Paced k ops) (hasked : left < asked ops) (hlt : asked (ops ++ more) < 2 ^ 31) :
    brEnd (run b (ops ++ more)).2 = false := by
  induction ops generalizing b left k with
  | nil => cases hasked
  | cons op ops ih =>
    cases op with
    | reload => exact ih (h.reload hk) (Nat.zero_le _) hpaced hasked hlt
    | read nb =>
      simp only [asked, List.cons_append] at hasked hlt
      by_cases hnb : nb ≤ left
      · exact ih (h.read hpaced.1 hnb).2 hpaced.1 hpaced.2 (by omega) (by omega)
      have hleft := h.left
      have hfresh := h.fresh
      have hmod : (brSkip b nb).bitsConsumed = b.bitsConsumed + nb := Nat.mod_eq_of_lt (by omega)
      show brEnd (run (brSkip b nb) (ops ++ more)).2 = false
      apply brEnd_of_over
      all_goals
        rw [hmod]
        omega

/-- Reads take the bits below the end mark in order, the reader is at its end when there is
none left, and never once more were asked for than there are. -/
theorem reads_in_order (src : Ptr) (size : Nat) (ops : List BitOp) (hsize : 0 < size)
    (hlast : src (size - 1) ≠ 0) (hpaced : Paced 0 ops) :
    ∃ b, brInit src size = some b ∧
      (asked ops ≤ markedBits src size →
        (run b ops).1 = groups (stream src size) (markedBits src size) ops ∧
        (brEnd (run b ops).2 = true ↔ asked ops = markedBits src size)) ∧
      (markedBits src size < asked ops → ∀ more, asked (ops ++ more) < 2 ^ 31 →
        brEnd (run b (ops ++ more)).2 = false) := by
  obtain ⟨b, hinit, hreads⟩ := brInit_reads hsize hlast
  refine ⟨b, hinit, fun hasked => ?_, fun hasked more hlt =>
    hreads.over (Nat.zero_le _) hpaced hasked hlt⟩
  obtain ⟨hvalues, k, hk, hend⟩ := hreads.values (Nat.zero_le _) hpaced hasked
  refine ⟨hvalues, (hend.brEnd_iff hk).trans ?_⟩
  omega

/-- Ten bytes; the end mark is the second bit of the last one. -/
def tenBytes : Ptr := fun i => if i = 9 then 3 else UInt8.ofNat (i + 1)

/-- All 73 bits are read, with a reload once 56 of them are gone. -/
theorem reads_in_order_reload : ∃ b, brInit tenBytes 10 = some b ∧
    (run b [.read 30, .read 26, .reload, .read 17]).1 = [555811040, 50496001, 66049] ∧
    brEnd (run b [.read 30, .read 26, .reload, .read 17]).2 = true := by
  obtain ⟨b, hinit, hreads, -⟩ := reads_in_order tenBytes 10
    [.read 30, .read 26, .reload, .read 17] (by decide) (by decide) (by simp [Paced])
  obtain ⟨hvalues, hend⟩ := hreads (by decide)
  exact ⟨b, hinit, hvalues.trans (by decide), hend.mpr (by decide)⟩

end Kil0yOS.Zstd
