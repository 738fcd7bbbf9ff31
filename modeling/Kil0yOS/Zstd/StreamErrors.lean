/-
Which inputs `zstd_decompress_heap` reports as bad.

A call fails when the first frame fails, and not when a later one does.  What a frame
does with little memory is what it does with plenty, or it fails; so the frames are
judged with plenty of memory, and each one on its own.
-/
import Kil0yOS.Zstd.Stream

namespace Kil0yOS.Zstd

open Lib Zstd.Stream

/-- Memory for every request. -/
def Heap.plenty : Heap where
  ctx := true
  buffer := fun _ => true
  last := true

/-- The same surroundings, with memory for every request. -/
def Env.plenty (env : Env) : Env := { env with heap := .plenty }

/-! ## Less memory -/

variable {env : Env}

theorem outReserve_failsMore (need : Nat) :
    FailsMore .fail (outReserve env need) (outReserve env.plenty need) := by
  refine .bind_left _ fun s => ?_
  refine .ite (.refl _) ?_
  cases growCap ((s.out.length + need) % 2 ^ 64) 64 (if s.outCap = 0 then 2 ^ 18 else s.outCap) with
  | none => exact .refl _
  | some ncap =>
    dsimp only
    by_cases hk : env.heap.buffer ncap = false
    · rw [if_pos hk]
      exact .throw_bind _ _
    · rw [if_neg hk]
      exact .refl _

theorem execSeq_failsMore (frameStart : Nat) (q : Seq) (lits : List UInt8) :
    FailsMore .fail (execSeq env frameStart q lits) (execSeq env.plenty frameStart q lits) := by
  refine .ite (.throw_bind _ _) ?_
  exact (outReserve_failsMore _).bind fun _ => .refl _

theorem seqLoop_failsMore (ctx : Dctx) (frameStart n : Nat) (st : SeqState) (lits : List UInt8) :
    FailsMore .fail (seqLoop env ctx frameStart n st lits)
      (seqLoop env.plenty ctx frameStart n st lits) := by
  induction n generalizing st lits with
  | zero => exact .refl _
  | succ n ih =>
    exact (execSeq_failsMore _ _ _).bind fun lits => ih _ lits

theorem decodeSequences_failsMore (ctx : Dctx) (frameStart nbSeq : Nat) (src : Ptr) (size : Nat) :
    FailsMore .fail (decodeSequences env ctx frameStart nbSeq src size)
      (decodeSequences env.plenty ctx frameStart nbSeq src size) := by
  unfold decodeSequences
  cases brInit src size with
  | none => exact .refl _
  | some b =>
    dsimp only
    obtain ⟨status, b⟩ := brReload b
    cases status with
    | overflow => exact .refl _
    | unfinished => exact (seqLoop_failsMore _ _ _ _ _).bind fun _ => .refl _
    | endOfBuffer => exact (seqLoop_failsMore _ _ _ _ _).bind fun _ => .refl _
    | completed => exact (seqLoop_failsMore _ _ _ _ _).bind fun _ => .refl _

theorem decodeBlock_failsMore (src : Ptr) (srcSize frameStart : Nat) :
    FailsMore .fail (decodeBlock env src srcSize frameStart)
      (decodeBlock env.plenty src srcSize frameStart) := by
  refine .bind_left _ fun s => ?_
  refine .bind_left _ fun p => ?_
  refine .bind_left _ fun q => ?_
  refine .bind_left _ fun _ => ?_
  have hlast : ∀ lits : List UInt8,
      FailsMore .fail (outReserve env lits.length >>= fun _ => emit lits)
        (outReserve env.plenty lits.length >>= fun _ => emit lits) :=
    fun lits => (outReserve_failsMore _).bind fun _ => .refl _
  exact .ite ((decodeSequences_failsMore _ _ _ _ _).bind hlast) (hlast _)

theorem blockBody_failsMore (src : Ptr) (btype bsize frameStart : Nat) :
    FailsMore .fail (blockBody env src btype bsize frameStart)
      (blockBody env.plenty src btype bsize frameStart) := by
  unfold blockBody
  split
  · exact (outReserve_failsMore _).bind fun _ => .refl _
  · exact (outReserve_failsMore _).bind fun _ => .refl _
  · exact decodeBlock_failsMore _ _ _
  · exact .refl _

variable {input : Ptr} {inLen : Nat}

theorem blockLoop_failsMore (ipos frameStart fuel pos : Nat) :
    FailsMore .fail (blockLoop input inLen env ipos frameStart fuel pos)
      (blockLoop input inLen env.plenty ipos frameStart fuel pos) := by
  induction fuel generalizing pos with
  | zero => exact .refl _
  | succ fuel ih =>
    refine .ite (.throw_bind _ _) ?_
    refine .ite (.throw_bind _ _) ?_
    refine .ite (.throw_bind _ _) ?_
    refine (blockBody_failsMore _ _ _ _).bind fun _ => ?_
    exact .ite (.refl _) (ih _)

theorem frame_failsMore (ipos : Nat) :
    FailsMore .fail (frame input inLen env ipos) (frame input inLen env.plenty ipos) := by
  unfold frame
  cases frameHeader input inLen ipos with
  | none => exact .refl _
  | some header =>
    dsimp only
    have hblocks : ∀ s : Stream, FailsMore .fail
        (blockLoop input inLen env ipos s.out.length (inLen + 1) header.pos)
        (blockLoop input inLen env.plenty ipos s.out.length (inLen + 1) header.pos) :=
      fun s => blockLoop_failsMore _ _ _ _
    cases header.fcs with
    | none =>
      exact .bind_left _ fun _ => .bind_left _ fun s =>
        (hblocks s).bind fun _ => .refl _
    | some fcs =>
      exact (outReserve_failsMore _).bind fun _ => .bind_left _ fun _ =>
        .bind_left _ fun s => (hblocks s).bind fun _ => .refl _

/-! ## Well-formed inputs -/

section
variable (behind : Nat → Int) (input : Ptr) (inLen : Nat)

def plentyOf (behind : Nat → Int) : Env where
  behindOfNorm := behind
  heap := .plenty

/-- At `p` stands a whole frame of `n` bytes that decodes on its own, to the length
its header declares if it declares one. -/
def FrameOk (p n : Nat) : Prop :=
  rd32 input p = zstdMagicNumber ∧
    ∃ header s, frameHeader input inLen p = some header ∧
      frame input inLen (plentyOf behind) p (start (plentyOf behind)) = .ok n s ∧
      ∀ c, header.fcs = some c → s.out.length = c

/-- From `p` on the input consists of whole frames and whole skippable frames. -/
inductive WellFormed : Nat → Prop
  | nil : WellFormed inLen
  | skippable {p : Nat} : isSkippable (rd32 input p) = true → p + 8 ≤ inLen →
    p + 8 + rd32 input (p + 4) ≤ inLen → WellFormed (p + 8 + rd32 input (p + 4)) → WellFormed p
  | frame {p n : Nat} : FrameOk behind input inLen p n → WellFormed (p + n) → WellFormed p

/-- A call that succeeds has read a well-formed input, and a call on any other input
fails. -/
def ErrorsReported : Prop :=
  ∀ heap : Heap,
    (∀ out, zstdDecompressHeap { behindOfNorm := behind, heap := heap } input inLen = .ok out →
      WellFormed behind input inLen 0) ∧
    (¬ WellFormed behind input inLen 0 →
      zstdDecompressHeap { behindOfNorm := behind, heap := heap } input inLen = .fail)

/-- Behind the skippable frames that the loop goes over from `p` on there is no frame
that decodes: the input ends, or a skippable frame is cut off, or there is no magic
number, or the frame fails. -/
inductive HeadFails : Nat → Prop
  | nil {p : Nat} : inLen ≤ p → HeadFails p
  | cut {p : Nat} : p < inLen → isSkippable (rd32 input p) = true → inLen < p + 8 → HeadFails p
  | short {p : Nat} : isSkippable (rd32 input p) = true → p + 8 ≤ inLen → skipStep input p ≠ 0 →
    inLen < p + skipStep input p → HeadFails p
  | skip {p : Nat} : isSkippable (rd32 input p) = true → p + 8 ≤ inLen → skipStep input p ≠ 0 →
    p + skipStep input p ≤ inLen → HeadFails (p + skipStep input p) → HeadFails p
  | magic {p : Nat} : p < inLen → isSkippable (rd32 input p) = false →
    rd32 input p ≠ zstdMagicNumber → HeadFails p
  | frame {p : Nat} {s : Stream} : p < inLen → isSkippable (rd32 input p) = false →
    rd32 input p = zstdMagicNumber →
    frame input inLen (plentyOf behind) p (start (plentyOf behind)) = .error .fail s →
    HeadFails p

end

/-! ## The loop -/

variable {behind : Nat → Int} {s s' : Stream} {fuel ipos : Nat} {heap : Heap}

/-- The status is never taken back. -/
theorem frameLoop_decoded : frameLoop input inLen env fuel ipos true s ≠ .stop false s' := by
  intro h
  induction fuel generalizing ipos s with
  | zero =>
    rw [frameLoop] at h
    split at h
    · cases h
    · cases h
  | succ fuel ih =>
    rw [frameLoop] at h
    split at h
    · cases h
    dsimp only at h
    split at h
    · split at h
      · cases h
      split at h
      · cases h
      · split at h
        · cases h
        · exact ih h
    · split at h
      · cases h
      split at h
      · exact ih h
      · cases h
      · cases h

/-- With plenty of memory, a loop that ends without a frame decoded has found none. -/
theorem headFails_of_stop
    (h : frameLoop input inLen (plentyOf behind) fuel ipos false (start (plentyOf behind)) =
      .stop false s) : HeadFails behind input inLen ipos := by
  induction fuel generalizing ipos with
  | zero =>
    rw [frameLoop] at h
    split at h
    · next hend => exact .nil hend
    · cases h
  | succ fuel ih =>
    rw [frameLoop] at h
    split at h
    · next hend => exact .nil hend
    rename_i hend
    rw [Nat.not_le] at hend
    dsimp only at h
    split at h
    · next hskip =>
      split at h
      · next hcut => exact .cut hend hskip hcut
      rename_i hcut
      rw [Nat.not_lt] at hcut
      split at h
      · cases h
      rename_i hstep
      split at h
      · next hshort => exact .short hskip hcut hstep hshort
      · next hshort => exact .skip hskip hcut hstep (Nat.not_lt.mp hshort) (ih h)
    · next hskip =>
      rw [Bool.not_eq_true] at hskip
      split at h
      · next hmagic => exact .magic hend hskip hmagic
      rename_i hmagic
      rw [not_not] at hmagic
      split at h
      · exact absurd h frameLoop_decoded
      · next hfail => exact .frame hend hskip hmagic hfail
      · cases h

/-- Whatever memory there is, the loop ends without a frame decoded when there is
none. -/
theorem stop_of_headFails (h : HeadFails behind input inLen ipos) (hfuel : inLen - ipos ≤ fuel) :
    ∃ s, frameLoop input inLen { behindOfNorm := behind, heap := heap } (fuel + 1) ipos false
      (start (plentyOf behind)) = .stop false s := by
  induction h generalizing fuel with
  | nil hend =>
    refine ⟨start (plentyOf behind), ?_⟩
    rw [frameLoop, if_pos hend]
  | cut hend hskip hcut =>
    refine ⟨start (plentyOf behind), ?_⟩
    rw [frameLoop, if_neg (Nat.not_le.mpr hend)]
    simp [hskip, hcut]
  | short hskip hcut hstep hshort =>
    refine ⟨start (plentyOf behind), ?_⟩
    rw [frameLoop, if_neg (by omega)]
    simp [hskip, hstep, hshort]
  | skip hskip hcut hstep hle _ ih =>
    obtain ⟨fuel, rfl⟩ : ∃ n, fuel = n + 1 := ⟨fuel - 1, by omega⟩
    obtain ⟨s, hs⟩ := @ih fuel (by omega)
    refine ⟨s, ?_⟩
    rw [frameLoop, if_neg (by omega)]
    rw [if_pos hskip, if_neg (by omega), if_neg hstep, if_neg (Nat.not_lt.mpr hle)]
    exact hs
  | magic hend hskip hmagic =>
    refine ⟨start (plentyOf behind), ?_⟩
    rw [frameLoop, if_neg (Nat.not_le.mpr hend)]
    simp [hskip, hmagic]
  | @frame p s hend hskip hmagic hfail =>
    have hmore : FailsMore .fail (frame input inLen { behindOfNorm := behind, heap := heap } p)
        (frame input inLen (plentyOf behind) p) := frame_failsMore p
    obtain ⟨s', hs⟩ := hmore.error hfail
    refine ⟨s', ?_⟩
    rw [frameLoop, if_neg (Nat.not_le.mpr hend)]
    simp [hskip, not_not.mpr hmagic, hs]

/-! ## Which errors are reported -/

theorem headFails_of_fail (hlen : 4 ≤ inLen)
    (h : zstdDecompressHeap (plentyOf behind) input inLen = .fail) :
    HeadFails behind input inLen 0 := by
  have hctx : ¬ (plentyOf behind).heap.ctx = false := Bool.true_eq_false.mp
  unfold zstdDecompressHeap at h
  rw [if_neg (Nat.not_lt.mpr hlen), if_neg hctx] at h
  split at h
  · cases h
  · next hstop => exact headFails_of_stop hstop
  · split at h
    · next hlast => exact absurd hlast.2 Bool.true_eq_false.mp
    · cases h

theorem fail_of_headFails (h : HeadFails behind input inLen 0) :
    zstdDecompressHeap { behindOfNorm := behind, heap := heap } input inLen = .fail := by
  have hstart : start { behindOfNorm := behind, heap := heap } =
      start (plentyOf behind) := rfl
  obtain ⟨s, hs⟩ : ∃ s, frameLoop input inLen { behindOfNorm := behind, heap := heap } (inLen + 1) 0
      false (start (plentyOf behind)) = .stop false s :=
    stop_of_headFails h (Nat.sub_le inLen 0)
  unfold zstdDecompressHeap
  split
  · rfl
  · split
    · rfl
    · rw [hstart, hs]

/-- Errors are reported exactly for the inputs that have none, and those whose first
frame is bad or missing. -/
theorem errorsReported_iff (behind : Nat → Int) (input : Ptr) (inLen : Nat) :
    ErrorsReported behind input inLen ↔
      WellFormed behind input inLen 0 ∨ inLen < 4 ∨ HeadFails behind input inLen 0 := by
  constructor
  · intro h
    by_cases hwf : WellFormed behind input inLen 0
    · exact .inl hwf
    · by_cases hlen : inLen < 4
      · exact .inr (.inl hlen)
      · exact .inr (.inr (headFails_of_fail (Nat.not_lt.mp hlen) ((h .plenty).2 hwf)))
  intro h heap
  have hfail : ¬ WellFormed behind input inLen 0 →
      zstdDecompressHeap { behindOfNorm := behind, heap := heap } input inLen = .fail := by
    intro hwf
    rcases h with h | h | h
    · exact absurd h hwf
    · unfold zstdDecompressHeap
      rw [if_pos h]
    · exact fail_of_headFails h
  refine ⟨fun out hout => ?_, hfail⟩
  by_contra hwf
  rw [hfail hwf] at hout
  cases hout

/-- An empty frame, and four bytes that begin no frame. -/
def frameAndNoise : List UInt8 := [0x28, 0xB5, 0x2F, 0xFD, 0x20, 0, 1, 0, 0, 0, 0, 0, 0]

theorem noise_not_reported : ¬ ∀ behind input inLen, ErrorsReported behind input inLen := by
  intro hall
  have hrep := hall (fun _ => 0) (fun i => frameAndNoise.getD i 0) 13
  have hok : zstdDecompressHeap (plentyOf fun _ => 0) (fun i => frameAndNoise.getD i 0) 13 =
      .ok [] := by decide +kernel
  have hlen : ∀ n s, frame (fun i => frameAndNoise.getD i 0) 13 (plentyOf fun _ => 0) 0
      (start (plentyOf fun _ => 0)) = .ok n s → n = 9 := by
    intro n s h
    have hn : (match frame (fun i => frameAndNoise.getD i 0) 13 (plentyOf fun _ => 0) 0
        (start (plentyOf fun _ => 0)) with
        | .ok n _ => n
        | .error _ _ => 0) = 9 := by decide +kernel
    rw [h] at hn
    exact hn
  cases (hrep .plenty).1 [] hok with
  | skippable hskip => exact absurd hskip (by decide +kernel)
  | frame hframe hrest =>
    obtain ⟨-, header, s, -, hdec, -⟩ := hframe
    rw [hlen _ _ hdec] at hrest
    cases hrest with
    | skippable hskip => exact absurd hskip (by decide +kernel)
    | frame hframe _ => exact absurd hframe.1 (by decide +kernel)

end Kil0yOS.Zstd
