/-
The table of system calls: `syscall_lnx_dispatch` of `core/syscall_lnx.c`.

A number without a handler is noted in the kernel log once, for which `lnx_warned` has a bit
for each number of the table and 32 more.  An access outside of an array has no result.
-/
import Mathlib.Data.Nat.Bitwise

namespace Kil0yOS.Lnx

open List

def lnxTableSize : Nat := 512

/-- The number of words of `lnx_warned`. -/
def warnedWords : Nat := lnxTableSize / 32 + 1

/-- The result of a call that is not there, -38. -/
def lEnosys : UInt64 := -38

structure Call where
  num : UInt64
  args : Fin 6 → UInt64

/-- The kernel: `rest` is all that handlers work on. -/
structure Kernel (σ : Type) where
  lnxWarned : Nat → Nat
  log : List Nat
  rest : σ

variable {σ : Type}

abbrev Handler (σ : Type) := (Fin 6 → UInt64) → σ → σ × UInt64

-- A null pointer in the table is `none`.
variable (table : Fin lnxTableSize → Option (Handler σ))

def handlerOf (num : UInt64) : Option (Handler σ) :=
  if h : num.toNat < lnxTableSize then table ⟨num.toNat, h⟩ else none

/-- The bit of the number is set, and the number logged. -/
def Kernel.note (k : Kernel σ) (num : Nat) : Kernel σ :=
  { k with
    lnxWarned := Function.update k.lnxWarned (num / 32)
      (k.lnxWarned (num / 32) ||| 1 <<< (num % 32))
    log := k.log ++ [num] }

def syscallLnxDispatch (k : Kernel σ) (c : Call) : Option (Kernel σ × UInt64) :=
  match handlerOf table c.num with
  | some handler =>
    let (rest, rv) := handler c.args k.rest
    some ({ k with rest := rest }, rv)
  | none =>
    let num := c.num.toNat
    if num / 32 < warnedWords then
      if k.lnxWarned (num / 32) &&& 1 <<< (num % 32) = 0 then some (k.note num, lEnosys)
      else some (k, lEnosys)
    else none

def runCalls : Kernel σ → List Call → Option (Kernel σ)
  | k, [] => some k
  | k, c :: cs => (syscallLnxDispatch table k c).bind fun r => runCalls r.1 cs

/-- The kernel after `syscall_lnx_init`. -/
def booted (rest : σ) : Kernel σ := { lnxWarned := fun _ => 0, log := [], rest := rest }

/-! ## Bits -/

variable {k k' : Kernel σ} {c : Call} {cs : List Call} {rv : UInt64} {m n : Nat}

def Kernel.warned (k : Kernel σ) (n : Nat) : Bool := (k.lnxWarned (n / 32)).testBit (n % 32)

theorem and_bit_eq_zero (w i : Nat) : w &&& 1 <<< i = 0 ↔ w.testBit i = false := by
  rw [Nat.one_shiftLeft, Nat.and_two_pow]
  cases w.testBit i <;> simp

theorem warned_note (k : Kernel σ) (m n : Nat) :
    (k.note m).warned n = (decide (n = m) || k.warned n) := by
  unfold Kernel.warned Kernel.note
  dsimp only
  by_cases hw : n / 32 = m / 32
  · rw [hw, Function.update_self, Nat.testBit_or, Nat.one_shiftLeft, Nat.testBit_two_pow, Bool.or_comm]
    congr 2
    simp only [eq_iff_iff]
    omega
  · rw [Function.update_of_ne hw, decide_eq_false (fun h => hw (by rw [h])), Bool.false_or]

/-! ## One call -/

/-- A call without a handler fails, and changes nothing but its own bit and the log. -/
def Answers (k : Kernel σ) (c : Call) : Prop :=
  handlerOf table c.num = none → ∃ k', syscallLnxDispatch table k c = some (k', lEnosys) ∧
    k'.rest = k.rest ∧ ∀ n, n ≠ c.num.toNat → k'.warned n = k.warned n

variable {table}

theorem dispatch_none (h : handlerOf table c.num = none) (hn : c.num.toNat < 544) :
    syscallLnxDispatch table k c =
      some (if k.warned c.num.toNat then k else k.note c.num.toNat, lEnosys) := by
  have hword : c.num.toNat / 32 < warnedWords := by
    have : warnedWords = 17 := rfl
    omega
  unfold syscallLnxDispatch
  rw [h]
  rw [if_pos hword]
  by_cases hw : k.warned c.num.toNat = true
  · rw [if_pos hw, if_neg]
    rw [and_bit_eq_zero, ← Kernel.warned, hw]
    decide
  · rw [if_neg hw, if_pos]
    exact (and_bit_eq_zero _ _).mpr (Bool.eq_false_iff.mpr hw)

theorem answers_of_lt (hn : c.num.toNat < 544) : Answers table k c := by
  intro h
  refine ⟨_, dispatch_none h hn, ?_⟩
  split
  · exact ⟨rfl, fun _ _ => rfl⟩
  · refine ⟨rfl, fun n hne => ?_⟩
    simp [warned_note, decide_eq_false hne]

variable (table k) in
theorem dispatch_isSome_iff : (syscallLnxDispatch table k c).isSome = true ↔ c.num.toNat < 544 := by
  cases h : handlerOf table c.num with
  | none =>
    constructor
    · intro hsome
      unfold syscallLnxDispatch at hsome
      rw [h] at hsome
      dsimp only at hsome
      split at hsome
      · next hword =>
        have : warnedWords = 17 := rfl
        omega
      · cases hsome
    · intro hn
      rw [dispatch_none h hn]
      rfl
  | some handler =>
    have hlt : c.num.toNat < lnxTableSize := by
      by_contra hge
      rw [handlerOf, dif_neg hge] at h
      cases h
    unfold syscallLnxDispatch
    rw [h]
    have : lnxTableSize = 512 := rfl
    exact iff_of_true rfl (by omega)

/-! ## Runs -/

/-- What is in the log has its bit set, and is there once. -/
structure LogOk (k : Kernel σ) : Prop where
  warned : ∀ n ∈ k.log, k.warned n = true
  nodup : k.log.Nodup

theorem LogOk.dispatch (hk : LogOk k) (h : syscallLnxDispatch table k c = some (k', rv)) :
    LogOk k' := by
  have hn : c.num.toNat < 544 := (dispatch_isSome_iff ..).mp (by rw [h]; rfl)
  cases hh : handlerOf table c.num with
  | some handler =>
    unfold syscallLnxDispatch at h
    rw [hh] at h
    cases h
    exact { hk with }
  | none =>
    rw [dispatch_none hh hn] at h
    split at h
    · cases h
      exact hk
    rename_i hw
    cases h
    refine ⟨fun n hmem => ?_, ?_⟩
    · rw [warned_note, Bool.or_eq_true, decide_eq_true_eq]
      rcases mem_append.mp hmem with hold | hnew
      · exact .inr (hk.warned n hold)
      · exact .inl (mem_singleton.mp hnew)
    · refine nodup_append.mpr ⟨hk.nodup, by simp, fun a ha b hb hab => ?_⟩
      rw [← hab.trans (mem_singleton.mp hb)] at hw
      exact hw (hk.warned a ha)

variable (table) in
theorem runCalls_iff (hk : LogOk k) :
    (∃ k', runCalls table k cs = some k' ∧ k'.log.Nodup) ↔ ∀ c ∈ cs, c.num.toNat < 544 := by
  induction cs generalizing k with
  | nil => exact iff_of_true ⟨k, rfl, hk.nodup⟩ (by simp)
  | cons c cs ih =>
    rw [forall_mem_cons, ← dispatch_isSome_iff table k, runCalls]
    cases h : syscallLnxDispatch table k c with
    | none => simp
    | some r =>
      rw [Option.isSome_some, and_iff_right rfl, ← ih (hk.dispatch h)]
      rfl

/-- Over a run the arrays are accessed in bounds exactly if every number is below 544; then
each number without a handler is answered as it should be, and logged at most once. -/
theorem syscallLnxDispatch_iff (table : Fin lnxTableSize → Option (Handler σ)) (rest : σ)
    (cs : List Call) :
    ((∃ k, runCalls table (booted rest) cs = some k ∧ k.log.Nodup) ∧
      ∀ pre c post, cs = pre ++ c :: post → ∀ k, runCalls table (booted rest) pre = some k →
        Answers table k c) ↔ ∀ c ∈ cs, c.num.toNat < 544 := by
  have hboot : LogOk (booted rest) := { warned := fun n h => (by cases h), nodup := nodup_nil }
  rw [← runCalls_iff table hboot]
  refine and_iff_left_of_imp fun hrun pre c post hcs k _ => ?_
  have hall := (runCalls_iff table hboot).mp hrun
  exact answers_of_lt (hall c (hcs ▸ mem_append_right pre mem_cons_self))

/-- The number 544 has its bit behind the end of `lnx_warned`. -/
theorem number_544_out_of_bounds :
    runCalls (fun _ => none) (booted ()) [⟨544, fun _ => 0⟩] = none := by
  decide

end Kil0yOS.Lnx
