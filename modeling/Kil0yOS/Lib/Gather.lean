/-
References held by a family of holders.

A family gives every holder below a bound the list of what it refers to, and
`gather` puts the lists together.  A step that changes what one holder refers to
changes the gathered list by exactly that difference, so numbers of references are
compared by permutations instead of by sums.
-/
import Mathlib.Data.List.Perm.Basic

namespace Kil0yOS.Lib

open List

variable {α : Type}

def gather : Nat → (Nat → List α) → List α
  | 0, _ => []
  | n + 1, b => gather n b ++ b n

variable {n k : Nat} {b c : Nat → List α}

theorem gather_congr (h : ∀ i, i < n → c i = b i) : gather n c = gather n b := by
  induction n with
  | zero => rfl
  | succ n ih =>
    rw [gather, gather, h n (Nat.lt_succ_self n), ih fun i hi => h i (Nat.lt_succ_of_lt hi)]

/-- A holder past the bound that is added with what it refers to. -/
theorem gather_succ_of_eq (h : ∀ i, i ≠ n → c i = b i) : gather (n + 1) c = gather n b ++ c n := by
  rw [gather, gather_congr fun i hi => h i (Nat.ne_of_lt hi)]

/-- One holder is changed: what it referred to is exchanged for what it refers to
now. -/
theorem gather_swap (hk : k < n) (h : ∀ i, i ≠ k → c i = b i) :
    (gather n c ++ b k).Perm (gather n b ++ c k) := by
  induction n with
  | zero => omega
  | succ n ih =>
    rw [gather, gather]
    rcases Nat.lt_succ_iff_lt_or_eq.mp hk with hlt | heq
    · rw [h n (Nat.ne_of_gt hlt), append_assoc, append_assoc]
      calc (gather n c ++ (b n ++ b k)).Perm (gather n c ++ (b k ++ b n)) :=
            Perm.append_left _ perm_append_comm
        _ = (gather n c ++ b k) ++ b n := (append_assoc ..).symm
        Perm _ ((gather n b ++ c k) ++ b n) := (ih hlt).append_right _
        _ = gather n b ++ (c k ++ b n) := append_assoc ..
        Perm _ (gather n b ++ (b n ++ c k)) :=
            Perm.append_left _ perm_append_comm
    · subst heq
      rw [gather_congr fun i hi => h i (Nat.ne_of_lt hi), append_assoc, append_assoc]
      exact .append_left _ perm_append_comm

theorem mem_gather {a : α} : a ∈ gather n b ↔ ∃ i, i < n ∧ a ∈ b i := by
  induction n with
  | zero => simp [gather]
  | succ n ih =>
    rw [gather, mem_append, ih]
    constructor
    · intro h
      rcases h with ⟨i, hi, ha⟩ | ha
      · exact ⟨i, Nat.lt_succ_of_lt hi, ha⟩
      · exact ⟨n, Nat.lt_succ_self n, ha⟩
    intro h
    obtain ⟨i, hi, ha⟩ := h
    rcases Nat.lt_succ_iff_lt_or_eq.mp hi with hlt | heq
    · exact .inl ⟨i, hlt, ha⟩
    · rw [heq] at ha
      exact .inr ha

variable [DecidableEq α]

theorem gather_count_swap (hk : k < n) (h : ∀ i, i ≠ k → c i = b i) (a : α) :
    (gather n c).count a + (b k).count a = (gather n b).count a + (c k).count a := by
  have := (gather_swap hk h).count_eq a
  rwa [count_append, count_append] at this

theorem count_le_gather (hk : k < n) (a : α) : (b k).count a ≤ (gather n b).count a := by
  induction n with
  | zero => omega
  | succ n ih =>
    rw [gather, count_append]
    rcases Nat.lt_succ_iff_lt_or_eq.mp hk with hlt | heq
    · omega
    · subst heq
      omega

end Kil0yOS.Lib
