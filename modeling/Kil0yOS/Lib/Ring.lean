/-
Ring buffers with one slot left empty.

A ring of `n` cells keeps a head index, where the next element is written, and a
tail index, where the next one is read.  The two are equal exactly when the ring
is empty, so at most `n - 1` cells hold an element.  `items` is the sequence the
ring stands for, and every operation is stated as what it does to `items`.
-/
import Mathlib.Data.List.Basic

namespace Kil0yOS.Lib

open List

structure Ring (α : Type) where
  buf : Nat → α
  head : Nat
  tail : Nat

namespace Ring

variable {α : Type} (n : Nat)

def used (r : Ring α) : Nat := (r.head + n - r.tail) % n

def items (r : Ring α) : List α :=
  (range (r.used n)).map fun i => r.buf ((r.tail + i) % n)

def free (r : Ring α) : Nat := n - 1 - r.used n

/-- Write one element at the head.  A full ring is left as it is. -/
def push (r : Ring α) (x : α) : Ring α :=
  if (r.head + 1) % n = r.tail then r
  else { r with buf := fun i => if i = r.head then x else r.buf i, head := (r.head + 1) % n }

/-- Write elements one after the other and stop at the first that does not
fit. -/
def pushAll (r : Ring α) : List α → Ring α
  | [] => r
  | x :: xs => if (r.head + 1) % n = r.tail then r else (r.push n x).pushAll xs

def pop (r : Ring α) : Ring α := { r with tail := (r.tail + 1) % n }

structure WellFormed (n : Nat) (r : Ring α) : Prop where
  head_lt : r.head < n
  tail_lt : r.tail < n

variable {n : Nat} {r : Ring α}

theorem used_eq (h : r.WellFormed n) :
    r.used n = if r.tail ≤ r.head then r.head - r.tail else r.head + n - r.tail := by
  have h1 := h.head_lt
  unfold used
  split
  · rw [show r.head + n - r.tail = (r.head - r.tail) + n from by omega, Nat.add_mod_right]
    exact Nat.mod_eq_of_lt (by omega)
  · exact Nat.mod_eq_of_lt (by omega)

theorem used_lt (h : r.WellFormed n) : r.used n < n :=
  Nat.mod_lt _ (Nat.lt_of_le_of_lt (Nat.zero_le _) h.head_lt)

theorem items_length (n : Nat) (r : Ring α) : (r.items n).length = r.used n := by
  simp [items]

section

variable (h : r.WellFormed n)
include h

theorem used_eq_zero_iff : r.used n = 0 ↔ r.tail = r.head := by
  have h2 := h.tail_lt
  rw [used_eq h]
  split <;> omega

theorem items_eq_nil_iff : r.items n = [] ↔ r.tail = r.head := by
  simp [← used_eq_zero_iff h, ← items_length]

theorem full_iff : (r.head + 1) % n = r.tail ↔ r.used n = n - 1 := by
  have h1 := h.head_lt
  have h2 := h.tail_lt
  rw [used_eq h]
  rcases (by omega : r.head + 1 < n ∨ r.head + 1 = n) with hlt | heq
  · rw [Nat.mod_eq_of_lt hlt]
    split <;> omega
  · rw [heq, Nat.mod_self]
    split <;> omega

theorem push_wellFormed (x : α) : (r.push n x).WellFormed n := by
  have hn : 0 < n := Nat.lt_of_le_of_lt (Nat.zero_le _) h.head_lt
  unfold push
  split
  · exact h
  · exact ⟨Nat.mod_lt _ hn, h.tail_lt⟩

theorem used_push (hfull : (r.head + 1) % n ≠ r.tail) (x : α) :
    (r.push n x).used n = r.used n + 1 := by
  have h1 := h.head_lt
  have h2 := h.tail_lt
  rw [used_eq h, used_eq (push_wellFormed h x)]
  simp only [push, if_neg hfull]
  rcases (by omega : r.head + 1 < n ∨ r.head + 1 = n) with hlt | heq
  · rw [Nat.mod_eq_of_lt hlt] at hfull ⊢
    split <;> split <;> omega
  · rw [heq, Nat.mod_self] at hfull ⊢
    split <;> split <;> omega

/-- The cell `i` places after the tail is the head only for `i` equal to the
number of cells in use. -/
theorem tail_add_ne_head {i : Nat} (hi : i < r.used n) : (r.tail + i) % n ≠ r.head := by
  have h1 := h.head_lt
  rw [used_eq h] at hi
  rcases Nat.lt_or_ge (r.tail + i) n with hlt | hge
  · rw [Nat.mod_eq_of_lt hlt]
    split at hi <;> omega
  · rw [Nat.mod_eq_sub_mod hge, Nat.mod_eq_of_lt (by split at hi <;> omega)]
    split at hi <;> omega

theorem tail_add_used : (r.tail + r.used n) % n = r.head := by
  have h1 := h.head_lt
  have h2 := h.tail_lt
  rw [used_eq h]
  split
  · rw [show r.tail + (r.head - r.tail) = r.head from by omega]
    exact Nat.mod_eq_of_lt h1
  · rw [show r.tail + (r.head + n - r.tail) = r.head + n from by omega, Nat.add_mod_right]
    exact Nat.mod_eq_of_lt h1

theorem items_push (hfull : (r.head + 1) % n ≠ r.tail) (x : α) :
    (r.push n x).items n = r.items n ++ [x] := by
  unfold items
  rw [used_push h hfull, range_succ, map_append]
  simp only [push, if_neg hfull]
  congr 1
  · refine map_congr_left fun i hi => ?_
    rw [if_neg (tail_add_ne_head h (mem_range.mp hi))]
  · simp [tail_add_used h]

theorem pushAll_wellFormed (xs : List α) : (r.pushAll n xs).WellFormed n := by
  induction xs generalizing r with
  | nil => exact h
  | cons x xs ih =>
    rw [pushAll]
    split
    · exact h
    · exact ih (push_wellFormed h x)

/-- Pushing a list appends as much of its front as there is room for. -/
theorem items_pushAll (xs : List α) :
    (r.pushAll n xs).items n = r.items n ++ xs.take (r.free n) := by
  induction xs generalizing r with
  | nil => simp [pushAll]
  | cons x xs ih =>
    rw [pushAll]
    by_cases hfull : (r.head + 1) % n = r.tail
    · have hu := (full_iff h).mp hfull
      simp [hfull, free, hu]
    have hu : r.used n ≠ n - 1 := fun e => hfull ((full_iff h).mpr e)
    have hlt := used_lt h
    rw [if_neg hfull, ih (push_wellFormed h x), items_push h hfull, append_assoc]
    have hfree : r.free n = (r.push n x).free n + 1 := by
      unfold free
      rw [used_push h hfull]
      omega
    simp [hfree]

theorem pop_wellFormed : (r.pop n).WellFormed n :=
  ⟨h.head_lt, Nat.mod_lt _ (Nat.lt_of_le_of_lt (Nat.zero_le _) h.head_lt)⟩

theorem used_pop (hne : r.tail ≠ r.head) : r.used n = (r.pop n).used n + 1 := by
  have h1 := h.head_lt
  have h2 := h.tail_lt
  rw [used_eq h, used_eq (pop_wellFormed h)]
  rcases (by omega : r.tail + 1 < n ∨ r.tail + 1 = n) with hlt | heq
  · simp only [pop, Nat.mod_eq_of_lt hlt]
    split <;> split <;> omega
  · simp only [pop, heq, Nat.mod_self]
    split <;> split <;> omega

theorem items_pop (hne : r.tail ≠ r.head) : r.items n = r.buf r.tail :: (r.pop n).items n := by
  unfold items
  rw [used_pop h hne, range_succ_eq_map, map_cons, map_map]
  congr 1
  · simp [Nat.mod_eq_of_lt h.tail_lt]
  · refine map_congr_left fun i _ => ?_
    show r.buf ((r.tail + (i + 1)) % n) = r.buf (((r.tail + 1) % n + i) % n)
    simp [show r.tail + 1 + i = r.tail + (i + 1) from by omega]

end

end Ring
end Kil0yOS.Lib
