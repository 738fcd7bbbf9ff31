/-
Ring buffers that count what went through them.

A spool of `n` cells keeps the index of the next cell to write and of the next cell to read,
and how many elements were ever written and read.  Unlike a `Ring` it can be full.  `items`
is the sequence in the spool, oldest first, and every operation is stated as what it does to
`items`.
-/
import Mathlib.Data.List.Basic
import Mathlib.Data.Nat.ModEq

namespace Kil0yOS.Lib

open List Function

structure Spool (α : Type) where
  cells : Nat → α
  head : Nat
  tail : Nat
  written : Nat
  read : Nat

namespace Spool

variable {α : Type} (n : Nat)

def empty (x : α) : Spool α := ⟨fun _ => x, 0, 0, 0, 0⟩

def used (r : Spool α) : Nat := r.written - r.read

def items (r : Spool α) : List α := (range r.used).map fun i => r.cells ((r.tail + i) % n)

def write (r : Spool α) : List α → Spool α
  | [] => r
  | x :: xs =>
    write
      { r with
        cells := update r.cells r.head x
        head := (r.head + 1) % n
        written := r.written + 1 } xs

def take (r : Spool α) : Nat → List α × Spool α
  | 0 => ([], r)
  | k + 1 =>
    let rest := take { r with tail := (r.tail + 1) % n, read := r.read + 1 } k
    (r.cells r.tail :: rest.1, rest.2)

def peek (r : Spool α) (off len : Nat) : List α :=
  (range len).map fun i => r.cells ((r.tail + (off + i)) % n)

def poke (r : Spool α) (off : Nat) : List α → Spool α
  | [] => r
  | x :: xs => poke { r with cells := update r.cells ((r.tail + off) % n) x } (off + 1) xs

/-- The counts and the indices belong together. -/
structure WellFormed (r : Spool α) : Prop where
  read_le : r.read ≤ r.written
  used_le : r.used ≤ n
  tail_lt : r.tail < n
  head_eq : r.head = (r.tail + r.used) % n

variable {n} {r : Spool α}

theorem wellFormed_empty (h : 0 < n) (x : α) : (empty x).WellFormed n :=
  ⟨Nat.le_refl 0, Nat.zero_le n, h, (Nat.zero_mod n).symm⟩

theorem length_items (n : Nat) (r : Spool α) : (r.items n).length = r.used := by
  simp [items]

theorem index_ne {tail i j : Nat} (hij : i < j) (hj : j < n) : (tail + i) % n ≠ (tail + j) % n := by
  intro h
  have hmod : i ≡ j [MOD n] := Nat.ModEq.add_left_cancel' tail h
  have heq : i = j := Nat.ModEq.eq_of_lt_of_lt hmod (Nat.lt_trans hij hj) hj
  omega

/-! ## Writing -/

def push (n : Nat) (r : Spool α) (x : α) : Spool α :=
  { r with
    cells := update r.cells r.head x
    head := (r.head + 1) % n
    written := r.written + 1 }

section

variable (h : r.WellFormed n)
include h

theorem used_push (x : α) : (r.push n x).used = r.used + 1 := by
  have := h.read_le
  simp only [push, used]
  omega

theorem wellFormed_push (hroom : r.used < n) (x : α) :
    (r.push n x).WellFormed n where
  read_le := Nat.le_succ_of_le h.read_le
  used_le := by
    rw [used_push h]
    exact hroom
  tail_lt := h.tail_lt
  head_eq := by
    rw [used_push h]
    show (r.head + 1) % n = (r.tail + (r.used + 1)) % n
    simp [h.head_eq, Nat.add_assoc]

theorem items_push (hroom : r.used < n) (x : α) :
    (r.push n x).items n = r.items n ++ [x] := by
  unfold items
  rw [used_push h, range_succ, map_append]
  simp only [push, h.head_eq]
  congr 1
  · apply map_congr_left
    intro i hi
    exact update_of_ne (index_ne (mem_range.mp hi) hroom) ..
  · simp

theorem items_write {xs : List α} (hroom : r.used + xs.length ≤ n) :
    (r.write n xs).WellFormed n ∧ (r.write n xs).items n = r.items n ++ xs := by
  induction xs generalizing r with
  | nil => exact ⟨h, (append_nil _).symm⟩
  | cons x xs ih =>
    rw [length_cons] at hroom
    have hone : r.used < n := by omega
    obtain ⟨hwf, hitems⟩ := ih (wellFormed_push h hone x) (by rw [used_push h]; omega)
    refine ⟨hwf, ?_⟩
    show ((r.push n x).write n xs).items n = _
    simp [hitems, items_push h hone]

end

/-! ## Reading -/

def pop (n : Nat) (r : Spool α) : Spool α :=
  { r with tail := (r.tail + 1) % n, read := r.read + 1 }

theorem used_pop (hne : 0 < r.used) : r.used = (r.pop n).used + 1 := by
  simp only [pop, used] at hne ⊢
  omega

theorem wellFormed_pop (h : r.WellFormed n) (hne : 0 < r.used) : (r.pop n).WellFormed n where
  read_le := by
    simp only [used] at hne
    show r.read + 1 ≤ r.written
    omega
  used_le := by
    have := h.used_le
    have hused := used_pop (n := n) hne
    omega
  tail_lt := Nat.mod_lt _ (Nat.lt_of_le_of_lt (Nat.zero_le _) h.tail_lt)
  head_eq := by
    have hused := used_pop (n := n) hne
    show r.head = ((r.tail + 1) % n + (r.pop n).used) % n
    rw [Nat.mod_add_mod, h.head_eq]
    congr 1
    omega

theorem items_pop (h : r.WellFormed n) (hne : 0 < r.used) :
    r.items n = r.cells r.tail :: (r.pop n).items n := by
  unfold items
  rw [used_pop hne, range_succ_eq_map, map_cons, map_map]
  congr 1
  · simp [Nat.mod_eq_of_lt h.tail_lt]
  apply map_congr_left
  intro i _
  show r.cells ((r.tail + (i + 1)) % n) = r.cells (((r.tail + 1) % n + i) % n)
  rw [Nat.mod_add_mod]
  congr 2
  omega

theorem items_take (h : r.WellFormed n) {k : Nat} (hk : k ≤ r.used) :
    (r.take n k).1 = (r.items n).take k ∧ (r.take n k).2.WellFormed n ∧
      (r.take n k).2.items n = (r.items n).drop k := by
  induction k generalizing r with
  | zero => exact ⟨rfl, h, rfl⟩
  | succ k ih =>
    have hne : 0 < r.used := by omega
    have hused := used_pop (n := n) hne
    obtain ⟨hfront, hwf, hrest⟩ := ih (wellFormed_pop h hne) (by omega)
    rw [items_pop h hne]
    exact ⟨congrArg _ hfront, hwf, hrest⟩

theorem take_counts (r : Spool α) (n k : Nat) :
    (r.take n k).2.read = r.read + k ∧ (r.take n k).2.written = r.written := by
  induction k generalizing r with
  | zero => exact ⟨rfl, rfl⟩
  | succ k ih =>
    obtain ⟨hread, hwritten⟩ := ih { r with tail := (r.tail + 1) % n, read := r.read + 1 }
    exact ⟨hread.trans (by simp only; omega), hwritten⟩

/-! ## In place -/

theorem peek_eq {off len : Nat} (hle : off + len ≤ r.used) :
    r.peek n off len = ((r.items n).drop off).take len := by
  apply ext_getElem
  · rw [length_take, length_drop, length_items]
    simp only [peek, length_map, length_range]
    omega
  · simp [peek, items]

theorem items_set (h : r.WellFormed n) {off : Nat} (hoff : off < r.used) (x : α) :
    items n { r with cells := update r.cells ((r.tail + off) % n) x } = (r.items n).set off x := by
  have hused := h.used_le
  apply ext_getElem
  · rw [length_set, length_items, length_items]
    rfl
  intro i hi hi'
  have hi : i < r.used := by rwa [length_items] at hi
  have hget : (items n { r with cells := update r.cells ((r.tail + off) % n) x })[i] =
      update r.cells ((r.tail + off) % n) x ((r.tail + i) % n) := by
    simp [items]
  rw [hget, getElem_set]
  by_cases hio : off = i
  · simp [hio]
  have hne : (r.tail + i) % n ≠ (r.tail + off) % n := by
    rcases Nat.lt_or_gt_of_ne hio with hlt | hgt
    · exact (index_ne hlt (by omega)).symm
    · exact index_ne hgt (by omega)
  rw [if_neg hio, update_of_ne hne]
  simp [items]

/-- Elements are put over as many others. -/
theorem items_poke (h : r.WellFormed n) {pre mid post xs : List α}
    (hitems : r.items n = pre ++ mid ++ post) (hlen : xs.length = mid.length) :
    (r.poke n pre.length xs).WellFormed n ∧
      (r.poke n pre.length xs).items n = pre ++ xs ++ post := by
  induction xs generalizing r pre mid with
  | nil =>
    obtain rfl := length_eq_zero_iff.mp hlen.symm
    exact ⟨h, hitems⟩
  | cons x xs ih =>
    obtain ⟨y, mid, rfl⟩ := exists_cons_of_length_pos (by rw [← hlen]; exact Nat.zero_lt_succ _)
    have hused : pre.length < r.used := by
      rw [← length_items n, hitems]
      simp
    have hset := items_set h hused x
    rw [hitems] at hset
    have hset' : items n { r with cells := update r.cells ((r.tail + pre.length) % n) x } =
        (pre ++ [x]) ++ mid ++ post := by
      rw [hset]
      simp
    obtain ⟨hwf, hrest⟩ := ih (by exact ⟨h.1, h.2, h.3, h.4⟩) hset' (Nat.succ.inj hlen)
    rw [length_append, length_singleton] at hwf hrest
    refine ⟨hwf, ?_⟩
    show (poke n { r with cells := _ } (pre.length + 1) xs).items n = _
    rw [hrest]
    simp

end Spool

/-! ## Little-endian words -/

/-- The lowest `n` bytes of a number, lowest first. -/
def leBytes : Nat → Nat → List UInt8
  | 0, _ => []
  | n + 1, v => UInt8.ofNat v :: leBytes n (v / 256)

def leNat : List UInt8 → Nat
  | [] => 0
  | b :: bs => b.toNat + 256 * leNat bs

theorem length_leBytes (n v : Nat) : (leBytes n v).length = n := by
  induction n generalizing v with
  | zero => rfl
  | succ n ih => rw [leBytes, length_cons, ih]

theorem leNat_leBytes {n v : Nat} (h : v < 256 ^ n) : leNat (leBytes n v) = v := by
  induction n generalizing v with
  | zero =>
    exact (Nat.lt_one_iff.mp h).symm
  | succ n ih =>
    have hlow : (UInt8.ofNat v).toNat = v % 256 := UInt8.toNat_ofNat'
    have hhigh : v / 256 < 256 ^ n := by
      exact Nat.div_lt_of_lt_mul (Nat.mul_comm _ _ ▸ h)
    rw [leBytes, leNat, ih hhigh, hlow, Nat.mod_add_div]

end Kil0yOS.Lib
