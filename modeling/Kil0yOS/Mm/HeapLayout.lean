/-
The block list of the heap as a sequence of cells that fill the arena.

A cell is a header with the payload behind it.  The cells alone say where each of
them lies, so a list that is laid out in memory from the start of the arena to its
end has no gaps and no overlaps by construction.
-/
import Mathlib.Data.List.Chain
import Kil0yOS.Mm.Heap

namespace Kil0yOS.Mm

open List Lib.Bytes Lib

structure Cell where
  size : Nat
  free : Bool
deriving DecidableEq, Repr

def extent : List Cell → Nat
  | [] => 0
  | c :: cs => hdrSz + c.size + extent cs

structure HeaderAt (m : Bytes) (a : Nat) (c : Cell) (next : Nat) : Prop where
  size : blkSize m a = c.size
  next : blkNext m a = next
  free : blkFree m a = if c.free then 1 else 0
  magic : blkMagic m a = heapMagic

/-- The cells lie one behind the other from `a` on.  Every header points to the next
one, and the last one to `z`. -/
def Laid (m : Bytes) : Nat → List Cell → Nat → Prop
  | _, [], _ => True
  | a, c :: cs, z =>
    HeaderAt m a c (if cs = [] then z else a + hdrSz + c.size) ∧ Laid m (a + hdrSz + c.size) cs z

/-- The payloads in use: their addresses and sizes. -/
def payloads : Nat → List Cell → List (Nat × Nat)
  | _, [] => []
  | a, c :: cs =>
    if c.free then payloads (a + hdrSz + c.size) cs
    else (a + hdrSz, c.size) :: payloads (a + hdrSz + c.size) cs

/-- No two neighbours are both free. -/
def Apart : List Cell → Prop := IsChain fun c d => ¬ (c.free = true ∧ d.free = true)

variable {m m' : Bytes} {a b z next size : Nat} {c : Cell} {cs xs ys : List Cell}

theorem extent_append (xs ys : List Cell) : extent (xs ++ ys) = extent xs + extent ys := by
  induction xs with
  | nil => simp [extent]
  | cons c xs ih => simp only [cons_append, extent, ih]; omega

theorem length_le_extent (cs : List Cell) : cs.length ≤ extent cs := by
  induction cs with
  | nil => exact Nat.le_refl _
  | cons c cs ih => simp only [length_cons, extent, hdrSz]; omega

/-! ## Headers in memory -/

theorem HeaderAt.congr (h : HeaderAt m a c z)
    (hm : ∀ x, a ≤ x → x < a + hdrSz → m' x = m x) : HeaderAt m' a c z := by
  simp only [hdrSz] at hm
  constructor
  · rw [← h.size]
    exact get64_congr fun j h₁ h₂ => hm j h₁ (by omega)
  · rw [← h.next]
    exact get64_congr fun j h₁ h₂ => hm j (by omega) (by omega)
  · rw [← h.free]
    exact get32_congr fun j h₁ h₂ => hm j (by omega) (by omega)
  · rw [← h.magic]
    exact get32_congr fun j h₁ h₂ => hm j (by omega) (by omega)

theorem HeaderAt.free_iff (h : HeaderAt m a c z) : blkFree m a ≠ 0 ↔ c.free = true := by
  rw [h.free]
  cases c.free <;> simp

theorem headerAt_putHeader (m : Bytes) (a : Nat) (hsize : c.size < 2 ^ 64) (hnext : next < 2 ^ 64) :
    HeaderAt (putHeader m a c.size next (if c.free then 1 else 0)) a c next := by
  constructor
  · rw [blkSize, putHeader, get64_put32_of_out _ _ (by omega),
      get64_put32_of_out _ _ (by omega), get64_put64_of_out _ _ (by omega),
      get64_put64, Nat.mod_eq_of_lt hsize]
  · rw [blkNext, putHeader, get64_put32_of_out _ _ (by omega),
      get64_put32_of_out _ _ (by omega), get64_put64, Nat.mod_eq_of_lt hnext]
  · rw [blkFree, putHeader, get32_put32_of_out _ _ (by omega), get32_put32]
    split <;> rfl
  · rw [blkMagic, putHeader, get32_put32]
    rfl

theorem putHeader_of_out (m : Bytes) {a free x : Nat} (h : x < a ∨ a + hdrSz ≤ x) :
    putHeader m a size next free x = m x := by
  simp only [hdrSz] at h
  rw [putHeader, put32_of_out _ _ (by omega), put32_of_out _ _ (by omega),
    put64_of_out _ _ (by omega), put64_of_out _ _ (by omega)]

section

variable (h : HeaderAt m a c b)
include h

/-- A new size and a new successor in a header. -/
theorem HeaderAt.resize (hsize : size < 2 ^ 64) (hnext : next < 2 ^ 64) :
    HeaderAt ((m.put64 a size).put64 (a + 8) next) a { c with size := size } next := by
  constructor
  · rw [blkSize, get64_put64_of_out _ _ (by omega), get64_put64, Nat.mod_eq_of_lt hsize]
  · rw [blkNext, get64_put64, Nat.mod_eq_of_lt hnext]
  · rw [← h.free, blkFree, blkFree, get32_put64_of_out _ _ (by omega),
      get32_put64_of_out _ _ (by omega)]
  · rw [← h.magic, blkMagic, blkMagic, get32_put64_of_out _ _ (by omega),
      get32_put64_of_out _ _ (by omega)]

theorem HeaderAt.setFree (free : Bool) :
    HeaderAt (m.put32 (a + 16) (if free then 1 else 0)) a { c with free := free } b := by
  constructor
  · rw [← h.size, blkSize, blkSize, get64_put32_of_out _ _ (by omega)]
  · rw [← h.next, blkNext, blkNext, get64_put32_of_out _ _ (by omega)]
  · rw [blkFree, get32_put32]
    cases free <;> rfl
  · rw [← h.magic, blkMagic, blkMagic, get32_put32_of_out _ _ (by omega)]

/-- Writing the canary again changes nothing about a header. -/
theorem HeaderAt.setMagic : HeaderAt (m.put32 (a + 20) heapMagic) a c b := by
  constructor
  · rw [← h.size, blkSize, blkSize, get64_put32_of_out _ _ (by omega)]
  · rw [← h.next, blkNext, blkNext, get64_put32_of_out _ _ (by omega)]
  · rw [← h.free, blkFree, blkFree, get32_put32_of_out _ _ (by omega)]
  · rw [blkMagic, get32_put32]
    rfl

end

/-! ## Cells in memory -/

/-- Cells are where they were as long as the memory they take is. -/
theorem Laid.congr (h : Laid m a cs z) (hm : ∀ x, a ≤ x → x < a + extent cs → m' x = m x) :
    Laid m' a cs z := by
  induction cs generalizing a with
  | nil => trivial
  | cons c cs ih =>
    simp only [extent] at hm
    constructor
    · exact h.1.congr fun x h₁ h₂ => hm x h₁ (by omega)
    · exact ih h.2 fun x h₁ h₂ => hm x (by omega) (by omega)

theorem laid_append (hys : ys ≠ []) :
    Laid m a (xs ++ ys) z ↔ Laid m a xs (a + extent xs) ∧ Laid m (a + extent xs) ys z := by
  induction xs generalizing a with
  | nil =>
    simp [extent, Laid]
  | cons c xs ih =>
    have hne : xs ++ ys ≠ [] := by
      intro he
      exact hys (append_eq_nil_iff.mp he).2
    have haddr : a + hdrSz + c.size + extent xs = a + extent (c :: xs) := by
      simp only [extent]
      omega
    have hnext : (if xs = [] then a + extent (c :: xs) else a + hdrSz + c.size) =
        a + hdrSz + c.size := by
      split
      · next hx =>
        rw [← haddr, hx]
        rfl
      · rfl
    simp [Laid, hne, ih, haddr, hnext, and_assoc]

/-- The cells around a place in the list. -/
theorem laid_middle : Laid m a (xs ++ c :: ys) z ↔
    Laid m a xs (a + extent xs) ∧
      HeaderAt m (a + extent xs) c (if ys = [] then z else a + extent xs + hdrSz + c.size) ∧
        Laid m (a + extent xs + hdrSz + c.size) ys z :=
  laid_append (cons_ne_nil c ys)

theorem payloads_append (a : Nat) (xs ys : List Cell) :
    payloads a (xs ++ ys) = payloads a xs ++ payloads (a + extent xs) ys := by
  induction xs generalizing a with
  | nil => rfl
  | cons c xs ih =>
    have haddr : a + hdrSz + c.size + extent xs = a + extent (c :: xs) := by
      simp only [extent]
      omega
    simp only [cons_append, payloads, ih, haddr]
    split <;> rfl

theorem payloads_middle (hc : c.free = true) : payloads a (xs ++ c :: ys) =
    payloads a xs ++ payloads (a + extent xs + hdrSz + c.size) ys := by
  rw [payloads_append, payloads, if_pos hc]

theorem mem_payloads {p n : Nat} : (p, n) ∈ payloads a cs ↔
    ∃ xs ys, cs = xs ++ ⟨n, false⟩ :: ys ∧ p = a + extent xs + hdrSz := by
  induction cs generalizing a with
  | nil => simp [payloads]
  | cons c cs ih =>
    have hrest : (p, n) ∈ payloads (a + hdrSz + c.size) cs →
        ∃ xs ys, c :: cs = xs ++ ⟨n, false⟩ :: ys ∧ p = a + extent xs + hdrSz := by
      intro h
      obtain ⟨xs, ys, hcs, hp⟩ := ih.mp h
      refine ⟨c :: xs, ys, by rw [hcs]; rfl, ?_⟩
      simp only [extent]
      omega
    constructor
    · intro h
      rw [payloads] at h
      split at h
      · exact hrest h
      rename_i hfree
      rcases mem_cons.mp h with heq | hmem
      · obtain ⟨hp, hn⟩ := Prod.mk.inj heq
        refine ⟨[], cs, ?_, ?_⟩
        · rw [nil_append, hn]
          cases c with
          | mk size free =>
            simp only [Bool.not_eq_true] at hfree
            simp only [hfree]
        · simp only [extent]
          omega
      · exact hrest hmem
    intro h
    obtain ⟨xs, ys, hcs, hp⟩ := h
    cases xs with
    | nil =>
      obtain ⟨hc, hys⟩ := cons.inj hcs
      subst hc
      rw [hp]
      exact mem_cons_self
    | cons c' xs =>
      obtain ⟨hc, htail⟩ := cons.inj hcs
      subst hc
      have hmem : (p, n) ∈ payloads (a + hdrSz + c.size) cs := by
        apply ih.mpr
        refine ⟨xs, ys, htail, ?_⟩
        simp only [extent] at hp
        omega
      rw [payloads]
      split
      · exact hmem
      · exact mem_cons_of_mem _ hmem

theorem payloads_bounds {p n : Nat} (h : (p, n) ∈ payloads a cs) :
    a + hdrSz ≤ p ∧ p + n ≤ a + extent cs := by
  obtain ⟨xs, ys, hcs, hp⟩ := mem_payloads.mp h
  rw [hcs, extent_append]
  simp only [extent]
  omega

/-- Payloads in use come in the order of their addresses, with a header between any
two of them. -/
theorem payloads_pairwise (a : Nat) (cs : List Cell) :
    (payloads a cs).Pairwise fun p q => p.1 + p.2 + hdrSz ≤ q.1 := by
  induction cs generalizing a with
  | nil => exact List.Pairwise.nil
  | cons c cs ih =>
    rw [payloads]
    split
    · exact ih _
    refine List.Pairwise.cons ?_ (ih _)
    intro q hq
    have := payloads_bounds hq
    omega

end Kil0yOS.Mm
