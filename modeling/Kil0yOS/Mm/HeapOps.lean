/-
The functions of the heap on a list that is laid out in memory.

Each function is described by what it does to the cells, and by the part of memory
it leaves alone.
-/
import Kil0yOS.Mm.HeapLayout

namespace Kil0yOS.Mm

open Lib (Bytes)
open List hiding take
open Heap Lib.Bytes

variable {m m' : Bytes} {a b z n : Nat} {c d : Cell} {cs xs ys : List Cell} {h h' : Heap}

structure HeapInv (h : Heap) (cs : List Cell) : Prop where
  laid : Laid h.mem h.heapStart cs 0
  nonempty : cs ≠ []
  list : h.heapList = h.heapStart
  full : h.heapStart + extent cs = h.heapEnd
  start_pos : 0 < h.heapStart
  end_le : h.heapEnd ≤ 2 ^ 53
  apart : Apart cs
  used : ∀ c ∈ cs, c.free = false → 8 ≤ c.size

/-- The address of the first of some cells, 0 if there is none. -/
def firstAddr (a : Nat) : List Cell → Nat
  | [] => 0
  | _ :: _ => a

theorem firstAddr_next (a : Nat) (cs : List Cell) : (if cs = [] then 0 else a) = firstAddr a cs := by
  cases cs with
  | nil => rfl
  | cons c cs => rfl

/-! ## The search for a block -/

/-- The walk of `kmalloc` ends at the first free cell with room, or behind the last
cell. -/
theorem findFit_laid (hl : Laid m a cs 0) (ha : 0 < a) (fuel prev : Nat)
    (hfuel : cs.length < fuel) :
    (∃ xs c ys p, cs = xs ++ c :: ys ∧ c.free = true ∧ n ≤ c.size ∧
        findFit m n fuel prev (firstAddr a cs) = some (p, a + extent xs)) ∨
      (∃ p, findFit m n fuel prev (firstAddr a cs) = some (p, 0) ∧
        (∀ c ∈ cs, c.free = true → c.size < n) ∧ (cs = [] → p = prev) ∧
          (cs ≠ [] → 0 < p ∧ p + hdrSz + blkSize m p = a + extent cs)) := by
  induction cs generalizing a fuel prev with
  | nil =>
    obtain ⟨k, rfl⟩ := Nat.exists_eq_add_of_lt hfuel
    refine .inr ⟨prev, ?_, by simp, fun _ => rfl, fun hne => absurd rfl hne⟩
    rw [findFit, firstAddr, if_pos rfl]
  | cons c cs ih =>
    obtain ⟨k, rfl⟩ := Nat.exists_eq_add_of_lt hfuel
    obtain ⟨hdr, hrest⟩ := hl
    have ha0 : a ≠ 0 := by omega
    rw [firstAddr, findFit, if_neg ha0]
    by_cases hfit : blkFree m a ≠ 0 ∧ blkSize m a ≥ n
    · rw [if_pos hfit]
      refine .inl ⟨[], c, cs, prev, rfl, hdr.free_iff.mp hfit.1, ?_, rfl⟩
      rw [← hdr.size]
      exact hfit.2
    rw [if_neg hfit, hdr.next, firstAddr_next]
    rcases ih hrest (by omega) ((c :: cs).length + k) a (by rw [length_cons]; omega) with
      hfound | hend
    · obtain ⟨xs, d, ys, p, hcs, hd, hn, hres⟩ := hfound
      refine .inl ⟨c :: xs, d, ys, p, by rw [hcs]; rfl, hd, hn, ?_⟩
      rw [hres]
      simp only [extent, Option.some.injEq, Prod.mk.injEq, true_and]
      omega
    obtain ⟨p, hres, hsmall, hnil, hcons⟩ := hend
    refine .inr ⟨p, hres, forall_mem_cons.mpr ⟨fun hc => ?_, hsmall⟩,
      fun hne => absurd hne (cons_ne_nil c cs), fun _ => ?_⟩
    · rw [← hdr.size]
      exact Nat.lt_of_not_le fun hle => hfit ⟨hdr.free_iff.mpr hc, hle⟩
    simp only [extent]
    by_cases hcs : cs = []
    · rw [hnil hcs, hcs, hdr.size, extent]
      omega
    · obtain ⟨hp, heq⟩ := hcons hcs
      omega

/-! ## Taking a block -/

/-- What becomes of the cell that was found. -/
def takeCell (c : Cell) (n : Nat) : List Cell :=
  if c.size - n > hdrSz then [⟨n, false⟩, ⟨c.size - n - hdrSz, true⟩]
  else [⟨c.size, false⟩]

theorem extent_takeCell (hn : n ≤ c.size) : extent (takeCell c n) = hdrSz + c.size := by
  rw [takeCell]
  split
  · rename_i hsplit
    simp only [extent, hdrSz] at hsplit ⊢
    omega
  · simp only [extent, hdrSz]
    omega

theorem used_takeCell (h8 : 8 ≤ n) (hn : n ≤ c.size) :
    ∀ d ∈ takeCell c n, d.free = false → 8 ≤ d.size := by
  rw [takeCell]
  split
  · simp [h8]
  · simp [h8.trans hn]

theorem takeCell_ne_nil (c : Cell) (n : Nat) : takeCell c n ≠ [] := by
  rw [takeCell]
  split <;> simp

/-- Only the block that is taken is written to. -/
theorem take_of_out {x : Nat} (hn : n ≤ blkSize m b) (hx : x < b ∨ b + hdrSz + blkSize m b ≤ x) :
    take m b n x = m x := by
  have h24 : hdrSz = 24 := rfl
  simp only [take]
  rw [put32_of_out _ _ (by omega), put32_of_out _ _ (by omega)]
  by_cases hsplit : blkSize m b - n > hdrSz
  · rw [if_pos hsplit, put64_of_out _ _ (by omega), put64_of_out _ _ (by omega),
      putHeader_of_out _ (by omega)]
  · rw [if_neg hsplit]

theorem take_laid (hdr : HeaderAt m b c z) (hn : n ≤ c.size) (hb : b + hdrSz + c.size < 2 ^ 64)
    (hz : z < 2 ^ 64) : Laid (take m b n) b (takeCell c n) z := by
  have h24 : hdrSz = 24 := rfl
  have hsize := hdr.size
  rw [takeCell]
  by_cases hsplit : c.size - n > hdrSz
  · rw [if_pos hsplit]
    -- the front piece, with the new block behind it
    have hnew : b + hdrSz + n < 2 ^ 64 := by omega
    have hback := headerAt_putHeader (c := ⟨c.size - n - hdrSz, true⟩) m (b + hdrSz + n)
      (by simp only; omega) hz
    have hmem : take m b n = ((((putHeader m (b + hdrSz + n) (c.size - n - hdrSz) z 1).put64 (b + 8)
          (b + hdrSz + n)).put64 b n).put32 (b + 16) 0).put32 (b + 20) heapMagic := by
      simp only [take]
      rw [hsize, hdr.next, if_pos hsplit]
    rw [hmem]
    have hfront : HeaderAt (putHeader m (b + hdrSz + n) (c.size - n - hdrSz) z 1) b c z := by
      apply hdr.congr
      intro x h₁ h₂
      exact putHeader_of_out _ (by omega)
    have hresized : HeaderAt (((putHeader m (b + hdrSz + n) (c.size - n - hdrSz) z 1).put64 (b + 8)
        (b + hdrSz + n)).put64 b n) b { c with size := n } (b + hdrSz + n) := by
      constructor
      · rw [blkSize, get64_put64, Nat.mod_eq_of_lt (by omega)]
      · rw [blkNext, get64_put64_of_out _ _ (by omega), get64_put64, Nat.mod_eq_of_lt hnew]
      · rw [← hfront.free, blkFree, blkFree, get32_put64_of_out _ _ (by omega),
          get32_put64_of_out _ _ (by omega)]
      · rw [← hfront.magic, blkMagic, blkMagic, get32_put64_of_out _ _ (by omega),
          get32_put64_of_out _ _ (by omega)]
    refine ⟨?_, ?_, trivial⟩
    · exact (hresized.setFree false).setMagic
    apply hback.congr
    intro x h₁ h₂
    rw [put32_of_out _ _ (by omega), put32_of_out _ _ (by omega),
      put64_of_out _ _ (by omega), put64_of_out _ _ (by omega)]
    rfl
  · rw [if_neg hsplit]
    have hmem : take m b n = (m.put32 (b + 16) 0).put32 (b + 20) heapMagic := by
      simp only [take]
      rw [hsize, if_neg hsplit]
    rw [hmem]
    refine ⟨?_, trivial⟩
    exact (hdr.setFree false).setMagic

/-- Cells in the middle of the list are exchanged for others of the same extent. -/
theorem Laid.replace {ws : List Cell} (hl : Laid m a (xs ++ c :: ys) z)
    (hne : ws ≠ []) (hext : extent ws = hdrSz + c.size)
    (hws : Laid m' (a + extent xs) ws (if ys = [] then z else a + extent xs + hdrSz + c.size))
    (hout : ∀ x, x < a + extent xs ∨ a + extent xs + hdrSz + c.size ≤ x → m' x = m x) :
    Laid m' a (xs ++ ws ++ ys) z := by
  obtain ⟨hxs, _, hys⟩ := laid_middle.mp hl
  have hxs' : Laid m' a xs (a + extent xs) := hxs.congr fun x _ h₂ => hout x (.inl h₂)
  have hys' : Laid m' (a + extent xs + hdrSz + c.size) ys z :=
    hys.congr fun x h₁ _ => hout x (.inr h₁)
  by_cases hnil : ys = []
  · rw [if_pos hnil] at hws
    rw [hnil, append_nil, laid_append hne]
    exact ⟨hxs', hws⟩
  rw [if_neg hnil] at hws
  have haddr : a + extent (xs ++ ws) = a + extent xs + hdrSz + c.size := by
    rw [extent_append]
    omega
  rw [laid_append hnil, haddr]
  refine ⟨?_, hys'⟩
  rw [laid_append hne]
  exact ⟨hxs', hws⟩

/-! ## Neighbours -/

theorem Apart.tail_of_append (h : Apart (xs ++ ys)) : Apart ys :=
  List.IsChain.right_of_append h

theorem Apart.take_free (h : Apart (xs ++ c :: ys)) (hc : c.free = true) (n : Nat) :
    Apart (xs ++ takeCell c n ++ ys) := by
  obtain ⟨hc', hys⟩ := isChain_cons.mp (Apart.tail_of_append h)
  -- the first cell of the taken ones is in use, and may stand next to anything
  obtain ⟨size, l, htake, hl⟩ : ∃ size l, takeCell c n ++ ys = ⟨size, false⟩ :: l ∧ Apart l := by
    rw [takeCell]
    split
    · exact ⟨_, _, rfl, isChain_cons.mpr ⟨fun y hy hf => hc' y hy ⟨hc, hf.2⟩, hys⟩⟩
    · exact ⟨_, _, rfl, hys⟩
  rw [append_assoc, htake]
  refine List.IsChain.append (List.IsChain.left_of_append h)
    (isChain_cons.mpr ⟨fun _ _ hf => (nomatch hf.1), hl⟩) fun x _ y hy hf => ?_
  cases hy
  cases hf.2

/-! ## `kmalloc` -/

/-- What a call may have changed: payloads in use stay where they are, with what is in
them. -/
structure Kept (h h' : Heap) (cs cs' : List Cell) (except : Nat) : Prop where
  start : h'.heapStart = h.heapStart
  finish : h'.heapEnd = h.heapEnd
  payload : ∀ p n, (p, n) ∈ payloads h.heapStart cs → p ≠ except →
    (p, n) ∈ payloads h.heapStart cs' ∧ ∀ x, p ≤ x → x < p + n → h'.mem x = h.mem x

theorem HeapInv.cell_lt (hi : HeapInv h (xs ++ c :: ys)) :
    h.heapStart + extent xs + hdrSz + c.size ≤ h.heapEnd := by
  have := hi.full
  rw [extent_append] at this
  simp only [extent] at this
  omega

theorem HeapInv.length_lt_fuel (hi : HeapInv h cs) : cs.length < h.fuel := by
  have hlen := length_le_extent cs
  have hfull := hi.full
  rw [fuel]
  omega

theorem HeapInv.first (hi : HeapInv h cs) : h.heapList = firstAddr h.heapStart cs := by
  rw [hi.list]
  cases hcs : cs with
  | nil => exact absurd hcs hi.nonempty
  | cons c cs => rfl

/-- The payloads before and behind a block lie outside of it. -/
theorem HeapInv.around (hi : HeapInv h (xs ++ c :: ys)) {q k : Nat}
    (hq : (q, k) ∈ payloads h.heapStart xs ++
      payloads (h.heapStart + extent xs + hdrSz + c.size) ys) :
    q < h.heapStart + extent xs ∧ q + k ≤ h.heapStart + extent xs ∨
      h.heapStart + extent xs + hdrSz + c.size + hdrSz ≤ q := by
  rcases mem_append.mp hq with hq | hq
  · obtain ⟨xs', ys', hxs', hp⟩ := mem_payloads.mp hq
    have hu := hi.used ⟨k, false⟩ (by simp [hxs']) rfl
    have := payloads_bounds hq
    simp only at hu
    omega
  · exact .inr (payloads_bounds hq).1

/-- A request is served from the first free cell with room; without one, the block behind
the last is taken if the sum of its end wraps. -/
theorem kmalloc_search (hi : HeapInv h cs) (n : Nat) :
    (∃ xs c ys, cs = xs ++ c :: ys ∧ c.free = true ∧ roundSize n ≤ c.size ∧
        h.heapStart + extent xs ≠ 0 ∧ h.kmalloc n = some (h.heapStart + extent xs + hdrSz,
          { h with mem := take h.mem (h.heapStart + extent xs) (roundSize n) })) ∨
      ((∀ c ∈ cs, c.free = true → c.size < roundSize n) ∧ ∃ h',
        h.kmalloc n = some (if (h.heapEnd + hdrSz + roundSize n) % 2 ^ 64 ≤ h.heapEnd then
          (h.heapEnd + hdrSz, h') else (0, h))) := by
  have hpos := hi.start_pos
  rcases findFit_laid hi.laid hpos h.fuel 0 hi.length_lt_fuel with hfit | hend
  · obtain ⟨xs, c, ys, p, hcs, hfree, hle, hres⟩ := hfit
    have hb : h.heapStart + extent xs ≠ 0 := by omega
    refine .inl ⟨xs, c, ys, hcs, hfree, hle, hb, ?_⟩
    rw [kmalloc, hi.first]
    simp only [hres, Option.bind_eq_bind, Option.bind_some]
    rw [if_pos hb]
  obtain ⟨p, hres, hsmall, -, hcons⟩ := hend
  obtain ⟨hp, heq⟩ := hcons hi.nonempty
  have hp0 : p ≠ 0 := by omega
  refine .inr ⟨hsmall, (h.extend p (roundSize n)).2, ?_⟩
  rw [kmalloc, hi.first]
  simp only [hres, Option.bind_eq_bind, Option.bind_some]
  rw [if_neg (fun hc => hc rfl), extend]
  simp only [hp0, ne_eq, not_false_eq_true, if_true]
  rw [heq, hi.full]
  split <;> rfl

theorem kmalloc_spec (hi : HeapInv h cs) (hn : n < 2 ^ 63) : (h.kmalloc n = some (0, h)) ∨
      ∃ p h' cs' size, h.kmalloc n = some (p, h') ∧ 0 < p ∧ HeapInv h' cs' ∧ n ≤ size ∧
        (p, size) ∈ payloads h.heapStart cs' ∧
        (∀ q k, (q, k) ∈ payloads h.heapStart cs' →
          (q, k) = (p, size) ∨ (q, k) ∈ payloads h.heapStart cs) ∧
        (∀ k, (p, k) ∉ payloads h.heapStart cs) ∧ Kept h h' cs cs' 0 := by
  obtain ⟨hround, hround8, hround63⟩ :
      n ≤ roundSize n ∧ 8 ≤ roundSize n ∧ roundSize n ≤ 2 ^ 63 := by
    rw [roundSize]
    split <;> omega
  rcases kmalloc_search hi n with hfit | hend
  · obtain ⟨xs, c, ys, hcs, hfree, hle, hb, hres⟩ := hfit
    subst hcs
    have hcell := hi.cell_lt
    have hend := hi.end_le
    obtain ⟨hxs, hdr, hys⟩ := laid_middle.mp hi.laid
    have hsize := hdr.size
    obtain ⟨b, hbdef⟩ : ∃ b, b = h.heapStart + extent xs := ⟨_, rfl⟩
    rw [← hbdef] at hres hb hdr hsize hcell
    refine .inr ⟨b + hdrSz, { h with mem := take h.mem b (roundSize n) },
      xs ++ takeCell c (roundSize n) ++ ys, ?_⟩
    -- outside of the block memory is as before
    have hout : ∀ x, x < b ∨ b + hdrSz + c.size ≤ x → take h.mem b (roundSize n) x = h.mem x := by
      intro x hx
      exact take_of_out (by rw [hsize]; exact hle) (by rw [hsize]; exact hx)
    have hlaid : Laid (take h.mem b (roundSize n)) h.heapStart
        (xs ++ takeCell c (roundSize n) ++ ys) 0 := by
      apply hi.laid.replace (takeCell_ne_nil c _) (extent_takeCell hle)
      · rw [← hbdef]
        apply take_laid hdr hle (by omega)
        split <;> omega
      · rw [← hbdef]
        exact hout
    have hext : extent (xs ++ takeCell c (roundSize n) ++ ys) = extent (xs ++ c :: ys) := by
      rw [extent_append, extent_append, extent_append, extent_takeCell hle]
      simp only [extent]
      omega
    -- the payloads in use, before and after
    obtain ⟨size, hsz, hafter⟩ : ∃ size, roundSize n ≤ size ∧
        payloads h.heapStart (xs ++ takeCell c (roundSize n) ++ ys) =
          payloads h.heapStart xs ++ (b + hdrSz, size) :: payloads (b + hdrSz + c.size) ys := by
      rw [append_assoc, payloads_append, payloads_append, ← hbdef, extent_takeCell hle,
        ← Nat.add_assoc, takeCell]
      split
      · exact ⟨roundSize n, Nat.le_refl _, rfl⟩
      · exact ⟨c.size, hle, rfl⟩
    have hbefore : payloads h.heapStart (xs ++ c :: ys) = _ := payloads_middle hfree
    have hiff : ∀ q k, (q, k) ∈ payloads h.heapStart (xs ++ takeCell c (roundSize n) ++ ys) ↔
        (q, k) = (b + hdrSz, size) ∨ (q, k) ∈ payloads h.heapStart (xs ++ c :: ys) := by
      intro q k
      rw [hafter, hbefore, ← hbdef, mem_append, mem_cons, mem_append, or_left_comm]
    have haround : ∀ q k, (q, k) ∈ payloads h.heapStart (xs ++ c :: ys) →
        q < b ∧ q + k ≤ b ∨ b + hdrSz + c.size + hdrSz ≤ q := by
      intro q k hq
      rw [hbdef]
      exact hi.around (hbefore ▸ hq)
    refine ⟨size, hres, by omega, ?_, by omega, (hiff _ _).mpr (.inl rfl),
      fun q k => (hiff q k).mp, fun k hk => ?_, rfl, rfl, fun q k hq _ =>
        ⟨(hiff q k).mpr (.inr hq), fun x h₁ h₂ => hout x ?_⟩⟩
    · refine ⟨hlaid, by simp [takeCell_ne_nil], hi.list, ?_, hi.start_pos, hi.end_le,
        hi.apart.take_free hfree _, fun d hd hfd => ?_⟩
      · rw [hext]
        exact hi.full
      rcases mem_append.mp hd with hd | hd
      · rcases mem_append.mp hd with hd | hd
        · exact hi.used d (mem_append_left _ hd) hfd
        · exact used_takeCell hround8 hle d hd hfd
      · exact hi.used d (mem_append_right _ (mem_cons_of_mem _ hd)) hfd
    · have := haround _ _ hk
      omega
    · have := haround q k hq
      omega
  · obtain ⟨-, h', hres⟩ := hend
    have hend := hi.end_le
    refine .inl ?_
    rw [hres, if_neg]
    simp only [hdrSz]
    omega

end Kil0yOS.Mm
