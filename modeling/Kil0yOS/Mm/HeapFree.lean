/-
Releasing a block: the merge loop of `kfree` on the cells, `krealloc`, `kcalloc` and
`heap_verify`.
-/
import Kil0yOS.Mm.HeapOps

namespace Kil0yOS.Mm

open List Lib.Bytes Lib Heap

variable {m m' : Bytes} {a b n p block : Nat} {c d : Cell} {cs xs ys : List Cell} {h h' : Heap}

/-! ## Merging -/

/-- What the merge loop does to the cells from `a` on. -/
def coalesce (block : Nat) : Nat → List Cell → List Cell
  | a, c :: d :: cs =>
    if a ≤ block then
      if c.free = true ∧ d.free = true then
        coalesce block a (⟨c.size + (hdrSz + d.size), true⟩ :: cs)
      else c :: coalesce block (a + hdrSz + c.size) (d :: cs)
    else c :: d :: cs
  | _, cs => cs
termination_by _ cs => cs.length

theorem coalesce_ne_nil (block a : Nat) (cs : List Cell) (hne : cs ≠ []) :
    coalesce block a cs ≠ [] := by
  fun_induction coalesce block a cs with
  | case1 a c d cs ha hfree ih => exact ih (cons_ne_nil _ _)
  | case2 a c d cs ha hfree ih => exact cons_ne_nil _ _
  | case3 a c d cs ha => exact cons_ne_nil _ _
  | case4 a cs hshape => exact hne

theorem extent_coalesce (block a : Nat) (cs : List Cell) :
    extent (coalesce block a cs) = extent cs := by
  fun_induction coalesce block a cs with
  | case1 a c d cs ha hfree ih =>
    rw [ih]
    simp only [extent]
    omega
  | case2 a c d cs ha hfree ih =>
    rw [extent, ih]
    rfl
  | case3 a c d cs ha => rfl
  | case4 a cs hshape => rfl

theorem merge_addr (a : Nat) (c d : Cell) :
    a + hdrSz + (c.size + (hdrSz + d.size)) = a + hdrSz + c.size + hdrSz + d.size := by
  omega

theorem payloads_merge (h : c.free = true ∧ d.free = true) :
    payloads a (⟨c.size + (hdrSz + d.size), true⟩ :: cs) = payloads a (c :: d :: cs) := by
  simp [payloads, h.1, h.2, merge_addr]

/-- Payloads in use are not merged. -/
theorem payloads_coalesce (block a : Nat) (cs : List Cell) :
    payloads a (coalesce block a cs) = payloads a cs := by
  fun_induction coalesce block a cs with
  | case1 a c d cs ha hfree ih => rw [ih, payloads_merge hfree]
  | case2 a c d cs ha hfree ih =>
    rw [payloads, ih]
    rfl
  | case3 a c d cs ha => rfl
  | case4 a cs hshape => rfl

theorem mem_coalesce_used {e : Cell} (block a : Nat) (cs : List Cell)
    (he : e ∈ coalesce block a cs) (hfree : e.free = false) : e ∈ cs := by
  fun_induction coalesce block a cs with
  | case1 a c d cs ha hboth ih =>
    rcases mem_cons.mp (ih he) with hc | hc
    · rw [hc] at hfree
      cases hfree
    · exact mem_cons_of_mem _ (mem_cons_of_mem _ hc)
  | case2 a c d cs ha hboth ih =>
    rcases mem_cons.mp he with hc | hc
    · rw [hc]
      exact mem_cons_self
    · exact mem_cons_of_mem _ (ih hc)
  | case3 a c d cs ha => exact he
  | case4 a cs hshape => exact he

theorem head_coalesce (block a : Nat) (c : Cell) (cs : List Cell) :
    ∃ e es, coalesce block a (c :: cs) = e :: es ∧ e.free = c.free := by
  obtain ⟨l, hl⟩ : ∃ l, l = c :: cs := ⟨_, rfl⟩
  rw [← hl]
  fun_induction coalesce block a l generalizing c cs with
  | case1 a c' d cs' ha hboth ih =>
    obtain ⟨e, es, heq, hfree⟩ := ih _ _ rfl
    refine ⟨e, es, heq, ?_⟩
    rw [hfree, ← (List.cons.inj hl).1, hboth.1]
  | case2 a c' d cs' ha hboth ih =>
    refine ⟨c', _, rfl, ?_⟩
    rw [(List.cons.inj hl).1]
  | case3 a c' d cs' ha =>
    refine ⟨c', _, rfl, ?_⟩
    rw [(List.cons.inj hl).1]
  | case4 a l hshape => exact ⟨c, cs, hl, rfl⟩

/-- No two neighbours are both free behind the address `block`. -/
def ApartFrom (block : Nat) : Nat → List Cell → Prop
  | a, c :: d :: cs =>
    (block < a → ¬ (c.free = true ∧ d.free = true)) ∧ ApartFrom block (a + hdrSz + c.size) (d :: cs)
  | _, _ => True

theorem Apart.apartFrom (h : Apart cs) (block a : Nat) : ApartFrom block a cs := by
  induction cs generalizing a with
  | nil => trivial
  | cons c cs ih =>
    cases cs with
    | nil => trivial
    | cons d cs =>
      obtain ⟨hrel, hrest⟩ := isChain_cons_cons.mp h
      exact ⟨fun _ => hrel, ih hrest _⟩

theorem ApartFrom.apart (h : ApartFrom block a cs) (ha : block < a) : Apart cs := by
  induction cs generalizing a with
  | nil => exact isChain_nil
  | cons c cs ih =>
    cases cs with
    | nil => exact isChain_singleton _
    | cons d cs =>
      obtain ⟨hrel, hrest⟩ := h
      exact isChain_cons_cons.mpr ⟨hrel ha, ih hrest (by omega)⟩

/-- Only the neighbours of the block released can be free together with it. -/
theorem Apart.release (h : Apart (xs ++ c :: ys)) (c' : Cell) (a : Nat) :
    ApartFrom (a + extent xs) a (xs ++ c' :: ys) := by
  induction xs generalizing a with
  | nil =>
    cases ys with
    | nil => trivial
    | cons y ys =>
      refine ⟨fun hlt => absurd hlt (Nat.lt_irrefl a), ?_⟩
      exact Apart.apartFrom (isChain_cons_cons.mp h).2 _ _
  | cons x xs ih =>
    have haddr : a + extent (x :: xs) = a + hdrSz + x.size + extent xs := by
      simp only [extent]
      omega
    have hsplit : Apart ([x] ++ (xs ++ c :: ys)) := h
    have htail : Apart (xs ++ c :: ys) := hsplit.tail_of_append
    have hrest := ih htail (a + hdrSz + x.size)
    rw [haddr]
    cases hxs : xs
    all_goals
      rw [hxs] at hrest
      refine ⟨fun hlt => ?_, hrest⟩
      omega

theorem ApartFrom.coalesce_apart (block a : Nat) (cs : List Cell) (h : ApartFrom block a cs) :
    Apart (coalesce block a cs) := by
  fun_induction coalesce block a cs with
  | case1 a c d cs ha hboth ih =>
    apply ih
    cases cs with
    | nil => trivial
    | cons e cs =>
      refine ⟨fun hlt => absurd ha (Nat.not_le.mpr hlt), ?_⟩
      simp only [merge_addr]
      exact h.2.2
  | case2 a c d cs ha hboth ih =>
    obtain ⟨e, es, heq, hfree⟩ := head_coalesce block (a + hdrSz + c.size) d cs
    have hrest := ih h.2
    rw [heq] at hrest ⊢
    refine isChain_cons_cons.mpr ⟨?_, hrest⟩
    rw [hfree]
    exact hboth
  | case3 a c d cs ha => exact h.apart (Nat.lt_of_not_le ha)
  | case4 a cs hshape =>
    cases cs with
    | nil => exact isChain_nil
    | cons c cs =>
      cases cs with
      | nil => exact isChain_singleton _
      | cons d cs => exact absurd rfl (hshape c d cs)

theorem mergeLoop_stop {fuel : Nat} (hfuel : n < fuel)
    (h : ¬ (a ≠ 0 ∧ blkNext m a ≠ 0 ∧ a ≤ block)) : mergeLoop block fuel m a = some m := by
  obtain ⟨k, rfl⟩ := Nat.exists_eq_add_of_lt hfuel
  rw [mergeLoop, if_neg h]

/-- The merge loop on memory does to the cells what `coalesce` does, and it leaves
the payloads in use alone. -/
theorem mergeLoop_laid (block fuel : Nat) (hl : Laid m a cs 0) (ha : 0 < a)
    (hend : a + extent cs < 2 ^ 64) (hfuel : cs.length < fuel) :
    ∃ m', mergeLoop block fuel m (firstAddr a cs) = some m' ∧
      Laid m' a (coalesce block a cs) 0 ∧
      (∀ p n, (p, n) ∈ payloads a cs → ∀ x, p ≤ x → x < p + n → m' x = m x) ∧
      ∀ x, x < a ∨ a + extent cs ≤ x → m' x = m x := by
  have h24 : hdrSz = 24 := rfl
  have ha0 : a ≠ 0 := Nat.ne_of_gt ha
  fun_induction coalesce block a cs generalizing m fuel with
  | case1 a c d cs hle hboth ih =>
    obtain ⟨k, rfl⟩ := Nat.exists_eq_add_of_lt hfuel
    simp only [extent] at hend
    obtain ⟨hc, hd, hrest⟩ := hl
    -- the two headers become one
    have hmerged : Laid ((m.put64 a (c.size + (hdrSz + d.size))).put64 (a + 8)
        (if cs = [] then 0 else a + hdrSz + c.size + hdrSz + d.size)) a
        (⟨c.size + (hdrSz + d.size), true⟩ :: cs) 0 := by
      refine ⟨?_, ?_⟩
      · have hnext : (if cs = [] then 0 else a + hdrSz + c.size + hdrSz + d.size) < 2 ^ 64 := by
          split <;> omega
        have hfits : c.size + (hdrSz + d.size) < 2 ^ 64 := by omega
        have := hc.resize hfits hnext
        rw [hboth.1] at this
        simp only [merge_addr]
        exact this
      · simp only [merge_addr]
        apply hrest.congr
        intro x h₁ _
        rw [put64_of_out _ _ (by omega), put64_of_out _ _ (by omega)]
    obtain ⟨m', hres, hlaid, hpay, hout⟩ := ih ((c :: d :: cs).length + k) hmerged ha (by
      simp only [extent]
      omega) (by simp only [length_cons]; omega) ha0
    refine ⟨m', ?_, hlaid, ?_, ?_⟩
    · have hnext : blkNext m a = a + hdrSz + c.size := hc.next
      have hdnext : blkNext (m.put64 a (c.size + (hdrSz + d.size))) (a + hdrSz + c.size) =
          if cs = [] then 0 else a + hdrSz + c.size + hdrSz + d.size := by
        rw [← hd.next]
        exact get64_put64_of_out _ _ (by omega)
      rw [firstAddr, mergeLoop, hnext, if_pos ⟨ha0, by omega, hle⟩,
        if_pos ⟨hc.free_iff.mpr hboth.1, hd.free_iff.mpr hboth.2⟩]
      simp only [hc.size, hd.size, hdnext]
      exact hres
    · intro q k hq x h₁ h₂
      rw [← payloads_merge hboth] at hq
      have hb := payloads_bounds hq
      rw [hpay q k hq x h₁ h₂, put64_of_out _ _ (by omega), put64_of_out _ _ (by omega)]
    · intro x hx
      simp only [extent] at hx hout
      rw [hout x (by omega), put64_of_out _ _ (by omega), put64_of_out _ _ (by omega)]
  | case2 a c d cs hle hboth ih =>
    obtain ⟨k, rfl⟩ := Nat.exists_eq_add_of_lt hfuel
    obtain ⟨hc, hrest⟩ := hl
    have hext : extent (c :: d :: cs) = hdrSz + c.size + extent (d :: cs) := rfl
    obtain ⟨m', hres, hlaid, hpay, hout⟩ := ih ((c :: d :: cs).length + k) hrest (by omega) (by omega)
      (by simp only [length_cons]; omega) (by omega)
    refine ⟨m', ?_, ⟨?_, hlaid⟩, ?_, ?_⟩
    · have hnext : blkNext m a = a + hdrSz + c.size := hc.next
      have hnot : ¬ (blkFree m a ≠ 0 ∧ blkFree m (a + hdrSz + c.size) ≠ 0) := by
        rw [hc.free_iff, hrest.1.free_iff]
        exact hboth
      rw [firstAddr, mergeLoop, hnext, if_pos ⟨ha0, by omega, hle⟩, if_neg hnot]
      exact hres
    · rw [if_neg (coalesce_ne_nil block _ _ (cons_ne_nil d cs))]
      apply hc.congr
      intro x h₁ h₂
      exact hout x (.inl (by omega))
    · intro q k hq x h₁ h₂
      rw [payloads] at hq
      split at hq
      · exact hpay q k hq x h₁ h₂
      rcases mem_cons.mp hq with hq | hq
      · obtain ⟨hp, hk⟩ := Prod.mk.inj hq
        exact hout x (.inl (by omega))
      · exact hpay q k hq x h₁ h₂
    · intro x hx
      exact hout x (by omega)
  | case3 a c d cs hle =>
    exact ⟨m, mergeLoop_stop hfuel fun hc => hle hc.2.2, hl, fun _ _ _ _ _ _ => rfl, fun _ _ => rfl⟩
  | case4 a cs hshape =>
    refine ⟨m, mergeLoop_stop hfuel fun hcond => ?_, hl, fun _ _ _ _ _ _ => rfl, fun _ _ => rfl⟩
    cases cs with
    | nil => exact hcond.1 rfl
    | cons c cs =>
      cases cs with
      | nil =>
        have hnext := hl.1.next
        exact hcond.2.1 hnext
      | cons d cs => exact absurd rfl (hshape c d cs)

/-! ## `kfree` -/

/-- `kfree` finds nothing wrong with a block of the list. -/
theorem HeapInv.intact (hi : HeapInv h (xs ++ c :: ys)) :
    h.intact (h.heapStart + extent xs) = true := by
  have h24 : hdrSz = 24 := rfl
  obtain ⟨_, hdr, hys⟩ := laid_middle.mp hi.laid
  have hfull := hi.full
  rw [extent_append] at hfull
  rw [Heap.intact, decide_eq_true_eq, hdr.next, hdr.size]
  refine ⟨hdr.magic, ?_⟩
  intro hne
  cases hys' : ys with
  | nil =>
    rw [hys'] at hne
    exact absurd rfl hne
  | cons y ys' =>
    rw [if_neg (cons_ne_nil y ys')]
    rw [hys'] at hys hfull
    simp only [extent] at hfull
    rw [hys.1.magic]
    omega

/-- A payload in use is released: the other payloads stay. -/
theorem kfree_spec (hi : HeapInv h cs) (hp : (p, n) ∈ payloads h.heapStart cs) :
    ∃ h' cs', h.kfree p = some h' ∧ HeapInv h' cs' ∧
      (∀ q k, (q, k) ∈ payloads h.heapStart cs' ↔
        (q, k) ∈ payloads h.heapStart cs ∧ q ≠ p) ∧ Kept h h' cs cs' p := by
  have h24 : hdrSz = 24 := rfl
  obtain ⟨xs, ys, hcs, hpeq⟩ := mem_payloads.mp hp
  subst hcs
  have hcell := hi.cell_lt
  have hend := hi.end_le
  have hstart := hi.start_pos
  have hfull := hi.full
  have hused := hi.used ⟨n, false⟩ (by simp) rfl
  obtain ⟨b, hbdef⟩ : ∃ b, b = h.heapStart + extent xs := ⟨_, rfl⟩
  rw [← hbdef] at hcell hpeq
  obtain ⟨_, hdr, _⟩ := laid_middle.mp hi.laid
  rw [← hbdef] at hdr
  -- the block is marked free
  have hmarked : Laid (h.mem.put32 (b + 16) 1) h.heapStart (xs ++ ⟨n, true⟩ :: ys) 0 := by
    have hcells : Laid (h.mem.put32 (b + 16) 1) (h.heapStart + extent xs) [⟨n, true⟩]
        (if ys = [] then 0 else h.heapStart + extent xs + hdrSz + n) := by
      rw [← hbdef]
      refine ⟨?_, trivial⟩
      exact hdr.setFree true
    have hrep := hi.laid.replace (cons_ne_nil _ _) rfl hcells (by
      intro x hx
      exact put32_of_out _ _ (by omega))
    rw [append_assoc] at hrep
    exact hrep
  have hext : extent (xs ++ ⟨n, true⟩ :: ys) = extent (xs ++ ⟨n, false⟩ :: ys) := by
    rw [extent_append, extent_append]
    rfl
  have hfuel : (xs ++ ⟨n, true⟩ :: ys : List Cell).length < h.fuel := by
    simpa using hi.length_lt_fuel
  obtain ⟨m', hres, hlaid, hpay, hout⟩ := mergeLoop_laid b h.fuel hmarked hstart (by omega) hfuel
  -- the payloads in use before and after
  have hbefore : payloads h.heapStart (xs ++ ⟨n, false⟩ :: ys) =
      payloads h.heapStart xs ++ (p, n) :: payloads (b + hdrSz + n) ys := by
    rw [payloads_append, ← hbdef, hpeq]
    rfl
  have hmid : payloads h.heapStart (xs ++ ⟨n, true⟩ :: ys) =
      payloads h.heapStart xs ++ payloads (b + hdrSz + n) ys := by
    rw [payloads_middle rfl, hbdef]
  have haround : ∀ q k, (q, k) ∈ payloads h.heapStart (xs ++ ⟨n, true⟩ :: ys) →
      q < b ∧ q + k ≤ b ∨ b + hdrSz + n + hdrSz ≤ q := by
    intro q k hq
    rw [hmid, hbdef] at hq
    rw [hbdef]
    exact hi.around hq
  have hiff : ∀ q k, (q, k) ∈ payloads h.heapStart (xs ++ ⟨n, true⟩ :: ys) ↔
      (q, k) ∈ payloads h.heapStart (xs ++ ⟨n, false⟩ :: ys) ∧ q ≠ p := by
    intro q k
    constructor
    · intro hq
      have := haround q k hq
      refine ⟨?_, by omega⟩
      rw [hmid, mem_append] at hq
      rw [hbefore, mem_append, mem_cons]
      exact hq.imp_right .inr
    · rintro ⟨hq, hne⟩
      rw [hbefore, mem_append, mem_cons] at hq
      rw [hmid, mem_append]
      exact hq.imp_right fun hq => hq.resolve_left fun heq => hne (Prod.mk.inj heq).1
  refine ⟨{ h with mem := m' }, coalesce b h.heapStart (xs ++ ⟨n, true⟩ :: ys), ?_, ?_, ?_, ?_⟩
  · have hblock : p - hdrSz = b := by omega
    have hintact := hi.intact
    rw [← hbdef] at hintact
    rw [kfree, if_neg (by omega), if_neg (by omega)]
    simp only [hblock]
    rw [if_neg (by omega), if_pos hintact, hi.list,
      show h.heapStart = firstAddr h.heapStart (xs ++ ⟨n, true⟩ :: ys) by cases xs <;> rfl, hres]
    rfl
  · refine ⟨hlaid, coalesce_ne_nil _ _ _ (by simp), hi.list, ?_, hstart, hend, ?_, ?_⟩
    · rw [extent_coalesce, hext]
      exact hfull
    · apply ApartFrom.coalesce_apart
      rw [hbdef]
      exact hi.apart.release ⟨n, true⟩ h.heapStart
    intro e he hfree
    have hmem := mem_coalesce_used _ _ _ he hfree
    rw [mem_append, mem_cons] at hmem
    rcases hmem with hmem | hmem | hmem
    · exact hi.used e (mem_append_left _ hmem) hfree
    · rw [hmem] at hfree
      cases hfree
    · exact hi.used e (mem_append_right _ (mem_cons_of_mem _ hmem)) hfree
  · intro q k
    rw [payloads_coalesce]
    exact hiff q k
  · refine ⟨rfl, rfl, ?_⟩
    intro q k hq hne
    have hq' := (hiff q k).mpr ⟨hq, hne⟩
    refine ⟨?_, ?_⟩
    · rw [payloads_coalesce]
      exact hq'
    intro x h₁ h₂
    simp only
    rw [hpay q k hq' x h₁ h₂]
    have := haround q k hq'
    exact put32_of_out _ _ (by omega)

/-! ## `heap_verify` -/

theorem verifyLoop_laid (fuel last : Nat) (hl : Laid h.mem a cs 0) (ha : h.heapStart ≤ a)
    (hlast : last < a) (hend : a + extent cs ≤ h.heapEnd) (hfuel : cs.length < fuel) :
    h.verifyLoop fuel last (firstAddr a cs) = some 0 := by
  have h24 : hdrSz = 24 := rfl
  induction cs generalizing a fuel last with
  | nil =>
    obtain ⟨k, rfl⟩ := Nat.exists_eq_add_of_lt hfuel
    rw [firstAddr, verifyLoop, if_pos rfl]
  | cons c cs ih =>
    obtain ⟨k, rfl⟩ := Nat.exists_eq_add_of_lt hfuel
    simp only [extent] at hend
    obtain ⟨hdr, hrest⟩ := hl
    rw [firstAddr, verifyLoop, if_neg (by omega), hdr.magic, if_neg (by omega), hdr.next,
      hdr.size, if_neg]
    · rw [firstAddr_next]
      exact ih _ a hrest (by omega) (by omega) (by omega) (by rw [length_cons]; omega)
    intro hbad
    obtain ⟨hne, hbad⟩ := hbad
    by_cases hcs : cs = []
    · rw [if_pos hcs] at hne
      exact hne rfl
    · rw [if_neg hcs] at hbad
      exact hbad rfl

theorem HeapInv.heapVerify (hi : HeapInv h cs) : h.heapVerify = some 0 := by
  have hfull := hi.full
  rw [Heap.heapVerify, hi.first]
  exact verifyLoop_laid _ _ hi.laid (Nat.le_refl _) hi.start_pos (by omega) hi.length_lt_fuel

/-! ## Payloads -/

theorem HeapInv.write (hi : HeapInv h cs) (hp : (p, n) ∈ payloads h.heapStart cs)
    (hout : ∀ x, x < p ∨ p + n ≤ x → m' x = h.mem x) : HeapInv { h with mem := m' } cs := by
  obtain ⟨xs, ys, hcs, hpeq⟩ := mem_payloads.mp hp
  subst hcs
  refine { hi with laid := ?_ }
  obtain ⟨hxs, hdr, hys⟩ := laid_middle.mp hi.laid
  apply laid_middle.mpr
  refine ⟨?_, ?_, ?_⟩
  · apply hxs.congr
    intro x _ h₂
    exact hout x (.inl (by omega))
  · apply hdr.congr
    intro x _ h₂
    exact hout x (.inl (by omega))
  · apply hys.congr
    intro x h₁ _
    exact hout x (.inr (by simp only at h₁; omega))

theorem payloads_disjoint {q k : Nat} (hp : (p, n) ∈ payloads a cs) (hq : (q, k) ∈ payloads a cs)
    (hne : q ≠ p) : q + k ≤ p ∨ p + n ≤ q := by
  have hpair : (payloads a cs).Pairwise fun p q => q.1 + q.2 ≤ p.1 ∨ p.1 + p.2 ≤ q.1 :=
    (payloads_pairwise a cs).imp fun hpq => .inr (by omega)
  have : Std.Symm fun p q : Nat × Nat => q.1 + q.2 ≤ p.1 ∨ p.1 + p.2 ≤ q.1 := ⟨fun _ _ => Or.symm⟩
  exact hpair.forall hp hq fun heq => hne (Prod.mk.inj heq).1.symm

end Kil0yOS.Mm
