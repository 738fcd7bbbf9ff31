/-
Which pages `vmm_create_address_space` of `mm/memory.c` takes, and which of them it gives back
when one of its allocations fails.
-/
import Mathlib.Data.List.Rotate
import Kil0yOS.Mm.Uvm

namespace Kil0yOS.Mm

open List

namespace Pmm

variable {m m' : Pmm} {f : Nat → Bool} {k n p : Nat} {ps qs lost : List Nat}

/-! ## The order of allocation -/

theorem filter_range_le (hno : ∀ q, k ≤ q → f q = false) (hk : k ≤ n) :
    (range n).filter f = (range k).filter f := by
  obtain ⟨j, rfl⟩ := Nat.exists_eq_add_of_le hk
  have hnil : ((range j).map (k + ·)).filter f = [] := by simp [hno]
  simp [range_add, hnil]

/-- A search from `k` on and then from the start meets the numbers in the order of a rotation. -/
theorem filter_rotate (hno : ∀ q, n ≤ q → f q = false) :
    (range' k (n - k) ++ range' 0 k).filter f = ((range n).rotate (min k n)).filter f := by
  rw [rotate_eq_drop_append_take (by simp), take_range, range_eq_range', ← range_eq_range']
  rcases Nat.le_total k n with hle | hle
  · simp [hle, range_eq_range']
  · simp [hle, filter_range_le hno hle]

theorem rotate_range_succ (h : (range n).rotate k = ps ++ p :: qs) :
    (range n).rotate (p + 1) = qs ++ ps ++ [p] := by
  have hlen : n = ps.length + (qs.length + 1) := by simpa using congrArg length h
  have hp : (range n)[(ps.length + k) % n]? = some p := by
    have hlt : ps.length < (range n).length := by simp [hlen]
    simpa [h] using (getElem?_rotate (n := k) hlt).symm
  rw [getElem?_range (Nat.mod_lt _ (by omega)), Option.some_inj, Nat.add_comm] at hp
  have hrot : (range n).rotate p = p :: (qs ++ ps) := by
    have hmod := rotate_mod (range n) (k + ps.length)
    rwa [length_range, hp, ← rotate_rotate, h, rotate_append_length_eq] at hmod
  simp [← rotate_rotate, hrot]

/-- An allocation takes the first of the free pages and leaves the others in their order. -/
theorem freePages_take (h : m.freePages = p :: ps) : (m.take p).1.freePages = ps := by
  obtain ⟨hp, hfree⟩ := mem_freePages.mp (h ▸ mem_cons_self)
  have hbeyond (m : Pmm) (q : Nat) (hq : pmmMaxPages ≤ q) : (!m.bitmapTest q) = false := by
    simp [bitmapTest, hq]
  have hset (q : Nat) : (!(m.take p).1.bitmapTest q) = (q != p && !m.bitmapTest q) := by
    by_cases hq : q = p <;> simp [take, bitmapSet, bitmapTest, hp, hfree, hq]
  rw [freePages, filter_rotate (hbeyond m)] at h
  obtain ⟨l₁, l₂, hl, hno, -, rfl⟩ := filter_eq_cons_iff.mp h
  have hnodup : (l₁ ++ p :: l₂).Nodup := hl ▸ nodup_rotate.mpr nodup_range
  have hp₂ : p ∉ l₂ := (nodup_cons.mp hnodup.of_append_right).1
  have hlast : min (m.take p).1.lastPage pmmMaxPages = p + 1 := min_eq_left hp
  rw [freePages, filter_rotate (hbeyond _), hlast, rotate_range_succ hl, funext hset,
    ← filter_filter, filter_append, filter_append, filter_append, filter_eq_nil_iff.mpr hno]
  have hrest : (l₂.filter (!m.bitmapTest ·)).filter (· != p) = l₂.filter (!m.bitmapTest ·) := by
    rw [filter_eq_self]
    rintro q hq
    simpa using fun e : q = p => hp₂ (e ▸ mem_of_mem_filter hq)
  simp [bitmapTest_eq_false.mpr ⟨hp, hfree⟩, hrest]

/-! ## Pages taken -/

/-- The pages in use are those of `m` and, apart from them, `ps`. -/
structure Taken (m : Pmm) (ps : List Nat) (m' : Pmm) : Prop where
  used : ∀ q, m'.used q = (m.used q || decide (q ∈ ps))
  usedPages : m'.usedPages = m.usedPages + ps.length
  free : ∀ p ∈ ps, p < pmmMaxPages ∧ m.used p = false
  nodup : ps.Nodup

/-- `n` allocations fail: there are not as many pages, or page zero is among those they get. -/
def Fails (fs : List Nat) (n : Nat) (lost : List Nat) : Prop :=
  lost = [] ∧ 0 ∉ fs ∧ fs.length < n ∨ lost = [0] ∧ 0 ∈ fs.take n

theorem Fails.cons (h : Fails ps n lost) (hp : p ≠ 0) : Fails (p :: ps) (n + 1) lost := by
  rcases h with ⟨hl, hno, hlen⟩ | ⟨hl, h0⟩
  · exact .inl ⟨hl, by simp [hno, Ne.symm hp], Nat.succ_lt_succ hlen⟩
  · exact .inr ⟨hl, mem_cons_of_mem _ h0⟩

namespace Taken

theorem refl (m : Pmm) : m.Taken [] m := ⟨by simp, rfl, by simp, nodup_nil⟩

theorem take (h : m.Taken ps m') (hp : p < pmmMaxPages) (hfree : m'.used p = false) :
    m.Taken (p :: ps) (m'.take p).1 := by
  have hboth : m.used p = false ∧ p ∉ ps := by
    simpa [h.used] using hfree
  have hset := bitmapSet_free hp hfree
  refine ⟨fun q => ?_, ?_, ?_, nodup_cons.mpr ⟨hboth.2, h.nodup⟩⟩
  · show (m'.bitmapSet p).used q = _
    rw [hset]
    by_cases hq : q = p
    · simp [hq]
    · simp [hq, h.used]
  · show (m'.bitmapSet p).usedPages = _
    rw [hset]
    exact congrArg (· + 1) h.usedPages
  · rw [forall_mem_cons]
    exact ⟨⟨hp, hboth.1⟩, h.free⟩

/-- The next page is a page to use, or the call fails; page zero is then taken and lost. -/
theorem alloc (h : m.Taken ps m') :
    (∃ p m'', m'.freePages = p :: m''.freePages ∧ m'.pmmAllocPage = (m'', pageAddr p) ∧
        p ≠ 0 ∧ pageAddr p ≠ 0 ∧ pageNo (pageAddr p) = p ∧ m.Taken (p :: ps) m'') ∨
      ∃ m'' lost, m'.pmmAllocPage = (m'', 0) ∧ Fails m'.freePages 1 lost ∧
        m.Taken (lost ++ ps) m'' := by
  rw [pmmAllocPage_eq]
  cases hfs : m'.freePages with
  | nil => exact .inr ⟨m', [], rfl, .inl ⟨rfl, by simp⟩, h⟩
  | cons p fs =>
    obtain ⟨hp, hfree⟩ := mem_freePages.mp (hfs ▸ mem_cons_self)
    have htake := h.take hp hfree
    by_cases h0 : p = 0
    · subst h0
      exact .inr ⟨_, [0], rfl, .inr ⟨rfl, mem_cons_self⟩, htake⟩
    · exact .inl ⟨p, (m'.take p).1, by rw [freePages_take hfs], rfl, h0,
        mt (pageAddr_eq_zero hp).mp h0, pageAddr_div hp, htake⟩

theorem perm (h : m.Taken ps m') (hperm : ps.Perm qs) : m.Taken qs m' := by
  refine ⟨fun q => ?_, hperm.length_eq ▸ h.usedPages, ?_, hperm.nodup_iff.mp h.nodup⟩
  · rw [h.used, decide_eq_decide.mpr hperm.mem_iff]
  · exact fun q hq => h.free q (hperm.mem_iff.mpr hq)

theorem freePage (h : m.Taken (p :: ps) m') (h0 : p ≠ 0) :
    m.Taken ps (m'.pmmFreePage (pageAddr p)) := by
  obtain ⟨⟨hp, hfree⟩, hrest⟩ := forall_mem_cons.mp h.free
  obtain ⟨hnot, hnodup⟩ := nodup_cons.mp h.nodup
  have hused : m'.used p = true := by
    simp [h.used]
  rw [pmmFreePage_pageAddr hp h0 hused]
  refine ⟨fun q => ?_, ?_, hrest, hnodup⟩
  · by_cases hq : q = p
    · simp [hq, hfree, hnot]
    · simp [hq, h.used]
  · show m'.usedPages - 1 = _
    rw [h.usedPages]
    rfl

theorem freeFrames (h : m.Taken (qs ++ ps) m') (h0 : 0 ∉ qs) :
    m.Taken ps (Mm.freeFrames m' qs) := by
  induction qs generalizing m' with
  | nil => exact h
  | cons p qs ih =>
    rw [mem_cons, not_or] at h0
    exact ih (h.freePage (Ne.symm h0.1)) h0.2

theorem freeTwo {q : Nat} (h : m.Taken (ps ++ [q, p]) m') (hq : q ≠ 0) (hp : p ≠ 0) :
    m.Taken ps ((m'.pmmFreePage (pageAddr q)).pmmFreePage (pageAddr p)) := by
  have hone := (h.perm perm_middle).freePage hq
  exact (hone.perm (perm_append_singleton p ps)).freePage hp

theorem same_iff (h : m.Taken ps m') :
    (m'.used = m.used ∧ m'.usedPages = m.usedPages) ↔ ps = [] := by
  have hpages := h.usedPages
  constructor
  · rintro ⟨-, hsame⟩
    exact eq_nil_of_length_eq_zero (by omega)
  rintro rfl
  refine ⟨funext fun q => ?_, hpages⟩
  rw [h.used]
  simp

end Taken

end Pmm

/-! ## The upper levels -/

open Pmm

variable {m m' : Pmm} {n : Nat} {fs made ps lost : List Nat}

theorem copyPds_taken (n : Nat) (h : m.Taken (made ++ ps) m') (h0 : 0 ∉ made) :
    (∃ m'' pds, copyPds n m' made = (m'', some pds) ∧ m''.freePages = m'.freePages.drop n ∧
        n ≤ m'.freePages.length ∧ 0 ∉ m'.freePages.take n ∧
        pds.length = made.length + n ∧ m.Taken (pds ++ ps) m'') ∨
      ∃ m'' lost, copyPds n m' made = (m'', none) ∧ Fails m'.freePages n lost ∧
        m.Taken (lost ++ ps) m'' := by
  induction n generalizing m' made with
  | zero => exact .inl ⟨m', made, rfl, rfl, Nat.zero_le _, by simp, rfl, h⟩
  | succ n ih =>
    rcases h.alloc with ⟨p, m₁, hfs, heq, hp, haddr, hno, h₁⟩ | ⟨m₁, lost, heq, hfail, h₁⟩
    · have hnext : m.Taken ((made ++ [p]) ++ ps) m₁ := by
        rw [append_assoc]
        exact h₁.perm perm_middle.symm
      have hmade : 0 ∉ made ++ [p] := by simp [h0, Ne.symm hp]
      rw [copyPds, heq, hfs]
      simp only [haddr, hno, if_false]
      rcases ih hnext hmade with ⟨m₂, pds, heq, hdrop, hle, hz, hlen, h₂⟩ | ⟨m₂, lost, heq, hf, h₂⟩
      · refine .inl ⟨m₂, pds, heq, hdrop, Nat.succ_le_succ hle, ?_, ?_, h₂⟩
        · simp [hz, Ne.symm hp]
        · rw [hlen, length_append]
          exact Nat.add_right_comm _ 1 n
      · exact .inr ⟨m₂, lost, heq, hf.cons hp, h₂⟩
    · refine .inr ⟨Mm.freeFrames m₁ made, lost, ?_, ?_, ?_⟩
      · rw [copyPds, heq]
        rfl
      · rcases hfail with ⟨hl, hz, hlen⟩ | ⟨hl, hz⟩
        · exact .inl ⟨hl, hz, by omega⟩
        · exact .inr ⟨hl, take_subset_take_left _ (by omega) hz⟩
      · exact (h₁.perm (perm_append_comm_assoc _ _ _)).freeFrames h0

/-- Page zero is not among the pages that are needed, and they do not run out at the top level of
five. -/
def Restores (la57 : Bool) (fs : List Nat) : Prop :=
  0 ∉ fs.take (if la57 then 7 else 6) ∧ ¬ (la57 = true ∧ fs.length = 6)

theorem Pmm.Fails.restores (h : Fails fs n lost) (hn : n ≤ 6) (la57 : Bool) :
    lost = [] ↔ Restores la57 fs := by
  rcases h with ⟨rfl, hz, hlen⟩ | ⟨rfl, hz⟩
  · exact iff_of_true rfl ⟨fun hmem => hz (mem_of_mem_take hmem), by omega⟩
  · refine iff_of_false (by simp) fun hr => hr.1 ?_
    apply take_subset_take_left _ _ hz
    split <;> omega

theorem createDirs_taken (la57 : Bool) (m : Pmm) :
    (∃ d, (createDirs la57 m).2 = some d) ∧ Restores la57 m.freePages ∨
      (createDirs la57 m).2 = none ∧ ∃ lost, m.Taken lost (createDirs la57 m).1 ∧
        (lost = [] ↔ Restores la57 m.freePages) := by
  unfold createDirs
  rcases (Taken.refl m).alloc with ⟨p₄, m₁, hfs, heq, hp₄, ha₄, -, h₁⟩ | ⟨m₁, lost, heq, hf, h₁⟩
  · rw [heq, hfs]
    simp only [ha₄, if_false]
    rcases h₁.alloc with ⟨p₃, m₂, hfs₁, heq, hp₃, ha₃, -, h₂⟩ | ⟨m₂, lost, heq, hf, h₂⟩
    · rw [heq, hfs₁]
      simp only [ha₃, if_false]
      have hnone : m.Taken ([] ++ [p₃, p₄]) m₂ := h₂
      rcases copyPds_taken 4 hnone not_mem_nil with
        ⟨m₃, pds, heq, hdrop, hle, hz, hlen, h₃⟩ | ⟨m₃, lost, heq, hf, h₃⟩
      · rw [heq]
        dsimp only
        cases la57 with
        | false =>
          refine .inl ⟨⟨_, rfl⟩, ?_, fun h => Bool.noConfusion h.1⟩
          simp [hz, Ne.symm hp₃, Ne.symm hp₄]
        | true =>
          have htake : m₂.freePages.take 5 = m₂.freePages.take 4 ++ m₃.freePages.take 1 := by
            rw [hdrop, ← take_add]
          have hcount : m₃.freePages.length = m₂.freePages.length - 4 := by
            simp [hdrop]
          rcases h₃.alloc with ⟨p₅, m₄, hfs₃, heq, hp₅, ha₅, -, h₄⟩ | ⟨m₄, lost, heq, hf, h₄⟩
          · rw [heq]
            simp only [ha₅, if_false]
            rw [hfs₃, length_cons] at hcount
            refine .inl ⟨⟨_, rfl⟩, ?_, fun h => ?_⟩
            · simp [htake, hz, hfs₃, Ne.symm hp₃, Ne.symm hp₄, Ne.symm hp₅]
            · have := h.2
              rw [length_cons, length_cons] at this
              omega
          -- the directories are lost
          rw [heq]
          have htwo : m.Taken ((lost ++ pds) ++ [p₃, p₄]) m₄ := by
            rw [append_assoc]
            exact h₄
          refine .inr ⟨rfl, lost ++ pds, htwo.freeTwo hp₃ hp₄, iff_of_false ?_ ?_⟩
          · intro hnil
            rw [(append_eq_nil_iff.mp hnil).2] at hlen
            cases hlen
          rintro ⟨hno, hsix⟩
          rcases hf with ⟨-, -, hlt⟩ | ⟨-, hmem⟩
          · refine hsix ⟨rfl, ?_⟩
            rw [length_cons, length_cons]
            omega
          · refine hno (.tail _ (.tail _ ?_))
            rw [show m₂.freePages.take 5 = _ from htake]
            exact mem_append_right _ hmem
      · rw [heq]
        exact .inr ⟨rfl, lost, h₃.freeTwo hp₃ hp₄, ((hf.cons hp₃).cons hp₄).restores (by omega) _⟩
    · rw [heq]
      refine .inr ⟨rfl, lost, ?_, (hf.cons hp₄).restores (by omega) _⟩
      exact (h₂.perm (perm_append_singleton p₄ lost)).freePage hp₄
  · rw [heq]
    exact .inr ⟨rfl, lost, append_nil lost ▸ h₁, hf.restores (by omega) _⟩

/-- A creation that fails leaves the bitmap and the counter as they were, except where page zero
is handed out, or where the pages run out at the top level of five: there the four directories are
not given back. -/
theorem createDirs_restores (la57 : Bool) (m : Pmm) : ((createDirs la57 m).2 = none →
        (createDirs la57 m).1.used = m.used ∧ (createDirs la57 m).1.usedPages = m.usedPages) ↔
      0 ∉ m.freePages.take (if la57 then 7 else 6) ∧ ¬ (la57 = true ∧ m.freePages.length = 6) := by
  show _ ↔ Restores la57 m.freePages
  rcases createDirs_taken la57 m with ⟨⟨d, hd⟩, hr⟩ | ⟨hd, lost, htaken, hlost⟩
  · simp [hd, hr]
  · rw [← hlost, ← htaken.same_iff]
    simp [hd]

/-- Six pages are free: one less than five levels need. -/
def sixFree : Pmm :=
  { used := fun p => decide (p = 0 ∨ 7 ≤ p), usedPages := pmmMaxPages - 6, lastPage := 0 }

theorem freePages_sixFree : sixFree.freePages = [1, 2, 3, 4, 5, 6] := by
  have hused (q : Nat) (hq : 7 ≤ q) : (!sixFree.bitmapTest q) = false := by
    simp [bitmapTest, sixFree, hq]
  show (range' 0 pmmMaxPages ++ []).filter _ = _
  rw [append_nil, ← range_eq_range', filter_range_le hused (by decide)]
  rfl

theorem createDirs_sixFree : (createDirs true sixFree).2 = none ∧
    ¬ ((createDirs true sixFree).1.used = sixFree.used ∧
      (createDirs true sixFree).1.usedPages = sixFree.usedPages) := by
  have hno : ¬ Restores true sixFree.freePages := by
    rw [freePages_sixFree]
    exact fun h => h.2 ⟨rfl, rfl⟩
  rcases createDirs_taken true sixFree with ⟨-, hr⟩ | ⟨hd, lost, htaken, hlost⟩
  · exact absurd hr hno
  · rw [htaken.same_iff, hlost]
    exact ⟨hd, hno⟩

end Kil0yOS.Mm
