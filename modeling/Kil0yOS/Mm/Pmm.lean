/-
The physical page allocator of `mm/memory.c`: one bit a page for the first four
gigabytes, and a hint where the next search begins.
-/
import Mathlib.Data.UInt

namespace Kil0yOS.Mm

open List Function

abbrev pmmMaxPages : Nat := 1048576

structure Pmm where
  /-- The bitmap: is the page in use? -/
  used : Nat → Bool
  usedPages : Nat
  lastPage : Nat

namespace Pmm

variable {m : Pmm} {p n : Nat}

def bitmapTest (m : Pmm) (p : Nat) : Bool := if pmmMaxPages ≤ p then true else m.used p

def bitmapSet (m : Pmm) (p : Nat) : Pmm :=
  if p < pmmMaxPages ∧ m.used p = false then
    { m with used := update m.used p true, usedPages := m.usedPages + 1 }
  else m

def bitmapClear (m : Pmm) (p : Nat) : Pmm :=
  if p < pmmMaxPages ∧ m.used p = true then
    { m with used := update m.used p false, usedPages := m.usedPages - 1 }
  else m

def findFree (m : Pmm) : Nat → Nat → Option Nat
  | _, 0 => none
  | p, n + 1 => if m.bitmapTest p then findFree m (p + 1) n else some p

def pageAddr (p : Nat) : UInt64 := UInt64.ofNat (p * 4096)

/-- Take a page for the caller; address zero stands for failure. -/
def take (m : Pmm) (p : Nat) : Pmm × UInt64 :=
  ({ m.bitmapSet p with lastPage := p + 1 }, pageAddr p)

def pmmAllocPage (m : Pmm) : Pmm × UInt64 :=
  match m.findFree m.lastPage (pmmMaxPages - m.lastPage) with
  | some p => m.take p
  | none =>
    match m.findFree 0 m.lastPage with
    | some p => m.take p
    | none => (m, 0)

def pmmFreePage (m : Pmm) (phys : UInt64) : Pmm :=
  if phys = 0 then m else m.bitmapClear (phys / 4096).toNat

/-! ## Allocation -/

theorem bitmapTest_eq_false : m.bitmapTest p = false ↔ p < pmmMaxPages ∧ m.used p = false := by
  unfold bitmapTest
  by_cases hp : pmmMaxPages ≤ p
  · simp [Nat.not_lt.mpr hp]
  · simp [Nat.lt_of_not_le hp]

/-- The free pages in the order in which single allocations take them: from the hint upwards,
then from page zero. -/
def freePages (m : Pmm) : List Nat :=
  (range' m.lastPage (pmmMaxPages - m.lastPage) ++ range' 0 m.lastPage).filter
    fun p => !m.bitmapTest p

theorem mem_freePages : p ∈ m.freePages ↔ p < pmmMaxPages ∧ m.used p = false := by
  rw [freePages, mem_filter, Bool.not_eq_eq_eq_not, Bool.not_true, bitmapTest_eq_false,
    mem_append, mem_range'_1, mem_range'_1]
  exact ⟨And.right, fun h => ⟨by omega, h⟩⟩

theorem findFree_eq (m : Pmm) (p n : Nat) :
    m.findFree p n = (range' p n).find? fun p => !m.bitmapTest p := by
  induction n generalizing p with
  | zero => rfl
  | succ n ih =>
    rw [findFree, ih, range'_succ, find?_cons]
    cases m.bitmapTest p <;> rfl

theorem pmmAllocPage_eq (m : Pmm) : m.pmmAllocPage = m.freePages.head?.elim (m, 0) m.take := by
  rw [freePages, head?_filter, find?_append, ← findFree_eq, ← findFree_eq, pmmAllocPage]
  cases m.findFree m.lastPage (pmmMaxPages - m.lastPage) with
  | some p => rfl
  | none => cases m.findFree 0 m.lastPage <;> rfl

theorem bitmapSet_free (hp : p < pmmMaxPages) (hu : m.used p = false) : m.bitmapSet p =
    { m with used := update m.used p true, usedPages := m.usedPages + 1 } := by
  rw [bitmapSet, if_pos ⟨hp, hu⟩]

theorem toNat_pageAddr_of_lt (hp : p * 4096 < 2 ^ 64) : (pageAddr p).toNat = p * 4096 := by
  rw [pageAddr, UInt64.toNat_ofNat', Nat.mod_eq_of_lt hp]

section

variable (hp : p < pmmMaxPages)
include hp

theorem toNat_pageAddr : (pageAddr p).toNat = p * 4096 := by
  have : pmmMaxPages = 1048576 := rfl
  exact toNat_pageAddr_of_lt (by omega)

theorem pageAddr_eq_zero : pageAddr p = 0 ↔ p = 0 := by
  rw [← UInt64.toNat_inj, toNat_pageAddr hp, UInt64.toNat_zero]
  omega

theorem pageAddr_div : (pageAddr p / 4096).toNat = p := by
  rw [UInt64.toNat_div, toNat_pageAddr hp]
  exact Nat.mul_div_cancel p (by decide)

end

/-- An allocation with page zero reserved: it takes a free page, or fails and
changes nothing. -/
theorem pmmAllocPage_cases (h0 : m.used 0 = true) :
    m.pmmAllocPage = (m, 0) ∨
      ∃ p, p < pmmMaxPages ∧ p ≠ 0 ∧ m.used p = false ∧
        m.pmmAllocPage.2 = pageAddr p ∧ m.pmmAllocPage.1.used = update m.used p true := by
  rw [pmmAllocPage_eq]
  cases hfs : m.freePages with
  | nil => exact .inl rfl
  | cons p fs =>
    obtain ⟨hp, hu⟩ := mem_freePages.mp (hfs ▸ mem_cons_self)
    refine .inr ⟨p, hp, fun e => ?_, hu, rfl, ?_⟩
    · rw [e, h0] at hu
      cases hu
    · show (m.bitmapSet p).used = _
      rw [bitmapSet_free hp hu]

theorem pmmFreePage_pageAddr (hp : p < pmmMaxPages) (h0 : p ≠ 0) (hu : m.used p = true) :
    m.pmmFreePage (pageAddr p) =
      { m with used := update m.used p false, usedPages := m.usedPages - 1 } := by
  rw [pmmFreePage, if_neg (mt (pageAddr_eq_zero hp).mp h0), pageAddr_div hp, bitmapClear,
    if_pos ⟨hp, hu⟩]

end Pmm

/-! ## Runs of pages

A search goes from the hint to the end of the bitmap, and a second one over all of it, so
that a run across the hint is found as well.
-/

namespace Pmm

/-- The search from page `p` over `n` pages, with the free pages just before `p` counted. -/
def findRun (m : Pmm) (count : Nat) : Nat → Nat → Nat → Nat → Option Nat
  | _, 0, _, _ => none
  | p, n + 1, consecutive, start =>
    if m.bitmapTest p then findRun m count (p + 1) n 0 start
    else
      let start := if consecutive = 0 then p else start
      if count ≤ consecutive + 1 then some start
      else findRun m count (p + 1) n (consecutive + 1) start

def takeRun (m : Pmm) (start count : Nat) : Pmm × UInt64 :=
  ({ (List.range' start count).foldl bitmapSet m with lastPage := start + count }, pageAddr start)

def pmmAllocPages (m : Pmm) (count : Nat) : Pmm × UInt64 :=
  if count = 0 then (m, 0)
  else if count = 1 then m.pmmAllocPage
  else
    match m.findRun count m.lastPage (pmmMaxPages - m.lastPage) 0 0 with
    | some start => m.takeRun start count
    | none =>
      if m.lastPage = 0 then (m, 0)
      else
        match m.findRun count 0 pmmMaxPages 0 0 with
        | some start => m.takeRun start count
        | none => (m, 0)

def pmmFreePages (m : Pmm) (phys : UInt64) (count : Nat) : Pmm :=
  (range count).foldl (fun m i => m.pmmFreePage (phys + UInt64.ofNat i * 4096)) m

variable {m : Pmm} {c n p s start count : Nat}

/-! ## The search -/

/-- The pages from `start` on are free. -/
def FreeRun (m : Pmm) (start count : Nat) : Prop :=
  ∀ p, start ≤ p → p < start + count → p < pmmMaxPages ∧ m.used p = false

theorem findRun_some (h : m.findRun count p n c start = some s)
    (hrun : c = 0 ∨ start + c = p ∧ m.FreeRun start c) : m.FreeRun s count := by
  induction n generalizing p c start with
  | zero => cases h
  | succ n ih =>
    rw [findRun] at h
    split at h
    · exact ih h (.inl rfl)
    rename_i hfree
    dsimp only at h
    -- the page goes on with the run, or begins one
    have hnext : (if c = 0 then p else start) + (c + 1) = p + 1 ∧
        m.FreeRun (if c = 0 then p else start) (c + 1) := by
      have hpage := bitmapTest_eq_false.mp (Bool.eq_false_iff.mpr hfree)
      rcases hrun with hc | ⟨hp, hold⟩
      · rw [if_pos hc, hc]
        refine ⟨rfl, fun q hq hq' => ?_⟩
        rw [show q = p by omega]
        exact hpage
      have hstart : (if c = 0 then p else start) = start := by
        split <;> omega
      rw [hstart]
      refine ⟨by omega, fun q hq hq' => ?_⟩
      by_cases hqp : q = p
      · rw [hqp]
        exact hpage
      · exact hold q hq (by omega)
    split at h
    · next hcount =>
      cases h
      exact fun q hq hq' => hnext.2 q hq (by omega)
    · exact ih h (.inr hnext)

theorem findRun_none (h : m.findRun count p n c start = none) (hc : c < count) (hcp : c ≤ p)
    (hs : p ≤ s + c) (hend : s + count ≤ p + n) : ¬ m.FreeRun s count := by
  induction n generalizing p c start with
  | zero => omega
  | succ n ih =>
    rw [findRun] at h
    split at h
    · next hused =>
      -- a run from before `p` would contain it
      by_cases hsp : s ≤ p
      · intro hrun
        have hpage := bitmapTest_eq_false.mpr (hrun p hsp (by omega))
        rw [hused] at hpage
        cases hpage
      · exact ih h (by omega) (by omega) (by omega) (by omega)
    · dsimp only at h
      split at h
      · cases h
      · exact ih h (by omega) (by omega) (by omega) (by omega)

/-! ## What an allocation does -/

theorem FreeRun.le (h : m.FreeRun start count) (hc : 1 ≤ count) : start + count ≤ pmmMaxPages := by
  have := (h (start + count - 1) (by omega) (by omega)).1
  omega

theorem foldl_bitmapSet (h : m.FreeRun start count) :
    (∀ p, ((List.range' start count).foldl bitmapSet m).used p =
      (m.used p || decide (start ≤ p ∧ p < start + count))) ∧
    ((List.range' start count).foldl bitmapSet m).usedPages = m.usedPages + count := by
  induction count generalizing m start with
  | zero => simp
  | succ count ih =>
    obtain ⟨hlt, hu⟩ := h start le_rfl (by omega)
    have hset := bitmapSet_free hlt hu
    have hrest : (m.bitmapSet start).FreeRun (start + 1) count := by
      intro q hq hq'
      rw [hset]
      dsimp only
      rw [update_of_ne (by omega)]
      exact h q (by omega) (by omega)
    obtain ⟨hused, hpages⟩ := ih hrest
    rw [List.range'_succ, foldl_cons]
    refine ⟨fun q => ?_, ?_⟩
    · rw [hused, hset]
      dsimp only
      by_cases hq : q = start
      · simp [hq]
      rw [update_of_ne hq]
      congr 2
      simp only [eq_iff_iff]
      omega
    · rw [hpages, hset]
      dsimp only
      omega

/-- The call returns the address of a free run, and sets the bits of the run. -/
def Takes (m : Pmm) (count : Nat) (r : Pmm × UInt64) : Prop :=
  ∃ start, m.FreeRun start count ∧ r.2 = pageAddr start ∧ r.2 ≠ 0 ∧
    (∀ p, r.1.used p = (m.used p || decide (start ≤ p ∧ p < start + count))) ∧
    r.1.usedPages = m.usedPages + count

/-- The call returns zero, and there is no free run. -/
def Refuses (m : Pmm) (count : Nat) (r : Pmm × UInt64) : Prop :=
  r = (m, 0) ∧ ∀ start, ¬ m.FreeRun start count

theorem takeRun_takes (h0 : m.used 0 = true) (hc : 1 ≤ count) (h : m.FreeRun start count) :
    m.Takes count (m.takeRun start count) := by
  obtain ⟨hused, hpages⟩ := foldl_bitmapSet h
  refine ⟨start, h, rfl, ?_, hused, hpages⟩
  obtain ⟨hlt, hfree⟩ := h start le_rfl (by omega)
  intro hz
  rw [(pageAddr_eq_zero hlt).mp hz, h0] at hfree
  cases hfree

theorem pmmAllocPage_serves (h0 : m.used 0 = true) :
    m.Takes 1 m.pmmAllocPage ∨ m.Refuses 1 m.pmmAllocPage := by
  rw [pmmAllocPage_eq]
  cases hfs : m.freePages with
  | nil =>
    refine .inr ⟨rfl, fun s hrun => ?_⟩
    have hmem := mem_freePages.mpr (hrun s le_rfl (by omega))
    rw [hfs] at hmem
    cases hmem
  | cons p fs =>
    refine .inl (takeRun_takes h0 le_rfl fun q hq hq' => ?_)
    rw [show q = p by omega]
    exact mem_freePages.mp (hfs ▸ mem_cons_self)

/-- With page zero reserved, the allocators serve a request from a free run if there is one,
wherever the hint is. -/
theorem pmmAllocPages_serves (h0 : m.used 0 = true) (hc : 1 ≤ count) :
    (m.Takes count (m.pmmAllocPages count) ∨ m.Refuses count (m.pmmAllocPages count)) ∧
      (m.Takes 1 m.pmmAllocPage ∨ m.Refuses 1 m.pmmAllocPage) := by
  refine ⟨?_, pmmAllocPage_serves h0⟩
  unfold pmmAllocPages
  rw [if_neg (by omega)]
  split
  · next hone =>
    rw [hone]
    exact pmmAllocPage_serves h0
  split
  · next hs => exact .inl (takeRun_takes h0 hc (findRun_some hs (.inl rfl)))
  rename_i hhigh
  split
  · next hzero =>
    refine .inr ⟨rfl, fun s hrun => ?_⟩
    rw [hzero] at hhigh
    have hle := hrun.le hc
    exact findRun_none hhigh hc le_rfl (Nat.zero_le _) (by omega) hrun
  split
  · next hs => exact .inl (takeRun_takes h0 hc (findRun_some hs (.inl rfl)))
  rename_i hall
  refine .inr ⟨rfl, fun s hrun => ?_⟩
  have hle := hrun.le hc
  exact findRun_none hall hc le_rfl (Nat.zero_le _) (by omega) hrun

/-- The first two megabytes are reserved, and the hint is behind them. -/
def lowReserved : Pmm := { used := fun p => decide (p < 512), usedPages := 512, lastPage := 600 }

theorem pmmAllocPages_serves_lowReserved : (lowReserved.Takes 3 (lowReserved.pmmAllocPages 3) ∨
        lowReserved.Refuses 3 (lowReserved.pmmAllocPages 3)) ∧
      (lowReserved.Takes 1 lowReserved.pmmAllocPage ∨
        lowReserved.Refuses 1 lowReserved.pmmAllocPage) :=
  pmmAllocPages_serves (by decide) (by decide)

end Pmm

end Kil0yOS.Mm
