/-
The figures of `pmm_get_stats` of `mm/memory.c`, over whole runs.

The counter of used pages follows every bit that is set or cleared.  The figures take the
pages above the top of memory out of it, as if they were all in use: they are, unless the
last usable byte lies inside of a page, or a page above is given back.
-/
import Mathlib.Order.Interval.Finset.Nat
import Mathlib.Data.Nat.Count
import Kil0yOS.Mm.BootPages

namespace Kil0yOS.Mm

open Function List BootPmm

structure PmmStats where
  total : Nat
  used : Nat
  free : Nat

def BootPmm.total (s : BootPmm) : Nat :=
  let total := s.ramTop.toNat / 4096
  if total = 0 then pmmMaxPages else total

def BootPmm.pmmGetStats (s : BootPmm) : PmmStats :=
  let above := (2 ^ 64 + pmmMaxPages - s.total) % 2 ^ 64
  let used := (2 ^ 64 + s.pmm.usedPages - above) % 2 ^ 64
  let used := if used > s.total then s.total else used
  { total := s.total, used := used, free := s.total - used }

inductive PmmCall
  | allocPage
  | allocPages (count : Nat)
  | freePage (phys : UInt64)
  | freePages (phys : UInt64) (count : Nat)
  | markRegion (base length : UInt64) (used : Bool)

namespace PmmCall

def run (s : BootPmm) (c : PmmCall) : BootPmm :=
  { s with
    pmm :=
      match c with
      | allocPage => s.pmm.pmmAllocPage.1
      | allocPages count => (s.pmm.pmmAllocPages count).1
      | freePage phys => s.pmm.pmmFreePage phys
      | freePages phys count => s.pmm.pmmFreePages phys count
      | markRegion base length used => s.pmm.markRegion base length used }

/-- The pages a call gives back. -/
def Frees : PmmCall → Nat → Prop
  | allocPage, _ => False
  | allocPages _, _ => False
  | freePage phys, p => p = (phys / 4096).toNat
  | freePages phys count, p => ∃ i < count, p = ((phys + UInt64.ofNat i * 4096) / 4096).toNat
  | markRegion base length used, p => used = false ∧ Marks base length p

end PmmCall

/-! ## Counting bits -/

variable {m : Pmm} {s : BootPmm} {p n total used : Nat}

/-- The set bits among the first `n`. -/
def Pmm.setBelow (m : Pmm) (n : Nat) : Nat := Nat.count (fun p => m.used p = true) n

theorem count_update (f : Nat → Bool) (p : Nat) (b : Bool) (n : Nat) :
    Nat.count (fun q => update f p b q = true) n + (if p < n then (f p).toNat else 0) =
      Nat.count (fun q => f q = true) n + if p < n then b.toNat else 0 := by
  induction n with
  | zero => rfl
  | succ n ih =>
    rw [Nat.count_succ, Nat.count_succ]
    by_cases hp : n = p
    · subst hp
      simp only [Nat.lt_irrefl, if_false, Nat.lt_succ_self, if_true] at ih ⊢
      cases f n <;> cases b <;> simp <;> omega
    rw [update_of_ne hp]
    have hlt : p < n + 1 ↔ p < n := by omega
    simp only [hlt]
    omega

theorem setBelow_set (hp : p < n) (hfree : m.used p = false) :
    Pmm.setBelow { m with used := update m.used p true, usedPages := used } n =
      m.setBelow n + 1 := by
  have hcount := count_update m.used p true n
  rwa [if_pos hp, if_pos hp, hfree] at hcount

theorem setBelow_clear (hp : p < n) (hset : m.used p = true) :
    Pmm.setBelow { m with used := update m.used p false, usedPages := used } n =
      m.setBelow n - 1 := by
  have hcount := count_update m.used p false n
  rw [if_pos hp, if_pos hp, hset] at hcount
  exact Nat.eq_sub_of_add_eq hcount

/-- The counter is right, and the pages from `total` on are in use. -/
structure Tracked (total : Nat) (m : Pmm) : Prop where
  counted : m.usedPages = m.setBelow pmmMaxPages
  high : ∀ p, total ≤ p → p < pmmMaxPages → m.used p = true

namespace Tracked

section

variable (h : Tracked total m)
include h

theorem bitmapSet (p : Nat) : Tracked total (m.bitmapSet p) := by
  unfold Pmm.bitmapSet
  split
  · next hp =>
    refine ⟨?_, fun q hq hq' => ?_⟩
    · rw [setBelow_set hp.1 hp.2, ← h.counted]
    show update m.used p true q = true
    by_cases hqp : q = p
    · simp [hqp]
    · rw [update_of_ne hqp]
      exact h.high q hq hq'
  · exact h

theorem bitmapClear (hp : p < total ∨ pmmMaxPages ≤ p) : Tracked total (m.bitmapClear p) := by
  unfold Pmm.bitmapClear
  split
  · next hset =>
    refine ⟨?_, fun q hq hq' => ?_⟩
    · rw [setBelow_clear hset.1 hset.2, ← h.counted]
    · show update m.used p false q = true
      rw [update_of_ne (by omega)]
      exact h.high q hq hq'
  · exact h

theorem pmmAllocPage : Tracked total m.pmmAllocPage.1 := by
  have htake : ∀ p, Tracked total (m.take p).1 := fun p =>
    ⟨(h.bitmapSet p).counted, (h.bitmapSet p).high⟩
  unfold Pmm.pmmAllocPage
  split
  · exact htake _
  · split
    · exact htake _
    · exact h

theorem pmmAllocPages (count : Nat) : Tracked total (m.pmmAllocPages count).1 := by
  have htake : ∀ start, Tracked total (m.takeRun start count).1 := by
    intro start
    have hset : Tracked total ((List.range' start count).foldl Pmm.bitmapSet m) :=
      foldlRecOn _ _ h fun m hm p _ => hm.bitmapSet p
    exact { hset with }
  unfold Pmm.pmmAllocPages
  split
  · exact h
  split
  · exact h.pmmAllocPage
  split
  · exact htake _
  split
  · exact h
  · split
    · exact htake _
    · exact h

theorem pmmFreePage {phys : UInt64}
    (hp : (phys / 4096).toNat < total ∨ pmmMaxPages ≤ (phys / 4096).toNat) :
    Tracked total (m.pmmFreePage phys) := by
  unfold Pmm.pmmFreePage
  split
  · exact h
  · exact h.bitmapClear hp

theorem markRegion {base length : UInt64} {used : Bool}
    (hp : used = false → ∀ p, Marks base length p → p < total ∨ pmmMaxPages ≤ p) :
    Tracked total (m.markRegion base length used) := by
  refine foldlRecOn _ _ h fun m hm p hmem => ?_
  cases used with
  | true => exact hm.bitmapSet p
  | false => exact hm.bitmapClear (hp rfl p (Pmm.mem_markRegion.mp hmem).2)

end

/-- A call that gives no page above back. -/
theorem run (h : Tracked total s.pmm) {c : PmmCall}
    (hc : ∀ p, c.Frees p → p < total ∨ pmmMaxPages ≤ p) : Tracked total (c.run s).pmm := by
  cases c with
  | allocPage => exact h.pmmAllocPage
  | allocPages count => exact h.pmmAllocPages count
  | freePage phys => exact h.pmmFreePage (hc _ rfl)
  | freePages phys count =>
    exact foldlRecOn _ _ h fun m hm i hi =>
      hm.pmmFreePage (hc _ ⟨i, mem_range.mp hi, rfl⟩)
  | markRegion base length used => exact h.markRegion fun hu p hp => hc p ⟨hu, hp⟩

end Tracked

/-! ## What booting leaves -/

/-- Where the range ends, if pmm_init looks at it at all. -/
def Range.top (r : Range) : Nat := if r.base.toNat < 2 ^ 32 then r.stop else 0

def Boot.top (b : Boot) : Nat := (b.usable.map Range.top).foldr max 0

theorem ramTop_addUsable (r : Range) (s : BootPmm) :
    (s.addUsable r.base (UInt64.ofNat r.size)).ramTop.toNat = max s.ramTop.toNat r.top := by
  unfold BootPmm.addUsable Range.top
  by_cases hlow : r.base < pmmSpan
  · have hcut := r.cut_toNat
    rw [if_pos hlow, if_pos (show r.base.toNat < 2 ^ 32 from hlow)]
    dsimp only
    rw [noteUsable_ramTop, ← hcut]
    generalize (if r.base + UInt64.ofNat r.size > pmmSpan then pmmSpan - r.base
      else UInt64.ofNat r.size) = len
    split
    · next hgt => exact (Nat.max_eq_right (Nat.le_of_lt hgt)).symm
    · next hle => exact (Nat.max_eq_left (Nat.le_of_not_lt hle)).symm
  · rw [if_neg hlow, if_neg (show ¬ r.base.toNat < 2 ^ 32 from hlow), Nat.max_zero]

theorem ramTop_addRanges (s : BootPmm) (rs : List Range) :
    (addRanges s rs).ramTop.toNat = max s.ramTop.toNat ((rs.map Range.top).foldr max 0) := by
  induction rs generalizing s with
  | nil => exact (Nat.max_zero _).symm
  | cons r rs ih =>
    show (addRanges (s.addUsable r.base (UInt64.ofNat r.size)) rs).ramTop.toNat = _
    rw [ih, ramTop_addUsable, Nat.max_assoc]
    rfl

/-- The counter is right, and the free pages lie below the top of memory. -/
structure Topped (s : BootPmm) : Prop where
  counted : Tracked pmmMaxPages s.pmm
  top_le : s.ramTop.toNat ≤ 2 ^ 32
  below : ∀ p < pmmMaxPages, s.pmm.used p = false → p * 4096 < s.ramTop.toNat

theorem Topped.addUsable (h : Topped s) (r : Range) :
    Topped (s.addUsable r.base (UInt64.ofNat r.size)) := by
  have htop := ramTop_addUsable r s
  have hstop : r.stop ≤ 2 ^ 32 := Nat.min_le_right ..
  refine ⟨?_, ?_, fun p hp hfree => ?_⟩
  · unfold BootPmm.addUsable
    split
    · rw [noteUsable_pmm]
      exact h.counted.markRegion fun _ p _ => Nat.lt_or_ge p pmmMaxPages
    · exact h.counted
  · have hle := h.top_le
    unfold Range.top at htop
    split at htop <;> omega
  · rw [used_addUsable r s hp] at hfree
    split at hfree
    · next hmeets =>
      obtain ⟨hlow, -, hlt⟩ := hmeets
      rw [Range.top, if_pos hlow] at htop
      omega
    · have := h.below p hp hfree
      omega

/-- What pmm_init leaves. -/
theorem pmmInit_topped (b : Boot) :
    ∃ t, pmmInit b.hw b.mbInfoPhys bootPmm = some t ∧ Topped t ∧ t.ramTop.toNat = b.top := by
  have hstart : Topped bootPmm.allUsed := by
    refine ⟨⟨?_, fun _ _ _ => rfl⟩, by decide, fun p _ h => by cases h⟩
    exact (Nat.count_iff_forall.mpr fun _ _ => rfl).symm
  have hread : Topped (addRanges bootPmm.allUsed b.usable) :=
    foldlRecOn _ _ hstart fun s hs r _ => hs.addUsable r
  have hram := ramTop_addRanges bootPmm.allUsed b.usable
  rw [pmmInit_eq]
  generalize addRanges _ b.usable = t at hread hram ⊢
  generalize b.hw.reserved b.mbInfoPhys = areas
  have hreserved := foldlRecOn areas (fun m a => m.markRegion a.1 a.2 true) hread.counted
    fun _ hm _ _ => hm.markRegion fun hu => by cases hu
  refine ⟨_, rfl, ⟨hreserved, hread.top_le, fun p hp hfree => ?_⟩, hram.trans (Nat.zero_max _)⟩
  exact hread.below p hp ((used_reserve areas t.pmm hp).mp hfree).1

/-! ## The figures -/

theorem Topped.total_le (h : Topped s) : s.total ≤ pmmMaxPages := by
  have hle := h.top_le
  have hmax : pmmMaxPages = 1048576 := rfl
  unfold total
  dsimp only
  split <;> omega

/-- The set bits above the total. -/
def BootPmm.setAbove (s : BootPmm) (above : Nat) : Nat :=
  Nat.count (fun i => s.pmm.used (s.total + i) = true) above

/-- The figure for the used pages, from the set bits below and above the total. -/
theorem used_eq {above : Nat} (hcount : s.pmm.usedPages = s.pmm.setBelow pmmMaxPages)
    (habove : pmmMaxPages = s.total + above) :
    s.pmmGetStats.used = if s.pmm.setBelow s.total + s.setAbove above < above then s.total
      else s.pmm.setBelow s.total + s.setAbove above - above := by
  have hmax : pmmMaxPages = 1048576 := rfl
  have hlow : s.pmm.setBelow s.total ≤ s.total := Nat.count_le _
  have hhigh : s.setAbove above ≤ above := Nat.count_le _
  have hsub : (2 ^ 64 + pmmMaxPages - s.total) % 2 ^ 64 = above := by omega
  have hsplit : s.pmm.setBelow (s.total + above) = s.pmm.setBelow s.total + s.setAbove above :=
    Nat.count_add _ _ _
  rw [habove] at hcount
  unfold pmmGetStats
  dsimp only
  generalize s.pmm.setBelow s.total = low at *
  generalize s.setAbove above = high at *
  split <;> split <;> omega

/-- With a free page above the total and one below it, the figure is wrong. -/
theorem used_ne (h : Topped s) {q : Nat} (hp : p < s.total) (hq : s.total ≤ q)
    (hmax : q < pmmMaxPages) (hfree : s.pmm.used p = false) (hfree' : s.pmm.used q = false) :
    s.pmmGetStats.used ≠ s.pmm.setBelow s.total := by
  obtain ⟨above, habove⟩ := Nat.exists_eq_add_of_le h.total_le
  have hlow : s.pmm.setBelow s.total ≠ s.total := by
    intro heq
    rw [Nat.count_iff_forall.mp heq p hp] at hfree
    cases hfree
  have hhigh : s.setAbove above < above := by
    refine Nat.lt_of_le_of_ne (Nat.count_le _) fun heq => ?_
    have hset := Nat.count_iff_forall.mp heq (q - s.total) (by omega)
    rw [Nat.add_sub_cancel' hq, hfree'] at hset
    cases hset
  rw [used_eq h.counted.counted habove]
  split <;> omega

theorem total_run (s : BootPmm) (calls : List PmmCall) :
    (calls.foldl PmmCall.run s).total = s.total := by
  induction calls generalizing s with
  | nil => rfl
  | cons c calls ih => exact ih (c.run s)

/-- When the memory ends with a page, and no page above it is given back, the figures are
right after every run. -/
theorem pmmGetStats_exact (b : Boot) (hb : b.top % 4096 = 0) :
    ∃ t, pmmInit b.hw b.mbInfoPhys bootPmm = some t ∧ ∀ calls : List PmmCall,
      (∀ c ∈ calls, ∀ p, c.Frees p → p < t.pmmGetStats.total ∨ pmmMaxPages ≤ p) →
      let s := calls.foldl PmmCall.run t
      s.pmmGetStats.used = s.pmm.setBelow s.pmmGetStats.total ∧
        s.pmmGetStats.free = s.pmmGetStats.total - s.pmmGetStats.used := by
  obtain ⟨t, ht, htop, hram⟩ := pmmInit_topped b
  refine ⟨t, ht, fun calls hcalls => ⟨?_, rfl⟩⟩
  have hstart : Tracked t.total t.pmm := by
    refine ⟨htop.counted.counted, fun p hp hp' => ?_⟩
    by_contra hfree
    have hlt := htop.below p hp' (Bool.eq_false_iff.mpr hfree)
    unfold total at hp
    dsimp only at hp
    split at hp <;> omega
  have hrun : Tracked t.total (calls.foldl PmmCall.run t).pmm :=
    foldlRecOn (motive := fun s => Tracked t.total s.pmm) calls PmmCall.run hstart
      fun s hs c hc => show Tracked t.total (c.run s).pmm from hs.run (hcalls c hc)
  have hle := htop.total_le
  rw [← total_run t calls] at hrun hle
  obtain ⟨above, habove⟩ := Nat.exists_eq_add_of_le hle
  have hall : (calls.foldl PmmCall.run t).setAbove above = above :=
    Nat.count_iff_forall.mpr fun i hi => hrun.high _ (Nat.le_add_right ..) (by omega)
  rw [used_eq hrun.counted habove, hall, if_neg (by omega), Nat.add_sub_cancel]
  rfl

def sixteenMap : Lib.Bytes :=
  (Lib.Bytes.put32 (fun _ => 0) 0 7).put64 8 0x300000 |>.put64 24 16

theorem sixteenMap_desc : EfiDesc.At sixteenMap 0 ⟨7, 0x300000, 16⟩ :=
  ⟨by decide +kernel, by decide +kernel, by decide +kernel⟩

/-- A machine whose firmware reports sixteen pages from 3 MiB on. -/
def sixteenPages : Boot where
  hw :=
    { mem := fun _ => 0, kernelStart := 0x100000, kernelEnd := 0x180000, bitmap := 0x120000
      fbBase := 0, fbSize := 0, efi := some { map := sixteenMap, size := 40, descSize := 40 } }
  mbInfoPhys := 0
  tags := []
  descs := [⟨7, 0x300000, 16⟩]
  info := fun h => absurd rfl h
  no_info := fun _ => rfl
  report := by
    rintro e ⟨⟩
    refine ⟨fun i hi => ?_, rfl, by decide, by decide, by decide⟩
    obtain rfl : i = 0 := Nat.lt_one_iff.mp hi
    exact sixteenMap_desc
  no_report := fun h => nomatch h
  kernel := by decide

/-- Single pages and runs of them are taken and given back, and a device's memory is marked
and later freed. -/
def sixteenCalls : List PmmCall :=
  [.allocPage, .allocPages 3, .markRegion 0x308000 0x2000 true, .freePage 0x300000,
    .freePages 0x301000 3, .markRegion 0x308000 0x2000 false, .allocPages 2]

theorem pmmGetStats_exact_sixteenPages :
    ∃ t, pmmInit sixteenPages.hw sixteenPages.mbInfoPhys bootPmm = some t ∧
      t.pmmGetStats.total = 0x310 ∧
      (sixteenCalls.foldl PmmCall.run t).pmmGetStats.used =
        (sixteenCalls.foldl PmmCall.run t).pmm.setBelow 0x310 := by
  obtain ⟨t, ht, hruns⟩ := pmmGetStats_exact sixteenPages (by decide)
  have htotal : t.pmmGetStats.total = 0x310 := by
    obtain ⟨u, hu, -, hram⟩ := pmmInit_topped sixteenPages
    obtain rfl : t = u := Option.some.inj (ht.symm.trans hu)
    show t.total = 0x310
    unfold total
    rw [hram]
    decide
  have hused := (hruns sixteenCalls ?_).1
  · rw [show (sixteenCalls.foldl PmmCall.run t).pmmGetStats.total = t.pmmGetStats.total from
      total_run t _, htotal] at hused
    exact ⟨t, ht, htotal, hused⟩
  rw [htotal]
  have hrun : ∀ i < 3, (((0x301000 : UInt64) + UInt64.ofNat i * 4096) / 4096).toNat < 0x310 := by
    decide
  simp only [sixteenCalls, forall_mem_cons, PmmCall.Frees]
  refine ⟨nofun, nofun, nofun, ?_, ?_, ?_, nofun, nofun⟩
  · rintro p rfl
    decide
  · rintro p ⟨i, hi, rfl⟩
    exact .inl (hrun i hi)
  · exact fun p hp => .inl (hp.2.2.trans (by decide))

/-- Usable ranges that end in the middle of a page: the page is given out, and counted as
one above the top. -/
theorem halfPage_stats :
    ∃ t, pmmInit halfPage.hw halfPage.mbInfoPhys bootPmm = some t ∧
      t.pmmGetStats.used ≠ t.pmm.setBelow t.pmmGetStats.total := by
  obtain ⟨t, ht, htop, hram⟩ := pmmInit_topped halfPage
  have htotal : t.total = 0x301 := by
    unfold total
    rw [hram]
    decide
  have hbits : ∀ p ∈ [0x300, 0x301], t.pmm.used p = false := by
    obtain ⟨u, hu, hused⟩ := pmmInit_used halfPage bootPmm
    obtain rfl : t = u := Option.some.inj (ht.symm.trans hu)
    have hmet : ∀ p ∈ [0x300, 0x301], p < pmmMaxPages ∧ halfPage.Met p ∧ ¬ halfPage.Marked p := by
      unfold Boot.Met Boot.Marked
      decide +kernel
    exact fun p hp => (hused p (hmet p hp).1).mpr (hmet p hp).2
  refine ⟨t, ht, used_ne htop (p := 0x300) (q := 0x301) ?_ ?_ (by decide) ?_ ?_⟩
  · rw [htotal]
    decide
  · rw [htotal]
  all_goals exact hbits _ (by simp)

end Kil0yOS.Mm
