/-
`uvm_unmap_range`: what goes, and what stays.

The pages of the range are taken out of the tables, and the regions are cut.  A region
that reaches over both ends of the range keeps the part before it.  The pages behind it
stay in the tables, but in no region, so that they are neither accepted nor released.
All of this is about addresses below 2^48: from there on the walk, which takes nine bits of
an address for each of its four levels, comes to the entries of pages further down.
-/
import Kil0yOS.Mm.CheckRange

namespace Kil0yOS.Mm

open List Memory UInt64

/-! ## The promise -/

/-- `uvm_check_range` accepts the page, with the tables of the process in use. -/
def Memory.Accepts (m : Memory) (a v : Nat) : Prop :=
  v * 4096 < 2 ^ 64 ∧ m.uvmCheckRange a a (Pmm.pageAddr v) 1 = true

/-- The page as it is found in the tables and given back. -/
def Memory.freedPage (m : Memory) (a v : Nat) : Freed :=
  { space := a, vpage := v, page := vmmGetPhys (m.space a) v, user := userPage (m.space a) v }

/-- `uvm_release_mm` takes the page out of the tables and gives its frame back. -/
def Memory.Releases (m : Memory) (a v : Nat) : Prop :=
  userPage ((m.uvmReleaseMm a).space a) v = none ∧
    m.freed.count (m.freedPage a v) < (m.uvmReleaseMm a).freed.count (m.freedPage a v)

structure UnmapExact (m : Memory) (a : Nat) (s e : UInt64) : Prop where
  gone : ∀ v ∈ pagesOf s e, userPage ((m.uvmUnmapRange a s e).space a) v = none ∧
    ¬ (m.uvmUnmapRange a s e).Accepts a v
  kept : ∀ v ∉ pagesOf s e, m.Accepts a v → (m.uvmUnmapRange a s e).Accepts a v ∧
    vmmGetPhys ((m.uvmUnmapRange a s e).space a) v = vmmGetPhys (m.space a) v ∧
    (m.uvmUnmapRange a s e).Releases a v

def Region.Holds (r : Region) (v : Nat) : Prop :=
  r.used = true ∧ r.start.toNat ≤ v * 4096 ∧ v * 4096 < r.stop.toNat

/-- No USER page of the range is in frame zero, which the loop takes for none, and each
page behind the range that a region holds is held by one that begins with the range or
behind its start. -/
structure CutClean (m : Memory) (a : Nat) (s e : UInt64) : Prop where
  frame : ∀ v ∈ pagesOf s e, userPage (m.space a) v = none ∨ vmmGetPhys (m.space a) v ≠ 0
  tail : ∀ v, e.toNat ≤ v * 4096 → vmmGetPhys (m.space a) v ≠ 0 →
    (∃ r ∈ (m.mm a).regions, r.Holds v) → ∃ r ∈ (m.mm a).regions, r.Holds v ∧ s ≤ r.start

/-- A range of whole pages.  Its pages and those of the process have entries of their own. -/
structure OwnEntries (m : Memory) (a : Nat) (s e : UInt64) : Prop where
  start : s.toNat % 4096 = 0
  stop : e.toNat % 4096 = 0
  le : s ≤ e
  range : e.toNat ≤ 2 ^ 48
  regions : ∀ r ∈ (m.mm a).regions, r.used = true → r.stop.toNat ≤ 2 ^ 48

variable {m : Memory} {a p u v : Nat} {vs : List Nat} {s e : UInt64} {r : Region}

/-! ## Regions -/

theorem inRegion_iff {mm : AddressSpace} (hv : v * 4096 < 2 ^ 64) :
    inRegion mm (Pmm.pageAddr v) = true ↔ ∃ r ∈ mm.regions, r.Holds v := by
  simp [inRegion, le_iff_toNat_le, lt_iff_toNat_lt, Pmm.toNat_pageAddr_of_lt hv,
      Region.Holds, and_assoc]

theorem accepts_iff : m.Accepts a v ↔
    v * 4096 < 2 ^ 64 ∧ (∃ r ∈ (m.mm a).regions, r.Holds v) ∧ vmmGetPhys (m.space a) v ≠ 0 := by
  refine and_congr_right fun hv => ?_
  rw [← inRegion_iff hv]
  constructor
  · intro hc
    have haddr := Pmm.toNat_pageAddr_of_lt hv
    have hpage := page_of_uvmCheckRange hc haddr.le (by rw [haddr]; exact Nat.lt_succ_self _)
    rw [Nat.mul_div_cancel v (by decide)] at hpage
    exact ⟨hpage.1, hpage.2.1⟩
  · intro hc
    exact uvmCheckRange_page hv hc.1 hc.2

/-- A region that begins before the range loses what is behind it. -/
theorem holds_cutRegion (hse : s ≤ e) : (cutRegion s e r).Holds v ↔
    r.Holds v ∧ (v * 4096 < s.toNat ∨ e.toNat ≤ v * 4096 ∧ s ≤ r.start) := by
  unfold cutRegion Region.Holds
  simp only [le_iff_toNat_le, lt_iff_toNat_lt] at hse ⊢
  split
  · grind
  · split
    · grind
    · split <;> grind

/-! ## Pages -/

theorem vmmGetPhys_of_pte {s s' : Space} (h : userPage s v = some p)
    (hpte : vmmGetPte s' v = vmmGetPte s v) : vmmGetPhys s' v = vmmGetPhys s v := by
  rw [vmmGetPhys_of_user h, vmmGetPhys_of_user ((SameView.of_pte hpte).1.trans h), hpte]

theorem pte_releasePage (hp : userPage (m.space a) v = some p)
    (hv : v = u → vmmGetPhys (m.space a) v = 0) :
    vmmGetPte ((releasePage a m u).space a) v = vmmGetPte (m.space a) v := by
  by_cases hz : vmmGetPhys (m.space a) u = 0
  · rw [releasePage_of_zero hz]
  rw [space_releasePage_self hz]
  have hne : v ≠ u := by
    rintro rfl
    exact hz (hv rfl)
  obtain ⟨page, entries, hs, -, -⟩ := table_of_userPage hp
  cases hw : m.space a (windowOf u) with
  | absent => rw [vmmUnmapPage, hw]
  | huge x =>
    have hwv : windowOf v ≠ windowOf u := by
      intro hwv
      rw [← hwv, hs] at hw
      cases hw
    simp only [vmmUnmapPage, hw, vmmGetPte, Function.update_of_ne hwv]
  | table page entries =>
    rw [vmmUnmapPage_table hw]
    exact vmmGetPte_setPte_same hne fun hwv => (vmmGetPte_of_table hw hwv).symm

theorem pte_releasePages (hp : userPage (m.space a) v = some p)
    (hv : v ∈ vs → vmmGetPhys (m.space a) v = 0) :
    vmmGetPte ((vs.foldl (releasePage a) m).space a) v = vmmGetPte (m.space a) v := by
  induction vs generalizing m with
  | nil => rfl
  | cons u vs ih =>
    have hone := pte_releasePage hp fun hu => hv (hu ▸ mem_cons_self)
    refine (ih ((SameView.of_pte hone).1.trans hp) fun hmem => ?_).trans hone
    rw [vmmGetPhys_of_pte hp hone]
    exact hv (mem_cons_of_mem u hmem)

theorem userPage_releasePages (h : userPage (m.space a) v = none) (vs : List Nat) :
    userPage ((vs.foldl (releasePage a) m).space a) v = none := by
  induction vs generalizing m with
  | nil => exact h
  | cons u vs ih =>
    apply ih
    by_cases hz : vmmGetPhys (m.space a) u = 0
    · rw [releasePage_of_zero hz]
      exact h
    rw [space_releasePage_self hz]
    rcases vmmGetPte_vmmUnmapPage (m.space a) u v with hpte | hpte
    · rw [userPage, hpte]
      rfl
    · exact (SameView.of_pte hpte).1.trans h

theorem freed_sublist (m : Memory) (vs : List Nat) :
    m.freed <+ (vs.foldl (releasePage a) m).freed := by
  induction vs generalizing m with
  | nil => exact .refl _
  | cons u vs ih =>
    refine .trans ?_ (ih _)
    by_cases hz : vmmGetPhys (m.space a) u = 0
    · rw [releasePage_of_zero hz]
    · rw [(releasePage_of_ne_zero hz).2.2]
      exact sublist_cons_self _ _

/-- A page of the list that is in use goes, and its frame is given back. -/
theorem releasePages_of_mem (hv : v ∈ vs) (hp : userPage (m.space a) v = some p)
    (hz : vmmGetPhys (m.space a) v ≠ 0) :
    userPage ((vs.foldl (releasePage a) m).space a) v = none ∧
      m.freed.count (m.freedPage a v) <
        (vs.foldl (releasePage a) m).freed.count (m.freedPage a v) := by
  induction vs generalizing m with
  | nil => cases hv
  | cons u vs ih =>
    by_cases hu : v = u
    · subst hu
      refine ⟨userPage_releasePages ?_ vs, Nat.lt_of_lt_of_le ?_ ((freed_sublist _ vs).count_le _)⟩
      · rw [space_releasePage_self hz, userPage, (vmmUnmapPage_spec hp).1]
        rfl
      · rw [(releasePage_of_ne_zero hz).2.2, vmmGetPhys_of_user hp, and_not_low_addr,
          ← vmmGetPhys_of_user hp]
        exact Nat.lt_of_lt_of_eq (Nat.lt_succ_self _) (count_cons_self).symm
    · have hone := pte_releasePage hp fun h => absurd h hu
      have huser := (SameView.of_pte hone).1
      have hphys := vmmGetPhys_of_pte hp hone
      have hlog : (releasePage a m u).freedPage a v = m.freedPage a v := by
        rw [freedPage, huser, hphys, freedPage]
      obtain ⟨hnone, hlt⟩ := ih ((mem_cons.mp hv).resolve_left hu) (huser.trans hp) (hphys ▸ hz)
      rw [hlog] at hlt
      exact ⟨hnone, Nat.lt_of_le_of_lt ((freed_sublist m [u]).count_le _) hlt⟩

theorem RegionsClear.user_of_accepts (h : RegionsClear m) (hv : m.Accepts a v) :
    v ∈ regionPages (m.mm a).regions ∧ ∃ p, userPage (m.space a) v = some p := by
  obtain ⟨-, ⟨r, hr, hu, hlo, hhi⟩, hz⟩ := accepts_iff.mp hv
  have hok := h a r hr hu
  refine ⟨mem_flatMap.mpr ⟨r, hr, ?_⟩, (hok.clear v hlo hhi).releasable.resolve_right hz⟩
  rw [if_pos hu]
  exact (mem_pagesOf hok.aligned).mpr ⟨hlo, hhi⟩

theorem RegionsClear.releases (h : RegionsClear m) (hv : m.Accepts a v) : m.Releases a v := by
  obtain ⟨hmem, p, hp⟩ := h.user_of_accepts hv
  unfold Memory.Releases Memory.uvmReleaseMm
  rw [releaseRegions_eq]
  rw [space_setMm (by simp)]
  exact releasePages_of_mem hmem hp (accepts_iff.mp hv).2.2

/-! ## The range -/

theorem pageUp_of_aligned {x : UInt64} (h : x.toNat % 4096 = 0) : pageUp x = x := by
  have hlt := x.toNat_lt
  have hsum : (x + 0xFFF).toNat = (x.toNat + 0xFFF) % 2 ^ 64 := UInt64.toNat_add x 0xFFF
  unfold pageUp
  rw [← UInt64.toNat_inj, toNat_and_not_low]
  omega

def threeMapped : Memory := boot.run (.mapRange 0 0x10000000 0x10003000 uvmProtWrite)

theorem threeMapped_clear : RegionsClear threeMapped := by
  have hstep : boot.Step (.mapRange 0 0x10000000 0x10003000 uvmProtWrite) threeMapped :=
    step_run (by decide) (by decide +kernel)
  exact (RegionsClear.of_booted boot_booted).step (by trivial) hstep

theorem threeMapped_stop : ∀ r ∈ (threeMapped.mm 0).regions, r.stop.toNat ≤ 0x10003000 := by
  decide +kernel

theorem threeMapped_entries {s e : UInt64} (hs : s.toNat % 4096 = 0) (he : e.toNat % 4096 = 0)
    (hse : s ≤ e) (hrange : e.toNat ≤ 2 ^ 48) : OwnEntries threeMapped 0 s e :=
  ⟨hs, he, hse, hrange, fun r hr _ => (threeMapped_stop r hr).trans (by decide)⟩

end Kil0yOS.Mm
