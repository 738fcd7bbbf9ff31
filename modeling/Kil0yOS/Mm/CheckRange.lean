/-
`uvm_check_range`: what it accepts is mapped for the user, when the page tables it
walks are those of the process.

The regions a process has are kept clear of kernel pages by every call that maps,
protects or unmaps a range, so that a page in a region is the user's as soon as it is
there.  The check looks for it in the tables in use, though, and these may be
another process's.
-/
import Kil0yOS.Mm.MapFailure

namespace Kil0yOS.Mm

open Lib Option Memory Pmm

variable {m m' : Memory} {a active v x : Nat} {addr len : UInt64} {s : Space}

/-- Every byte of a range that passes the check is on a USER page of the process. -/
def CheckSound (m : Memory) (a active : Nat) : Prop :=
  ∀ addr len, m.uvmCheckRange a active addr len = true →
    ∀ x, addr.toNat ≤ x → x < addr.toNat + len.toNat →
      (userPage (m.space a) (x / 4096)).isSome = true

/-- The pages of the regions that the tables in use show are there in the tables of
the process. -/
def TablesAgree (m : Memory) (a active : Nat) : Prop :=
  ∀ v, v * 4096 < 2 ^ 64 → inRegion (m.mm a) (pageAddr v) = true →
    vmmGetPhys (m.space active) v ≠ 0 → isPresent (m.space a) v = true

/-- Calls on ranges: all but `fork`. -/
def Ranged (_ : Memory) : Op → Prop
  | .fork _ _ => False
  | _ => True

theorem RegionsClear.step {op : Op} (h : RegionsClear m) (hop : Ranged m op)
    (hstep : m.Step op m') : RegionsClear m' := by
  obtain ⟨-, he⟩ := hstep
  cases op with
  | mapRange a start stop prot =>
    obtain ⟨⟨m₁, ok⟩, hm, rfl⟩ := map_eq_some_iff.mp he
    exact h.uvmMapRange hm
  | unmapRange a start stop =>
    cases he
    exact h.uvmUnmapRange
  | changeProt a active start stop prot =>
    obtain ⟨⟨m₁, ok⟩, hm, rfl⟩ := map_eq_some_iff.mp he
    exact h.uvmChangeProt hm
  | mmapAnon a hint len prot fixed =>
    obtain ⟨⟨m₁, addr⟩, hm, rfl⟩ := map_eq_some_iff.mp he
    exact h.uvmMmapAnon hm
  | fork p c => cases hop
  | releaseMm a =>
    cases he
    exact h.uvmReleaseMm a

/-- A check that passes has found the page of each byte. -/
theorem page_of_uvmCheckRange (hc : m.uvmCheckRange a active addr len = true)
    (hlo : addr.toNat ≤ x) (hhi : x < addr.toNat + len.toNat) :
    inRegion (m.mm a) (pageAddr (x / 4096)) = true ∧
      vmmGetPhys (m.space active) (x / 4096) ≠ 0 ∧ x / 4096 * 4096 < 2 ^ 64 := by
  have hsum := UInt64.toNat_add addr len
  have hlen := len.toNat_lt
  unfold uvmCheckRange at hc
  split at hc
  · next hz =>
    rw [hz] at hhi
    exact absurd hhi (Nat.not_lt.mpr hlo)
  split at hc
  · cases hc
  rename_i hwrap
  rw [UInt64.lt_iff_toNat_lt] at hwrap
  have hdown : (pageDown addr).toNat = addr.toNat / 4096 * 4096 := toNat_and_not_low addr
  have hpage : x / 4096 ∈ pagesOf (pageDown addr) (addr + len) := by
    rw [mem_pagesOf (pageDown_aligned _)]
    omega
  have hfound := List.all_eq_true.mp hc _ hpage
  rw [Bool.and_eq_true, decide_eq_true_eq] at hfound
  exact ⟨hfound.1, hfound.2, by omega⟩

/-- A check of the first byte of a page passes when the page is in a region and
found. -/
theorem uvmCheckRange_page (hv : v * 4096 < 2 ^ 64)
    (hin : inRegion (m.mm a) (pageAddr v) = true)
    (hphys : vmmGetPhys (m.space active) v ≠ 0) :
    m.uvmCheckRange a active (pageAddr v) 1 = true := by
  have haddr := toNat_pageAddr_of_lt hv
  have hsum : (pageAddr v + 1).toNat = v * 4096 + 1 := by
    rw [UInt64.toNat_add, haddr]
    show (v * 4096 + 1) % 2 ^ 64 = _
    omega
  have haligned : (pageAddr v).toNat % 4096 = 0 := by omega
  rw [uvmCheckRange, if_neg (by decide), if_neg, pageDown_of_aligned haligned,
    List.all_eq_true]
  · intro u hu
    rw [mem_pagesOf haligned] at hu
    obtain rfl : u = v := by omega
    rw [hin, decide_eq_true hphys]
    rfl
  · rw [UInt64.lt_iff_toNat_lt]
    omega

theorem isPresent_of_userPage {p : Nat} (h : userPage s v = some p) : isPresent s v = true := by
  obtain ⟨page, entries, hs, -, hpres⟩ := table_of_userPage h
  rw [isPresent, vmmGetPte_of_table hs rfl]
  exact hpres

theorem isPresent_of_vmmGetPhys (h : vmmGetPhys s v ≠ 0) : isPresent s v = true := by
  by_contra hp
  rw [Bool.not_eq_true] at hp
  exact h (vmmGetPhys_of_not_present hp (not_huge_of_not_present hp))

/-- The check of a process whose own tables are in use. -/
theorem TablesAgree.own (m : Memory) (a : Nat) : TablesAgree m a a :=
  fun _ _ _ hphys => isPresent_of_vmmGetPhys hphys

theorem lastMapped_reach : Reach Memory.Booted Ranged Memory.Step lastMapped :=
  .next _ (.start lastTwo_booted) (by trivial) lastTwo_step

end Kil0yOS.Mm
