/-
Page tables below four gigabytes: `vmm_map_page`, `vmm_unmap_page`, `vmm_get_pte`
and `vmm_get_phys` of `mm/memory.c`.

Virtual pages are numbered, and 512 of them form the window of one page-directory
entry.  The two levels above are present in every address space the kernel
makes, so that the directory of 2048 windows is all there is to walk.  A window is
empty, or one 2 MiB page of the identity map, or a table of 4 KiB entries in a
page of its own.  An access through the identity map reaches the page it names.
The walk takes nine bits of an address for each level.  That cut is not made here,
so up to 2^48 a page is looked up and unmapped as in the source, and mapped so where
the upper levels are present, below four gigabytes.
-/
import Mathlib.Tactic.IntervalCases
import Kil0yOS.Mm.Pmm

namespace Kil0yOS.Mm

open Function

def vmmPresent : UInt64 := 0x001
def vmmWritable : UInt64 := 0x002
def vmmUser : UInt64 := 0x004
def vmmHuge : UInt64 := 0x080
def vmmNx : UInt64 := 0x8000000000000000

def addrMask : UInt64 := 0x000FFFFFFFFFF000

def hasFlag (e f : UInt64) : Bool := e &&& f != 0

def vmmMakeEntry (phys flags : UInt64) : UInt64 :=
  (phys &&& ~~~0xFFF) ||| (flags &&& 0xFFF) ||| (flags &&& vmmNx) ||| vmmPresent

variable (e : UInt64)

def entryPage : Nat := (e &&& addrMask).toNat / 4096

/-- A 2 MiB entry of the identity map.  The kernel makes these at boot, for itself
only. -/
structure HugeEntry where
  entry : UInt64
  present : hasFlag entry vmmPresent = true
  supervisor : hasFlag entry vmmUser = false

inductive PdEntry
  | absent
  | huge (e : HugeEntry)
  /-- A page table and the page it is kept in. -/
  | table (page : Nat) (entries : Nat → UInt64)

abbrev Space := Nat → PdEntry

def windowOf (v : Nat) : Nat := v / 512

def slotOf (v : Nat) : Nat := v % 512

variable (s : Space) {p : Nat}

def vmmGetPte (v : Nat) : UInt64 :=
  match s (windowOf v) with
  | .absent => 0
  | .huge e => e.entry
  | .table _ entries => entries (slotOf v)

/-- `vmm_get_phys` for the first address of a page. -/
def vmmGetPhys (v : Nat) : UInt64 :=
  match s (windowOf v) with
  | .absent => 0
  | .huge e => (e.entry &&& 0x0FFFFFFFFFF00000) ||| (UInt64.ofNat (v * 4096) &&& 0x1FFFFF)
  | .table _ entries =>
    if hasFlag (entries (slotOf v)) vmmPresent then entries (slotOf v) &&& addrMask else 0

def vmmUnmapPage (v : Nat) : Space :=
  match s (windowOf v) with
  | .absent => s
  | .huge _ => update s (windowOf v) .absent
  | .table page entries =>
    update s (windowOf v) (.table page (update entries (slotOf v) 0))

def setPte (v page : Nat) (entries : Nat → UInt64) (e : UInt64) : Space :=
  update s (windowOf v) (.table page (update entries (slotOf v) e))

/-- The 4 KiB entries a 2 MiB entry is split into, for the kernel only. -/
def splitHuge (e : HugeEntry) (i : Nat) : UInt64 :=
  vmmMakeEntry ((e.entry &&& ~~~0x1FFFFF) + UInt64.ofNat (i * 4096)) (vmmPresent ||| vmmWritable)

/-- `vmm_map_page`; `none` when there is no page for a table, which is a panic. -/
def vmmMapPage (pmm : Pmm) (s : Space) (v : Nat) (phys flags : UInt64) : Option (Pmm × Space) :=
  match s (windowOf v) with
  | .table page entries => some (pmm, setPte s v page entries (vmmMakeEntry phys flags))
  | .huge e =>
    if hasFlag flags vmmUser then
      let (pmm, pt) := pmm.pmmAllocPage
      if pt = 0 then none
      else some (pmm, setPte s v (pt / 4096).toNat (splitHuge e) (vmmMakeEntry phys flags))
    else some (pmm, s)
  | .absent =>
    let (pmm, pt) := pmm.pmmAllocPage
    if pt = 0 then none
    else some (pmm, setPte s v (pt / 4096).toNat (fun _ => 0) (vmmMakeEntry phys flags))

/-! ## Entries -/

/-- The page a USER mapping gives for a virtual page. -/
def userPage (v : Nat) : Option Nat :=
  if hasFlag (vmmGetPte s v) vmmPresent && hasFlag (vmmGetPte s v) vmmUser then
    some (entryPage (vmmGetPte s v))
  else none

def isPresent (v : Nat) : Bool := hasFlag (vmmGetPte s v) vmmPresent

/-- Two words agree under a mask when they agree on its bits. -/
theorem and_congr_bits {x y mask : UInt64}
    (h : ∀ i, i < 64 → mask.toBitVec.getLsbD i = true → x.toBitVec.getLsbD i = y.toBitVec.getLsbD i) :
    x &&& mask = y &&& mask := by
  apply UInt64.eq_of_toBitVec_eq
  apply BitVec.eq_of_getLsbD_eq
  intro i hi
  rw [UInt64.toBitVec_and, UInt64.toBitVec_and, BitVec.getLsbD_and, BitVec.getLsbD_and]
  cases hm : mask.toBitVec.getLsbD i with
  | false => simp
  | true => rw [h i hi hm]

theorem vmmMakeEntry_bit (phys flags : UInt64) (i : Nat) (hi : i < 64) :
    (vmmMakeEntry phys flags).toBitVec.getLsbD i =
      if i = 0 then true
      else if i < 12 then flags.toBitVec.getLsbD i
      else if i = 63 then phys.toBitVec.getLsbD i || flags.toBitVec.getLsbD i
      else phys.toBitVec.getLsbD i := by
  simp only [vmmMakeEntry, vmmNx, vmmPresent, UInt64.toBitVec_and, UInt64.toBitVec_or,
    UInt64.toBitVec_not, BitVec.getLsbD_and, BitVec.getLsbD_or, BitVec.getLsbD_not]
  interval_cases i <;> simp

theorem hasFlag_congr {x y f : UInt64} (h : x &&& f = y &&& f) : hasFlag x f = hasFlag y f := by
  unfold hasFlag
  rw [h]

theorem vmmMakeEntry_present (phys flags : UInt64) :
    hasFlag (vmmMakeEntry phys flags) vmmPresent = true := by
  have h : vmmMakeEntry phys flags &&& vmmPresent = 1 &&& vmmPresent := by
    refine and_congr_bits fun i hi hm => ?_
    have h0 : i = 0 := by
      by_contra hne
      unfold vmmPresent at hm
      interval_cases i <;> simp at hm hne
    subst h0
    rw [vmmMakeEntry_bit phys flags 0 hi]
    rfl
  rw [hasFlag_congr h]
  rfl

theorem vmmMakeEntry_user (phys flags : UInt64) :
    hasFlag (vmmMakeEntry phys flags) vmmUser = hasFlag flags vmmUser := by
  refine hasFlag_congr (and_congr_bits fun i hi hm => ?_)
  rw [vmmMakeEntry_bit phys flags i hi]
  unfold vmmUser at hm
  interval_cases i <;> simp at hm ⊢

theorem vmmMakeEntry_addr (phys flags : UInt64) :
    vmmMakeEntry phys flags &&& addrMask = phys &&& addrMask := by
  refine and_congr_bits fun i hi hm => ?_
  rw [vmmMakeEntry_bit phys flags i hi]
  unfold addrMask at hm
  interval_cases i <;> simp at hm ⊢

/-- The identity map of one window. -/
def identityEntry (w : Nat) : HugeEntry where
  entry := vmmMakeEntry (UInt64.ofNat (w * 0x200000)) (vmmWritable ||| vmmHuge)
  present := vmmMakeEntry_present _ _
  supervisor := by
    rw [vmmMakeEntry_user]
    decide

/-- An address space as `vmm_create_address_space` makes it: the 2 MiB entries of
the identity map and no tables. -/
def vmmCreateAddressSpace : Space := fun w => if w < 2048 then .huge (identityEntry w) else .absent

theorem entryPage_vmmMakeEntry (phys flags : UInt64) :
    entryPage (vmmMakeEntry phys flags) = entryPage phys := by
  unfold entryPage
  rw [vmmMakeEntry_addr]

theorem and_addrMask_mod : (e &&& addrMask).toNat % 4096 = 0 := by
  show (e.toNat &&& 0x000FFFFFFFFFF000) % 2 ^ 12 = 0
  rw [Nat.and_mod_two_pow]
  show e.toNat % 2 ^ 12 &&& 0 = 0
  exact Nat.and_zero _

/-- The address bits of an entry for a managed page are the page's address. -/
theorem and_addrMask_eq {e : UInt64} (h : entryPage e < pmmMaxPages) :
    e &&& addrMask = Pmm.pageAddr (entryPage e) := by
  have hmod := and_addrMask_mod e
  rw [← UInt64.toNat_inj, Pmm.toNat_pageAddr h]
  unfold entryPage
  omega

theorem and_not_low_addr : (e &&& addrMask) &&& ~~~0xFFF = e &&& addrMask := by
  have h : (e &&& addrMask) &&& ~~~0xFFF = e &&& (addrMask &&& ~~~0xFFF) := UInt64.and_assoc _ _ _
  rw [h]
  rfl

theorem entryPage_pageAddr (hp : p < pmmMaxPages) : entryPage (Pmm.pageAddr p) = p := by
  have hmask : (Pmm.pageAddr p &&& addrMask).toNat = p * 4096 := by
    rw [UInt64.toNat_and, Pmm.toNat_pageAddr hp]
    have hshift : p * 4096 &&& 0x000FFFFFFFFFF000 = (p &&& (2 ^ 40 - 1)) * 4096 := by
      have h1 : p * 4096 = p <<< 12 := by rw [Nat.shiftLeft_eq]
      have h2 : (0x000FFFFFFFFFF000 : Nat) = (2 ^ 40 - 1) <<< 12 := by decide
      rw [h1, h2, ← Nat.shiftLeft_and_distrib, Nat.shiftLeft_eq]
    show p * 4096 &&& 0x000FFFFFFFFFF000 = p * 4096
    rw [hshift, Nat.and_two_pow_sub_one_eq_mod]
    have : pmmMaxPages = 1048576 := rfl
    omega
  unfold entryPage
  omega

/-- Dropping the attribute bits of an entry keeps its page. -/
theorem entryPage_and_not_low : entryPage (e &&& ~~~0xFFF) = entryPage e := by
  unfold entryPage
  have h : e &&& ~~~0xFFF &&& addrMask = e &&& (~~~0xFFF &&& addrMask) := UInt64.and_assoc _ _ _
  rw [h]
  rfl

/-! ## What mapping and unmapping change -/

variable {pmm pmm' : Pmm} {s s' : Space} {u v page : Nat} {phys flags e : UInt64}

theorem eq_of_windowOf_slotOf (hw : windowOf u = windowOf v) (hs : slotOf u = slotOf v) : u = v := by
  unfold windowOf at hw
  unfold slotOf at hs
  omega

theorem vmmGetPte_setPte_self (s : Space) (v page : Nat) (entries : Nat → UInt64) (e : UInt64) :
    vmmGetPte (setPte s v page entries e) v = e := by
  unfold vmmGetPte setPte
  rw [update_self]
  exact update_self _ _ _

/-- An entry of another page is the old one, or that of the new table. -/
theorem vmmGetPte_setPte_of_ne {entries : Nat → UInt64} (h : u ≠ v) :
    vmmGetPte (setPte s v page entries e) u =
      if windowOf u = windowOf v then entries (slotOf u) else vmmGetPte s u := by
  unfold vmmGetPte setPte
  by_cases hw : windowOf u = windowOf v
  · have hs : slotOf u ≠ slotOf v := fun hs => h (eq_of_windowOf_slotOf hw hs)
    rw [if_pos hw, hw, update_self]
    exact update_of_ne hs _ _
  · simp [hw]

/-- The entry is the old one where the table holds the old entries. -/
theorem vmmGetPte_setPte_same {entries : Nat → UInt64} (h : u ≠ v)
    (hsame : windowOf u = windowOf v → entries (slotOf u) = vmmGetPte s u) :
    vmmGetPte (setPte s v page entries e) u = vmmGetPte s u := by
  rw [vmmGetPte_setPte_of_ne h]
  split
  · next hw => exact hsame hw
  · rfl

theorem vmmGetPte_of_table {entries : Nat → UInt64} (hs : s (windowOf v) = .table page entries)
    (hw : windowOf u = windowOf v) : vmmGetPte s u = entries (slotOf u) := by
  unfold vmmGetPte
  rw [hw, hs]

/-- A page that looks the same to the user, and is as present as before. -/
def SameView (s s' : Space) (u : Nat) : Prop :=
  userPage s' u = userPage s u ∧ isPresent s' u = isPresent s u

theorem SameView.of_pte (h : vmmGetPte s' u = vmmGetPte s u) : SameView s s' u := by
  unfold SameView userPage isPresent
  rw [h]
  exact ⟨rfl, rfl⟩

/-- The page is there for the kernel only. -/
def KernelOnly (s : Space) (u : Nat) : Prop :=
  isPresent s u = true ∧ hasFlag (vmmGetPte s u) vmmUser = false

theorem SameView.of_kernelOnly (h : KernelOnly s u) (h' : KernelOnly s' u) : SameView s s' u := by
  unfold SameView userPage
  rw [h.1, h.2, h'.1, h'.2, Bool.and_false, Bool.and_false]
  exact ⟨rfl, rfl⟩

/-- The table a USER mapping enters its page in: that of the window, or a new one in a
page from the allocator. -/
inductive MapTable (pmm : Pmm) (s : Space) (v : Nat) : Pmm → Nat → (Nat → UInt64) → Prop
  | old {page entries} : s (windowOf v) = .table page entries → MapTable pmm s v pmm page entries
  | split {x} : s (windowOf v) = .huge x → pmm.pmmAllocPage.2 ≠ 0 →
    MapTable pmm s v pmm.pmmAllocPage.1 (pmm.pmmAllocPage.2 / 4096).toNat (splitHuge x)
  | new : s (windowOf v) = .absent → pmm.pmmAllocPage.2 ≠ 0 →
    MapTable pmm s v pmm.pmmAllocPage.1 (pmm.pmmAllocPage.2 / 4096).toNat fun _ => 0

theorem vmmMapPage_eq (hu : hasFlag flags vmmUser = true)
    (h : vmmMapPage pmm s v phys flags = some (pmm', s')) :
    ∃ page entries, s' = setPte s v page entries (vmmMakeEntry phys flags) ∧
      MapTable pmm s v pmm' page entries := by
  unfold vmmMapPage at h
  split at h
  · next page entries hs =>
    cases h
    exact ⟨page, entries, rfl, .old hs⟩
  · next x hs =>
    rw [if_pos hu] at h
    dsimp only at h
    split at h
    · cases h
    · next hz =>
      cases h
      exact ⟨_, _, rfl, .split hs hz⟩
  · next hs =>
    dsimp only at h
    split at h
    · cases h
    · next hz =>
      cases h
      exact ⟨_, _, rfl, .new hs hz⟩

theorem MapTable.pte {entries : Nat → UInt64} (h : MapTable pmm s v pmm' page entries) (hne : u ≠ v)
    (e : UInt64) : vmmGetPte (setPte s v page entries e) u = vmmGetPte s u ∨
      KernelOnly s u ∧ KernelOnly (setPte s v page entries e) u := by
  cases h with
  | old hs =>
    left
    exact vmmGetPte_setPte_same hne fun hw => (vmmGetPte_of_table hs hw).symm
  | @split x hs _ =>
    by_cases hw : windowOf u = windowOf v
    · right
      have hold : vmmGetPte s u = x.entry := by
        unfold vmmGetPte
        rw [hw, hs]
      unfold KernelOnly isPresent
      rw [hold, vmmGetPte_setPte_of_ne hne, if_pos hw]
      refine ⟨⟨x.present, x.supervisor⟩, vmmMakeEntry_present _ _, ?_⟩
      unfold splitHuge
      rw [vmmMakeEntry_user]
      decide
    · left
      exact vmmGetPte_setPte_same hne fun h => absurd h hw
  | new hs _ =>
    left
    refine vmmGetPte_setPte_same hne fun hw => ?_
    unfold vmmGetPte
    rw [hw, hs]

theorem MapTable.view {entries : Nat → UInt64} (h : MapTable pmm s v pmm' page entries)
    (hne : u ≠ v) (e : UInt64) : SameView s (setPte s v page entries e) u := by
  rcases h.pte hne e with hsame | ⟨hk, hk'⟩
  · exact .of_pte hsame
  · exact .of_kernelOnly hk hk'

/-- A USER mapping changes the view of one page, and takes at most one page for a
table. -/
theorem vmmMapPage_spec (hu : hasFlag flags vmmUser = true)
    (h : vmmMapPage pmm s v phys flags = some (pmm', s')) :
    vmmGetPte s' v = vmmMakeEntry phys flags ∧ (∀ u, u ≠ v → SameView s s' u) ∧
      (pmm' = pmm ∨ pmm' = pmm.pmmAllocPage.1) := by
  obtain ⟨page, entries, rfl, ht⟩ := vmmMapPage_eq hu h
  refine ⟨vmmGetPte_setPte_self _ _ _ _ _, fun u hne => ht.view hne _, ?_⟩
  cases ht with
  | old => exact .inl rfl
  | split | new => exact .inr rfl

theorem userPage_of_mapped (hu : hasFlag flags vmmUser = true)
    (h : vmmGetPte s' v = vmmMakeEntry phys flags) : userPage s' v = some (entryPage phys) := by
  unfold userPage
  rw [h, vmmMakeEntry_present, vmmMakeEntry_user, hu, entryPage_vmmMakeEntry]
  rfl

theorem userPage_of_flags
    (h : (hasFlag (vmmGetPte s v) vmmPresent && hasFlag (vmmGetPte s v) vmmUser) = true) :
    userPage s v = some (entryPage (vmmGetPte s v)) := by
  rw [userPage, if_pos h]

theorem table_of_userPage (h : userPage s v = some p) :
    ∃ page entries, s (windowOf v) = .table page entries ∧ entryPage (entries (slotOf v)) = p ∧
      hasFlag (entries (slotOf v)) vmmPresent = true := by
  unfold userPage at h
  split at h
  · next hc =>
    unfold vmmGetPte at h hc
    cases hs : s (windowOf v) with
    | absent =>
      rw [hs] at hc
      dsimp only at hc
      exact absurd hc (by decide)
    | huge x =>
      rw [hs] at hc
      rw [x.supervisor, Bool.and_false] at hc
      cases hc
    | table page entries =>
      rw [hs] at h hc
      exact ⟨page, entries, rfl, Option.some.inj h, (Bool.and_eq_true_iff.mp hc).1⟩
  · cases h

theorem userPage_vmmCreateAddressSpace (v : Nat) : userPage vmmCreateAddressSpace v = none := by
  cases h : userPage vmmCreateAddressSpace v with
  | none => rfl
  | some p =>
    obtain ⟨page, entries, hs, -, -⟩ := table_of_userPage h
    unfold vmmCreateAddressSpace at hs
    split at hs <;> cases hs

theorem vmmGetPhys_of_user (h : userPage s v = some p) :
    vmmGetPhys s v = vmmGetPte s v &&& addrMask := by
  obtain ⟨page, entries, hs, -, hpres⟩ := table_of_userPage h
  rw [vmmGetPhys, hs, vmmGetPte_of_table hs rfl]
  exact if_pos hpres

theorem vmmGetPhys_of_userPage (h : userPage s v = some p) (hp : p < pmmMaxPages) :
    vmmGetPhys s v = Pmm.pageAddr p := by
  obtain ⟨page, entries, hs, rfl, -⟩ := table_of_userPage h
  rw [vmmGetPhys_of_user h, vmmGetPte_of_table hs rfl, and_addrMask_eq hp]

theorem vmmUnmapPage_table {entries : Nat → UInt64} (hs : s (windowOf v) = .table page entries) :
    vmmUnmapPage s v = setPte s v page entries 0 := by
  unfold vmmUnmapPage
  rw [hs]
  rfl

theorem vmmUnmapPage_spec (h : userPage s v = some p) :
    vmmGetPte (vmmUnmapPage s v) v = 0 ∧
      ∀ u, u ≠ v → vmmGetPte (vmmUnmapPage s v) u = vmmGetPte s u := by
  obtain ⟨page, entries, hs, -, -⟩ := table_of_userPage h
  rw [vmmUnmapPage_table hs]
  exact ⟨vmmGetPte_setPte_self _ _ _ _ _, fun u hne =>
    vmmGetPte_setPte_same hne fun hw => (vmmGetPte_of_table hs hw).symm⟩

/-- Unmapping clears entries, and changes none. -/
theorem vmmGetPte_vmmUnmapPage (s : Space) (v u : Nat) :
    vmmGetPte (vmmUnmapPage s v) u = 0 ∨ vmmGetPte (vmmUnmapPage s v) u = vmmGetPte s u := by
  cases hs : s (windowOf v) with
  | absent =>
    right
    rw [vmmUnmapPage, hs]
  | huge x =>
    rw [vmmUnmapPage, hs]
    by_cases hw : windowOf u = windowOf v
    · simp [vmmGetPte, hw]
    · right
      simp only [vmmGetPte, update_of_ne hw]
  | table page entries =>
    rw [vmmUnmapPage_table hs]
    by_cases hu : u = v
    · left
      rw [hu, vmmGetPte_setPte_self]
    · right
      exact vmmGetPte_setPte_same hu fun hw => (vmmGetPte_of_table hs hw).symm

theorem vmmGetPhys_unmap_of_ne (h : userPage s v = some p) (hne : u ≠ v) :
    vmmGetPhys (vmmUnmapPage s v) u = vmmGetPhys s u := by
  obtain ⟨page, entries, hs, -, -⟩ := table_of_userPage h
  unfold vmmGetPhys
  rw [vmmUnmapPage_table hs, setPte]
  by_cases hw : windowOf u = windowOf v
  · have hslot : slotOf u ≠ slotOf v := fun e => hne (eq_of_windowOf_slotOf hw e)
    rw [hw, update_self, hs]
    dsimp only
    rw [update_of_ne hslot]
  · rw [update_of_ne hw]

theorem vmmGetPhys_of_not_present (h : isPresent s v = false) (hs : ∀ x, s (windowOf v) ≠ .huge x) :
    vmmGetPhys s v = 0 := by
  unfold isPresent vmmGetPte at h
  unfold vmmGetPhys
  split
  · rfl
  · next x hx => exact absurd hx (hs x)
  rename_i page entries hx
  rw [hx] at h
  rw [h]
  rfl

theorem not_huge_of_not_present (h : isPresent s v = false) (x : HugeEntry) :
    s (windowOf v) ≠ .huge x := by
  intro hx
  unfold isPresent vmmGetPte at h
  rw [hx] at h
  rw [x.present] at h
  cases h

end Kil0yOS.Mm
