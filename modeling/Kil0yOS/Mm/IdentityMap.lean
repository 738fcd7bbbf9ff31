/-
The identity map of the RAM of the machine.

As long as no operation maps a page whose number is that of a page of RAM, the
entries of these pages stay what they were made, in every address space.  All pages
the kernel has to do with are pages of RAM, so it reaches each of them under its own
number, whichever tables are loaded.
-/
import Kil0yOS.Mm.Access

namespace Kil0yOS.Mm

open Function Pmm

variable {m m' : Memory} {a b f p u v w i page : Nat} {s s' : Space} {pmm pmm' : Pmm}
  {phys flags e : UInt64} {ram : Nat → Prop} {entries : Nat → UInt64} {x : HugeEntry}

/-! ## Entries of the identity map -/

section

variable (hw : w < 2048)
include hw

theorem toNat_window : (UInt64.ofNat (w * 0x200000)).toNat = w * 0x200000 := by
  rw [UInt64.toNat_ofNat']
  omega

/-- The address bits of a 2 MiB entry of the identity map are its window's address. -/
theorem identityEntry_base :
    (identityEntry w).entry &&& ~~~0x1FFFFF = UInt64.ofNat (w * 0x200000) := by
  have hbits : (identityEntry w).entry &&& ~~~0x1FFFFF =
      UInt64.ofNat (w * 0x200000) &&& ~~~0x1FFFFF := by
    apply and_congr_bits
    intro i hi hm
    show (vmmMakeEntry _ _).toBitVec.getLsbD i = _
    rw [vmmMakeEntry_bit _ _ i hi]
    simp only [vmmWritable, vmmHuge]
    interval_cases i <;> simp at hm ⊢
  rw [hbits, ← UInt64.toNat_inj, toNat_and_mask (k := 21) (by decide), toNat_window hw]
  omega

theorem window_page_lt (hi : i < 512) : w * 512 + i < pmmMaxPages := by
  have : pmmMaxPages = 1048576 := rfl
  omega

theorem identityEntry_page :
    ((identityEntry w).entry &&& 0x000FFFFFFFE00000).toNat / 4096 = w * 512 := by
  have hmask : (identityEntry w).entry &&& 0x000FFFFFFFE00000 =
      ((identityEntry w).entry &&& ~~~0x1FFFFF) &&& addrMask := by
    have h := UInt64.and_assoc (identityEntry w).entry (~~~0x1FFFFF) addrMask
    rw [h]
    rfl
  have hpage : UInt64.ofNat (w * 0x200000) = pageAddr (w * 512) := by
    rw [pageAddr, Nat.mul_assoc]
  have hlt : w * 512 < pmmMaxPages := by
    have : pmmMaxPages = 1048576 := rfl
    omega
  rw [hmask, identityEntry_base hw, hpage]
  exact entryPage_pageAddr hlt

theorem splitHuge_identityEntry_page (hi : i < 512) :
    entryPage (splitHuge (identityEntry w) i) = w * 512 + i := by
  have hoff : (UInt64.ofNat (i * 4096)).toNat = i * 4096 := by
    rw [UInt64.toNat_ofNat']
    omega
  have hfits : w * 0x200000 + i * 4096 < 2 ^ 64 := by omega
  have hpages : w * 0x200000 + i * 4096 = (w * 512 + i) * 4096 := by omega
  have hnat : (UInt64.ofNat (w * 0x200000) + UInt64.ofNat (i * 4096)).toNat =
      w * 0x200000 + i * 4096 := by
    rw [UInt64.toNat_add, toNat_window hw, hoff]
    omega
  have hlt := window_page_lt hw hi
  have hsum : UInt64.ofNat (w * 0x200000) + UInt64.ofNat (i * 4096) =
      pageAddr (w * 512 + i) := by
    apply UInt64.toNat_inj.mp
    exact hnat.trans (hpages.trans (toNat_pageAddr hlt).symm)
  rw [splitHuge, entryPage_vmmMakeEntry, identityEntry_base hw, hsum]
  exact entryPage_pageAddr hlt

end

/-! ## What mapping a page leaves of the others -/

/-- The 2 MiB entries are those of the identity map. -/
def HugeIdentity (s : Space) : Prop := ∀ w x, s w = .huge x → w < 2048 ∧ x = identityEntry w

theorem kernelPage_congr (h : s' (windowOf v) = s (windowOf v)) :
    kernelPage s' v = kernelPage s v := by
  simp only [kernelPage, h]

theorem kernelPage_huge (hs : HugeIdentity s) (h : s (windowOf v) = .huge x) :
    kernelPage s v = some v := by
  obtain ⟨hw, hx⟩ := hs _ _ h
  simp only [kernelPage, h]
  rw [hx, identityEntry_page hw]
  simp only [windowOf, slotOf, Option.some.injEq]
  omega

/-- A split leaves every page of the window where it was. -/
theorem kernelPage_split (hs : HugeIdentity s) (h : s (windowOf v) = .huge x) (page : Nat)
    (hu : windowOf u = windowOf v) :
    kernelPage (update s (windowOf v) (.table page (splitHuge x))) u = some u := by
  obtain ⟨hw, hx⟩ := hs _ _ h
  have hslot : slotOf u < 512 := Nat.mod_lt _ (by decide)
  simp only [kernelPage, hu, update_self]
  have hpres : hasFlag (splitHuge x (slotOf u)) vmmPresent = true := vmmMakeEntry_present _ _
  rw [if_pos hpres, hx, splitHuge_identityEntry_page hw hslot, ← hu]
  simp only [windowOf, slotOf, Option.some.injEq]
  omega

theorem kernelPage_setPte_of_ne (h : u ≠ v) :
    kernelPage (setPte s v page entries e) u =
      kernelPage (update s (windowOf v) (.table page entries)) u := by
  by_cases hw : windowOf u = windowOf v
  · have hslot : slotOf u ≠ slotOf v := fun hs => h (eq_of_windowOf_slotOf hw hs)
    simp [kernelPage, setPte, hw, update_of_ne hslot]
  · simp only [kernelPage, setPte, update_of_ne hw]

/-- A mapping leaves the other pages of the kernel where they were. -/
theorem MapTable.kernelPage (h : MapTable pmm s v pmm' page entries) (hs : HugeIdentity s)
    (hne : u ≠ v) (hu : kernelPage s u = some u) (e : UInt64) :
    Mm.kernelPage (setPte s v page entries e) u = some u := by
  rw [kernelPage_setPte_of_ne hne]
  by_cases hw : windowOf u = windowOf v
  · cases h with
    | old hsv =>
      rw [← hsv, update_eq_self]
      exact hu
    | split hsv => exact kernelPage_split hs hsv _ hw
    | new hsv =>
      simp only [Mm.kernelPage, hw, hsv] at hu
      cases hu
  · rw [kernelPage_congr (update_of_ne hw _ _)]
    exact hu

theorem HugeIdentity.setPte (h : HugeIdentity s) (v page : Nat) (entries : Nat → UInt64)
    (e : UInt64) : HugeIdentity (setPte s v page entries e) := by
  intro w x hx
  by_cases hw : w = windowOf v
  · rw [hw, Mm.setPte, update_self] at hx
    cases hx
  · rw [Mm.setPte, update_of_ne hw] at hx
    exact h w x hx

/-- The tables after a mapping are those before it, and perhaps one in a page from
the allocator. -/
theorem MapTable.tables {w q : Nat} (h : MapTable pmm s v pmm' page entries)
    (hq : tablePage (setPte s v page entries e) w = some q) :
    tablePage s w = some q ∨ pmm.pmmAllocPage.2 ≠ 0 ∧ q = pageNo pmm.pmmAllocPage.2 := by
  by_cases hw : w = windowOf v
  · rw [hw] at hq ⊢
    simp only [tablePage, setPte, update_self, Option.some.injEq] at hq
    cases h with
    | old hsv =>
      left
      simp only [tablePage, hsv, hq]
    | split _ hz => exact .inr ⟨hz, hq.symm⟩
    | new _ hz => exact .inr ⟨hz, hq.symm⟩
  · simp only [tablePage, setPte, update_of_ne hw] at hq
    exact .inl hq

/-! ## The invariant -/

/-- Every page the kernel has to do with is one of RAM, and each page of RAM is found
under its own number, by the kernel only. -/
structure RamInv (ram : Nat → Prop) (m : Memory) : Prop where
  bounds : ∀ p, ram p → p < pmmMaxPages ∧ p ≠ 0
  zero : m.pmm.used 0 = true
  free : ∀ p, p < pmmMaxPages → m.pmm.used p = false → ram p
  huge : ∀ a, HugeIdentity (m.space a)
  kernel : ∀ a f, ram f → kernelPage (m.space a) f = some f ∧ userPage (m.space a) f = none
  user : ∀ a v p, userPage (m.space a) v = some p → ram p
  table : ∀ a w p, tablePage (m.space a) w = some p → ram p

section

variable (hp : p < pmmMaxPages)
include hp

theorem pageNo_pageAddr : pageNo (pageAddr p) = p :=
  pageAddr_div hp

theorem used_of_pmmFreePage
    (h : (pmm.pmmFreePage (pageAddr p)).used u = false) : pmm.used u = false ∨ u = p := by
  rw [pmmFreePage] at h
  split at h
  · exact .inl h
  rw [pageAddr_div hp, bitmapClear] at h
  split at h
  · rcases Lib.update_cases h with ⟨hu, -⟩ | ⟨-, hfree⟩
    · exact .inr hu
    · exact .inl hfree
  · exact .inl h

theorem used_zero_of_pmmFreePage (hne : p ≠ 0) (h : pmm.used 0 = true) :
    (pmm.pmmFreePage (pageAddr p)).used 0 = true := by
  by_contra hfree
  rw [Bool.not_eq_true] at hfree
  rcases used_of_pmmFreePage hp hfree with hu | hu
  · rw [h] at hu
    cases hu
  · exact hne hu.symm

end

/-- The free pages are pages of RAM, and page zero is not free. -/
structure PmmRam (ram : Nat → Prop) (pmm : Pmm) : Prop where
  bounds : ∀ p, ram p → p < pmmMaxPages ∧ p ≠ 0
  zero : pmm.used 0 = true
  free : ∀ p, p < pmmMaxPages → pmm.used p = false → ram p

namespace PmmRam

theorem alloc (h : PmmRam ram pmm) : PmmRam ram pmm.pmmAllocPage.1 := by
  refine ⟨h.bounds, alloc_used_mono h.zero 0 h.zero, ?_⟩
  intro p hp hfree
  apply h.free p hp
  by_contra hu
  rw [Bool.not_eq_false] at hu
  rw [alloc_used_mono h.zero p hu] at hfree
  cases hfree

theorem alloc_ram (h : PmmRam ram pmm) (hz : pmm.pmmAllocPage.2 ≠ 0) :
    ram (pageNo pmm.pmmAllocPage.2) ∧
      pmm.pmmAllocPage.2 = pageAddr (pageNo pmm.pmmAllocPage.2) := by
  rcases pmmAllocPage_cases h.zero with he | ⟨q, hlt, -, hfree, haddr, -⟩
  · rw [he] at hz
    exact absurd rfl hz
  · rw [haddr, pageNo_pageAddr hlt]
    exact ⟨h.free q hlt hfree, rfl⟩

theorem freePage (h : PmmRam ram pmm) (hp : ram p) :
    PmmRam ram (pmm.pmmFreePage (pageAddr p)) := by
  obtain ⟨hlt, hne⟩ := h.bounds p hp
  refine ⟨h.bounds, used_zero_of_pmmFreePage hlt hne h.zero, ?_⟩
  intro q hq hfree
  rcases used_of_pmmFreePage hlt hfree with hu | hu
  · exact h.free q hq hu
  · rw [hu]
    exact hp

end PmmRam

namespace RamInv

section

variable (h : RamInv ram m)
include h

theorem pmmRam : PmmRam ram m.pmm := { h with }

theorem not_ram_of_user (hv : userPage (m.space a) v = some p) : ¬ ram v := by
  intro hr
  rw [(h.kernel a v hr).2] at hv
  cases hv

theorem alloc_ram (hz : m.pmm.pmmAllocPage.2 ≠ 0) :
    ram (pageNo m.pmm.pmmAllocPage.2) ∧
      entryPage m.pmm.pmmAllocPage.2 = pageNo m.pmm.pmmAllocPage.2 := by
  obtain ⟨hram, haddr⟩ := h.pmmRam.alloc_ram hz
  refine ⟨hram, ?_⟩
  rw [haddr, entryPage_pageAddr (h.bounds _ hram).1, ← haddr]

theorem setPmm (hpmm : PmmRam ram pmm) : RamInv ram { m with pmm := pmm } :=
  { hpmm, h with }

theorem alloc : RamInv ram { m with pmm := m.pmm.pmmAllocPage.1 } :=
  h.setPmm h.pmmRam.alloc

theorem setMm {f : AddressSpace → AddressSpace} (hf : ∀ mm, (f mm).space = mm.space) :
    RamInv ram (m.setMm a f) := by
  obtain ⟨hbounds, hzero, hfree, hhuge, hkernel, huser, htable⟩ := h
  have hs : m.space = (m.setMm a f).space := funext fun b => (space_setMm hf b).symm
  rw [hs] at hhuge hkernel huser htable
  exact ⟨hbounds, hzero, hfree, hhuge, hkernel, huser, htable⟩

theorem setSpace (hself : m'.space a = s) (hother : ∀ b, b ≠ a → m'.space b = m.space b)
    (hpmm : PmmRam ram m'.pmm) (hhuge : HugeIdentity s)
    (hkernel : ∀ f, ram f → kernelPage s f = some f ∧ userPage s f = none)
    (huser : ∀ v p, userPage s v = some p → ram p) (htable : ∀ w p, tablePage s w = some p → ram p)
    : RamInv ram m' := by
  -- what holds of the new tables and held of all the others holds of all
  have hall : ∀ P : Space → Prop, P s → (∀ b, P (m.space b)) → ∀ b, P (m'.space b) := by
    intro P hs hm b
    by_cases hb : b = a
    · rw [hb, hself]
      exact hs
    · rw [hother b hb]
      exact hm b
  exact ⟨h.bounds, hpmm.zero, hpmm.free, hall _ hhuge h.huge,
    hall (fun s => ∀ f, ram f → kernelPage s f = some f ∧ userPage s f = none) hkernel h.kernel,
    hall (fun s => ∀ v p, userPage s v = some p → ram p) huser h.user,
    hall (fun s => ∀ w p, tablePage s w = some p → ram p) htable h.table⟩

/-- The entry of a page that is not one of RAM changes. -/
theorem setPte (hv : ¬ ram v) (ht : MapTable m.pmm (m.space a) v pmm page entries)
    (hself : m'.space a = Mm.setPte (m.space a) v page entries e)
    (hother : ∀ b, b ≠ a → m'.space b = m.space b) (hpmm : PmmRam ram m'.pmm)
    (hpage : ∀ p, userPage (Mm.setPte (m.space a) v page entries e) v = some p → ram p) :
    RamInv ram m' := by
  refine h.setSpace hself hother hpmm ((h.huge a).setPte _ _ _ _) (fun f hf => ?_)
    (fun u p hup => ?_) fun w q hq => ?_
  · have hne : f ≠ v := by
      intro he
      exact hv (he ▸ hf)
    refine ⟨ht.kernelPage (h.huge a) hne (h.kernel a f hf).1 _, ?_⟩
    rw [(ht.view hne e).1]
    exact (h.kernel a f hf).2
  · by_cases hne : u = v
    · rw [hne] at hup
      exact hpage p hup
    · rw [(ht.view hne e).1] at hup
      exact h.user a u p hup
  · rcases ht.tables hq with hold | ⟨hz, hnew⟩
    · exact h.table a w q hold
    · rw [hnew]
      exact (h.alloc_ram hz).1

theorem mapPage (hv : ¬ ram v) (hp : ram (entryPage phys)) (hu : hasFlag flags vmmUser = true)
    (hm : m.mapPage a v phys flags = some m') : RamInv ram m' := by
  rw [Memory.mapPage] at hm
  split at hm
  · cases hm
  rename_i pmm s' hs
  cases hm
  obtain ⟨hpte, -, hpmm⟩ := vmmMapPage_spec hu hs
  obtain ⟨page, entries, rfl, htable⟩ := vmmMapPage_eq hu hs
  refine h.setPte hv htable (space_setMm_self _ _ _) (fun b hb => space_setMm_of_ne hb) ?_
    fun p hup => ?_
  · rcases hpmm with he | he
    · rw [he]
      exact h.pmmRam
    · rw [he]
      exact h.pmmRam.alloc
  · rw [userPage_of_mapped hu hpte] at hup
    rw [← Option.some.inj hup]
    exact hp

theorem releasePage (hv : userPage (m.space a) v = some p) :
    RamInv ram (Memory.releasePage a m v) := by
  have hr := releasePage_releases hv (h.bounds p (h.user a v p hv))
  obtain ⟨page, entries, hsv, -, -⟩ := table_of_userPage hv
  have hset := vmmUnmapPage_table hsv
  refine h.setPte (h.not_ram_of_user hv) (.old hsv) (hr.self.trans hset) hr.other ?_ fun q hq => ?_
  · rw [hr.pmm]
    exact h.pmmRam.freePage (h.user a v p hv)
  · rw [userPage, vmmGetPte_setPte_self] at hq
    cases hq

end

/-- The single steps of the loops keep the invariant. -/
theorem stable (ram : Nat → Prop) : Stable (RamInv ram) (fun v => ¬ ram v) True where
  zero h := h.zero
  managed h hv := h.bounds _ (h.user _ _ _ hv)
  remap h hv hp hu hm := by
    apply h.mapPage (h.not_ram_of_user hv) _ hu hm
    rw [hp]
    exact h.user _ _ _ hv
  fresh h hv _ hz hu hm := by
    obtain ⟨hram, hpage⟩ := h.alloc_ram hz
    apply h.alloc.mapPage hv _ hu hm
    rw [hpage]
    exact hram
  release h hv := h.releasePage hv
  setMm h hf := h.setMm hf

end RamInv

end Kil0yOS.Mm
