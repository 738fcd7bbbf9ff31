/-
Ownership of user pages over whole runs of the operations of `core/uvm.c`.

Each virtual page of each address space is a holder, and what it owns is the
physical page its USER mapping points to.  The pages of a region are USER pages or
not there at all, so that releasing a region gives back what the process owns.
A range to be unmapped need not lie in a region, and there the tables may show a
page of the identity map.
-/
import Kil0yOS.Lib.Tables
import Kil0yOS.Lib.Run
import Kil0yOS.Mm.Uvm

namespace Kil0yOS.Mm

open Lib Memory Function Pmm

namespace Memory

variable {f : AddressSpace → AddressSpace} {p page : Nat}

def owner (m : Memory) (c : Nat × Nat) : Option Nat := userPage (m.space c.1) c.2

end Memory

/-- The page given back was one the user saw there. -/
def Freed.Legit (f : Freed) : Prop := ∃ p, f.user = some p ∧ f.page = pageAddr p

/-- Every USER page is in use and mapped once, and only USER pages were given
back. -/
structure PagesOk (m : Memory) : Prop where
  owned : Owned m.owner m.pmm.used
  freed : ∀ f ∈ m.freed, f.Legit

/-- The page is one of the user, or not there. -/
def Clear (s : Space) (v : Nat) : Prop := (∃ p, userPage s v = some p) ∨ isPresent s v = false

/-- Releasing the page gives back a page of the user, or nothing. -/
def Releasable (s : Space) (v : Nat) : Prop := (∃ p, userPage s v = some p) ∨ vmmGetPhys s v = 0

structure RegionOk (s : Space) (r : Region) : Prop where
  aligned : r.start.toNat % 4096 = 0
  clear : ∀ v, r.start.toNat ≤ v * 4096 → v * 4096 < r.stop.toNat → Clear s v

def RegionsOk (s : Space) (rs : List Region) : Prop := ∀ r ∈ rs, r.used = true → RegionOk s r

/-- The part of the invariant that does not look at the regions. -/
structure FramesOk (m : Memory) : Prop extends PagesOk m where
  managed : ∀ c p, m.owner c = some p → p < pmmMaxPages ∧ p ≠ 0
  zero : m.pmm.used 0 = true

variable {m m' : Memory} {a b c u v : Nat} {phys flags : UInt64} {s s' : Space} {r : Region}

theorem Clear.releasable (h : Clear s v) : Releasable s v := by
  rcases h with h | h
  · exact .inl h
  · exact .inr (vmmGetPhys_of_not_present h (not_huge_of_not_present h))

theorem Clear.of_sameView (h : Clear s v) (hs : SameView s s' v) : Clear s' v := by
  unfold Clear
  rw [hs.1, hs.2]
  exact h

/-! ## Address spaces -/

theorem mm_setMm_self (m : Memory) (a : Nat) (f : AddressSpace → AddressSpace) :
    (m.setMm a f).mm a = f (m.mm a) := update_self _ _ _

theorem mm_setMm_of_ne (h : b ≠ a) : (m.setMm a f).mm b = m.mm b := update_of_ne h _ _

theorem space_setMm_self (m : Memory) (a : Nat) (f : AddressSpace → AddressSpace) :
    (m.setMm a f).space a = (f (m.mm a)).space := by
  unfold space
  rw [mm_setMm_self]

theorem space_setMm_of_ne (h : b ≠ a) : (m.setMm a f).space b = m.space b := by
  unfold space
  rw [mm_setMm_of_ne h]

theorem space_setMm (hf : ∀ mm, (f mm).space = mm.space) (b : Nat) :
    (m.setMm a f).space b = m.space b := by
  by_cases hb : b = a
  · rw [hb, space_setMm_self, hf]
    rfl
  · exact space_setMm_of_ne hb

theorem owner_setMm (hf : ∀ mm, (f mm).space = mm.space) : (m.setMm a f).owner = m.owner := by
  funext ⟨b, u⟩
  unfold owner
  rw [space_setMm hf]

theorem FramesOk.setMm (h : FramesOk m)
    (hf : ∀ mm, (f mm).space = mm.space) : FramesOk (m.setMm a f) := by
  refine ⟨⟨?_, h.freed⟩, ?_, h.zero⟩
  · rw [owner_setMm hf]
    exact h.owned
  · rw [owner_setMm hf]
    exact h.managed

/-- What the loops over pages leave as it is. -/
structure Keeps (m m' : Memory) : Prop where
  regions : ∀ b, (m'.mm b).regions = (m.mm b).regions
  clear : ∀ b u, Clear (m.space b) u → Clear (m'.space b) u

theorem Keeps.refl (m : Memory) : Keeps m m := ⟨fun _ => rfl, fun _ _ h => h⟩

theorem Keeps.trans {m'' : Memory} (h : Keeps m m') (h' : Keeps m' m'') : Keeps m m'' :=
  ⟨fun b => (h'.regions b).trans (h.regions b), fun b u hc => h'.clear b u (h.clear b u hc)⟩

theorem Keeps.alloc (m : Memory) : Keeps m { m with pmm := m.pmm.pmmAllocPage.1 } :=
  ⟨fun _ => rfl, fun _ _ h => h⟩

theorem Keeps.regionOk (h : Keeps m m') (hr : RegionOk (m.space a) r) : RegionOk (m'.space a) r :=
  ⟨hr.aligned, fun v h1 h2 => h.clear a v (hr.clear v h1 h2)⟩

theorem regions_setMm (hf : ∀ mm, (f mm).regions = mm.regions) (b : Nat) :
    ((m.setMm a f).mm b).regions = (m.mm b).regions := by
  by_cases hb : b = a
  · rw [hb, mm_setMm_self, hf]
  · rw [mm_setMm_of_ne hb]

/-! ## Mapping one page -/

/-- What a USER mapping of one page changes. -/
structure Maps (m m' : Memory) (a v page : Nat) : Prop extends Keeps m m' where
  owner : m'.owner = update m.owner (a, v) (some page)
  pmm : m'.pmm = m.pmm ∨ m'.pmm = m.pmm.pmmAllocPage.1
  present : ∀ b u, (b, u) ≠ (a, v) → isPresent (m'.space b) u = isPresent (m.space b) u
  freed : m'.freed = m.freed

theorem mapPage_maps (hu : hasFlag flags vmmUser = true)
    (h : m.mapPage a v phys flags = some m') : Maps m m' a v (entryPage phys) := by
  unfold mapPage at h
  split at h
  · cases h
  rename_i pmm s hs
  cases h
  obtain ⟨hpte, hview, hpmm⟩ := vmmMapPage_spec hu hs
  have hself : ({ m with pmm := pmm }.setMm a fun mm => { mm with space := s }).space a = s :=
    space_setMm_self _ _ _
  have hother : ∀ b, b ≠ a →
      ({ m with pmm := pmm }.setMm a fun mm => { mm with space := s }).space b = m.space b :=
    fun b hb => space_setMm_of_ne hb
  have huser := userPage_of_mapped hu hpte
  refine ⟨⟨regions_setMm fun _ => rfl, fun b u hc => ?_⟩, ?_, hpmm, fun b u hne => ?_, rfl⟩
  · by_cases hb : b = a
    · rw [hb] at hc ⊢
      rw [hself]
      by_cases hv : u = v
      · rw [hv]
        exact .inl ⟨_, huser⟩
      · exact hc.of_sameView (hview u hv)
    · rw [hother b hb]
      exact hc
  · funext ⟨b, u⟩
    unfold owner
    by_cases hb : b = a
    · subst hb
      by_cases hv : u = v
      · rw [hv, update_self, hself]
        exact huser
      · rw [update_of_ne (fun e => hv (Prod.mk.inj e).2), hself]
        exact (hview u hv).1
    · rw [update_of_ne (fun e => hb (Prod.mk.inj e).1), hother b hb]
  · by_cases hb : b = a
    · have hv : u ≠ v := fun e => hne (by rw [hb, e])
      rw [hb, hself]
      exact (hview u hv).2
    · rw [hother b hb]

theorem Maps.clear_self (h : Maps m m' a v b) : Clear (m'.space a) v := by
  refine .inl ⟨b, ?_⟩
  have ho := congrFun h.owner (a, v)
  rw [update_self] at ho
  exact ho

theorem alloc_used_mono {pmm : Pmm} (h0 : pmm.used 0 = true) (p : Nat) (hp : pmm.used p = true) :
    pmm.pmmAllocPage.1.used p = true := by
  rcases pmmAllocPage_cases h0 with he | ⟨q, -, -, -, -, hq⟩
  · rw [he]
    exact hp
  rw [hq]
  by_cases hpq : p = q
  · simp [hpq]
  · rw [update_of_ne hpq]
    exact hp

section

variable (h : FramesOk m)
include h

theorem FramesOk.alloc : FramesOk { m with pmm := m.pmm.pmmAllocPage.1 } :=
  ⟨⟨h.owned.mono (alloc_used_mono h.zero), h.freed⟩, h.managed, alloc_used_mono h.zero 0 h.zero⟩

/-- The common part of both kinds of mapping. -/
theorem FramesOk.of_maps (hm : Maps m m' a v page)
    (howned : Owned (update m.owner (a, v) (some page)) m.pmm.used)
    (hpage : page < pmmMaxPages ∧ page ≠ 0) : FramesOk m' := by
  have hmono : ∀ p, m.pmm.used p = true → m'.pmm.used p = true := by
    intro p hp
    rcases hm.pmm with he | he
    · rw [he]
      exact hp
    · rw [he]
      exact alloc_used_mono h.zero p hp
  refine ⟨⟨?_, ?_⟩, fun c p hc => ?_, hmono 0 h.zero⟩
  · rw [hm.owner]
    exact howned.mono hmono
  · rw [hm.freed]
    exact h.freed
  rw [hm.owner] at hc
  rcases update_cases hc with ⟨-, hc⟩ | ⟨-, hc⟩
  · rw [← Option.some.inj hc]
    exact hpage
  · exact h.managed c p hc

theorem FramesOk.remap (hm : Maps m m' a v page)
    (ho : m.owner (a, v) = some page) : FramesOk m' := by
  refine h.of_maps hm ?_ (h.managed _ _ ho)
  rw [← ho, update_eq_self]
  exact h.owned

theorem FramesOk.map_fresh (hphys : m.pmm.pmmAllocPage.2 ≠ 0)
    (hm : Maps { m with pmm := m.pmm.pmmAllocPage.1 } m' a v (entryPage m.pmm.pmmAllocPage.2)) :
    FramesOk m' := by
  rcases pmmAllocPage_cases h.zero with he | ⟨p, hlt, hne, hfree, haddr, hused⟩
  · rw [he] at hphys
    exact absurd rfl hphys
  have hpage : entryPage m.pmm.pmmAllocPage.2 = p := by
    rw [haddr]
    exact entryPage_pageAddr hlt
  rw [hpage] at hm
  refine h.alloc.of_maps hm ?_ ⟨hlt, hne⟩
  show Owned (update m.owner (a, v) (some p)) m.pmm.pmmAllocPage.1.used
  rw [hused]
  exact h.owned.grant hfree (a, v)

end

/-! ## Releasing pages -/

theorem Clear.unmap (h : Clear s u) (v : Nat) : Clear (vmmUnmapPage s v) u := by
  rcases vmmGetPte_vmmUnmapPage s v u with hz | hsame
  · right
    rw [isPresent, hz]
    rfl
  · exact h.of_sameView (SameView.of_pte hsame)

theorem releasePage_of_zero (h : vmmGetPhys (m.space a) v = 0) : Memory.releasePage a m v = m := by
  exact if_pos h

section

variable (h : vmmGetPhys (m.space a) v ≠ 0)
include h

theorem releasePage_of_ne_zero : (Memory.releasePage a m v).mm =
      (m.setMm a fun mm => { mm with space := vmmUnmapPage mm.space v }).mm ∧
    (Memory.releasePage a m v).pmm = m.pmm.pmmFreePage (vmmGetPhys (m.space a) v &&& ~~~0xFFF) ∧
    (Memory.releasePage a m v).freed =
      { space := a, vpage := v, page := vmmGetPhys (m.space a) v &&& ~~~0xFFF,
        user := userPage (m.space a) v } :: m.freed := by
  rw [releasePage]
  rw [if_neg h]
  exact ⟨rfl, rfl, rfl⟩

theorem space_releasePage_self :
    (Memory.releasePage a m v).space a = vmmUnmapPage (m.space a) v := by
  unfold space
  rw [(releasePage_of_ne_zero h).1, mm_setMm_self]

theorem space_releasePage_of_ne (hb : b ≠ a) : (Memory.releasePage a m v).space b = m.space b := by
  unfold space
  rw [(releasePage_of_ne_zero h).1, mm_setMm_of_ne hb]

end

theorem releasePage_keeps (m : Memory) (a v : Nat) : Keeps m (Memory.releasePage a m v) := by
  by_cases h : vmmGetPhys (m.space a) v = 0
  · rw [releasePage_of_zero h]
    exact .refl m
  refine ⟨?_, fun b u hc => ?_⟩
  · rw [(releasePage_of_ne_zero h).1]
    exact regions_setMm fun _ => rfl
  by_cases hb : b = a
  · rw [hb] at hc ⊢
    rw [space_releasePage_self h]
    exact hc.unmap v
  · rw [space_releasePage_of_ne h hb]
    exact hc

/-- What releasing a USER page changes. -/
structure Releases (m m' : Memory) (a v p : Nat) : Prop extends Keeps m m' where
  self : m'.space a = vmmUnmapPage (m.space a) v
  other : ∀ b, b ≠ a → m'.space b = m.space b
  owner : m'.owner = update m.owner (a, v) none
  pmm : m'.pmm = m.pmm.pmmFreePage (pageAddr p)
  freed : m'.freed = { space := a, vpage := v, page := pageAddr p, user := some p } :: m.freed
  releasable : ∀ u, Releasable (m.space a) u → Releasable (m'.space a) u

theorem releasePage_releases (hp : userPage (m.space a) v = some p)
    (hman : p < pmmMaxPages ∧ p ≠ 0) : Releases m (Memory.releasePage a m v) a v p := by
  have hphys : vmmGetPhys (m.space a) v = pageAddr p := vmmGetPhys_of_userPage hp hman.1
  have hne : vmmGetPhys (m.space a) v ≠ 0 := by
    rw [hphys]
    exact mt (pageAddr_eq_zero hman.1).mp hman.2
  have haddr : vmmGetPhys (m.space a) v &&& ~~~0xFFF = pageAddr p := by
    rw [vmmGetPhys_of_user hp, and_not_low_addr, ← vmmGetPhys_of_user hp, hphys]
  obtain ⟨hpte, hother⟩ := vmmUnmapPage_spec hp
  obtain ⟨-, hpmm, hfreed⟩ := releasePage_of_ne_zero hne
  rw [haddr] at hpmm hfreed
  rw [hp] at hfreed
  have hself := space_releasePage_self hne
  have hgone : isPresent (vmmUnmapPage (m.space a) v) v = false := by
    unfold isPresent
    rw [hpte]
    decide
  have howner : (releasePage a m v).owner = update m.owner (a, v) none := by
    funext ⟨b, u⟩
    unfold owner
    by_cases hb : b = a
    · subst hb
      rw [hself]
      by_cases hv : u = v
      · subst hv
        rw [update_self, userPage, hpte]
        decide
      · rw [update_of_ne (fun e => hv (Prod.mk.inj e).2), userPage, hother u hv]
        rfl
    · rw [space_releasePage_of_ne hne hb, update_of_ne (fun e => hb (Prod.mk.inj e).1)]
  refine ⟨releasePage_keeps m a v, hself, fun b => space_releasePage_of_ne hne, howner, hpmm,
    hfreed, fun u hr => ?_⟩
  rw [hself]
  by_cases hv : u = v
  · rw [hv]
    exact .inr (vmmGetPhys_of_not_present hgone (not_huge_of_not_present hgone))
  rcases hr with ⟨q, hq⟩ | hr
  · exact .inl ⟨q, (SameView.of_pte (hother u hv)).1.trans hq⟩
  · exact .inr ((vmmGetPhys_unmap_of_ne hp hv).trans hr)

theorem FramesOk.releasePage (h : FramesOk m) (hp : userPage (m.space a) v = some p) :
    FramesOk (Memory.releasePage a m v) := by
  have hman := h.managed (a, v) p hp
  have hr := releasePage_releases hp hman
  have hused : (Memory.releasePage a m v).pmm.used = update m.pmm.used p false := by
    rw [hr.pmm]
    rw [pmmFreePage_pageAddr hman.1 hman.2 (h.owned.used (c := (a, v)) hp)]
  refine ⟨⟨?_, ?_⟩, fun c q hc => ?_, ?_⟩
  · rw [hr.owner, hused]
    exact h.owned.drop hp
  · rw [hr.freed]
    intro f hf
    rcases List.mem_cons.mp hf with rfl | hf
    · exact ⟨p, rfl, rfl⟩
    · exact h.freed f hf
  · rw [hr.owner] at hc
    rcases update_cases hc with ⟨-, hc⟩ | ⟨-, hc⟩
    · cases hc
    · exact h.managed c q hc
  · rw [hused, update_of_ne hman.2.symm]
    exact h.zero

end Kil0yOS.Mm
