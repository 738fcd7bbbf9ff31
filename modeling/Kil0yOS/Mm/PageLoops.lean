/-
The loops of `core/uvm.c`, for any invariant that their single steps keep.

A loop maps a page again with other rights, maps a page fresh from the allocator, or
releases a page of the user.  What these three keep, every operation keeps, as long
as the regions show nothing but pages of the user.
-/
import Kil0yOS.Mm.FrameOwnership

namespace Kil0yOS.Mm

open List Memory UInt64

/-- The single steps keep `J`.  Pages that satisfy `Q` may be mapped, and `O` says
whether a fresh page may take the place of one the user has already. -/
structure Stable (J : Memory → Prop) (Q : Nat → Prop) (O : Prop) : Prop where
  zero : ∀ {m}, J m → m.pmm.used 0 = true
  managed : ∀ {m a v p}, J m → userPage (m.space a) v = some p → p < pmmMaxPages ∧ p ≠ 0
  remap : ∀ {m m' a v p phys flags}, J m → userPage (m.space a) v = some p → entryPage phys = p →
    hasFlag flags vmmUser = true → m.mapPage a v phys flags = some m' → J m'
  fresh : ∀ {m m' a v flags}, J m → Q v → (O ∨ userPage (m.space a) v = none) →
    m.pmm.pmmAllocPage.2 ≠ 0 → hasFlag flags vmmUser = true →
    mapPage { m with pmm := m.pmm.pmmAllocPage.1 } a v m.pmm.pmmAllocPage.2 flags = some m' →
    J m'
  release : ∀ {m a v p}, J m → userPage (m.space a) v = some p → J (releasePage a m v)
  setMm : ∀ {m a} {f : AddressSpace → AddressSpace}, J m → (∀ mm, (f mm).space = mm.space) →
    J (m.setMm a f)

/-- The regions of every address space show nothing but pages of the user. -/
def RegionsClear (m : Memory) : Prop := ∀ a, RegionsOk (m.space a) (m.mm a).regions

def mmapStart (m : Memory) (a : Nat) : UInt64 :=
  if (m.mm a).mmapTop < uvmMmapBase then uvmMmapBase else (m.mm a).mmapTop

/-- The pages `uvm_mmap_anon` maps when it finds them in the limits. -/
def mmapPages (m : Memory) (a : Nat) (hint len : UInt64) (fixed : Bool) : List Nat :=
  let s := if fixed then pageDown hint else pageUp (mmapStart m a)
  pagesOf (pageDown s) (pageUp (s + pageUp len))

variable {J : Memory → Prop} {Q : Nat → Prop} {O : Prop} {m m' : Memory} {a b p c u v : Nat}
  {s : Space} {r : Region} {rs rs' : List Region} {vs done : List Nat} {start stop hint : UInt64}
  {prot : UInt32} {ok fixed : Bool}

/-! ## The region table -/

theorem regionsOk_cons : RegionsOk s (r :: rs) ↔ (r.used = true → RegionOk s r) ∧ RegionsOk s rs :=
  forall_mem_cons

theorem RegionsOk.extendRegion (h : RegionsOk s rs)
    (hnew : RegionOk s { used := true, start := start, stop := stop, prot := prot })
    (he : extendRegion start stop prot rs = some rs') : RegionsOk s rs' := by
  induction rs generalizing rs' with
  | nil => cases he
  | cons r rs ih =>
    obtain ⟨hfirst, htail⟩ := regionsOk_cons.mp h
    rw [extendRegion] at he
    split at he
    · obtain ⟨rest, hrest, rfl⟩ := Option.map_eq_some_iff.mp he
      exact regionsOk_cons.mpr ⟨hfirst, ih htail hrest⟩
    rename_i hc
    cases he
    obtain ⟨hused, hlo, hhi, -⟩ : r.used = true ∧ ¬ r.stop < start ∧ ¬ stop < r.start ∧
        r.prot = prot := by
      simpa using hc
    have hold := hfirst hused
    refine regionsOk_cons.mpr ⟨fun _ => ?_, htail⟩
    -- The two ranges overlap or touch, so the union has no gap.
    constructor
    · split
      · exact hnew.aligned
      · exact hold.aligned
    intro v h1 h2
    dsimp only at h1 h2
    by_cases hin : r.start.toNat ≤ v * 4096 ∧ v * 4096 < r.stop.toNat
    · exact hold.clear v hin.1 hin.2
    · refine hnew.clear v ?_ ?_ <;> dsimp only <;> split at h1 <;> split at h2 <;>
        simp only [lt_iff_toNat_lt] at * <;> omega

theorem RegionsOk.addRegion (h : RegionsOk s rs) (hnew : RegionOk s r)
    (he : addRegion r rs = some rs') : RegionsOk s rs' := by
  induction rs generalizing rs' with
  | nil => cases he
  | cons x rs ih =>
    obtain ⟨hfirst, htail⟩ := regionsOk_cons.mp h
    rw [addRegion] at he
    split at he
    · obtain ⟨rest, hrest, rfl⟩ := Option.map_eq_some_iff.mp he
      exact regionsOk_cons.mpr ⟨hfirst, ih htail hrest⟩
    · cases he
      exact regionsOk_cons.mpr ⟨fun _ => hnew, htail⟩

theorem RegionsOk.regionCommit (h : RegionsOk s rs)
    (hnew : RegionOk s { used := true, start := start, stop := stop, prot := prot }) :
    RegionsOk s (regionCommit rs start stop prot) := by
  unfold Memory.regionCommit
  split
  · next he => exact h.extendRegion hnew he
  · cases he : Memory.addRegion { used := true, start := start, stop := stop, prot := prot } rs with
    | none => exact h
    | some rs' => exact h.addRegion hnew he

theorem RegionOk.shrink {q : Region} (h : RegionOk s r) (haligned : q.start.toNat % 4096 = 0)
    (hlo : r.start.toNat ≤ q.start.toNat) (hhi : q.stop.toNat ≤ r.stop.toNat) : RegionOk s q :=
  ⟨haligned, fun v h1 h2 => h.clear v (hlo.trans h1) (h2.trans_le hhi)⟩

theorem RegionsOk.cutRegion (h : RegionsOk s rs) (haligned : stop.toNat % 4096 = 0) :
    RegionsOk s (rs.map (cutRegion start stop)) := by
  intro q hq hu
  obtain ⟨r, hr, rfl⟩ := mem_map.mp hq
  unfold Memory.cutRegion at hu ⊢
  split at hu
  · next hc =>
    rw [if_pos hc]
    exact h r hr hu
  rename_i hc
  rw [if_neg hc]
  obtain ⟨hused, hlo, hhi⟩ : r.used = true ∧ start < r.stop ∧ r.start < stop := by
    simpa using hc
  have hok := h r hr hused
  split
  · next hcov =>
    rw [if_pos hcov] at hu
    cases hu
  · split
    · exact hok.shrink hok.aligned le_rfl hlo.le
    · exact hok.shrink haligned hhi.le le_rfl

/-! ## What the regions show -/

theorem Keeps.regionsClear (h : Keeps m m') (hr : RegionsClear m) : RegionsClear m' := by
  intro b r hb hu
  rw [h.regions] at hb
  exact h.regionOk (hr b r hb hu)

theorem RegionsClear.setMm {f : AddressSpace → AddressSpace} (h : RegionsClear m)
    (hf : ∀ mm, (f mm).space = mm.space) (hr : RegionsOk (m.space a) (f (m.mm a)).regions) :
    RegionsClear (m.setMm a f) := by
  intro b
  rw [space_setMm hf b]
  by_cases hb : b = a
  · rw [hb, mm_setMm_self]
    exact hr
  · rw [mm_setMm_of_ne hb]
    exact h b

theorem RegionOk.clear_of_mem (h : RegionOk (m.space a) r) (hv : v ∈ pagesOf r.start r.stop) :
    Clear (m.space a) v := by
  obtain ⟨h₁, h₂⟩ := (mem_pagesOf h.aligned).mp hv
  exact h.clear v h₁ h₂

def regionPages (rs : List Region) : List Nat :=
  rs.flatMap fun r => if r.used then pagesOf r.start r.stop else []

theorem regionPages_cons_used (h : r.used = true) :
    regionPages (r :: rs) = pagesOf r.start r.stop ++ regionPages rs := by
  rw [regionPages, flatMap_cons, if_pos h]
  rfl

theorem regionPages_cons_unused (h : ¬ r.used = true) : regionPages (r :: rs) = regionPages rs := by
  rw [regionPages, flatMap_cons, if_neg h]
  rfl

/-- The pages a loop has mapped, with one more. -/
theorem Maps.clear_done {m₀ : Memory} {page : Nat} (hm : Maps m₀ m' a v page) (hk : Keeps m m₀)
    (hdone : ∀ u ∈ done, Clear (m.space a) u) : ∀ u ∈ done ++ [v], Clear (m'.space a) u := by
  refine forall_mem_append.mpr ⟨fun u hu => ?_, forall_mem_singleton.mpr hm.clear_self⟩
  exact (hk.trans hm.toKeeps).clear a u (hdone u hu)

theorem releasePages_keeps (m : Memory) (a : Nat) (vs : List Nat) :
    Keeps m (vs.foldl (releasePage a) m) := by
  induction vs generalizing m with
  | nil => exact .refl m
  | cons v vs ih => exact (releasePage_keeps m a v).trans (ih _)

theorem releaseRegions_eq (m : Memory) (a : Nat) (rs : List Region) :
    rs.foldl (releaseRegion a) m = (regionPages rs).foldl (releasePage a) m := by
  induction rs generalizing m with
  | nil => rfl
  | cons r rs ih =>
    rw [foldl_cons, ih, releaseRegion]
    split
    · next hu => simp [regionPages_cons_used hu]
    · next hu => rw [regionPages_cons_unused hu]

theorem RegionsOk.releasable (h : RegionsOk (m.space a) rs) (hv : v ∈ regionPages rs) :
    Releasable (m.space a) v := by
  obtain ⟨r, hr, hv⟩ := mem_flatMap.mp hv
  split at hv
  · next hu => exact ((h r hr hu).clear_of_mem hv).releasable
  · cases hv

theorem mapLoop_keeps (hdone : ∀ v ∈ done, Clear (m.space a) v)
    (hl : mapLoop a prot done vs m = some (m', ok)) :
    Keeps m m' ∧ (ok = true → ∀ v ∈ done ++ vs, Clear (m'.space a) v) := by
  induction vs generalizing m done with
  | nil =>
    cases hl
    rw [append_nil]
    exact ⟨.refl _, fun _ => hdone⟩
  | cons v vs ih =>
    -- one page has been mapped, and the loop goes on from there
    have hrest : ∀ {m₀ m₁ : Memory} {page : Nat}, Keeps m m₀ → Maps m₀ m₁ a v page →
        mapLoop a prot (done ++ [v]) vs m₁ = some (m', ok) →
        Keeps m m' ∧ (ok = true → ∀ u ∈ done ++ v :: vs, Clear (m'.space a) u) := by
      intro m₀ m₁ page hk hm hl
      obtain ⟨hkeep, hall⟩ := ih (hm.clear_done hk hdone) hl
      rw [append_assoc] at hall
      exact ⟨(hk.trans hm.toKeeps).trans hkeep, hall⟩
    rw [mapLoop] at hl
    dsimp only at hl
    split at hl
    · split at hl
      · cases hl
      · next m₁ hmap => exact hrest (.refl m) (mapPage_maps (protToPte_user _) hmap) hl
    split at hl
    · cases hl
      exact ⟨(Keeps.alloc m).trans (releasePages_keeps _ a done), nofun⟩
    · split at hl
      · cases hl
      · next m₁ hmap => exact hrest (Keeps.alloc m) (mapPage_maps (protToPte_user _) hmap) hl

theorem protLoop_keeps (hl : protLoop a prot vs m = some m') : Keeps m m' := by
  induction vs generalizing m with
  | nil =>
    cases hl
    exact .refl _
  | cons v vs ih =>
    rw [protLoop] at hl
    split at hl
    · exact ih hl
    · split at hl
      · cases hl
      · next m₁ hmap => exact (mapPage_maps (protToPte_user _) hmap).toKeeps.trans (ih hl)

/-! ## The operations and the regions -/

namespace RegionsClear

section

variable (h : RegionsClear m)
include h

theorem uvmReleaseMm (a : Nat) : RegionsClear (m.uvmReleaseMm a) := by
  simp only [Memory.uvmReleaseMm, releaseRegions_eq]
  have hr := (releasePages_keeps m a (regionPages (m.mm a).regions)).regionsClear h
  refine hr.setMm (fun _ => rfl) fun q hq hu => ?_
  obtain ⟨r, -, hqr⟩ := mem_map.mp hq
  rw [← hqr] at hu
  cases hu

theorem uvmUnmapRange : RegionsClear (m.uvmUnmapRange a start stop) := by
  have hr := (releasePages_keeps m a (pagesOf (pageDown start) (pageUp stop))).regionsClear h
  simp only [Memory.uvmUnmapRange]
  exact hr.setMm (fun _ => rfl) ((hr a).cutRegion (pageUp_aligned _))

theorem uvmMapRange (he : m.uvmMapRange a start stop prot = some (m', ok)) :
    RegionsClear m' := by
  rw [Memory.uvmMapRange] at he
  split at he
  · cases he
    exact h
  dsimp only at he
  split at he
  · cases he
  · next hl =>
    cases he
    exact (mapLoop_keeps (by simp) hl).1.regionsClear h
  next m₁ hl =>
  cases he
  obtain ⟨hkeep, hclear⟩ := mapLoop_keeps (by simp) hl
  have hr := hkeep.regionsClear h
  refine hr.setMm (fun _ => rfl) ((hr a).regionCommit ⟨pageDown_aligned _, fun v h₁ h₂ => ?_⟩)
  exact hclear rfl v ((mem_pagesOf (pageDown_aligned _)).mpr ⟨h₁, h₂⟩)

theorem uvmChangeProt
    (he : m.uvmChangeProt a b start stop prot = some (m', ok)) : RegionsClear m' := by
  simp only [Memory.uvmChangeProt] at he
  split at he
  · cases he
    exact h
  split at he
  · cases he
  rename_i m₁ hl
  cases he
  have hr := (protLoop_keeps hl).regionsClear h
  refine hr.setMm (fun _ => rfl) fun q hq hu => ?_
  obtain ⟨r, hmem, hqr⟩ := mem_map.mp hq
  rw [← hqr] at hu ⊢
  split at hu
  · next hout =>
    rw [if_pos hout]
    exact hr a r hmem hu
  next hout =>
  rw [if_neg hout]
  have hok := hr a r hmem hu
  exact { hok with }

end

end RegionsClear

/-- The pages that `uvm_mmap_anon` unmaps first, when the range is fixed, can be given back. -/
def MmapReleasable (m : Memory) (a : Nat) (hint len : UInt64) (fixed : Bool) : Prop :=
  fixed = true → uvmElfBase ≤ pageDown hint → pageDown hint + pageUp len ≤ uvmMmapLimit →
    ∀ v ∈ pagesOf (pageDown (pageDown hint)) (pageUp (pageDown hint + pageUp len)),
      Releasable (m.space a) v

/-- `uvm_mmap_anon` unmaps the range when it is fixed, maps it, and moves the mark. -/
theorem uvmMmapAnon_rule {I : Memory → Prop} {len addr : UInt64} (h : I m)
    (htop : ∀ {m : Memory} (top : UInt64), I m → I (m.setMm a fun mm => { mm with mmapTop := top }))
    (hunmap : fixed = true → uvmElfBase ≤ pageDown hint →
      pageDown hint + pageUp len ≤ uvmMmapLimit →
        I (m.uvmUnmapRange a (pageDown hint) (pageDown hint + pageUp len)))
    (hmap : ∀ {m₁ m₂ : Memory} {ok : Bool} {s : UInt64},
      mmapPages m a hint len fixed = pagesOf (pageDown s) (pageUp (s + pageUp len)) → I m₁ →
        m₁.uvmMapRange a s (s + pageUp len) prot = some (m₂, ok) → I m₂)
    (he : m.uvmMmapAnon a hint len prot fixed = some (m', addr)) : I m' := by
  rw [uvmMmapAnon] at he
  dsimp only at he
  split at he
  · next hfixed =>
    split at he
    · cases he
      exact h
    rename_i hlim
    rw [not_or, UInt64.not_lt, UInt64.not_lt] at hlim
    split at he
    · cases he
    rename_i hm
    cases he
    refine hmap ?_ (hunmap hfixed hlim.1 hlim.2) hm
    rw [mmapPages, if_pos hfixed]
  next hfixed =>
  have hpages : mmapPages m a hint len fixed = pagesOf (pageDown (pageUp (mmapStart m a)))
      (pageUp (pageUp (mmapStart m a) + pageUp len)) := by
    rw [mmapPages, if_neg hfixed]
  rw [← mmapStart] at he
  generalize mmapStart m a = top at he hpages
  split at he
  · cases he
    exact htop _ h
  split at he
  · cases he
  · next hm =>
    cases he
    exact hmap hpages (htop _ h) hm
  · next hm =>
    cases he
    exact htop _ (hmap hpages (htop _ h) hm)

theorem RegionsClear.uvmMmapAnon {len addr : UInt64} (h : RegionsClear m)
    (he : m.uvmMmapAnon a hint len prot fixed = some (m', addr)) : RegionsClear m' :=
  uvmMmapAnon_rule h (fun _ hr => hr.setMm (fun _ => rfl) (hr a)) (fun _ _ _ => h.uvmUnmapRange)
    (fun _ hr hm => hr.uvmMapRange hm) he

namespace Stable

variable (hJ : Stable J Q O)
include hJ

section

variable (h : J m)
include h

theorem alloc_failed (hz : m.pmm.pmmAllocPage.2 = 0) :
    { m with pmm := m.pmm.pmmAllocPage.1 } = m := by
  rcases Pmm.pmmAllocPage_cases (hJ.zero h) with he | ⟨q, hlt, hne, -, haddr, -⟩
  · rw [he]
  · rw [haddr] at hz
    exact absurd ((Pmm.pageAddr_eq_zero hlt).mp hz) hne

/-! ## Release -/

theorem releasePage (hr : Releasable (m.space a) v) :
    J (releasePage a m v) ∧
      ∀ u, Releasable (m.space a) u → Releasable ((releasePage a m v).space a) u := by
  rcases hr with ⟨p, hp⟩ | hz
  · have hrel := releasePage_releases hp (hJ.managed h hp)
    exact ⟨hJ.release h hp, hrel.releasable⟩
  · rw [releasePage_of_zero hz]
    exact ⟨h, fun _ hu => hu⟩

theorem releasePages (vs : List Nat) (hr : ∀ v ∈ vs, Releasable (m.space a) v) :
    J (vs.foldl (Memory.releasePage a) m) := by
  induction vs generalizing m with
  | nil => exact h
  | cons v vs ih =>
    obtain ⟨hv, htail⟩ := forall_mem_cons.mp hr
    obtain ⟨hj, hrel⟩ := hJ.releasePage h hv
    exact ih hj fun u hu => hrel u (htail u hu)

theorem uvmReleaseMm (hr : RegionsClear m) (a : Nat) : J (m.uvmReleaseMm a) := by
  simp only [Memory.uvmReleaseMm, releaseRegions_eq]
  exact hJ.setMm (hJ.releasePages h _ fun v hv => (hr a).releasable hv) fun _ => rfl

theorem uvmUnmapRange
    (hrel : ∀ v ∈ pagesOf (pageDown start) (pageUp stop), Releasable (m.space a) v) :
    J (m.uvmUnmapRange a start stop) := by
  simp only [Memory.uvmUnmapRange]
  exact hJ.setMm (hJ.releasePages h _ hrel) fun _ => rfl

/-! ## Mapping -/

theorem mapLoop (hq : ∀ v ∈ vs, Q v) (hdone : ∀ v ∈ done, Clear (m.space a) v)
    (hl : mapLoop a prot done vs m = some (m', ok)) : J m' := by
  induction vs generalizing m done with
  | nil =>
    cases hl
    exact h
  | cons v vs ih =>
    obtain ⟨hqv, hqtail⟩ := forall_mem_cons.mp hq
    rw [mapLoop] at hl
    dsimp only at hl
    split at hl
    · next hpte =>
      split at hl
      · cases hl
      · next m₁ hmap =>
        exact ih (hJ.remap h (userPage_of_flags hpte) (entryPage_and_not_low _) (protToPte_user _)
          hmap) hqtail ((mapPage_maps (protToPte_user _) hmap).clear_done (.refl m) hdone) hl
    next hpte =>
    have hnone : userPage (m.space a) v = none := by
      rw [userPage, if_neg hpte]
    split at hl
    · next hz =>
      cases hl
      rw [hJ.alloc_failed h hz]
      exact hJ.releasePages h done fun u hu => (hdone u hu).releasable
    next hphys =>
    split at hl
    · cases hl
    · next m₁ hmap =>
      exact ih (hJ.fresh h hqv (.inr hnone) hphys (protToPte_user _) hmap) hqtail
        ((mapPage_maps (protToPte_user _) hmap).clear_done (Keeps.alloc m) hdone) hl

theorem uvmMapRange (hq : ∀ v ∈ pagesOf (pageDown start) (pageUp stop), Q v)
    (he : m.uvmMapRange a start stop prot = some (m', ok)) : J m' := by
  rw [Memory.uvmMapRange] at he
  split at he
  · cases he
    exact h
  dsimp only at he
  split at he
  · cases he
  · next hl =>
    cases he
    exact hJ.mapLoop h hq (by simp) hl
  · next m₁ hl =>
    cases he
    exact hJ.setMm (hJ.mapLoop h hq (by simp) hl) fun _ => rfl

theorem uvmMmapAnon {len addr : UInt64} (hrel : MmapReleasable m a hint len fixed)
    (hq : ∀ v ∈ mmapPages m a hint len fixed, Q v)
    (he : m.uvmMmapAnon a hint len prot fixed = some (m', addr)) : J m' := by
  refine uvmMmapAnon_rule h (fun _ hj => hJ.setMm hj fun _ => rfl)
    (fun hf h₁ h₂ => hJ.uvmUnmapRange h (hrel hf h₁ h₂)) (fun hpages hj hm => ?_) he
  rw [hpages] at hq
  exact hJ.uvmMapRange hj hq hm

/-! ## Protection -/

theorem protLoop (hvs : ∀ v ∈ vs, Clear (m.space a) v)
    (hl : protLoop a prot vs m = some m') : J m' := by
  induction vs generalizing m with
  | nil =>
    cases hl
    exact h
  | cons v vs ih =>
    obtain ⟨hv, htail⟩ := forall_mem_cons.mp hvs
    rw [protLoop] at hl
    split at hl
    · exact ih h htail hl
    rename_i hphys
    split at hl
    · cases hl
    rename_i m₁ hmap
    -- a page that is there and belongs to a region is one of the user
    obtain ⟨p, hp⟩ : ∃ p, userPage (m.space a) v = some p := hv.releasable.resolve_right hphys
    have hman := hJ.managed h hp
    have hpage : entryPage (vmmGetPhys (m.space a) v &&& ~~~0xFFF) = p := by
      rw [entryPage_and_not_low, vmmGetPhys_of_userPage hp hman.1, entryPage_pageAddr hman.1]
    have hm := mapPage_maps (protToPte_user _) hmap
    exact ih (hJ.remap h hp hpage (protToPte_user _) hmap)
      (fun u hu => hm.clear a u (htail u hu)) hl

end

end Stable

theorem RegionsClear.clear_of_inRegion (h : RegionsClear m) (hv : v * 4096 < 2 ^ 64)
    (hin : inRegion (m.mm a) (Pmm.pageAddr v) = true) : Clear (m.space a) v := by
  obtain ⟨r, hr, hcond⟩ := any_eq_true.mp hin
  simp only [Bool.and_eq_true, decide_eq_true_eq, le_iff_toNat_le,
    lt_iff_toNat_lt] at hcond
  rw [Pmm.toNat_pageAddr_of_lt hv] at hcond
  exact (h a r hr hcond.1.1).clear v hcond.1.2 hcond.2

/-- A page of a range that passed the check belongs to a region. -/
theorem RegionsClear.clear_of_uvmCheckRange (h : RegionsClear m) (hs : start.toNat % 4096 = 0)
    (hc : m.uvmCheckRange a b start (stop - start) = true) (hv : v ∈ pagesOf start stop) :
    Clear (m.space a) v := by
  have hbounds := (mem_pagesOf hs).mp hv
  have hsum : start + (stop - start) = stop := by
    simp
  rw [uvmCheckRange, hsum, pageDown_of_aligned hs] at hc
  split at hc
  · next hz =>
    have heq : stop = start := by rw [← hsum, hz, add_zero]
    rw [heq] at hbounds
    omega
  · split at hc
    · cases hc
    · have hlt := stop.toNat_lt
      exact h.clear_of_inRegion (by omega) (Bool.and_eq_true_iff.mp (all_eq_true.mp hc v hv)).1

theorem hasFlag_user_and_low (e : UInt64) : hasFlag (e &&& 0xFFF) vmmUser = hasFlag e vmmUser := by
  unfold hasFlag
  have h : e &&& 0xFFF &&& vmmUser = e &&& (0xFFF &&& vmmUser) := UInt64.and_assoc _ _ _
  rw [h]
  rfl

theorem Clear.user_of_present (h : Clear s v) (hp : hasFlag (vmmGetPte s v) vmmPresent = true) :
    hasFlag (vmmGetPte s v) vmmUser = true := by
  rcases h with ⟨p, hu⟩ | hn
  · unfold userPage at hu
    split at hu
    · next hc => exact (Bool.and_eq_true_iff.mp hc).2
    · cases hu
  · unfold isPresent at hn
    rw [hp] at hn
    cases hn

/-- What copying pages to the child leaves of the parent, and makes of the
child. -/
structure Copied (m m' : Memory) (p : Nat) : Prop extends Keeps m m' where
  present : ∀ u, isPresent (m'.space p) u = isPresent (m.space p) u

theorem Copied.trans {m'' : Memory} (h : Copied m m' p) (h' : Copied m' m'' p) : Copied m m'' p :=
  ⟨h.toKeeps.trans h'.toKeeps, fun u => (h'.present u).trans (h.present u)⟩

/-- A page the parent does not have, in a region of its, is one the child does not
have either, or has as its own. -/
def HolesClear (m : Memory) (p c : Nat) (rs : List Region) : Prop :=
  ∀ r ∈ rs, r.used = true → ∀ v ∈ pagesOf r.start r.stop,
    isPresent (m.space p) v = false → Clear (m.space c) v

/-- The child has the pages of a region, and gets the region: nothing else changes. -/
theorem Copied.addRegion {regions : List Region} (hcopy : Copied m m' p) (hr : RegionsClear m)
    (hok : RegionOk (m.space p) r) (hclear : ∀ v ∈ pagesOf r.start r.stop, Clear (m'.space c) v)
    (hadd : addRegion r (m'.mm c).regions = some regions) (htail : RegionsOk (m.space p) rs)
    (hholes : HolesClear m p c rs) :
    RegionsClear (m'.setMm c fun mm => { mm with regions := regions }) ∧
      RegionsOk ((m'.setMm c fun mm => { mm with regions := regions }).space p) rs ∧
      HolesClear (m'.setMm c fun mm => { mm with regions := regions }) p c rs := by
  have hspace : ∀ b, (m'.setMm c fun mm => { mm with regions := regions }).space b = m'.space b :=
    space_setMm fun _ => rfl
  have hr' := hcopy.toKeeps.regionsClear hr
  have hregion : RegionOk (m'.space c) r :=
    ⟨hok.aligned, fun v h₁ h₂ => hclear v ((mem_pagesOf hok.aligned).mpr ⟨h₁, h₂⟩)⟩
  refine ⟨hr'.setMm (fun _ => rfl) ((hr' c).addRegion hregion hadd), ?_, ?_⟩
  · rw [hspace]
    exact fun q hq hu => hcopy.regionOk (htail q hq hu)
  intro q hq hu v hv hn
  rw [hspace, hcopy.present] at hn
  rw [hspace]
  exact hcopy.clear c v (hholes q hq hu v hv hn)

namespace Stable

variable (hJ : Stable J Q O)
include hJ

theorem uvmChangeProt (h : J m) (hr : RegionsClear m)
    (he : m.uvmChangeProt a b start stop prot = some (m', ok)) : J m' := by
  simp only [Memory.uvmChangeProt] at he
  split at he
  · cases he
    exact h
  rename_i hc
  rw [Bool.not_eq_false] at hc
  split at he
  · cases he
  rename_i m₁ hl
  cases he
  exact hJ.setMm (hJ.protLoop h
    (fun v hv => hr.clear_of_uvmCheckRange (pageDown_aligned _) hc hv) hl) fun _ => rfl

/-! ## Fork -/

theorem forkPages (ho : O) (h : J m) (hpc : p ≠ c) (hparent : ∀ v ∈ vs, Clear (m.space p) v)
    (hchild : ∀ v ∈ vs, isPresent (m.space p) v = false → Clear (m.space c) v)
    (hq : ∀ v ∈ vs, isPresent (m.space p) v = true → Q v)
    (hl : forkPages p c vs m = some (m', ok)) :
    J m' ∧ Copied m m' p ∧ (ok = true → ∀ v ∈ vs, Clear (m'.space c) v) := by
  induction vs generalizing m with
  | nil =>
    cases hl
    exact ⟨h, ⟨.refl _, fun _ => rfl⟩, by simp⟩
  | cons v vs ih =>
    obtain ⟨hpv, hptail⟩ := forall_mem_cons.mp hparent
    obtain ⟨hcv, hctail⟩ := forall_mem_cons.mp hchild
    obtain ⟨hqv, hqtail⟩ := forall_mem_cons.mp hq
    -- the page is settled in the child, and the loop goes on from there
    have hrest : ∀ {m₁ : Memory}, J m₁ → Copied m m₁ p → Clear (m₁.space c) v →
        forkPages p c vs m₁ = some (m', ok) →
        J m' ∧ Copied m m' p ∧ (ok = true → ∀ u ∈ v :: vs, Clear (m'.space c) u) := by
      intro m₁ hj hcopy hv hl
      obtain ⟨hj', hcopy', hall⟩ := ih hj (fun u hu => hcopy.clear p u (hptail u hu))
        (fun u hu hn => hcopy.clear c u (hctail u hu ((hcopy.present u).symm.trans hn)))
        (fun u hu hn => hqtail u hu ((hcopy.present u).symm.trans hn)) hl
      exact ⟨hj', hcopy.trans hcopy',
        fun hok => forall_mem_cons.mpr ⟨hcopy'.clear c v hv, hall hok⟩⟩
    rw [forkPages] at hl
    dsimp only at hl
    split at hl
    · next hpres =>
      split at hl
      · next hz =>
        cases hl
        rw [hJ.alloc_failed h hz]
        exact ⟨h, ⟨.refl m, fun _ => rfl⟩, fun hok => absurd hok Bool.false_ne_true⟩
      rename_i hphys
      split at hl
      · cases hl
      rename_i m₁ hmap
      have huser : hasFlag (vmmGetPte (m.space p) v &&& 0xFFF) vmmUser = true := by
        rw [hasFlag_user_and_low]
        exact hpv.user_of_present hpres
      have hm := mapPage_maps huser hmap
      have hcopy : Copied m m₁ p :=
        ⟨(Keeps.alloc m).trans hm.toKeeps, fun u => hm.present p u fun e => hpc (Prod.mk.inj e).1⟩
      exact hrest (hJ.fresh h (hqv hpres) (.inl ho) hphys huser hmap) hcopy hm.clear_self hl
    · next hpres =>
      exact hrest h ⟨.refl m, fun _ => rfl⟩ (hcv (Bool.eq_false_iff.mpr hpres)) hl

theorem forkRegions (ho : O) (h : J m) (hr : RegionsClear m) (hpc : p ≠ c)
    (hrs : RegionsOk (m.space p) rs) (hholes : HolesClear m p c rs)
    (hq : ∀ v ∈ regionPages rs, isPresent (m.space p) v = true → Q v)
    (hl : forkRegions p c rs m = some (m', ok)) : J m' ∧ RegionsClear m' := by
  induction rs generalizing m with
  | nil =>
    cases hl
    exact ⟨h, hr⟩
  | cons r rs ih =>
    obtain ⟨hok, htail⟩ := regionsOk_cons.mp hrs
    obtain ⟨hhole, hholesTail⟩ := forall_mem_cons.mp hholes
    rw [forkRegions] at hl
    split at hl
    · next hused =>
      rw [regionPages_cons_used hused] at hq
      replace hok := hok hused
      have hpages := fun {m₁ : Memory} {done : Bool}
          (hl : Memory.forkPages p c (pagesOf r.start r.stop) m = some (m₁, done)) =>
        hJ.forkPages ho h hpc (fun v hv => hok.clear_of_mem hv) (hhole hused)
          (fun v hv => hq v (mem_append_left _ hv)) hl
      split at hl
      · cases hl
      · next m₁ hl₁ =>
        cases hl
        obtain ⟨hj, hcopy, -⟩ := hpages hl₁
        have hr₁ := hcopy.toKeeps.regionsClear hr
        exact ⟨hJ.uvmReleaseMm hj hr₁ c, hr₁.uvmReleaseMm c⟩
      next m₁ hl₁ =>
      obtain ⟨hj, hcopy, hclear⟩ := hpages hl₁
      have hr₁ := hcopy.toKeeps.regionsClear hr
      split at hl
      · cases hl
        exact ⟨hJ.uvmReleaseMm hj hr₁ c, hr₁.uvmReleaseMm c⟩
      rename_i regions hadd
      obtain ⟨hr₂, hrs₂, hholes₂⟩ :=
        hcopy.addRegion hr hok (hclear rfl) hadd htail hholesTail
      have hj₂ : J (m₁.setMm c fun mm => { mm with regions := regions }) :=
        hJ.setMm hj fun _ => rfl
      refine ih hj₂ hr₂ hrs₂ hholes₂ (fun v hv hn => ?_) hl
      rw [space_setMm (by simp), hcopy.present] at hn
      exact hq v (mem_append_right _ hv) hn
    · next hused =>
      rw [regionPages_cons_unused hused] at hq
      exact ih h hr htail hholesTail hq hl

theorem uvmFork (ho : O) (h : J m) (hr : RegionsClear m) (hpc : p ≠ c)
    (hholes : HolesClear m p c (m.mm p).regions)
    (hq : ∀ v ∈ regionPages (m.mm p).regions, isPresent (m.space p) v = true → Q v)
    (he : m.uvmFork p c = some (m', ok)) : J m' ∧ RegionsClear m' := by
  rw [Memory.uvmFork] at he
  split at he
  · cases he
  · next hl =>
    cases he
    exact hJ.forkRegions ho h hr hpc (hr p) hholes hq hl
  next hl =>
  cases he
  obtain ⟨hj, hr'⟩ := hJ.forkRegions ho h hr hpc (hr p) hholes hq hl
  exact ⟨hJ.setMm hj fun _ => rfl, hr'.setMm (fun _ => rfl) (hr' c)⟩

end Stable

end Kil0yOS.Mm
