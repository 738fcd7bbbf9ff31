/-
The accesses of the loops of `core/uvm.c`.

While every page the kernel has to do with is found under its own number, each access
of a loop reaches the page it names.  The single steps come first, and the loops are
inductions that carry the state along with the list.
-/
import Kil0yOS.Mm.IdentityMap

namespace Kil0yOS.Mm

open List Function Memory

variable {m : Memory} {a b c f p v w : Nat} {ram : Nat → Prop} {e : Env} {prot : UInt32}
  {vs : List Nat} {rs : List Region} {start stop : UInt64} {x : PdEntry}

/-! ## Lists of accesses -/

/-- Every access of the list reaches the page it names. -/
def AllReach (xs : List Access) : Prop := ∀ x ∈ xs, x.Reaches

@[simp] theorem allReach_nil : AllReach [] := by
  intro x hx
  cases hx

@[simp] theorem allReach_append {xs ys : List Access} :
    AllReach (xs ++ ys) ↔ AllReach xs ∧ AllReach ys := forall_mem_append

/-- The pages of the upper levels are pages of RAM. -/
def EnvRam (ram : Nat → Prop) (e : Env) : Prop := ∀ a, ∀ f ∈ (e.dirs a).frames, ram f

theorem Dirs.mem_frames_of_mem_walk {d : Dirs} (h : f ∈ d.walk v) : f ∈ d.frames := by
  simp only [Dirs.walk, Dirs.frames, mem_append, mem_cons, Option.mem_toList,
    not_mem_nil, or_false] at h ⊢
  rcases h with (h | h | h) | h
  · exact .inl h
  · exact .inr (.inl h)
  · exact .inr (.inr (.inl h))
  · exact .inr (.inr (.inr (mem_of_getElem? h)))

/-! ## Single steps -/

/-- The kernel finds the pages of RAM under their numbers, in every address space. -/
def Found (ram : Nat → Prop) (m : Memory) : Prop :=
  ∀ b f, ram f → kernelPage (m.space b) f = some f

theorem RamInv.found (h : RamInv ram m) : Found ram m := fun b f hf => (h.kernel b f hf).1

theorem Found.touch (h : Found ram m) {fs : List Nat} (hfs : ∀ f ∈ fs, ram f) :
    AllReach (e.touch m fs) := by
  intro x hx
  obtain ⟨f, hf, hxf⟩ := mem_map.mp hx
  rw [← hxf]
  exact h e.loaded f (hfs f hf)

theorem Found.walk (h : Found ram m) (he : EnvRam ram e)
    (htable : ∀ p, tablePage (m.space a) (windowOf v) = some p → ram p) :
    AllReach (e.walk m a v) := by
  apply h.touch
  intro f hf
  rcases mem_append.mp hf with hf | hf
  · exact he a f (Dirs.mem_frames_of_mem_walk hf)
  · exact htable f (Option.mem_toList.mp hf)

theorem RamInv.walk (h : RamInv ram m) (he : EnvRam ram e) (a v : Nat) : AllReach (e.walk m a v) :=
  h.found.walk he fun p hp => h.table a _ p hp

theorem space_setWindow_self (m : Memory) (a w : Nat) (x : PdEntry) :
    (Env.setWindow m a w x).space a = update (m.space a) w x := space_setMm_self _ _ _

theorem space_setWindow_of_ne (h : b ≠ a) :
    (Env.setWindow m a w x).space b = m.space b := space_setMm_of_ne h

/-- The directory entry of a window changes, and the pages of RAM in it stay. -/
theorem RamInv.found_setWindow (h : RamInv ram m)
    (hw : ∀ f, ram f → windowOf f = w → kernelPage (update (m.space a) w x) f = some f) :
    Found ram (Env.setWindow m a w x) := by
  intro b f hf
  by_cases hb : b = a
  · rw [hb, space_setWindow_self]
    by_cases hfw : windowOf f = w
    · exact hw f hf hfw
    · rw [kernelPage_congr (update_of_ne hfw _ _)]
      exact h.found a f hf
  · rw [space_setWindow_of_ne hb]
    exact h.found b f hf

theorem tablePage_setWindow {page : Nat} {entries : Nat → UInt64}
    (hp : tablePage ((Env.setWindow m a w (.table page entries)).space a) w = some p) :
    p = page := by
  rw [space_setWindow_self, tablePage, update_self] at hp
  exact (Option.some.inj hp).symm

theorem entryPage_of_present {s : Space} (h : Clear s v)
    (hp : hasFlag (vmmGetPte s v) vmmPresent = true) :
    userPage s v = some (entryPage (vmmGetPte s v)) := by
  rw [userPage, hp, h.user_of_present hp]
  rfl

section Reach

variable (h : RamInv ram m) (he : EnvRam ram e)
include h he

namespace RamInv

theorem mapPage_reach (a v : Nat) (flags : UInt64) : AllReach (e.mapPage m a v flags) := by
  simp only [Env.mapPage, allReach_append]
  refine ⟨h.walk he a v, ?_⟩
  split
  · exact allReach_nil
  · next x hx =>
    split
    · next hc =>
      have hram := (h.alloc_ram hc.2).1
      have hfound : Found ram (Env.setWindow m a (windowOf v)
          (.table (pageNo m.pmm.pmmAllocPage.2) (splitHuge x))) :=
        h.found_setWindow fun f _ hw => kernelPage_split (h.huge a) hx _ hw
      rw [allReach_append]
      refine ⟨h.found.touch (forall_mem_singleton.mpr hram), hfound.walk he fun p hp => ?_⟩
      rw [tablePage_setWindow hp]
      exact hram
    · exact allReach_nil
  next hx =>
  split
  · exact allReach_nil
  rename_i hz
  have hram := (h.alloc_ram hz).1
  -- an empty window holds no page of RAM
  have hfound : ∀ entries, Found ram (Env.setWindow m a (windowOf v)
      (.table (pageNo m.pmm.pmmAllocPage.2) entries)) := by
    intro entries
    apply h.found_setWindow
    intro f hf hw
    have hk := h.found a f hf
    simp only [kernelPage, hw, hx] at hk
    cases hk
  rw [allReach_append]
  refine ⟨(hfound _).touch (forall_mem_singleton.mpr hram), (hfound _).walk he fun p hp => ?_⟩
  rw [tablePage_setWindow hp]
  exact hram

/-! ## Loops -/

theorem releasePages_reach (hr : ∀ v ∈ vs, Releasable (m.space a) v) :
    AllReach (e.releasePages a vs m) := by
  induction vs generalizing m with
  | nil => exact allReach_nil
  | cons v vs ih =>
    obtain ⟨hv, htail⟩ := forall_mem_cons.mp hr
    obtain ⟨hj, hrel⟩ := (RamInv.stable ram).releasePage h hv
    simp only [Env.releasePages, Env.releasePage, allReach_append]
    refine ⟨⟨h.walk he a v, ?_⟩, ih hj fun u hu => hrel u (htail u hu)⟩
    split
    · exact allReach_nil
    · exact h.walk he a v

theorem releaseRegions_reach (hrs : RegionsOk (m.space a) rs) :
    AllReach (e.releaseRegions a rs m) := by
  induction rs generalizing m with
  | nil => exact allReach_nil
  | cons r rs ih =>
    obtain ⟨hok, htail⟩ := regionsOk_cons.mp hrs
    by_cases hu : r.used = true
    · have hrel : ∀ v ∈ pagesOf r.start r.stop, Releasable (m.space a) v :=
        fun v hv => ((hok hu).clear_of_mem hv).releasable
      simp only [Env.releaseRegions, releaseRegion, if_pos hu, allReach_append]
      exact ⟨h.releasePages_reach he hrel, ih ((RamInv.stable ram).releasePages h _ hrel)
        fun q hq hq' => (releasePages_keeps m a _).regionOk (htail q hq hq')⟩
    · simp only [Env.releaseRegions, releaseRegion, if_neg hu, allReach_append]
      exact ⟨allReach_nil, ih h htail⟩

theorem mapLoop_reach {done : List Nat} (hv : ∀ v ∈ vs, ¬ ram v)
    (hdone : ∀ v ∈ done, Clear (m.space a) v) : AllReach (e.mapLoop a prot done vs m) := by
  induction vs generalizing m done with
  | nil => exact allReach_nil
  | cons v vs ih =>
    obtain ⟨hfirst, htail⟩ := forall_mem_cons.mp hv
    simp only [Env.mapLoop, allReach_append]
    refine ⟨h.walk he a v, ?_⟩
    split
    · next hpte =>
      rw [allReach_append]
      refine ⟨h.mapPage_reach he a v _, ?_⟩
      split
      · exact allReach_nil
      rename_i m₁ hmap
      exact ih ((RamInv.stable ram).remap h (userPage_of_flags hpte) (entryPage_and_not_low _)
        (protToPte_user _) hmap) htail
        ((mapPage_maps (protToPte_user _) hmap).clear_done (.refl m) hdone)
    split
    · apply h.alloc.releasePages_reach he
      intro u hu
      exact (hdone u hu).releasable
    rename_i hz
    rw [allReach_append]
    refine ⟨h.alloc.mapPage_reach he a v _, ?_⟩
    split
    · exact allReach_nil
    rename_i m₁ hmap
    have hj := (RamInv.stable ram).fresh h hfirst (.inl trivial) hz (protToPte_user _) hmap
    rw [allReach_append]
    exact ⟨hj.found.touch (forall_mem_singleton.mpr (h.alloc_ram hz).1), ih hj htail
        ((mapPage_maps (protToPte_user _) hmap).clear_done (Keeps.alloc m) hdone)⟩

theorem uvmMapRange_reach (hv : ∀ v ∈ pagesOf (pageDown start) (pageUp stop), ¬ ram v) :
    AllReach (e.uvmMapRange m a start stop prot) := by
  rw [Env.uvmMapRange]
  split
  · exact allReach_nil
  · exact h.mapLoop_reach he hv (by simp)

theorem checkLoop_reach (a b : Nat) (vs : List Nat) : AllReach (e.checkLoop m a b vs) := by
  induction vs with
  | nil => exact allReach_nil
  | cons v vs ih =>
    rw [Env.checkLoop]
    split
    · rw [allReach_append]
      refine ⟨h.walk he b v, ?_⟩
      split
      · exact allReach_nil
      · exact ih
    · exact allReach_nil

theorem protLoop_reach (hvs : ∀ v ∈ vs, Clear (m.space a) v) :
    AllReach (e.protLoop a prot vs m) := by
  induction vs generalizing m with
  | nil => exact allReach_nil
  | cons v vs ih =>
    obtain ⟨hfirst, htail⟩ := forall_mem_cons.mp hvs
    simp only [Env.protLoop, allReach_append]
    refine ⟨h.walk he a v, ?_⟩
    split
    · exact ih h htail
    rename_i hz
    rw [allReach_append]
    refine ⟨h.mapPage_reach he a v _, ?_⟩
    split
    · exact allReach_nil
    rename_i m₁ hmap
    -- the loop over this page alone keeps the invariant
    have hone : protLoop a prot [v] m = some m₁ := by
      simp [protLoop, hz, hmap]
    exact ih ((RamInv.stable ram).protLoop h (forall_mem_singleton.mpr hfirst) hone)
      fun u hu => (protLoop_keeps hone).clear a u (htail u hu)

theorem uvmChangeProt_reach (hr : RegionsClear m) :
    AllReach (e.uvmChangeProt m a b start stop prot) := by
  simp only [Env.uvmChangeProt, allReach_append]
  constructor
  · rw [Env.uvmCheckRange]
    split
    · exact allReach_nil
    · exact h.checkLoop_reach he a b _
  · split
    · next hc =>
      exact h.protLoop_reach he fun v hv => hr.clear_of_uvmCheckRange (pageDown_aligned _) hc hv
    · exact allReach_nil

theorem uvmMmapAnon_reach {hint len : UInt64} {fixed : Bool}
    (hrel : MmapReleasable m a hint len fixed) (hv : ∀ v ∈ mmapPages m a hint len fixed, ¬ ram v) :
    AllReach (e.uvmMmapAnon m a hint len prot fixed) := by
  simp only [Env.uvmMmapAnon]
  split
  · next hfixed =>
    rw [mmapPages, if_pos hfixed] at hv
    split
    · exact allReach_nil
    rename_i hlim
    rw [not_or, UInt64.not_lt, UInt64.not_lt] at hlim
    have hpages := hrel hfixed hlim.1 hlim.2
    rw [allReach_append]
    exact ⟨h.releasePages_reach he hpages,
      ((RamInv.stable ram).uvmUnmapRange h hpages).uvmMapRange_reach he hv⟩
  · next hfixed =>
    rw [mmapPages, if_neg hfixed] at hv
    split
    · exact allReach_nil
    · have hj : RamInv ram (m.setMm a fun mm => { mm with mmapTop := mmapStart m a }) :=
        h.setMm fun _ => rfl
      exact hj.uvmMapRange_reach he hv

/-! ## Fork -/

theorem forkPages_reach (hparent : ∀ v ∈ vs, Clear (m.space p) v) :
    AllReach (e.forkPages p c vs m) := by
  induction vs generalizing m with
  | nil => exact allReach_nil
  | cons v vs ih =>
    obtain ⟨hfirst, htail⟩ := forall_mem_cons.mp hparent
    simp only [Env.forkPages, allReach_append]
    refine ⟨h.walk he p v, ?_⟩
    split
    · next hpres =>
      have huser := entryPage_of_present hfirst hpres
      split
      · exact allReach_nil
      rename_i hz
      rw [allReach_append, allReach_append]
      refine ⟨h.alloc.found.touch (forall_mem_cons.mpr ⟨(h.alloc_ram hz).1,
        forall_mem_singleton.mpr (h.user p v _ huser)⟩), h.alloc.mapPage_reach he c v _, ?_⟩
      · split
        · exact allReach_nil
        rename_i m₁ hmap
        have hflag : hasFlag (vmmGetPte (m.space p) v &&& 0xFFF) vmmUser = true := by
          rw [hasFlag_user_and_low]
          exact hfirst.user_of_present hpres
        have hm := mapPage_maps hflag hmap
        have hj := (RamInv.stable ram).fresh h (h.not_ram_of_user huser) (.inl trivial) hz
          hflag hmap
        exact ih hj fun u hu => ((Keeps.alloc m).trans hm.toKeeps).clear p u (htail u hu)
    · exact ih h htail

theorem forkRegions_reach (hr : RegionsClear m) (hpc : p ≠ c)
    (hrs : RegionsOk (m.space p) rs) (hholes : HolesClear m p c rs) :
    AllReach (e.forkRegions p c rs m) := by
  induction rs generalizing m with
  | nil => exact allReach_nil
  | cons r rs ih =>
    obtain ⟨hok, htail⟩ := regionsOk_cons.mp hrs
    obtain ⟨hhole, hholesTail⟩ := forall_mem_cons.mp hholes
    rw [Env.forkRegions]
    split
    · next hused =>
      replace hok := hok hused
      have hparent : ∀ v ∈ pagesOf r.start r.stop, Clear (m.space p) v :=
        fun v hv => hok.clear_of_mem hv
      have hpages := fun {m₁ : Memory} {done : Bool}
          (hl : forkPages p c (pagesOf r.start r.stop) m = some (m₁, done)) =>
        (RamInv.stable ram).forkPages trivial h hpc hparent (hhole hused)
          (fun v hv hp => h.not_ram_of_user (entryPage_of_present (hparent v hv) hp)) hl
      rw [allReach_append]
      refine ⟨h.forkPages_reach he hparent, ?_⟩
      split
      · exact allReach_nil
      · next m₁ hl₁ =>
        obtain ⟨hj, hcopy, -⟩ := hpages hl₁
        exact hj.releaseRegions_reach he (hcopy.toKeeps.regionsClear hr c)
      rename_i m₁ hl₁
      obtain ⟨hj, hcopy, hclear⟩ := hpages hl₁
      have hr₁ := hcopy.toKeeps.regionsClear hr
      split
      · exact hj.releaseRegions_reach he (hr₁ c)
      rename_i regions hadd
      obtain ⟨hr₂, hrs₂, hholes₂⟩ :=
        hcopy.addRegion hr hok (hclear rfl) hadd htail hholesTail
      have hj₂ : RamInv ram (m₁.setMm c fun mm => { mm with regions := regions }) :=
        hj.setMm fun _ => rfl
      exact ih hj₂ hr₂ hrs₂ hholes₂
    · exact ih h hr htail hholesTail

theorem copyLoop_reach
    (hvs : ∀ v ∈ vs, Releasable (m.space a) v) : AllReach (e.copyLoop m a vs) := by
  induction vs with
  | nil => exact allReach_nil
  | cons v vs ih =>
    obtain ⟨hfirst, htail⟩ := forall_mem_cons.mp hvs
    simp only [Env.copyLoop, allReach_append]
    refine ⟨h.walk he a v, ?_⟩
    split
    · exact allReach_nil
    rename_i hz
    obtain ⟨p, hp⟩ := hfirst.resolve_right hz
    have hram := h.user a v p hp
    have hlt := (h.bounds p hram).1
    rw [allReach_append]
    refine ⟨h.found.touch (forall_mem_singleton.mpr ?_), ih htail⟩
    rw [vmmGetPhys_of_userPage hp hlt, pageNo_pageAddr hlt]
    exact hram

end RamInv

end Reach

end Kil0yOS.Mm
