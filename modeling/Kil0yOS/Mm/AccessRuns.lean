/-
The kernel's accesses in every state that its operations lead to.

The state is the memory with the pages of the upper levels of each address space and
the one that is loaded.  Besides the operations of `core/uvm.c` there are the copies
to and from a process, the switch to another address space, and the making and
destroying of one.
-/
import Kil0yOS.Mm.AccessLoops

namespace Kil0yOS.Mm

open List Lib Function Option Memory

variable {m : Memory} {a b f p n : Nat} {pmm : Pmm} {ram : Nat → Prop}

/-! ## Making and destroying an address space -/

namespace PmmRam

theorem freeFrames (h : PmmRam ram pmm) {ps : List Nat} (hps : ∀ p ∈ ps, ram p) :
    PmmRam ram (Mm.freeFrames pmm ps) := by
  induction ps generalizing pmm with
  | nil => exact h
  | cons p ps ih =>
    exact ih (h.freePage (hps p mem_cons_self)) fun q hq => hps q (mem_cons_of_mem p hq)

theorem copyPds (made : List Nat) (h : PmmRam ram pmm) (hmade : ∀ p ∈ made, ram p) :
    PmmRam ram (Mm.copyPds n pmm made).1 ∧
      ∀ pds, (Mm.copyPds n pmm made).2 = some pds → ∀ p ∈ pds, ram p := by
  induction n generalizing pmm made with
  | zero =>
    refine ⟨h, fun pds hpds => ?_⟩
    rw [← some.inj hpds]
    exact hmade
  | succ n ih =>
    simp only [Mm.copyPds]
    split
    · exact ⟨h.alloc.freeFrames hmade, nofun⟩
    rename_i hz
    apply ih _ h.alloc
    intro p hp
    rcases mem_append.mp hp with hp | hp
    · exact hmade p hp
    · rw [mem_singleton.mp hp]
      exact (h.alloc_ram hz).1

theorem freeAlloc {pmm' : Pmm} (h : PmmRam ram pmm') (h₀ : PmmRam ram pmm)
    (hz : pmm.pmmAllocPage.2 ≠ 0) : PmmRam ram (pmm'.pmmFreePage pmm.pmmAllocPage.2) := by
  obtain ⟨hram, haddr⟩ := h₀.alloc_ram hz
  rw [haddr]
  exact h.freePage hram

theorem createDirs (h : PmmRam ram pmm) (la57 : Bool) :
    PmmRam ram (Mm.createDirs la57 pmm).1 ∧
      ∀ d, (Mm.createDirs la57 pmm).2 = some d → ∀ f ∈ d.frames, ram f := by
  have h₁ := h.alloc
  have h₂ := h₁.alloc
  obtain ⟨h₃, hpds⟩ := PmmRam.copyPds [] h₂ (by simp)
  simp only [Mm.createDirs]
  split
  · exact ⟨h₁, nofun⟩
  rename_i hz₁
  split
  · exact ⟨h₂.freeAlloc h hz₁, nofun⟩
  rename_i hz₂
  have hpml4 := (h.alloc_ram hz₁).1
  have hpdpt := (h₁.alloc_ram hz₂).1
  split
  · next hc =>
    rw [hc] at h₃
    exact ⟨(h₃.freeAlloc h₁ hz₂).freeAlloc h hz₁, nofun⟩
  rename_i pmm₃ pds hc
  rw [hc] at h₃ hpds
  have hlower := forall_mem_cons.mpr ⟨hpml4, forall_mem_cons.mpr ⟨hpdpt, hpds pds rfl⟩⟩
  split
  · split
    · exact ⟨(h₃.alloc.freeAlloc h₁ hz₂).freeAlloc h hz₁, nofun⟩
    rename_i hz₅
    refine ⟨h₃.alloc, fun d hd => ?_⟩
    rw [← some.inj hd]
    exact forall_mem_cons.mpr ⟨(h₃.alloc_ram hz₅).1, hlower⟩
  · refine ⟨h₃, fun d hd => ?_⟩
    rw [← some.inj hd]
    exact hlower

end PmmRam

def allocFrames : Nat → Pmm → List Nat
  | 0, _ => []
  | n + 1, pmm =>
    if pmm.pmmAllocPage.2 = 0 then []
    else pageNo pmm.pmmAllocPage.2 :: allocFrames n pmm.pmmAllocPage.1

theorem PmmRam.allocFrames (h : PmmRam ram pmm) : ∀ f ∈ Mm.allocFrames n pmm, ram f := by
  induction n generalizing pmm with
  | zero =>
    intro f hf
    cases hf
  | succ n ih =>
    intro f hf
    rw [Mm.allocFrames] at hf
    split at hf
    · cases hf
    rename_i hz
    rcases mem_cons.mp hf with hf | hf
    · rw [hf]
      exact (h.alloc_ram hz).1
    · exact ih h.alloc f hf

/-! ## The kernel -/

structure Kernel where
  memory : Memory
  dirs : Nat → Dirs
  /-- The address spaces that exist. -/
  alive : Nat → Bool
  /-- The one in CR3. -/
  loaded : Nat
  la57 : Bool
  /-- The pages of the tables the machine was booted with. -/
  boot : Dirs

inductive KernelOp
  | mem (op : Op)
  /-- A copy to or from a range of a process, and what the loader copies to it. -/
  | copy (a : Nat) (addr : UInt64) (len : Nat)
  | switch (a : Nat)
  | create (a : Nat)
  | destroy (a : Nat)

def freshMm : AddressSpace where
  space := vmmCreateAddressSpace
  regions := replicate maxVmRegions { used := false, start := 0, stop := 0, prot := 0 }
  brkStart := 0
  brkCur := 0
  mmapTop := 0

def copyPages (addr : UInt64) (len : Nat) : List Nat :=
  if len = 0 then []
  else List.range' (addr.toNat / 4096) ((addr.toNat % 4096 + len + 4095) / 4096)

namespace Kernel

variable (k : Kernel)

def env (words : Nat → Nat → UInt64) : Env :=
  { dirs := k.dirs, loaded := k.loaded, words := words }

def accesses (words : Nat → Nat → UInt64) : KernelOp → List Access
  | .mem op => (k.env words).exec k.memory op
  | .copy a addr len => (k.env words).copyLoop k.memory a (copyPages addr len)
  | .switch _ => []
  | .create _ =>
    (k.env words).touch k.memory
      (k.boot.frames ++ allocFrames (if k.la57 then 7 else 6) k.memory.pmm)
  | .destroy a =>
    (k.env words).uvmReleaseMm k.memory a ++
      (k.env words).touch (k.memory.uvmReleaseMm a) (k.dirs a).frames

def create (a : Nat) : Kernel :=
  match createDirs k.la57 k.memory.pmm with
  | (pmm, none) => { k with memory := { k.memory with pmm := pmm } }
  | (pmm, some d) =>
    { k with
      memory := { k.memory with pmm := pmm, mm := update k.memory.mm a freshMm }
      dirs := update k.dirs a d
      alive := update k.alive a true }

def destroy (a : Nat) : Kernel :=
  let m := k.memory.uvmReleaseMm a
  { k with
    memory := { m with pmm := destroyDirs (k.dirs a) (m.space a) m.pmm }
    alive := update k.alive a false }

/-- Ranges lie below four gigabytes, an address space is made where there is none, and
what is destroyed is not loaded. -/
def Applies : KernelOp → Prop
  | .mem op => Memory.Valid op
  | .copy _ _ _ => True
  | .switch a => k.alive a = true
  | .create a => k.alive a = false ∧ a ≠ k.loaded
  | .destroy a => k.alive a = true ∧ a ≠ k.loaded

def Step (o : KernelOp) (k' : Kernel) : Prop :=
  k.Applies o ∧
    match o with
    | .mem op => ∃ m, k.memory.Step op m ∧ k' = { k with memory := m }
    | .copy _ _ _ => k' = k
    | .switch a => k' = { k with loaded := a }
    | .create a => k' = k.create a
    | .destroy a => k' = k.destroy a

/-- The pages an operation maps are none of RAM, by number, and the pages it unmaps or
copies are pages of the user. -/
def Apart (ram : Nat → Prop) (k : Kernel) : KernelOp → Prop
  | .mem (.mapRange a start stop prot) =>
    k.memory.Safe (.mapRange a start stop prot) ∧
      ∀ v ∈ pagesOf (pageDown start) (pageUp stop), ¬ ram v
  | .mem (.mmapAnon a hint len prot fixed) =>
    k.memory.Safe (.mmapAnon a hint len prot fixed) ∧
      ∀ v ∈ mmapPages k.memory a hint len fixed, ¬ ram v
  | .mem op => k.memory.Safe op
  | .copy a addr len => ∀ v ∈ copyPages addr len, Releasable (k.memory.space a) v
  | _ => True

/-- A machine with the RAM `ram`, before the first process. -/
structure Booted (ram : Nat → Prop) (k : Kernel) : Prop where
  bounds : ∀ p, ram p → p < pmmMaxPages ∧ p ≠ 0
  zero : k.memory.pmm.used 0 = true
  free : ∀ p, p < pmmMaxPages → k.memory.pmm.used p = false → ram p
  fresh : ∀ a, k.memory.mm a = freshMm
  dirs : ∀ a, ∀ f ∈ (k.dirs a).frames, ram f
  boot : ∀ f ∈ k.boot.frames, ram f

structure Inv (ram : Nat → Prop) (k : Kernel) : Prop where
  memory : RamInv ram k.memory
  regions : RegionsClear k.memory
  dirs : ∀ a, ∀ f ∈ (k.dirs a).frames, ram f
  boot : ∀ f ∈ k.boot.frames, ram f

end Kernel

theorem hugeIdentity_vmmCreateAddressSpace : HugeIdentity vmmCreateAddressSpace := by
  intro w x hx
  rw [vmmCreateAddressSpace] at hx
  split at hx
  · next hw =>
    cases hx
    exact ⟨hw, rfl⟩
  · cases hx

theorem kernelPage_vmmCreateAddressSpace (hp : p < pmmMaxPages) :
    kernelPage vmmCreateAddressSpace p = some p := by
  have hw : windowOf p < 2048 := by
    have : pmmMaxPages = 1048576 := rfl
    simp only [windowOf]
    omega
  apply kernelPage_huge hugeIdentity_vmmCreateAddressSpace
  rw [vmmCreateAddressSpace, if_pos hw]

theorem tablePage_vmmCreateAddressSpace (w : Nat) : tablePage vmmCreateAddressSpace w = none := by
  simp only [tablePage, vmmCreateAddressSpace]
  by_cases hw : w < 2048
  · rw [if_pos hw]
  · rw [if_neg hw]

theorem regionsOk_freshMm (s : Space) : RegionsOk s freshMm.regions := by
  intro r hr hu
  rw [eq_of_mem_replicate hr] at hu
  cases hu

namespace Kernel

variable {k k' : Kernel} {o : KernelOp}

theorem Inv.of_booted (h : k.Booted ram) : k.Inv ram := by
  have hs : ∀ a, k.memory.space a = vmmCreateAddressSpace := by
    intro a
    rw [space, h.fresh a]
    rfl
  refine ⟨⟨h.bounds, h.zero, h.free, ?_, ?_, ?_, ?_⟩, ?_, h.dirs, h.boot⟩
  · intro a
    rw [hs]
    exact hugeIdentity_vmmCreateAddressSpace
  · intro a f hf
    rw [hs]
    exact ⟨kernelPage_vmmCreateAddressSpace (h.bounds f hf).1, userPage_vmmCreateAddressSpace f⟩
  · intro a v p hv
    rw [hs, userPage_vmmCreateAddressSpace] at hv
    cases hv
  · intro a w p hw
    rw [hs, tablePage_vmmCreateAddressSpace] at hw
    cases hw
  · intro a
    rw [h.fresh a]
    exact regionsOk_freshMm _

theorem Inv.mem (h : k.Inv ram) {op : Op} (hok : k.Apart ram (.mem op))
    (hs : k.memory.Step op m) : RamInv ram m ∧ RegionsClear m := by
  obtain ⟨hsafe, hpages⟩ : k.memory.Safe op ∧ ∀ v ∈ mappedPages k.memory op, ¬ ram v := by
    cases op with
    | mapRange | mmapAnon => exact hok
    | fork p c =>
      refine ⟨hok, fun v hv => ?_⟩
      obtain ⟨hv, hp⟩ := mem_filter.mp hv
      obtain ⟨r, hr, hv⟩ := mem_flatMap.mp hv
      split at hv
      · next hu =>
        have hclear := (h.regions _ r hr hu).clear_of_mem hv
        exact h.memory.not_ram_of_user (entryPage_of_present hclear hp)
      · cases hv
    | unmapRange | changeProt | releaseMm => exact ⟨hok, nofun⟩
  exact (RamInv.stable ram).step trivial h.memory h.regions hsafe hpages hs

theorem Inv.create (h : k.Inv ram) (a : Nat) : (k.create a).Inv ram := by
  obtain ⟨hpmm, hdirs⟩ := h.memory.pmmRam.createDirs k.la57
  rw [Kernel.create]
  split
  · next pmm hc =>
    rw [hc] at hpmm
    exact { h with memory := h.memory.setPmm hpmm }
  rename_i pmm d hc
  rw [hc] at hpmm hdirs
  have hself : space { k.memory with
      pmm := pmm, mm := update k.memory.mm a freshMm } a = vmmCreateAddressSpace := by
    simp only [space, update_self]
    rfl
  have hother : ∀ b, b ≠ a → space { k.memory with
      pmm := pmm, mm := update k.memory.mm a freshMm } b = k.memory.space b := by
    intro b hb
    simp only [space, update_of_ne hb]
  refine ⟨h.memory.setSpace hself hother hpmm hugeIdentity_vmmCreateAddressSpace ?_ ?_ ?_, ?_, ?_,
    h.boot⟩
  · intro f hf
    exact ⟨kernelPage_vmmCreateAddressSpace (h.memory.bounds f hf).1,
      userPage_vmmCreateAddressSpace f⟩
  · intro v p hv
    rw [userPage_vmmCreateAddressSpace] at hv
    cases hv
  · intro w p hw
    rw [tablePage_vmmCreateAddressSpace] at hw
    cases hw
  · intro b
    by_cases hb : b = a
    · rw [hb]
      simp only [update_self]
      exact regionsOk_freshMm _
    · rw [hother b hb]
      simp only [update_of_ne hb]
      exact h.regions b
  · intro b f hf
    by_cases hb : b = a
    · rw [hb] at hf
      simp only [update_self] at hf
      exact hdirs d rfl f hf
    · simp only [update_of_ne hb] at hf
      exact h.dirs b f hf

theorem mem_destroyedFrames {d : Dirs} {s : Space} (h : f ∈ destroyedFrames d s) :
    f ∈ d.frames ∨ ∃ w, tablePage s w = some f := by
  simp only [destroyedFrames, mem_append, mem_flatMap, mem_filterMap,
    mem_cons, not_mem_nil, or_false, mem_toList] at h
  simp only [Dirs.frames, mem_append, mem_cons, mem_toList]
  rcases h with (⟨x, hx, ⟨w, -, hw⟩ | hf⟩ | hf | hf) | hf
  · exact .inr ⟨w, hw⟩
  · refine .inl (.inr (.inr (.inr ?_)))
    rw [hf]
    exact (mem_zipIdx' hx).2 ▸ getElem_mem _
  · exact .inl (.inr (.inr (.inl hf)))
  · exact .inl (.inr (.inl hf))
  · exact .inl (.inl hf)

theorem Inv.destroy (h : k.Inv ram) (a : Nat) : (k.destroy a).Inv ram := by
  have hj := (RamInv.stable ram).uvmReleaseMm h.memory h.regions a
  have hpmm : PmmRam ram (destroyDirs (k.dirs a) ((k.memory.uvmReleaseMm a).space a)
      (k.memory.uvmReleaseMm a).pmm) := by
    apply hj.pmmRam.freeFrames
    intro f hf
    rcases mem_destroyedFrames hf with hf | ⟨w, hw⟩
    · exact h.dirs a f hf
    · exact hj.table a w f hw
  exact ⟨hj.setPmm hpmm, h.regions.uvmReleaseMm a, h.dirs, h.boot⟩

theorem Inv.step (h : k.Inv ram) (hok : k.Apart ram o) (hs : k.Step o k') : k'.Inv ram := by
  obtain ⟨-, hs⟩ := hs
  cases o with
  | mem op =>
    obtain ⟨m, hm, hk⟩ := hs
    obtain ⟨hj, hr⟩ := h.mem hok hm
    rw [hk]
    exact ⟨hj, hr, h.dirs, h.boot⟩
  | copy a addr len =>
    cases hs
    exact h
  | switch a =>
    cases hs
    exact { h with }
  | create a =>
    cases hs
    exact h.create a
  | destroy a =>
    cases hs
    exact h.destroy a

theorem Inv.accesses_reach (h : k.Inv ram) (words : Nat → Nat → UInt64) (happ : k.Applies o)
    (hok : k.Apart ram o) : AllReach (k.accesses words o) := by
  have he : EnvRam ram (k.env words) := h.dirs
  cases o with
  | mem op =>
    cases op with
    | mapRange a start stop prot => exact h.memory.uvmMapRange_reach he hok.2
    | unmapRange a start stop => exact h.memory.releasePages_reach he hok
    | changeProt a active start stop prot => exact h.memory.uvmChangeProt_reach he h.regions
    | mmapAnon a hint len prot fixed =>
      exact h.memory.uvmMmapAnon_reach he hok.1 hok.2
    | fork p c => exact h.memory.forkRegions_reach he h.regions happ (h.regions p) hok
    | releaseMm a => exact h.memory.releaseRegions_reach he (h.regions a)
  | copy a addr len => exact h.memory.copyLoop_reach he hok
  | switch a => exact allReach_nil
  | create a =>
    apply h.memory.found.touch
    intro f hf
    rcases mem_append.mp hf with hf | hf
    · exact h.boot f hf
    · exact h.memory.pmmRam.allocFrames f hf
  | destroy a =>
    have hj := (RamInv.stable ram).uvmReleaseMm h.memory h.regions a
    simp only [accesses, allReach_append]
    exact ⟨h.memory.releaseRegions_reach he (h.regions a), hj.found.touch (h.dirs a)⟩

/-! ## Runs -/

theorem Inv.of_reach (h : Reach (Booted ram) (Apart ram) Step k) : k.Inv ram :=
  h.invariant (fun _ => Inv.of_booted) fun _ _ _ hi hok hs => hi.step hok hs

/-- A machine whose free pages are those from `first` up to `last`, with one address
space loaded. -/
def machine (first last : Nat) : Kernel where
  memory :=
    { pmm := { used := fun p => decide (p < first ∨ last ≤ p), usedPages := first,
               lastPage := first }
      mm := fun _ => freshMm
      freed := [] }
  dirs := fun _ => { pml5 := none, pml4 := 1, pdpt := 2, pds := [3, 4, 5, 6] }
  alive := fun a => decide (a = 0)
  loaded := 0
  la57 := false
  boot := { pml5 := none, pml4 := 1, pdpt := 2, pds := [3, 4, 5, 6] }

/-- All pages below `last` but the first one are RAM. -/
theorem machine_booted (first last : Nat) (h₁ : 6 < first) (h₂ : first ≤ last)
    (h₃ : last ≤ pmmMaxPages) : (machine first last).Booted fun p => 0 < p ∧ p < last := by
  have hdirs : ∀ f ∈ (machine first last).boot.frames, 0 < f ∧ f < last := by
    intro f hf
    have hle : 0 < f ∧ f ≤ 6 := by
      revert f
      show ∀ f ∈ [1, 2, 3, 4, 5, 6], 0 < f ∧ f ≤ 6
      decide
    omega
  refine ⟨?_, ?_, ?_, fun _ => rfl, fun _ => hdirs, hdirs⟩
  · intro p hp
    exact ⟨by omega, by omega⟩
  · show decide (0 < first ∨ last ≤ 0) = true
    rw [decide_eq_true_eq]
    omega
  · intro p _ hfree
    have hp : ¬ (p < first ∨ last ≤ p) := of_decide_eq_false hfree
    omega

def mapFirst : Op := .mapRange 0 0x10000000 0x10001000 uvmProtWrite

def mapSecond : Op := .mapRange 0 0x10001000 0x10002000 uvmProtWrite

def afterFirst (first last : Nat) : Kernel :=
  { machine first last with memory := (machine first last).memory.run mapFirst }

theorem mapFirst_step {first last : Nat}
    (h : ((machine first last).memory.exec mapFirst).isSome = true) :
    (machine first last).Step (.mem mapFirst) (afterFirst first last) := by
  have hvalid : Memory.Valid mapFirst := by decide
  exact ⟨hvalid, _, step_run hvalid h, rfl⟩

end Kernel

end Kil0yOS.Mm
