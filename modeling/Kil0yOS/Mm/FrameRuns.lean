/-
Frame ownership in every state that the six operations of `core/uvm.c` reach.

The pages of the regions are all an operation may release, remap or copy without
looking at the USER bit.  Each operation keeps that, as long as a range to be
unmapped shows no page of the kernel, and a fork does not copy a region with a
hole in it to where the child shows one.
-/
import Kil0yOS.Mm.PageLoops

namespace Kil0yOS.Mm

open Lib Memory Option

variable {m m' : Memory}

theorem FramesOk.stable : Stable FramesOk (fun _ => True) True where
  zero h := h.zero
  managed h hp := h.managed (_, _) _ hp
  remap h hp hpage hflag hmap := h.remap (hpage ▸ mapPage_maps hflag hmap) hp
  fresh h _ _ hphys hflag hmap := h.map_fresh hphys (mapPage_maps hflag hmap)
  release h hp := h.releasePage hp
  setMm h hf := h.setMm hf

/-! ## Runs -/

inductive Op
  | mapRange (a : Nat) (start stop : UInt64) (prot : UInt32)
  | unmapRange (a : Nat) (start stop : UInt64)
  | changeProt (a active : Nat) (start stop : UInt64) (prot : UInt32)
  | mmapAnon (a : Nat) (hint len : UInt64) (prot : UInt32) (fixed : Bool)
  | fork (p c : Nat)
  | releaseMm (a : Nat)

variable {op : Op}

namespace Memory

def exec (m : Memory) : Op → Option Memory
  | .mapRange a start stop prot => (m.uvmMapRange a start stop prot).map Prod.fst
  | .unmapRange a start stop => some (m.uvmUnmapRange a start stop)
  | .changeProt a active start stop prot =>
    (m.uvmChangeProt a active start stop prot).map Prod.fst
  | .mmapAnon a hint len prot fixed => (m.uvmMmapAnon a hint len prot fixed).map Prod.fst
  | .fork p c => (m.uvmFork p c).map Prod.fst
  | .releaseMm a => some (m.uvmReleaseMm a)

/-- Ranges lie below four gigabytes, and a child is not its own parent. -/
def Valid : Op → Prop
  | .mapRange _ _ stop _ => stop.toNat ≤ 2 ^ 32
  | .unmapRange _ _ stop => stop.toNat ≤ 2 ^ 32
  | .changeProt _ _ _ stop _ => stop.toNat ≤ 2 ^ 32
  | .fork p c => p ≠ c
  | _ => True

def Step (m : Memory) (op : Op) (m' : Memory) : Prop := Valid op ∧ m.exec op = some m'

/-- The pages a call unmaps show nothing but pages of the user, and a fork finds no
page of the kernel in the child where a region of the parent has a hole. -/
def Safe (m : Memory) : Op → Prop
  | .unmapRange a start stop =>
    ∀ v ∈ pagesOf (pageDown start) (pageUp stop), Releasable (m.space a) v
  | .mmapAnon a hint len _ fixed => MmapReleasable m a hint len fixed
  | .fork p c => HolesClear m p c (m.mm p).regions
  | _ => True

/-- No user page is mapped yet, and page zero is reserved. -/
structure Booted (m : Memory) : Prop where
  pages : ∀ a v, userPage (m.space a) v = none
  regions : ∀ a, ∀ r ∈ (m.mm a).regions, r.used = false
  zero : m.pmm.used 0 = true
  freed : m.freed = []

end Memory

theorem FramesOk.of_booted (h : m.Booted) : FramesOk m := by
  have hnone : ∀ c, m.owner c = none := fun c => h.pages c.1 c.2
  refine ⟨⟨.of_none hnone, fun f hf => ?_⟩, fun c p hc => ?_, h.zero⟩
  · rw [h.freed] at hf
    cases hf
  · rw [hnone c] at hc
    cases hc

theorem RegionsClear.of_booted (h : m.Booted) : RegionsClear m := by
  intro a r hr hu
  rw [h.regions a r hr] at hu
  cases hu

/-- The pages an operation may map. -/
def mappedPages (m : Memory) : Op → List Nat
  | .mapRange _ start stop _ => pagesOf (pageDown start) (pageUp stop)
  | .mmapAnon a hint len _ fixed => mmapPages m a hint len fixed
  | .fork p _ => (regionPages (m.mm p).regions).filter (isPresent (m.space p))
  | _ => []

/-- The operations keep what their single steps keep, and the regions clear. -/
theorem Stable.step {J : Memory → Prop} {Q : Nat → Prop} {O : Prop} (hJ : Stable J Q O) (ho : O)
    (h : J m) (hr : RegionsClear m) (hsafe : m.Safe op) (hq : ∀ v ∈ mappedPages m op, Q v)
    (hstep : m.Step op m') : J m' ∧ RegionsClear m' := by
  obtain ⟨hvalid, he⟩ := hstep
  cases op with
  | mapRange a start stop prot =>
    obtain ⟨⟨m₁, ok⟩, hm, rfl⟩ := map_eq_some_iff.mp he
    exact ⟨hJ.uvmMapRange h hq hm, hr.uvmMapRange hm⟩
  | unmapRange a start stop =>
    cases he
    exact ⟨hJ.uvmUnmapRange h hsafe, hr.uvmUnmapRange⟩
  | changeProt a active start stop prot =>
    obtain ⟨⟨m₁, ok⟩, hm, rfl⟩ := map_eq_some_iff.mp he
    exact ⟨hJ.uvmChangeProt h hr hm, hr.uvmChangeProt hm⟩
  | mmapAnon a hint len prot fixed =>
    obtain ⟨⟨m₁, addr⟩, hm, rfl⟩ := map_eq_some_iff.mp he
    exact ⟨hJ.uvmMmapAnon h hsafe hq hm, hr.uvmMmapAnon hm⟩
  | fork p c =>
    obtain ⟨⟨m₁, ok⟩, hm, rfl⟩ := map_eq_some_iff.mp he
    exact hJ.uvmFork ho h hr hvalid hsafe (fun v hv hp => hq v (List.mem_filter.mpr ⟨hv, hp⟩)) hm
  | releaseMm a =>
    cases he
    exact ⟨hJ.uvmReleaseMm h hr a, hr.uvmReleaseMm a⟩

instance Clear.decidable (s : Space) (v : Nat) : Decidable (Clear s v) :=
  decidable_of_iff ((userPage s v).isSome = true ∨ isPresent s v = false)
    (or_congr_left isSome_iff_exists)

instance Releasable.decidable (s : Space) (v : Nat) : Decidable (Releasable s v) :=
  decidable_of_iff ((userPage s v).isSome = true ∨ vmmGetPhys s v = 0)
    (or_congr_left isSome_iff_exists)

namespace Memory

instance Valid.decidable : (op : Op) → Decidable (Valid op)
  | .mapRange .. | .unmapRange .. | .changeProt .. => inferInstanceAs (Decidable (_ ≤ _))
  | .fork .. => inferInstanceAs (Decidable (_ ≠ _))
  | .mmapAnon .. | .releaseMm _ => isTrue trivial

instance Safe.decidable (m : Memory) : (op : Op) → Decidable (m.Safe op)
  | .unmapRange .. => inferInstanceAs (Decidable (∀ v ∈ pagesOf _ _, Releasable _ v))
  | .mmapAnon .. =>
    inferInstanceAs (Decidable (_ → _ → _ → ∀ v ∈ pagesOf _ _, Releasable _ v))
  | .fork p _ =>
    inferInstanceAs (Decidable (∀ r ∈ (m.mm p).regions, _ → ∀ v ∈ pagesOf _ _, _ → Clear _ v))
  | .mapRange .. | .changeProt .. | .releaseMm _ => isTrue trivial

def boot : Memory where
  pmm := { used := fun p => decide (p < 0x8000), usedPages := 0x8000, lastPage := 0x8000 }
  mm := fun _ =>
    { space := vmmCreateAddressSpace
      regions := List.replicate maxVmRegions { used := false, start := 0, stop := 0, prot := 0 }
      brkStart := 0
      brkCur := 0
      mmapTop := 0 }
  freed := []

theorem boot_booted : boot.Booted where
  pages _ v := userPage_vmmCreateAddressSpace v
  regions _ r hr := by rw [List.eq_of_mem_replicate hr]
  zero := by decide
  freed := rfl

/-- An operation that does not panic. -/
def run (m : Memory) (op : Op) : Memory := (m.exec op).getD m

theorem step_run {m : Memory} (hv : Valid op) (h : (m.exec op).isSome = true) :
    m.Step op (m.run op) := by
  obtain ⟨m', hm⟩ := isSome_iff_exists.mp h
  refine ⟨hv, ?_⟩
  unfold run
  rw [hm]
  rfl

end Memory

def mapForkUnmap : List Op :=
  [.mapRange 0 0x10000000 0x10002000 uvmProtWrite, .fork 0 1,
    .changeProt 1 1 0x10000000 0x10001000 uvmProtRead, .unmapRange 0 0x10001000 0x10002000,
    .releaseMm 1]

end Kil0yOS.Mm
