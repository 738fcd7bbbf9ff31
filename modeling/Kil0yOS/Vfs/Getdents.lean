/-
Listing a directory: `lnxvfs_getdents64` of `core/lnxvfs.c`.

The cursor moves on before the record is known to fit, so a call that fills its buffer
passes over the child whose record did not fit.
-/
import Mathlib.Data.List.Nodup
import Kil0yOS.Lib.Run
import Kil0yOS.Vfs.Nodes

namespace Kil0yOS.Vfs

open List Lib

structure Dirent where
  ino : Nat
  off : Nat
  reclen : Nat
  type : NodeType
  name : CString
  deriving DecidableEq

/-- What the pointers in a directory's table of children lead to. -/
abbrev Children := Nat → Option Node

/-- The record of the child in slot `i`, if there is one with a name. -/
def record (children : Children) (i : Nat) : Option Dirent :=
  ((children i).filter (·.name ≠ [])).map fun c =>
    { ino := 1 + (i + 1)
      off := i + 1
      reclen := (19 + c.name.length + 1 + 7) / 8 * 8
      type := c.type
      name := c.name }

/-- The loop over the slots from the cursor on.  Without a result the buffer is too small
for one record; the number is the cursor behind the call. -/
def getdentsLoop (children : Children) (count : Nat) :
    List Nat → Nat → List Dirent → Option (List Dirent) × Nat
  | [], _, out => (some out, maxDirEntries)
  | i :: slots, used, out =>
    match record children i with
    | none => getdentsLoop children count slots used out
    | some d =>
      if count < used + d.reclen then (if used = 0 then none else some out, i + 1)
      else getdentsLoop children count slots (used + d.reclen) (out ++ [d])

def slotsFrom (dirIndex : Nat) : List Nat := range' dirIndex (maxDirEntries - dirIndex)

def lnxvfsGetdents64 (dirIndex : Nat) (children : Children) (count : Nat) :
    Option (List Dirent) × Nat :=
  getdentsLoop children count (slotsFrom dirIndex) 0 []

/-- What calls on one descriptor report, each on the directory as it is by then. -/
def listing : Nat → List (Children × Nat) → List Dirent
  | _, [] => []
  | dirIndex, (children, count) :: calls =>
    let r := lnxvfsGetdents64 dirIndex children count
    r.1.getD [] ++ listing r.2 calls

/-- The buffer has room for all records from the cursor on. -/
def Roomy (dirIndex : Nat) (call : Children × Nat) : Prop :=
  (((slotsFrom dirIndex).filterMap (record call.1)).map (·.reclen)).sum ≤ call.2

/-- In every call of the list the buffer has room for what is left. -/
def AllRoomy : Nat → List (Children × Nat) → Prop :=
  Along Roomy fun dirIndex call => (lnxvfsGetdents64 dirIndex call.1 call.2).2

variable {children : Children} {count used : Nat} {calls : List (Children × Nat)}

theorem getdentsLoop_of_room {slots : List Nat} (out : List Dirent)
    (h : used + ((slots.filterMap (record children)).map (·.reclen)).sum ≤ count) :
    getdentsLoop children count slots used out =
      (some (out ++ slots.filterMap (record children)), maxDirEntries) := by
  induction slots generalizing used out with
  | nil => simp [getdentsLoop]
  | cons i slots ih =>
    rw [getdentsLoop]
    cases hd : record children i with
    | none =>
      rw [filterMap_cons_none hd] at h ⊢
      exact ih out h
    | some d =>
      rw [filterMap_cons_some hd] at h ⊢
      rw [map_cons, sum_cons] at h
      dsimp only
      rw [if_neg (by omega), ih _ (by omega), append_assoc, singleton_append]

/-- Behind the last slot there is nothing to report. -/
theorem listing_end (calls : List (Children × Nat)) : listing maxDirEntries calls = [] := by
  induction calls with
  | nil => rfl
  | cons call calls ih => exact ih

theorem listing_eq (h : AllRoomy 0 ((children, count) :: calls)) :
    listing 0 ((children, count) :: calls) = (slotsFrom 0).filterMap (record children) := by
  have hroom : Roomy 0 (children, count) := h.1
  have hcall := getdentsLoop_of_room [] (Nat.le_trans (Nat.le_of_eq (Nat.zero_add _)) hroom)
  rw [listing, lnxvfsGetdents64, hcall, listing_end, append_nil]
  rfl

theorem record_off {i : Nat} {d : Dirent} (h : record children i = some d) : d.off = i + 1 := by
  obtain ⟨c, -, rfl⟩ := Option.map_eq_some_iff.mp h
  rfl

/-- Calls with room for what is left report each child that is present throughout exactly
once, and nothing that was never there. -/
theorem getdents64_complete (h : AllRoomy 0 ((children, count) :: calls)) :
    (∀ i < maxDirEntries, ∀ d,
      (∀ call ∈ (children, count) :: calls, record call.1 i = some d) →
        (listing 0 ((children, count) :: calls)).count d = 1) ∧
      ∀ d ∈ listing 0 ((children, count) :: calls),
        ∃ call ∈ (children, count) :: calls, ∃ i < maxDirEntries, record call.1 i = some d := by
  have hslot {i : Nat} : i ∈ slotsFrom 0 ↔ i < maxDirEntries := by
    simp [slotsFrom, mem_range'_1]
  rw [listing_eq h]
  constructor
  · intro i hi d hd
    have hnodup : ((slotsFrom 0).filterMap (record children)).Nodup := by
      refine (nodup_range' ..).filterMap fun i j d hi hj => ?_
      have := record_off hi
      have := record_off hj
      omega
    exact count_eq_one_of_mem hnodup (mem_filterMap.mpr ⟨i, hslot.mpr hi, hd _ mem_cons_self⟩)
  · intro d hd
    obtain ⟨i, hi, hrec⟩ := mem_filterMap.mp hd
    exact ⟨_, mem_cons_self, i, hslot.mp hi, hrec⟩

/-- A directory with the files "a" and "b". -/
def twoFiles : Children := fun i =>
  if i < 2 then
    some { name := [UInt8.ofNat (97 + i)], type := .file, size := 0, backend := .mem, inodeNo := 0,
           memData := none, mnt := none, parent := none, children := none, stored := [] }
  else none

theorem getdents64_complete_twoFiles :
    ∃ d, record twoFiles 1 = some d ∧ (listing 0 [(twoFiles, 48)]).count d = 1 := by
  have hroom : AllRoomy 0 [(twoFiles, 48)] := by
    refine ⟨?_, trivial⟩
    unfold Roomy
    decide +kernel
  refine ⟨_, rfl, (getdents64_complete hroom).1 1 (by decide) _ fun call hcall => ?_⟩
  rw [mem_singleton.mp hcall]
  rfl

/-- With room for one record a call reports "a", and the next call reports the end. -/
theorem listing_passes_over :
    (lnxvfsGetdents64 (lnxvfsGetdents64 0 twoFiles 24).2 twoFiles 24).1 = some [] ∧
      (listing 0 [(twoFiles, 24), (twoFiles, 24)]).map (·.name) = [[97]] := by
  decide +kernel

end Kil0yOS.Vfs
