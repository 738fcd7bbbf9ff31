/-
Stores of the kernel on behalf of a user program: `process_write_user_int` of
`core/process.c`, and the four paths that call it.

The address is looked up in the tables of the process, and the physical address
found is then used as a virtual one, in whatever address space is loaded.  The
store goes where the tables of that one say.
-/
import Kil0yOS.Mm.FrameRuns

namespace Kil0yOS.Mm

open Function Finset

/-! ## Addresses and bytes -/

/-- The page a walk of the tables looks up: bits 12 to 47 of an address, whatever
the bits above them are. -/
def walkPage (addr : UInt64) : Nat := addr.toNat / 4096 % 2 ^ 36

def userByte (s : Space) (addr : UInt64) : Option Nat :=
  (userPage s (addr.toNat / 4096)).map fun page => page * 4096 + addr.toNat % 4096

/-- The entry allows the kernel to write, under write protection `wp`. -/
def kernelWrites (wp : Bool) (e : UInt64) : Bool :=
  hasFlag e vmmPresent && (!wp || hasFlag e vmmWritable)

/-- The physical byte a store of the kernel reaches at an address, if it does not
fault. -/
def storeByte (wp : Bool) (s : Space) (addr : UInt64) : Option Nat :=
  match s (windowOf (addr.toNat / 4096)) with
  | .absent => none
  | .huge e =>
    if kernelWrites wp e.entry then
      some ((e.entry &&& 0x000FFFFFFFE00000).toNat + addr.toNat % 0x200000)
    else none
  | .table _ entries =>
    let e := entries (slotOf (addr.toNat / 4096))
    if kernelWrites wp e then some (entryPage e * 4096 + addr.toNat % 4096) else none

def byteOf (val : UInt32) (i : Nat) : UInt8 := (val >>> UInt32.ofNat (8 * i)).toUInt8

def storeInt (wp : Bool) (s : Space) (bytes : Nat → UInt8) (addr : UInt64) (val : UInt32) :
    Nat → UInt8 :=
  match storeByte wp s addr, storeByte wp s (addr + 1), storeByte wp s (addr + 2),
    storeByte wp s (addr + 3) with
  | some t₀, some t₁, some t₂, some t₃ =>
    update (update (update (update bytes
      t₀ (byteOf val 0)) t₁ (byteOf val 1)) t₂ (byteOf val 2)) t₃ (byteOf val 3)
  | _, _, _, _ => bytes

/-- The address `process_write_user_int` stores to: physical, but used as a virtual
one. -/
def storeAddr (s : Space) (uaddr : UInt64) : UInt64 :=
  vmmGetPhys s (walkPage uaddr) + (uaddr - pageDown uaddr)

def processWriteUserInt (wp : Bool) (s active : Space) (bytes : Nat → UInt8) (uaddr : UInt64)
    (val : UInt32) : Nat → UInt8 :=
  if vmmGetPhys s (walkPage uaddr) = 0 then bytes
  else storeInt wp active bytes (storeAddr s uaddr) val

/-! ## The calls -/

/-- What makes the kernel store into a process.  Address spaces are given by number,
and `active` is the one loaded. -/
inductive StoreCall
  /-- `wait4` reaps a zombie. -/
  | reap (a : Nat) (statusPtr : UInt64) (exitStatus : UInt32)
  /-- `process_exit` resumes the parent parked in `wait4`. -/
  | deliver (parent active : Nat) (statusPtr : UInt64) (status : UInt32)
  /-- `process_clone` with CLONE_PARENT_SETTID. -/
  | parentTid (a : Nat) (tidPtr : UInt64) (tid : UInt32)
  /-- `thread_clear_tid`, by the thread or by a leader that ends its group. -/
  | clearTid (thread active : Nat) (tidPtr : UInt64)

namespace StoreCall

def target : StoreCall → Nat
  | reap a _ _ => a
  | deliver parent _ _ _ => parent
  | parentTid a _ _ => a
  | clearTid thread _ _ => thread

def active : StoreCall → Nat
  | reap a _ _ => a
  | deliver _ active _ _ => active
  | parentTid a _ _ => a
  | clearTid _ active _ => active

def uaddr : StoreCall → UInt64
  | reap _ ptr _ => ptr
  | deliver _ _ ptr _ => ptr
  | parentTid _ ptr _ => ptr
  | clearTid _ _ ptr => ptr

def val : StoreCall → UInt32
  | reap _ _ status => (status &&& 0xFF) <<< 8
  | deliver _ _ _ status => (status &&& 0xFF) <<< 8
  | parentTid _ _ tid => tid
  | clearTid _ _ _ => 0

/-- The caller's own checks.  Only `wait4` looks at more than the null pointer. -/
def issued (m : Memory) (c : StoreCall) : Bool :=
  match c with
  | reap a ptr _ => ptr != 0 && m.uvmCheckRange a a ptr 4
  | _ => c.uaddr != 0

end StoreCall

/-- The kernel's memory, the bytes of the machine, and whether write protection
holds for the kernel. -/
structure Machine where
  memory : Memory
  bytes : Nat → UInt8
  wp : Bool

def Machine.call (k : Machine) (c : StoreCall) : Machine :=
  let s := k.memory.space c.target
  let active := k.memory.space c.active
  if c.issued k.memory then
    { k with bytes := processWriteUserInt k.wp s active k.bytes c.uaddr c.val }
  else k

/-- The call changes nothing but the four bytes the process has at the address, and
nothing at all when it does not have them. -/
def StoreCall.Sound (k : Machine) (c : StoreCall) : Prop :=
  (∀ b, (k.call c).bytes b ≠ k.bytes b →
    ∃ i < 4, userByte (k.memory.space c.target) (c.uaddr + UInt64.ofNat i) = some b) ∧
  ((∃ i < 4, userByte (k.memory.space c.target) (c.uaddr + UInt64.ofNat i) = none) →
    (k.call c).bytes = k.bytes)

/-- The tables show nothing at the address, or the store faults, or each byte is one
of the process and the store in the space that is loaded reaches it. -/
def StoreCall.Meets (m : Memory) (wp : Bool) (c : StoreCall) : Prop :=
  vmmGetPhys (m.space c.target) (walkPage c.uaddr) = 0 ∨
    (∃ i < 4, storeByte wp (m.space c.active)
      (storeAddr (m.space c.target) c.uaddr + UInt64.ofNat i) = none) ∨
    ∀ i < 4, ∃ b, userByte (m.space c.target) (c.uaddr + UInt64.ofNat i) = some b ∧
      storeByte wp (m.space c.active)
        (storeAddr (m.space c.target) c.uaddr + UInt64.ofNat i) = some b

/-! ## Where a byte lies in its page -/

variable {wp : Bool} {s : Space} {bytes : Nat → UInt8} {addr uaddr : UInt64} {val : UInt32}
  {b : Nat} {t : Nat → Nat}

theorem toNat_add_ofNat_mod (x : UInt64) (i : Nat) :
    (x + UInt64.ofNat i).toNat % 4096 = (x.toNat + i) % 4096 := by
  rw [UInt64.toNat_add, UInt64.toNat_ofNat']
  omega

theorem storeByte_mod (h : storeByte wp s addr = some b) : b % 4096 = addr.toNat % 4096 := by
  unfold storeByte at h
  split at h
  · cases h
  · next e he =>
    split at h
    · have hbase : (e.entry &&& 0x000FFFFFFFE00000).toNat % 4096 = 0 := by
        show (e.entry.toNat &&& 0x000FFFFFFFE00000) % 2 ^ 12 = 0
        rw [Nat.and_mod_two_pow]
        show e.entry.toNat % 2 ^ 12 &&& 0 = 0
        exact Nat.and_zero _
      cases h
      omega
    · cases h
  · dsimp only at h
    split at h
    · cases h
      omega
    · cases h

theorem userByte_mod (h : userByte s addr = some b) : b % 4096 = addr.toNat % 4096 := by
  obtain ⟨page, -, rfl⟩ := Option.map_eq_some_iff.mp h
  omega

theorem vmmGetPhys_aligned (s : Space) (v : Nat) : (vmmGetPhys s v).toNat % 4096 = 0 := by
  unfold vmmGetPhys
  split
  · rfl
  · next e he =>
    show ((e.entry.toNat &&& 0x0FFFFFFFFFF00000) ||| (v * 4096 % 2 ^ 64 &&& 0x1FFFFF)) % 2 ^ 12 = 0
    have hv : v * 4096 % 2 ^ 64 % 2 ^ 12 = 0 := by omega
    rw [Nat.or_mod_two_pow, Nat.and_mod_two_pow, Nat.and_mod_two_pow, hv]
    show (e.entry.toNat % 2 ^ 12 &&& 0) ||| (0 &&& 0xFFF) = 0
    rw [Nat.and_zero]
    rfl
  · split
    · exact and_addrMask_mod _
    · rfl

theorem storeAddr_mod (s : Space) (uaddr : UInt64) :
    (storeAddr s uaddr).toNat % 4096 = uaddr.toNat % 4096 := by
  have hdown : (pageDown uaddr).toNat = uaddr.toNat / 4096 * 4096 := toNat_and_not_low uaddr
  have hle : pageDown uaddr ≤ uaddr := by
    rw [UInt64.le_iff_toNat_le]
    omega
  have hphys := vmmGetPhys_aligned s (walkPage uaddr)
  unfold storeAddr
  rw [UInt64.toNat_add, UInt64.toNat_sub_of_le _ _ hle]
  omega

/-! ## The store -/

theorem storeInt_of_fault (h : ∃ i < 4, storeByte wp s (addr + UInt64.ofNat i) = none) :
    storeInt wp s bytes addr val = bytes := by
  obtain ⟨i, hi, hn⟩ := h
  unfold storeInt
  split
  · next h0 h1 h2 h3 =>
    exfalso
    interval_cases i
    · rw [show addr + UInt64.ofNat 0 = addr from UInt64.add_zero addr, h0] at hn
      cases hn
    · rw [show UInt64.ofNat 1 = 1 from rfl, h1] at hn
      cases hn
    · rw [show UInt64.ofNat 2 = 2 from rfl, h2] at hn
      cases hn
    · rw [show UInt64.ofNat 3 = 3 from rfl, h3] at hn
      cases hn
  · rfl

/-- After a store that goes through, a byte it reaches holds one of the bytes written. -/
theorem storeInt_cases (h : ∀ i < 4, storeByte wp s (addr + UInt64.ofNat i) = some (t i))
    (b : Nat) :
    (∃ i < 4, b = t i ∧ storeInt wp s bytes addr val b = byteOf val i) ∨
      (∀ i < 4, b ≠ t i) ∧ storeInt wp s bytes addr val b = bytes b := by
  have h0 : storeByte wp s addr = some (t 0) := by
    rw [← h 0 (by omega)]
    exact congrArg _ (UInt64.add_zero addr).symm
  have h1 : storeByte wp s (addr + 1) = some (t 1) := h 1 (by omega)
  have h2 : storeByte wp s (addr + 2) = some (t 2) := h 2 (by omega)
  have h3 : storeByte wp s (addr + 3) = some (t 3) := h 3 (by omega)
  unfold storeInt
  rw [h0, h1, h2, h3]
  simp only [update_apply]
  split
  · next hb => exact .inl ⟨3, by omega, hb, rfl⟩
  split
  · next hb => exact .inl ⟨2, by omega, hb, rfl⟩
  split
  · next hb => exact .inl ⟨1, by omega, hb, rfl⟩
  split
  · next hb => exact .inl ⟨0, by omega, hb, rfl⟩
  refine .inr ⟨fun i hi => ?_, rfl⟩
  interval_cases i <;> assumption

theorem exists_ne_byteOf (val : UInt32) : ∃ x : UInt8, ∀ i < 4, x ≠ byteOf val i := by
  have hcard : ((range 4).image (byteOf val)).card <
      ((range 5).image UInt8.ofNat).card :=
    calc ((range 4).image (byteOf val)).card
      _ ≤ 4 := card_image_le
      _ < 5 := by omega
      _ = ((range 5).image UInt8.ofNat).card := by decide
  obtain ⟨x, -, hx⟩ := exists_mem_notMem_of_card_lt_card hcard
  exact ⟨x, fun i hi e => hx (mem_image.mpr ⟨i, mem_range.mpr hi, e.symm⟩)⟩

section

variable (h : ∀ i < 4, storeByte wp s (addr + UInt64.ofNat i) = some (t i))
include h

/-- In a memory that holds none of the bytes written, each byte reached changes. -/
theorem storeInt_changes {x : UInt8} {i : Nat} (hx : ∀ i < 4, x ≠ byteOf val i) (hi : i < 4) :
    storeInt wp s (fun _ => x) addr val (t i) ≠ x := by
  rcases storeInt_cases h (t i) with ⟨j, hj, -, he⟩ | ⟨hno, -⟩
  · rw [he]
    exact (hx j hj).symm
  · exact absurd rfl (hno i hi)

/-- A store that goes through changes only bytes it reaches. -/
theorem storeInt_frame (hb : storeInt wp s bytes addr val b ≠ bytes b) : ∃ i < 4, b = t i := by
  rcases storeInt_cases h b with ⟨i, hi, hbi, -⟩ | ⟨-, he⟩
  · exact ⟨i, hi, hbi⟩
  · exact absurd he hb

end

/-! ## When a call is sound -/

namespace StoreCall

variable {m : Memory} {k : Machine} {c : StoreCall}

theorem call_bytes (k : Machine) (h : c.issued k.memory = true)
    (hphys : vmmGetPhys (k.memory.space c.target) (walkPage c.uaddr) ≠ 0) :
    (k.call c).bytes = storeInt k.wp (k.memory.space c.active) k.bytes
      (storeAddr (k.memory.space c.target) c.uaddr) c.val := by
  unfold Machine.call
  rw [if_pos h]
  rw [processWriteUserInt, if_neg hphys]

theorem sound_of_unchanged (h : (k.call c).bytes = k.bytes) : c.Sound k := by
  refine ⟨fun b hb => ?_, fun _ => h⟩
  rw [h] at hb
  exact absurd rfl hb

theorem Meets.sound (h : c.Meets k.memory k.wp) (hi : c.issued k.memory = true) : c.Sound k := by
  by_cases hphys : vmmGetPhys (k.memory.space c.target) (walkPage c.uaddr) = 0
  · refine sound_of_unchanged ?_
    unfold Machine.call
    rw [if_pos hi]
    rw [processWriteUserInt, if_pos hphys]
  have hbytes := call_bytes k hi hphys
  rcases h with hz | hfault | hall
  · exact absurd hz hphys
  · refine sound_of_unchanged ?_
    rw [hbytes]
    exact storeInt_of_fault hfault
  choose! t huser hstore using hall
  refine ⟨fun b hb => ?_, fun ⟨i, hlt, hn⟩ => ?_⟩
  · rw [hbytes] at hb
    obtain ⟨i, hlt, rfl⟩ := storeInt_frame hstore hb
    exact ⟨i, hlt, huser i hlt⟩
  · rw [huser i hlt] at hn
    cases hn

theorem meets_of_sound (hi : c.issued m = true)
    (h : ∀ bytes, c.Sound { memory := m, bytes := bytes, wp := wp }) : c.Meets m wp := by
  by_cases hphys : vmmGetPhys (m.space c.target) (walkPage c.uaddr) = 0
  · exact .inl hphys
  by_cases hfault : ∃ i < 4, storeByte wp (m.space c.active)
      (storeAddr (m.space c.target) c.uaddr + UInt64.ofNat i) = none
  · exact .inr (.inl hfault)
  have hreach : ∀ i < 4, ∃ b, storeByte wp (m.space c.active)
      (storeAddr (m.space c.target) c.uaddr + UInt64.ofNat i) = some b := by
    intro i hlt
    exact Option.ne_none_iff_exists'.mp fun hn => hfault ⟨i, hlt, hn⟩
  choose! t hstore using hreach
  obtain ⟨x, hx⟩ := exists_ne_byteOf c.val
  refine .inr (.inr fun i hlt => ⟨t i, ?_, hstore i hlt⟩)
  have hchange := storeInt_changes hstore hx hlt
  rw [← call_bytes { memory := m, bytes := fun _ => x, wp := wp } hi hphys] at hchange
  obtain ⟨j, hj, huser⟩ := (h fun _ => x).1 (t i) hchange
  -- Both addresses lie at the same place in their pages, so the byte is the same one.
  have hui := userByte_mod huser
  have hsi := storeByte_mod (hstore i hlt)
  rw [toNat_add_ofNat_mod] at hui hsi
  have hmod := storeAddr_mod (m.space c.target) c.uaddr
  obtain rfl : j = i := by omega
  exact huser

/-- A call keeps to the bytes of the process, whatever the memory holds, exactly when
it meets the condition or is not made. -/
theorem store_sound_iff (m : Memory) (wp : Bool) (c : StoreCall) :
    (∀ bytes, c.Sound { memory := m, bytes := bytes, wp := wp }) ↔
      (c.issued m = true → c.Meets m wp) := by
  constructor
  · intro h hi
    exact meets_of_sound hi h
  intro h bytes
  cases hi : c.issued m with
  | true => exact Meets.sound (h hi) hi
  | false =>
    refine sound_of_unchanged ?_
    unfold Machine.call
    rw [hi]
    rfl

/-- A call from a thread that names an address of the kernel stores there. -/
theorem clearTid_stores_into_kernel : ¬ ∀ k c, StoreCall.Sound k c := by
  intro h
  have hchange :
      (Machine.call { memory := Memory.boot, bytes := fun _ => 1, wp := false }
        (clearTid 0 0 0x100000)).bytes 0x100000 ≠ 1 := by decide +kernel
  have hnone : ∀ i < 4, userByte (Memory.boot.space 0) (0x100000 + UInt64.ofNat i) = none := by
    decide +kernel
  obtain ⟨i, hlt, hb⟩ := (h _ _).1 _ hchange
  have hn := hnone i hlt
  exact absurd (hn.symm.trans hb) (by simp)

end StoreCall

end Kil0yOS.Mm
