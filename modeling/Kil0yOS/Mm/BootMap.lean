/-
pmm_init of `mm/memory.c`: the bitmap of free pages is made from the memory map that the
boot loader, or else the firmware, has left.

The map is read from memory.  The multiboot information is a sequence of tags, of which the
memory map is one; the map of the firmware is an array of descriptors.  All ranges come as
64-bit words, and sums of them are taken modulo 2^64.
-/
import Kil0yOS.Lib.Bytes
import Kil0yOS.Mm.Pmm

namespace Kil0yOS.Mm

def pmmSpan : UInt64 := 0x100000000

def pmmUsableMax : Nat := 32

def bitmapSize : UInt64 := 131072

def Pmm.markRegion (base length : UInt64) (used : Bool) (m : Pmm) : Pmm :=
  let startPage := (base / 4096).toNat
  let endPage := ((base + length + 4096 - 1) / 4096).toNat
  let endPage := if endPage > pmmMaxPages then pmmMaxPages else endPage
  (List.range' startPage (endPage - startPage)).foldl
    (fun m p => if used then m.bitmapSet p else m.bitmapClear p) m

/-- The allocator, the ranges noted for the panic dump, and the top of the memory. -/
structure BootPmm where
  pmm : Pmm
  usable : List (UInt64 × UInt64)
  ramTop : UInt64

structure EfiMap where
  map : Lib.Bytes
  size : Nat
  descSize : Nat

/-- What pmm_init finds: the memory, the ends of the kernel image, the place of the bitmap,
the framebuffer, and the firmware's map if there is a snapshot. -/
structure BootMachine where
  mem : Lib.Bytes
  kernelStart : UInt64
  kernelEnd : UInt64
  bitmap : UInt64
  fbBase : UInt64
  fbSize : UInt64
  efi : Option EfiMap

namespace BootPmm

def noteUsable (base len : UInt64) (s : BootPmm) : BootPmm :=
  let len := if base + len > pmmSpan then pmmSpan - base else len
  if base ≥ pmmSpan ∨ len = 0 then s
  else if s.usable.length < pmmUsableMax then { s with usable := s.usable ++ [(base, len)] }
  else { s with usable := s.usable.modify (pmmUsableMax - 1) fun u => (u.1, u.2 + len) }

def addUsable (base len : UInt64) (s : BootPmm) : BootPmm :=
  if base < pmmSpan then
    let len := if base + len > pmmSpan then pmmSpan - base else len
    let s := { s with pmm := s.pmm.markRegion base len false }
    let s := s.noteUsable base len
    { s with ramTop := if base + len > s.ramTop then base + len else s.ramTop }
  else s

end BootPmm

def mmapLoop (mem : Lib.Bytes) (entrySize : Nat) : Nat → Nat → BootPmm → BootPmm
  | 0, _, s => s
  | n + 1, e, s =>
    let base := UInt64.ofNat (mem.get64 e)
    let len := UInt64.ofNat (mem.get64 (e + 8))
    mmapLoop mem entrySize n (e + entrySize)
      (if mem.get32 (e + 16) = 1 then s.addUsable base len else s)

/-- The tags up to `stop`, and whether one of them was a memory map.  A memory map with
entries of size zero makes the machine divide by zero. -/
def tagLoop (mem : Lib.Bytes) (stop : Nat) : Nat → Nat → Bool → BootPmm → Option (Bool × BootPmm)
  | 0, _, _, _ => none
  | fuel + 1, tag, haveMmap, s =>
    if tag < stop then
      let size := mem.get32 (tag + 4)
      let advance := (size + 7) % 2 ^ 32 / 8 * 8
      if mem.get32 tag = 0 then some (haveMmap, s)
      else if mem.get32 tag = 6 then
        let entrySize := mem.get32 (tag + 8)
        if entrySize = 0 then none
        else
          let s := mmapLoop mem entrySize ((size + 2 ^ 32 - 16) % 2 ^ 32 / entrySize) (tag + 16) s
          if advance = 0 then some (true, s) else tagLoop mem stop fuel (tag + advance) true s
      else if advance = 0 then some (haveMmap, s)
      else tagLoop mem stop fuel (tag + advance) haveMmap s
    else some (haveMmap, s)

def efiLoop (map : Lib.Bytes) (size dsz : Nat) : Nat → Nat → BootPmm → Option BootPmm
  | 0, _, _ => none
  | fuel + 1, off, s =>
    if (off + dsz) % 2 ^ 32 ≤ size then
      let base := UInt64.ofNat (map.get64 (off + 8))
      let len := UInt64.ofNat (map.get64 (off + 24)) * 4096
      efiLoop map size dsz fuel ((off + dsz) % 2 ^ 32)
        (if map.get32 off = 7 then s.addUsable base len else s)
    else some s

/-- The firmware's map, if there was no other. -/
def efiFallback (efi : Option EfiMap) (haveMmap : Bool) (s : BootPmm) : Option BootPmm :=
  match efi with
  | none => some s
  | some e =>
    if haveMmap then some s
    else efiLoop e.map e.size (if e.descSize < 40 then 40 else e.descSize) (e.size + 1) 0 s

def readInfo (mem : Lib.Bytes) (mbInfoPhys : UInt64) (s : BootPmm) : Option (Bool × BootPmm) :=
  if mbInfoPhys = 0 then some (false, s)
  else
    let info := mbInfoPhys.toNat
    tagLoop mem (info + mem.get32 info) (mem.get32 info + 1) (info + 8) false s

/-- The areas that are reserved at the end, as base and length. -/
def BootMachine.reserved (hw : BootMachine) (mbInfoPhys : UInt64) : List (UInt64 × UInt64) :=
  [(hw.kernelStart, hw.kernelEnd - hw.kernelStart), (hw.bitmap, bitmapSize), (0, 0x200000)] ++
    (if mbInfoPhys ≠ 0 then [(mbInfoPhys, UInt64.ofNat (hw.mem.get32 mbInfoPhys.toNat))] else []) ++
    (if hw.fbBase ≠ 0 ∧ hw.fbSize ≠ 0 then [(hw.fbBase, hw.fbSize)] else [])

def BootPmm.allUsed (s : BootPmm) : BootPmm :=
  { s with pmm := { s.pmm with used := fun _ => true } }

def pmmInit (hw : BootMachine) (mbInfoPhys : UInt64) (s : BootPmm) : Option BootPmm := do
  let (haveMmap, s) ← readInfo hw.mem mbInfoPhys s.allUsed
  let s ← efiFallback hw.efi haveMmap s
  some { s with pmm := (hw.reserved mbInfoPhys).foldl (fun m a => m.markRegion a.1 a.2 true) s.pmm }

/-! ## What is reported -/

/-- A range of memory that is reported usable, with its size in full. -/
structure Range where
  base : UInt64
  size : Nat

structure MmapEntry where
  base : UInt64
  len : UInt64
  type : Nat

def MmapEntry.At (mem : Lib.Bytes) (a : Nat) (e : MmapEntry) : Prop :=
  mem.get64 a = e.base.toNat ∧ mem.get64 (a + 8) = e.len.toNat ∧ mem.get32 (a + 16) = e.type

def MmapEntry.range (e : MmapEntry) : Option Range :=
  if e.type = 1 then some ⟨e.base, e.len.toNat⟩ else none

/-- A tag of the multiboot information; of tags that are no memory map, the size. -/
inductive Tag where
  | mmap (entrySize : Nat) (entries : List MmapEntry)
  | other (size : Nat)

namespace Tag

def size : Tag → Nat
  | mmap entrySize entries => 16 + entries.length * entrySize
  | other size => size

def room (t : Tag) : Nat := (t.size + 7) / 8 * 8

def At (mem : Lib.Bytes) (a : Nat) (t : Tag) : Prop :=
  mem.get32 (a + 4) = t.size ∧
    match t with
    | mmap entrySize entries =>
      mem.get32 a = 6 ∧ mem.get32 (a + 8) = entrySize ∧ 24 ≤ entrySize ∧
        ∀ i, ∀ h : i < entries.length, entries[i].At mem (a + 16 + i * entrySize)
    | other size => mem.get32 a ≠ 0 ∧ mem.get32 a ≠ 6 ∧ 8 ≤ size

def isMmap : Tag → Bool
  | mmap _ _ => true
  | other _ => false

def ranges : Tag → List Range
  | mmap _ entries => entries.filterMap MmapEntry.range
  | other _ => []

end Tag

/-- Tags one after the other, and the tag that ends them. -/
def TagsAt (mem : Lib.Bytes) : Nat → List Tag → Prop
  | a, [] => mem.get32 a = 0
  | a, t :: ts => t.At mem a ∧ TagsAt mem (a + t.room) ts

/-- Tags that are the multiboot information at an address. -/
structure InfoAt (mem : Lib.Bytes) (phys : UInt64) (tags : List Tag) : Prop where
  tags_at : TagsAt mem (phys.toNat + 8) tags
  total : mem.get32 phys.toNat = 16 + (tags.map Tag.room).sum

structure EfiDesc where
  type : Nat
  base : UInt64
  pages : UInt64

def EfiDesc.At (map : Lib.Bytes) (off : Nat) (d : EfiDesc) : Prop :=
  map.get32 off = d.type ∧ map.get64 (off + 8) = d.base.toNat ∧ map.get64 (off + 24) = d.pages.toNat

def EfiDesc.range (d : EfiDesc) : Option Range :=
  if d.type = 7 then some ⟨d.base, d.pages.toNat * 4096⟩ else none

/-- Descriptors that are a snapshot, which is in a buffer of 64 KiB. -/
structure EfiMap.Lists (e : EfiMap) (descs : List EfiDesc) : Prop where
  descs_at : ∀ i, ∀ h : i < descs.length, descs[i].At e.map (i * e.descSize)
  size_eq : e.size = descs.length * e.descSize
  size_le : e.size ≤ 65536
  descSize_ge : 40 ≤ e.descSize
  descSize_le : e.descSize ≤ 65536

structure Boot where
  hw : BootMachine
  mbInfoPhys : UInt64
  tags : List Tag
  descs : List EfiDesc
  info : mbInfoPhys ≠ 0 → InfoAt hw.mem mbInfoPhys tags
  no_info : mbInfoPhys = 0 → tags = []
  report : ∀ e, hw.efi = some e → e.Lists descs
  no_report : hw.efi = none → descs = []
  kernel : hw.kernelStart < hw.kernelEnd

namespace Boot

variable (b : Boot)

/-- The ranges reported usable: those of the boot loader, or else of the firmware. -/
def usable : List Range :=
  if b.tags.any Tag.isMmap then b.tags.flatMap Tag.ranges else b.descs.filterMap EfiDesc.range

/-- All bytes of the page are in ranges reported usable. -/
def Covered (p : Nat) : Prop :=
  ∀ a, p * 4096 ≤ a → a < (p + 1) * 4096 →
    ∃ r ∈ b.usable, r.base.toNat ≤ a ∧ a < r.base.toNat + r.size

/-- A byte of the page is in the kernel image, the bitmap, the first two megabytes, the boot
information or the framebuffer. -/
def Reserved (p : Nat) : Prop :=
  ∃ a, p * 4096 ≤ a ∧ a < (p + 1) * 4096 ∧
    ∃ r ∈ b.hw.reserved b.mbInfoPhys, r.1.toNat ≤ a ∧ a < r.1.toNat + r.2.toNat

/-- The free pages are those that may be handed out. -/
def PageMap (m : Pmm) : Prop :=
  ∀ p, m.bitmapTest p = false ↔ p < pmmMaxPages ∧ b.Covered p ∧ ¬ b.Reserved p

end Boot

end Kil0yOS.Mm
