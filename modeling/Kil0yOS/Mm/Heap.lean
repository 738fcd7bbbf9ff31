/-
The kernel heap of `mm/memory.c`: `memory_init`, `kmalloc`, `kfree`, `kcalloc`,
`krealloc` and `heap_verify`.

Block headers lie in the same memory as the payloads, as bytes.  A walk along the
block list looks at no more blocks than the arena has bytes, and has no result if
that does not bring it to the end; a pointer is 0 for `NULL`.  What the functions
write to the kernel log is left out.
-/
import Kil0yOS.Lib.Bytes

namespace Kil0yOS.Mm

open Lib

/-- The size of `heap_block_t`: `size`, `next`, `free` and `magic`. -/
def hdrSz : Nat := 24

def heapMagic : Nat := 0x4B594F53

structure Heap where
  mem : Bytes
  heapStart : Nat
  heapEnd : Nat
  heapList : Nat

/-! ## Headers -/

def blkSize (m : Bytes) (a : Nat) : Nat := m.get64 a
def blkNext (m : Bytes) (a : Nat) : Nat := m.get64 (a + 8)
def blkFree (m : Bytes) (a : Nat) : Nat := m.get32 (a + 16)
def blkMagic (m : Bytes) (a : Nat) : Nat := m.get32 (a + 20)

def putHeader (m : Bytes) (a size next free : Nat) : Bytes :=
  (((m.put64 a size).put64 (a + 8) next).put32 (a + 16) free).put32 (a + 20) heapMagic

/-! ## Allocation -/

/-- `kmalloc`'s walk to the first free block with room for `size` bytes: the block
before it and the block, which is 0 at the end of the list. -/
def findFit (m : Bytes) (size : Nat) : Nat → Nat → Nat → Option (Nat × Nat)
  | 0, _, _ => none
  | fuel + 1, prev, current =>
    if current = 0 then some (prev, 0)
    else if blkFree m current ≠ 0 ∧ blkSize m current ≥ size then some (prev, current)
    else findFit m size fuel current (blkNext m current)

namespace Heap

variable (h : Heap)

/-- The number of bytes of the arena bounds the number of blocks. -/
def fuel : Nat := h.heapEnd - h.heapStart + 1

/-- The request in multiples of eight bytes. -/
def roundSize (size : Nat) : Nat :=
  ((if size = 0 then 8 else size) + 7) % 2 ^ 64 / 8 * 8

/-- The block that was found is taken, and split when the rest has room for a
header. -/
def take (m : Bytes) (current size : Nat) : Bytes :=
  let m :=
    if blkSize m current - size > hdrSz then
      let remaining := blkSize m current - size - hdrSz
      let newBlock := current + hdrSz + size
      ((putHeader m newBlock remaining (blkNext m current) 1).put64 (current + 8) newBlock).put64
        current size
    else m
  (m.put32 (current + 16) 0).put32 (current + 20) heapMagic

/-- No block fits: a new one behind the last, if the arena has room for it. -/
def extend (prev size : Nat) : Nat × Heap :=
  let newAddr :=
    if prev ≠ 0 then prev + hdrSz + blkSize h.mem prev
    else if h.heapList ≠ 0 then h.heapList + hdrSz + blkSize h.mem h.heapList
    else h.heapStart
  if (newAddr + hdrSz + size) % 2 ^ 64 ≤ h.heapEnd then
    let m := putHeader h.mem newAddr size 0 0
    let h' :=
      if prev ≠ 0 then { h with mem := m.put64 (prev + 8) newAddr }
      else if h.heapList = 0 then { h with mem := m, heapList := newAddr }
      else { h with mem := m }
    (newAddr + hdrSz, h')
  else (0, h)

def kmalloc (size : Nat) : Option (Nat × Heap) := do
  let size := roundSize size
  let (prev, current) ← findFit h.mem size h.fuel 0 h.heapList
  if current ≠ 0 then
    some (current + hdrSz, { h with mem := take h.mem current size })
  else
    some (h.extend prev size)

/-! ## Release -/

/-- Merges neighbouring free blocks up to the block released.  The same block is
looked at again after a merge. -/
def mergeLoop (block : Nat) : Nat → Bytes → Nat → Option Bytes
  | 0, _, _ => none
  | fuel + 1, m, current =>
    if current ≠ 0 ∧ blkNext m current ≠ 0 ∧ current ≤ block then
      if blkFree m current ≠ 0 ∧ blkFree m (blkNext m current) ≠ 0 then
        let next := blkNext m current
        let m := m.put64 current (blkSize m current + (hdrSz + blkSize m next))
        mergeLoop block fuel (m.put64 (current + 8) (blkNext m next)) current
      else mergeLoop block fuel m (blkNext m current)
    else some m

/-- The checks `kfree` makes on the block and its successor. -/
def intact (block : Nat) : Bool :=
  blkMagic h.mem block = heapMagic ∧
    (blkNext h.mem block ≠ 0 →
      blkNext h.mem block = block + hdrSz + blkSize h.mem block ∧
        ¬ (blkNext h.mem block < h.heapStart ∨ blkNext h.mem block ≥ h.heapEnd ∨
          blkMagic h.mem (blkNext h.mem block) ≠ heapMagic))

def kfree (ptr : Nat) : Option Heap :=
  if ptr = 0 then some h
  else if ptr < h.heapStart + hdrSz ∨ ptr ≥ h.heapEnd then some h
  else
    let block := ptr - hdrSz
    if block < h.heapStart ∨ block ≥ h.heapEnd then some h
    else if h.intact block then do
      let m ← mergeLoop block h.fuel (h.mem.put32 (block + 16) 1) h.heapList
      some { h with mem := m }
    else some h

/-! ## Allocation in other forms -/

def kcalloc (nmemb size : Nat) : Option (Nat × Heap) :=
  if nmemb ≠ 0 ∧ size > (2 ^ 64 - 1) / nmemb then some (0, h)
  else do
    let total := nmemb * size
    let (ptr, h) ← h.kmalloc total
    if ptr ≠ 0 then some (ptr, { h with mem := h.mem.fill ptr total 0 }) else some (ptr, h)

def krealloc (ptr size : Nat) : Option (Nat × Heap) :=
  if ptr = 0 then h.kmalloc size
  else if size = 0 then do
    let h ← h.kfree ptr
    some (0, h)
  else
    let block := ptr - hdrSz
    if blkSize h.mem block ≥ size then some (ptr, h)
    else do
      let (newPtr, h) ← h.kmalloc size
      if newPtr ≠ 0 then do
        let h ← kfree { h with mem := h.mem.copy newPtr ptr (blkSize h.mem block) } ptr
        some (newPtr, h)
      else some (newPtr, h)

/-! ## Integrity -/

/-- `heap_verify` from a block on, with the block before it. -/
def verifyLoop (h : Heap) : Nat → Nat → Nat → Option Int
  | 0, _, _ => none
  | fuel + 1, last, it =>
    if it = 0 then some 0
    else if it < h.heapStart ∨ it ≥ h.heapEnd ∨ (last ≠ 0 ∧ it ≤ last) ∨
        blkMagic h.mem it ≠ heapMagic then some (-1)
    else if blkNext h.mem it ≠ 0 ∧ blkNext h.mem it ≠ it + hdrSz + blkSize h.mem it then some (-1)
    else verifyLoop h fuel it (blkNext h.mem it)

def heapVerify : Option Int := h.verifyLoop h.fuel 0 h.heapList

end Heap

/-! ## Initialisation -/

/-- An entry of the memory map the machine hands over.  Physical addresses have 52
bits. -/
structure MapEntry where
  type : Nat
  base : Nat
  length : Nat
  inRange : base + length ≤ 2 ^ 52

/-- What `memory_init` is called with: the end of the kernel image and the memory
map, which may be missing. -/
structure BootInfo where
  kernelEnd : Nat
  map : List MapEntry
  kernelEnd_le : kernelEnd ≤ 2 ^ 51

namespace BootInfo

def heapBase (b : BootInfo) : Nat :=
  let base := (b.kernelEnd + 0xFFF) / 0x1000 * 0x1000
  if base < 0x200000 then 0x200000 else base

/-- The largest usable region above the kernel: its size and its start. -/
def largest (heapBase : Nat) : List MapEntry → Nat × Nat → Nat × Nat
  | [], best => best
  | e :: es, best =>
    largest heapBase es
      (if e.type = 1 ∧ e.length > best.1 ∧ e.base ≥ heapBase then (e.length, e.base) else best)

def arena (b : BootInfo) : Nat × Nat :=
  let best := largest b.heapBase b.map (0, b.heapBase)
  if best.1 > 0x100000 then
    (best.2, best.2 + (if best.1 > 0x2000000 then 0x2000000 else best.1))
  else (b.heapBase, b.heapBase + 0x2000000)

end BootInfo

/-- The heap part of `memory_init`: the arena becomes one free block. -/
def memoryInit (b : BootInfo) (mem : Bytes) : Heap :=
  let (start, finish) := b.arena
  { mem := putHeader mem start (finish - start - hdrSz) 0 1
    heapStart := start
    heapEnd := finish
    heapList := start }

end Kil0yOS.Mm
