/-
Little-endian reads and the reverse bit reader of `pkg/zstd.c`.

A pointer is the memory from it on.  Nothing stops a read behind the end of the
input, and such a read finds what happens to lie there, so every result is stated
for all memories that begin with the input.
-/
import Mathlib.Data.Nat.Log
import Mathlib.Data.UInt

namespace Kil0yOS.Zstd

abbrev Ptr := Nat → UInt8

variable (p : Ptr)

def Ptr.add (n : Nat) : Ptr := fun i => p (n + i)

def Ptr.take (n : Nat) : List UInt8 := (List.range n).map p

/-- Why a function of the decoder does not return normally: it returns -1, or it
never returns. -/
inductive Stop
  | fail
  | hang
  deriving DecidableEq, Repr

def zHighbit32 (v : Nat) : Nat := Nat.log2 v

/-- The number of zero bits at the low end of a 32-bit word that is not zero. -/
def zCtz32 (v : Nat) : Nat := ((List.range 32).find? fun i => v.testBit i).getD 32

def rd16 (i : Nat) : Nat := (p i).toNat + (p (i + 1)).toNat * 2 ^ 8

def rd24 (i : Nat) : Nat := rd16 p i + (p (i + 2)).toNat * 2 ^ 16

def rd32 (i : Nat) : Nat :=
  rd16 p i + (p (i + 2)).toNat * 2 ^ 16 + (p (i + 3)).toNat * 2 ^ 24

def rd64 (i : Nat) : Nat := rd32 p i + rd32 p (i + 4) * 2 ^ 32

/-- The reader.  Positions count from the start of the stream. -/
structure Bitr where
  src : Ptr
  ptr : Nat
  bitContainer : UInt64
  bitsConsumed : Nat

inductive BrStatus
  | unfinished
  | endOfBuffer
  | completed
  | overflow
  deriving DecidableEq, Repr

/-- The low bytes of the container when the stream is shorter than it. -/
def shortContainer (src : Ptr) (size : Nat) : Nat :=
  (List.range size).foldl (fun c i => c + (src i).toNat * 2 ^ (8 * i)) 0

def brInit (src : Ptr) (size : Nat) : Option Bitr :=
  if size = 0 then none
  else
    let last := (src (size - 1)).toNat
    if last = 0 then none
    else if 8 ≤ size then
      some
        { src := src
          ptr := size - 8
          bitContainer := UInt64.ofNat (rd64 src (size - 8))
          bitsConsumed := 8 - zHighbit32 last }
    else
      some
        { src := src
          ptr := 0
          bitContainer := UInt64.ofNat (shortContainer src size)
          bitsConsumed := 8 - zHighbit32 last + (8 - size) * 8 }

variable (b : Bitr)

/-- At most 63 bits are asked for. -/
def brLook (nb : Nat) : Nat :=
  (((b.bitContainer <<< UInt64.ofNat (b.bitsConsumed % 64)) >>> 1) >>>
    UInt64.ofNat ((63 - nb) % 64)).toNat

def brSkip (nb : Nat) : Bitr :=
  { b with bitsConsumed := (b.bitsConsumed + nb) % 2 ^ 32 }

def brRead (nb : Nat) : Nat × Bitr := (brLook b nb, brSkip b nb)

def brReload : BrStatus × Bitr :=
  if 64 < b.bitsConsumed then (.overflow, b)
  else if 8 ≤ b.ptr then
    let ptr := b.ptr - b.bitsConsumed / 8
    (.unfinished,
      { b with
        ptr := ptr
        bitsConsumed := b.bitsConsumed % 8
        bitContainer := UInt64.ofNat (rd64 b.src ptr) })
  else if b.ptr = 0 then
    if b.bitsConsumed < 64 then (.endOfBuffer, b) else (.completed, b)
  else
    -- The bytes before the start of the stream are not read.
    let nbBytes := if b.ptr < b.bitsConsumed / 8 then b.ptr else b.bitsConsumed / 8
    let res := if b.ptr < b.bitsConsumed / 8 then BrStatus.endOfBuffer else BrStatus.unfinished
    (res,
      { b with
        ptr := b.ptr - nbBytes
        bitsConsumed := b.bitsConsumed - nbBytes * 8
        bitContainer := UInt64.ofNat (rd64 b.src (b.ptr - nbBytes)) })

def brEnd : Bool := b.ptr == 0 && b.bitsConsumed == 64

/-- A read followed by a reload whose status the caller ignores. -/
def brReadReload (nb : Nat) : Nat × Bitr :=
  let (v, b) := brRead b nb
  (v, (brReload b).2)

end Kil0yOS.Zstd
