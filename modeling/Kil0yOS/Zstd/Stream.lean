/-
Frames and streams: `zstd_decompress_heap` of `pkg/zstd.c`.

The frame loop keeps one status for all frames.  It is set when a frame has been
decoded and never taken back, so that from the second frame on an error ends the
loop and the call succeeds.
-/
import Kil0yOS.Lib.Triple
import Kil0yOS.Zstd.Block

namespace Kil0yOS.Zstd

/-! ## Checksum -/

def xxhP1 : UInt64 := 11400714785074694791
def xxhP2 : UInt64 := 14029467366897019727
def xxhP3 : UInt64 := 1609587929392839161
def xxhP4 : UInt64 := 9650029242287828579
def xxhP5 : UInt64 := 2870177450012600261

def rotl (x : UInt64) (k : UInt64) : UInt64 := (x <<< k) ||| (x >>> (64 - k))

def xxhRound (acc input : UInt64) : UInt64 := rotl (acc + input * xxhP2) 31 * xxhP1

def xxhMerge (acc val : UInt64) : UInt64 := (acc ^^^ xxhRound 0 val) * xxhP1 + xxhP4

def word64 (p : Ptr) (i : Nat) : UInt64 := UInt64.ofNat (rd64 p i)

def xxhLanes (p : Ptr) (n : Nat) : UInt64 × UInt64 × UInt64 × UInt64 :=
  (List.range n).foldl
    (fun (a, b, c, d) i =>
      (xxhRound a (word64 p (32 * i)), xxhRound b (word64 p (32 * i + 8)),
        xxhRound c (word64 p (32 * i + 16)), xxhRound d (word64 p (32 * i + 24))))
    (xxhP1 + xxhP2, xxhP2, 0, 0 - xxhP1)

def xxh64 (p : Ptr) (len : Nat) : UInt64 :=
  let pos := if 32 ≤ len then len / 32 * 32 else 0
  let h :=
    if 32 ≤ len then
      let (a, b, c, d) := xxhLanes p (len / 32)
      let h := rotl a 1 + rotl b 7 + rotl c 12 + rotl d 18
      xxhMerge (xxhMerge (xxhMerge (xxhMerge h a) b) c) d
    else xxhP5
  let h := h + UInt64.ofNat len
  let n8 := (len - pos) / 8
  let h := (List.range n8).foldl
    (fun h i => rotl (h ^^^ xxhRound 0 (word64 p (pos + 8 * i))) 27 * xxhP1 + xxhP4) h
  let pos := pos + 8 * n8
  let n4 := (len - pos) / 4
  let h := (List.range n4).foldl
    (fun h i =>
      rotl (h ^^^ UInt64.ofNat (rd32 p (pos + 4 * i)) * xxhP1) 23 * xxhP2 + xxhP3) h
  let pos := pos + 4 * n4
  let h := (List.range (len - pos)).foldl
    (fun h i => rotl (h ^^^ (p (pos + i)).toUInt64 * xxhP5) 11 * xxhP1) h
  let h := (h ^^^ h >>> 33) * xxhP2
  let h := (h ^^^ h >>> 29) * xxhP3
  h ^^^ h >>> 32

/-! ## Frame headers -/

def zstdMagicNumber : Nat := 0xFD2FB528
def zstdMagicSkippableStart : Nat := 0x184D2A50
def zstdMagicSkippableMask : Nat := 0xFFFFFFF0

def isSkippable (magic : Nat) : Bool :=
  magic &&& zstdMagicSkippableMask == zstdMagicSkippableStart

structure FrameHeader where
  /-- The length of the header. -/
  pos : Nat
  fcs : Option Nat
  checksum : Bool

section
variable (input : Ptr) (inLen : Nat)

/-- The content size declared at `pos` behind `ipos`, and where it ends. -/
def readFcs (ipos pos fcsFlag : Nat) (singleSegment : Bool) : Option (Option Nat × Nat) :=
  match fcsFlag with
  | 0 =>
    if singleSegment then
      if inLen < ipos + pos + 1 then none else some (some (input (ipos + pos)).toNat, pos + 1)
    else some (none, pos)
  | 1 =>
    if inLen < ipos + pos + 2 then none
    else some (some (rd16 input (ipos + pos) + 256), pos + 2)
  | 2 => if inLen < ipos + pos + 4 then none else some (some (rd32 input (ipos + pos)), pos + 4)
  | _ => if inLen < ipos + pos + 8 then none else some (some (rd64 input (ipos + pos)), pos + 8)

/-- The header of the frame at `ipos`, behind its magic number. -/
def frameHeader (ipos : Nat) : Option FrameHeader :=
  if inLen - ipos < 5 then none
  else
    let fhd := (input (ipos + 4)).toNat
    let singleSegment := fhd / 32 % 2 == 1
    if fhd / 8 % 2 = 1 then none
    else if singleSegment = false ∧ inLen ≤ ipos + 5 then none
    else if singleSegment = false ∧ 27 < (input (ipos + 5)).toNat / 8 + 10 then none
    else
      let pos := (if singleSegment then 5 else 6) + [0, 1, 2, 4].getD (fhd % 4) 0
      match readFcs input inLen ipos pos (fhd / 64) singleSegment with
      | none => none
      | some (fcs, pos) => some { pos := pos, fcs := fcs, checksum := fhd / 4 % 2 == 1 }

/-! ## Frames -/

/-- Decode the block at `src`.  A raw block is as long as it says, a run-length block
is one byte. -/
def blockBody (env : Env) (src : Ptr) (btype bsize frameStart : Nat) : Z Unit := do
  match btype with
  | 0 =>
    outReserve env bsize
    let s ← get
    if s.outCap < s.out.length + bsize then throw .fail
    emit (src.take bsize)
  | 1 =>
    outReserve env bsize
    emit (List.replicate bsize (src 0))
  | 2 => decodeBlock env src bsize frameStart
  | _ => throw .fail

def blockLoop (env : Env) (ipos frameStart : Nat) : Nat → Nat → Z Nat
  | 0, _ => throw .hang
  | fuel + 1, pos => do
    if inLen < ipos + pos + 3 then throw .fail
    let bh := rd24 input (ipos + pos)
    let pos := pos + 3
    let btype := bh / 2 % 4
    let bsize := bh / 8
    let binput := if btype = 1 then 1 else bsize
    if inLen < ipos + pos + binput then throw .fail
    if btype ≠ 3 ∧ zstdBlocksizeMax < bsize then throw .fail
    blockBody env (input.add (ipos + pos)) btype bsize frameStart
    if bh % 2 = 1 then return pos + binput
    blockLoop env ipos frameStart fuel (pos + binput)

def resetEntropy (ctx : Dctx) : Dctx :=
  { ctx with
    rep := fun i => [1, 4, 8].getD i 0
    litEntropy := false
    fseEntropy := false }

/-- The frame at `ipos`, behind the test of its magic number; its length. -/
def frame (env : Env) (ipos : Nat) : Z Nat := do
  match frameHeader input inLen ipos with
  | none => throw .fail
  | some header =>
    match header.fcs with
    | some fcs => outReserve env fcs
    | none => pure ()
    modify fun s => { s with ctx := resetEntropy s.ctx }
    let frameStart := (← get).out.length
    let pos ← blockLoop input inLen env ipos frameStart (inLen + 1) header.pos
    if header.checksum then
      if inLen < ipos + pos + 4 then throw .fail
      let data := (← get).out.drop frameStart
      let h := xxh64 (fun i => data.getD i 0) data.length
      if h.toNat % 2 ^ 32 ≠ rd32 input (ipos + pos) then throw .fail
      return pos + 4
    else return pos

/-! ## The frame loop -/

/-- The length of the skippable frame at `ipos`, in 32-bit arithmetic. -/
def skipStep (ipos : Nat) : Nat := (8 + rd32 input (ipos + 4)) % 2 ^ 32

/-- How the loop ends: with the status, or not at all. -/
inductive LoopEnd
  | stop (decoded : Bool) (s : Stream)
  | hang

/-- The loop.  `decoded` is the status: some frame has been decoded. -/
def frameLoop (env : Env) : Nat → Nat → Bool → Stream → LoopEnd
  | fuel, ipos, decoded, s =>
    if inLen ≤ ipos then .stop decoded s
    else
      match fuel with
      | 0 => .hang
      | fuel + 1 =>
        let magic := rd32 input ipos
        if isSkippable magic then
          if inLen < ipos + 8 then .stop decoded s
          else
            -- With a length of zero the loop goes on at the same place for ever.
            if skipStep input ipos = 0 then .hang
            else if inLen < ipos + skipStep input ipos then .stop decoded s
            else frameLoop env fuel (ipos + skipStep input ipos) decoded s
        else if magic ≠ zstdMagicNumber then .stop decoded s
        else
          match frame input inLen env ipos s with
          | .ok n s => frameLoop env fuel (ipos + n) true s
          | .error .fail s => .stop decoded s
          | .error .hang _ => .hang

end

/-- A predefined table as it stands at the start. -/
def seqDefaultTable (d : TblDef) (maxSV : Nat) (norm : List Int) : SeqTable :=
  let zero : SeqTable :=
    { log := 0, cell := fun _ => { nextState := 0, nbAdditionalBits := 0, nbBits := 0, baseValue := 0 } }
  (buildSeqFse zero (normAt norm fun _ => 0) maxSV d.defLog d.base d.bits).toOption.getD zero

def Stream.start (env : Env) : Stream where
  out := []
  outCap := 0
  ctx :=
    { llTable := seqDefaultTable llDef maxLL llDefaultNorm
      ofTable := seqDefaultTable (ofDef env) ofDefaultNormMax ofDefaultNorm
      mlTable := seqDefaultTable mlDef maxML mlDefaultNorm
      fseEntropy := false
      litEntropy := false
      rep := fun _ => 0
      hufTable := { log := 0, elt := fun _ => { byte := 0, nbBits := 0 } }
      wDT := fun _ => { symbol := 0, nbBits := 0, nextState := 0 }
      litBuffer := [] }

inductive Ret
  | ok (out : List UInt8)
  | fail
  | hang
  deriving DecidableEq, Repr

def zstdDecompressHeap (env : Env) (input : Ptr) (inLen : Nat) : Ret :=
  if inLen < 4 then .fail
  else if env.heap.ctx = false then .fail
  else
    match frameLoop input inLen env (inLen + 1) 0 false (Stream.start env) with
    | .hang => .hang
    | .stop false _ => .fail
    | .stop true s => if s.outCap = 0 ∧ env.heap.last = false then .fail else .ok s.out

end Kil0yOS.Zstd
