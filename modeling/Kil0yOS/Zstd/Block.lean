/-
Compressed blocks of `pkg/zstd.c`: the literals section, the sequences section and
the execution of sequences into the output.

A function that fails keeps what it has already written, since an error in a later
frame does not take the output of the earlier ones back.
-/
import Kil0yOS.Zstd.Entropy

namespace Kil0yOS.Zstd

open Function

/-! ## Constants -/

def maxLL : Nat := 35
def maxML : Nat := 52
def maxOff : Nat := 31
def llFSELog : Nat := 9
def mlFSELog : Nat := 9
def offFSELog : Nat := 8
def zstdBlocksizeMax : Nat := 2 ^ 17
def longNbSeq : Nat := 0x7F00
def minLiteralsFor4Streams : Nat := 6
def llDefaultNormLog : Nat := 6
def mlDefaultNormLog : Nat := 6
def ofDefaultNormLog : Nat := 5
def ofDefaultNormMax : Nat := 28

def llBitsTbl : List Nat :=
  [0, 0, 0, 0, 0, 0, 0, 0, 0, 0, 0, 0, 0, 0, 0, 0,
    1, 1, 1, 1, 2, 2, 3, 3, 4, 6, 7, 8, 9, 10, 11, 12,
    13, 14, 15, 16]

def llBaseTbl : List Nat :=
  [0, 1, 2, 3, 4, 5, 6, 7, 8, 9, 10, 11, 12, 13, 14, 15,
    16, 18, 20, 22, 24, 28, 32, 40, 48, 64, 0x80, 0x100, 0x200,
    0x400, 0x800, 0x1000, 0x2000, 0x4000, 0x8000, 0x10000]

def mlBitsTbl : List Nat :=
  [0, 0, 0, 0, 0, 0, 0, 0, 0, 0, 0, 0, 0, 0, 0, 0,
    0, 0, 0, 0, 0, 0, 0, 0, 0, 0, 0, 0, 0, 0, 0, 0,
    1, 1, 1, 1, 2, 2, 3, 3, 4, 4, 5, 7, 8, 9, 10, 11,
    12, 13, 14, 15, 16]

def mlBaseTbl : List Nat :=
  [3, 4, 5, 6, 7, 8, 9, 10, 11, 12, 13, 14, 15, 16, 17, 18,
    19, 20, 21, 22, 23, 24, 25, 26, 27, 28, 29, 30, 31, 32, 33, 34,
    35, 37, 39, 41, 43, 47, 51, 59, 67, 83, 99, 0x83, 0x103, 0x203,
    0x403, 0x803, 0x1003, 0x2003, 0x4003, 0x8003, 0x10003]

def ofBaseTbl : List Nat :=
  [0, 1, 1, 5, 0xD, 0x1D, 0x3D, 0x7D, 0xFD, 0x1FD, 0x3FD, 0x7FD,
    0xFFD, 0x1FFD, 0x3FFD, 0x7FFD, 0xFFFD, 0x1FFFD, 0x3FFFD, 0x7FFFD,
    0xFFFFD, 0x1FFFFD, 0x3FFFFD, 0x7FFFFD, 0xFFFFFD, 0x1FFFFFD,
    0x3FFFFFD, 0x7FFFFFD, 0xFFFFFFD, 0x1FFFFFFD, 0x3FFFFFFD,
    0x7FFFFFFD]

def ofBitsTbl : List Nat := List.range 32

def llDefaultNorm : List Int :=
  [4, 3, 2, 2, 2, 2, 2, 2, 2, 2, 2, 2, 2, 1, 1, 1,
    2, 2, 2, 2, 2, 2, 2, 2, 2, 3, 2, 1, 1, 1, 1, 1,
    -1, -1, -1, -1]

def mlDefaultNorm : List Int :=
  [1, 4, 3, 2, 2, 2, 2, 2,
    2, 1, 1, 1, 1, 1, 1, 1,
    1, 1, 1, 1, 1, 1, 1, 1,
    1, 1, 1, 1, 1, 1, 1, 1,
    1, 1, 1, 1, 1, 1, 1, 1,
    1, 1, 1, 1, 1, 1, -1, -1,
    -1, -1, -1, -1, -1]

def ofDefaultNorm : List Int :=
  [1, 1, 1, 1, 1, 1, 2, 2, 2, 1, 1, 1, 1, 1, 1, 1, 1, 1, 1, 1, 1, 1, 1, 1, -1, -1, -1, -1, -1]

/-- Which requests for memory succeed.  A size of the output buffer is asked for at
most once in a call. -/
structure Heap where
  ctx : Bool
  buffer : Nat → Bool
  /-- For the one byte that stands for an empty output. -/
  last : Bool

/-- What the machine adds to the input: memory, and the words that lie behind the 29
of `OF_defaultNorm`, of which a block with predefined offsets reads three. -/
structure Env where
  behindOfNorm : Nat → Int
  heap : Heap

/-- A predefined distribution, read at any index. -/
def normAt (norm : List Int) (behind : Nat → Int) (s : Nat) : Int :=
  if s < norm.length then norm.getD s 0 else behind (s - norm.length)

/-! ## The context and the stream -/

structure Dctx where
  llTable : SeqTable
  ofTable : SeqTable
  mlTable : SeqTable
  fseEntropy : Bool
  litEntropy : Bool
  rep : Nat → Nat
  hufTable : HufTable
  wDT : Nat → FseSym
  /-- The literals of the block. -/
  litBuffer : List UInt8

/-- The output written so far and the room there is for it. -/
structure Stream where
  out : List UInt8
  outCap : Nat
  ctx : Dctx

abbrev Z := EStateM Stop Stream

def Z.ofExcept {α : Type} : Except Stop α → Z α
  | .ok a => pure a
  | .error e => throw e

/-! ## Literals -/

def decodeLiterals (ctx : Dctx) (src : Ptr) (srcSize : Nat) : Except Stop (Dctx × Nat) := do
  if srcSize < 2 then throw .fail
  let type := (src 0).toNat % 4
  let lhl := (src 0).toNat / 4 % 4
  if type < 2 then
    let lhSize := if lhl = 1 then 2 else if lhl = 3 then 3 else 1
    let litSize :=
      if lhSize = 1 then (src 0).toNat / 8
      else if lhSize = 2 then rd16 src 0 / 16
      else rd24 src 0 / 16
    let total := lhSize + (if type = 1 then 1 else 0) + litSize
    if srcSize < lhSize + (if type = 1 then 1 else 0) then throw .fail
    if srcSize < total then throw .fail
    if zstdBlocksizeMax < litSize then throw .fail
    let lits :=
      if type = 0 then (src.add lhSize).take litSize else List.replicate litSize (src lhSize)
    return ({ ctx with litBuffer := lits }, total)
  else
    if type = 2 ∧ srcSize < 5 then throw .fail
    let singleStream := lhl == 0
    let lhc := rd32 src 0
    let (lhSize, litSize, litCSize) :=
      if lhl < 2 then (3, lhc / 2 ^ 4 % 2 ^ 10, lhc / 2 ^ 14 % 2 ^ 10)
      else if lhl = 2 then (4, lhc / 2 ^ 4 % 2 ^ 14, lhc / 2 ^ 18)
      else (5, lhc / 2 ^ 4 % 2 ^ 18, lhc / 2 ^ 22 + (src 4).toNat * 2 ^ 10)
    if type = 3 ∧ ctx.litEntropy = false then throw .fail
    if zstdBlocksizeMax < litSize then throw .fail
    if singleStream = false ∧ litSize < minLiteralsFor4Streams then throw .fail
    if srcSize < lhSize + litCSize then throw .fail
    let (hufTable, wDT, statsSize) ←
      if type = 2 then hufReadDtable ctx.hufTable ctx.wDT (src.add lhSize) litCSize
      else pure (ctx.hufTable, ctx.wDT, 0)
    let lits ← hufDecompress hufTable litSize (src.add (lhSize + statsSize)) (litCSize - statsSize)
      (!singleStream)
    return ({ ctx with litBuffer := lits, litEntropy := true, hufTable := hufTable, wDT := wDT },
      lhSize + litCSize)

/-! ## The header of the sequences -/

structure TblDef where
  max : Nat
  log : Nat
  defLog : Nat
  base : List Nat
  bits : List Nat
  defNorm : Norm

def llDef : TblDef where
  max := maxLL
  log := llFSELog
  defLog := llDefaultNormLog
  base := llBaseTbl
  bits := llBitsTbl
  defNorm := normAt llDefaultNorm fun _ => 0

variable (env : Env)

/-- The distribution for offsets has 29 entries, but 32 symbols are read. -/
def ofDef : TblDef where
  max := maxOff
  log := offFSELog
  defLog := ofDefaultNormLog
  base := ofBaseTbl
  bits := ofBitsTbl
  defNorm := normAt ofDefaultNorm env.behindOfNorm

def mlDef : TblDef where
  max := maxML
  log := mlFSELog
  defLog := mlDefaultNormLog
  base := mlBaseTbl
  bits := mlBitsTbl
  defNorm := normAt mlDefaultNorm fun _ => 0

def decodeSeqTable (d : TblDef) (entropy : Bool) (type : Nat) (table : SeqTable) (src : Ptr)
    (srcSize ip : Nat) : Except Stop (SeqTable × Nat) := do
  match type with
  | 0 =>
    let table ← buildSeqFse table d.defNorm d.max d.defLog d.base d.bits
    return (table, ip)
  | 1 =>
    if srcSize ≤ ip then throw .fail
    let sym := (src ip).toNat
    if d.max < sym then throw .fail
    return (buildSeqRle table (d.base.getD sym 0) (d.bits.getD sym 0), ip + 1)
  | 2 =>
    let hs ← fseReadNcount (src.add ip) (srcSize - ip) d.max
    if d.log < hs.tableLog then throw .fail
    let table ← buildSeqFse table hs.norm hs.maxSV hs.tableLog d.base d.bits
    return (table, ip + hs.consumed)
  | _ =>
    if entropy = false then throw .fail
    return (table, ip)

def decodeNbSeq (src : Ptr) (srcSize : Nat) : Except Stop (Nat × Nat) := do
  if srcSize < 1 then throw .fail
  let first := (src 0).toNat
  if first ≤ 0x7F then return (first, 1)
  else if first = 0xFF then
    if srcSize < 3 then throw .fail
    return (rd16 src 1 + longNbSeq, 3)
  else
    if srcSize ≤ 1 then throw .fail
    return ((first - 0x80) * 2 ^ 8 + (src 1).toNat, 2)

/-- The context with its tables, the number of sequences and the bytes consumed. -/
def decodeSeqHeaders (ctx : Dctx) (src : Ptr) (srcSize : Nat) : Except Stop (Dctx × Nat × Nat) := do
  let (nbSeq, ip) ← decodeNbSeq src srcSize
  if nbSeq = 0 then
    if ip ≠ srcSize then throw .fail
    return (ctx, 0, ip)
  if srcSize < ip + 1 then throw .fail
  let modes := (src ip).toNat
  if modes % 4 ≠ 0 then throw .fail
  let ip := ip + 1
  let entropy := ctx.fseEntropy
  let (llTable, ip) ← decodeSeqTable llDef entropy (modes / 64 % 4) ctx.llTable src srcSize ip
  let (ofTable, ip) ← decodeSeqTable (ofDef env) entropy (modes / 16 % 4) ctx.ofTable src srcSize ip
  let (mlTable, ip) ← decodeSeqTable mlDef entropy (modes / 4 % 4) ctx.mlTable src srcSize ip
  return ({ ctx with llTable := llTable, ofTable := ofTable, mlTable := mlTable,
                     fseEntropy := true }, nbSeq, ip)

/-! ## Output -/

/-- Double the capacity until there is room, in 64-bit arithmetic.  After 64 turns it
is zero and stays so. -/
def growCap (total : Nat) : Nat → Nat → Option Nat
  | fuel, ncap =>
    if total ≤ ncap then some ncap
    else
      match fuel with
      | 0 => none
      | fuel + 1 => growCap total fuel (2 * ncap % 2 ^ 64)

def outReserve (need : Nat) : Z Unit := do
  let s ← get
  let total := (s.out.length + need) % 2 ^ 64
  if total ≤ s.outCap then return ()
  match growCap total 64 (if s.outCap = 0 then 2 ^ 18 else s.outCap) with
  | none => throw .hang
  | some ncap =>
    if env.heap.buffer ncap = false then throw .fail
    set { s with outCap := ncap }

def emit (bytes : List UInt8) : Z Unit := modify fun s => { s with out := s.out ++ bytes }

/-- Copy byte by byte from `offset` back, so that a match may reach into itself. -/
def copyMatch (offset : Nat) : Nat → List UInt8 → List UInt8
  | 0, out => out
  | n + 1, out => copyMatch offset n (out ++ [out.getD (out.length - offset) 0])

structure Seq where
  litLength : Nat
  matchLength : Nat
  offset : Nat

/-- Execute a sequence on the literals left, and return the rest of them. -/
def execSeq (frameStart : Nat) (q : Seq) (lits : List UInt8) : Z (List UInt8) := do
  if lits.length < q.litLength then throw .fail
  outReserve env (q.litLength + q.matchLength)
  let s ← get
  let out := s.out ++ lits.take q.litLength
  if 0 < q.matchLength ∧ out.length - frameStart < q.offset then throw .fail
  set { s with out := copyMatch q.offset q.matchLength out }
  return lits.drop q.litLength

/-! ## Sequences -/

structure SeqState where
  b : Bitr
  prevOffset : Nat → Nat
  stLL : Nat
  stOF : Nat
  stML : Nat

/-- The offset of a sequence and the repeat offsets behind it. -/
def decodeOffset (of : SeqSym) (litBase : Nat) (b : Bitr) (prev : Nat → Nat) :
    Nat × Bitr × (Nat → Nat) :=
  let ll0 := if litBase = 0 then 1 else 0
  if 1 < of.nbAdditionalBits then
    let (v, b) := brRead b of.nbAdditionalBits
    let offset := of.baseValue + v
    (offset, b,
      update (update (update prev 2 (prev 1)) 1 (prev 0)) 0 (offset % 2 ^ 32))
  else if of.nbAdditionalBits = 0 then
    let offset := prev ll0
    (offset, b, update (update prev 1 (prev (1 - ll0))) 0 offset)
  else
    let (v, b) := brRead b 1
    let code := of.baseValue + ll0 + v
    let temp := if code = 3 then (prev 0 + (2 ^ 32 - 1)) % 2 ^ 32 else prev code
    let offset := if temp = 0 then 2 ^ 64 - 1 else temp
    let prev := if code ≠ 1 then update prev 2 (prev 1) else prev
    (offset, b, update (update prev 1 (prev 0)) 0 (offset % 2 ^ 32))

def readExtra (b : Bitr) (base nb : Nat) : Nat × Bitr :=
  if 0 < nb then
    let (v, b) := brRead b nb
    (base + v, b)
  else (base, b)

def decodeSequence (ctx : Dctx) (last : Bool) (st : SeqState) : Seq × SeqState :=
  let ll := ctx.llTable.cell st.stLL
  let ml := ctx.mlTable.cell st.stML
  let of := ctx.ofTable.cell st.stOF
  let (offset, b, prevOffset) := decodeOffset of ll.baseValue st.b st.prevOffset
  let (matchLength, b) := readExtra b ml.baseValue ml.nbAdditionalBits
  let b :=
    if 31 ≤ ll.nbAdditionalBits + ml.nbAdditionalBits + of.nbAdditionalBits then (brReload b).2
    else b
  let (litLength, b) := readExtra b ll.baseValue ll.nbAdditionalBits
  let q := { litLength := litLength, matchLength := matchLength, offset := offset }
  if last then (q, { st with b := b, prevOffset := prevOffset })
  else
    let (llLow, b) := brRead b ll.nbBits
    let (mlLow, b) := brRead b ml.nbBits
    let (ofLow, b) := brRead b of.nbBits
    (q,
      { b := (brReload b).2
        prevOffset := prevOffset
        stLL := ll.nextState + llLow
        stOF := of.nextState + ofLow
        stML := ml.nextState + mlLow })

def seqLoop (env : Env) (ctx : Dctx) (frameStart : Nat) :
    Nat → SeqState → List UInt8 → Z (SeqState × List UInt8)
  | 0, st, lits => return (st, lits)
  | n + 1, st, lits => do
    let (q, st) := decodeSequence ctx (n == 0) st
    let lits ← execSeq env frameStart q lits
    seqLoop env ctx frameStart n st lits

def decodeSequences (ctx : Dctx) (frameStart nbSeq : Nat) (src : Ptr) (size : Nat) :
    Z (List UInt8) := do
  match brInit src size with
  | none => throw .fail
  | some b =>
    match brReload b with
    | (.overflow, _) => throw .fail
    | (_, b) =>
      let (stLL, b) := brReadReload b (ctx.llTable.log % 256)
      let (stOF, b) := brReadReload b (ctx.ofTable.log % 256)
      let (stML, b) := brReadReload b (ctx.mlTable.log % 256)
      let st := { b := b, prevOffset := ctx.rep, stLL := stLL, stOF := stOF, stML := stML }
      let (st, lits) ← seqLoop env ctx frameStart nbSeq st ctx.litBuffer
      if brEnd st.b = false then throw .fail
      modify fun s => { s with ctx := { s.ctx with rep := st.prevOffset } }
      return lits

def decodeBlock (src : Ptr) (srcSize frameStart : Nat) : Z Unit := do
  let s ← get
  let (ctx, litConsumed) ← Z.ofExcept (decodeLiterals s.ctx src srcSize)
  let (ctx, nbSeq, hs) ←
    Z.ofExcept (decodeSeqHeaders env ctx (src.add litConsumed) (srcSize - litConsumed))
  modify fun s => { s with ctx := ctx }
  let consumed := litConsumed + hs
  let lits ←
    if 0 < nbSeq then
      decodeSequences env ctx frameStart nbSeq (src.add consumed) (srcSize - consumed)
    else pure ctx.litBuffer
  outReserve env lits.length
  emit lits

end Kil0yOS.Zstd
