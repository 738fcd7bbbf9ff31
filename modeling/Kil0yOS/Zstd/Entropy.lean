/-
The entropy decoders of `pkg/zstd.c`: FSE distributions and tables, and Huffman
tables and streams.

Tables are functions from cells to entries, and a table built over an old one keeps
what it does not overwrite.  A loop of the source that is not a counted one gets as
many turns as it can ever take, and `hang` stands for more.
-/
import Kil0yOS.Zstd.BitReader

namespace Kil0yOS.Zstd

open List Function

/-! ## FSE distributions -/

/-- Normalised counts by symbol; -1 is a symbol of low probability. -/
abbrev Norm := Nat → Int

def fseMinTableLog : Nat := 5
def fseTableLogAbsoluteMax : Nat := 15

def toInt16 (x : Int) : Int := (x + 32768) % 65536 - 32768

/-- The variables of the loop of `fse_read_ncount`. -/
structure NCount where
  ip : Nat
  bitStream : Nat
  bitCount : Int
  charnum : Nat
  remaining : Int
  threshold : Int
  nbBits : Int
  previous0 : Bool
  norm : Norm

/-- The number of two-bit codes 11 at the low end of the stream. -/
def repeats (bitStream : Nat) : Nat := zCtz32 ((2 ^ 32 - 1 - bitStream) ||| 0x80000000) / 2

section
variable (src : Ptr) (srcSize : Nat)

/-- Go to the byte the next bits begin in, or to the last four bytes. -/
def NCount.advance (st : NCount) : NCount :=
  if st.ip + 7 ≤ srcSize ∨ (st.ip : Int) + st.bitCount / 8 ≤ (srcSize : Int) - 4 then
    let ip := st.ip + (st.bitCount / 8).toNat
    let bitCount := st.bitCount % 8
    { st with ip := ip, bitCount := bitCount, bitStream := rd32 src ip / 2 ^ bitCount.toNat }
  else
    let ip := srcSize - 4
    let bitCount := (st.bitCount - 8 * ((srcSize : Int) - 4 - st.ip)) % 32
    { st with ip := ip, bitCount := bitCount, bitStream := rd32 src ip / 2 ^ bitCount.toNat }

/-- The turns that skip 36 symbols at a time. -/
def skipRepeats (fuel : Nat) (st : NCount) : Except Stop NCount :=
  if repeats st.bitStream < 12 then .ok st
  else
    match fuel with
    | 0 => .error .hang
    | fuel + 1 =>
      if st.ip + 7 ≤ srcSize then
        let ip := st.ip + 3
        skipRepeats fuel
          { st with
            charnum := st.charnum + 36
            ip := ip
            bitStream := rd32 src ip / 2 ^ st.bitCount.toNat }
      else
        let ip := srcSize - 4
        let bitCount := (st.bitCount - 8 * ((srcSize : Int) - 7 - st.ip)) % 32
        skipRepeats fuel
          { st with
            charnum := st.charnum + 36
            ip := ip
            bitCount := bitCount
            bitStream := rd32 src ip / 2 ^ bitCount.toNat }

/-- The symbols with count zero behind one with count zero.  True ends the loop. -/
def zeroRun (maxSV1 : Nat) (st : NCount) : Except Stop (NCount × Bool) :=
  match skipRepeats src srcSize (srcSize + 8) st with
  | .error e => .error e
  | .ok st =>
    let n := repeats st.bitStream
    let bitStream := st.bitStream / 2 ^ (2 * n)
    let st := { st with
      charnum := st.charnum + 3 * n + bitStream % 4
      bitStream := bitStream
      bitCount := st.bitCount + 2 * n + 2 }
    if maxSV1 ≤ st.charnum then .ok (st, true) else .ok (st.advance src srcSize, false)

/-- The count of one symbol.  True ends the loop. -/
def countStep (maxSV1 : Nat) (st : NCount) : NCount × Bool :=
  let max := 2 * st.threshold - 1 - st.remaining
  let low := (st.bitStream : Int) % st.threshold
  let high := (st.bitStream : Int) % (2 * st.threshold)
  let count := (if low < max then low else if st.threshold ≤ high then high - max else high) - 1
  let bitCount := st.bitCount + if low < max then st.nbBits - 1 else st.nbBits
  let remaining := st.remaining - count.natAbs
  let st := { st with
    bitCount := bitCount
    remaining := remaining
    norm := update st.norm st.charnum (toInt16 count)
    charnum := st.charnum + 1
    previous0 := decide (count = 0) }
  if remaining < st.threshold ∧ remaining ≤ 1 then (st, true)
  else
    let st :=
      if remaining < st.threshold then
        { st with
          nbBits := zHighbit32 remaining.toNat + 1
          threshold := 2 ^ zHighbit32 remaining.toNat }
      else st
    if maxSV1 ≤ st.charnum then (st, true) else (st.advance src srcSize, false)

def ncountLoop (maxSV1 : Nat) : Nat → NCount → Except Stop NCount
  | 0, _ => .error .hang
  | fuel + 1, st =>
    match if st.previous0 then zeroRun src srcSize maxSV1 st else .ok (st, false) with
    | .error e => .error e
    | .ok (st, true) => .ok st
    | .ok (st, false) =>
      match countStep src srcSize maxSV1 st with
      | (st, true) => .ok st
      | (st, false) => ncountLoop maxSV1 fuel st

/-- What `fse_read_ncount` returns: the bytes consumed, and through its pointers the
rest. -/
structure NCountResult where
  norm : Norm
  maxSV : Nat
  tableLog : Nat
  consumed : Nat

def fseReadNcount (maxSV : Nat) : Except Stop NCountResult :=
  if srcSize < 4 then .error .fail
  else
    let word := rd32 src 0
    let tableLog := word % 16 + fseMinTableLog
    if fseTableLogAbsoluteMax < tableLog then .error .fail
    else
      let maxSV1 := maxSV + 1
      match ncountLoop src srcSize maxSV1 maxSV1
        { ip := 0
          bitStream := word / 16
          bitCount := 4
          charnum := 0
          remaining := 2 ^ tableLog + 1
          threshold := 2 ^ tableLog
          nbBits := tableLog + 1
          previous0 := false
          norm := fun _ => 0 } with
      | .error e => .error e
      | .ok st =>
        if st.remaining ≠ 1 ∨ maxSV1 < st.charnum ∨ 32 < st.bitCount then .error .fail
        else
          let ip := st.ip + ((st.bitCount + 7) / 8).toNat
          if srcSize < ip then .error .fail
          else
            .ok { norm := st.norm, maxSV := st.charnum - 1, tableLog := tableLog, consumed := ip }

end

/-! ## FSE tables -/

def fseStep (tableSize : Nat) : Nat := tableSize / 2 + tableSize / 8 + 3

/-- Which symbol a cell holds, and the next state number of each symbol. -/
structure Spread where
  symbol : Nat → Nat
  symbolNext : Nat → Nat
  highThreshold : Nat

/-- The cells at the top end for symbols of low probability.  Only
`fse_build_dtable` looks for counts below -1. -/
def lowProbCells (checked : Bool) (norm : Norm) (sp : Spread) (s : Nat) : Except Stop Spread :=
  if norm s = -1 then
    .ok
      { symbol := update sp.symbol sp.highThreshold s
        symbolNext := update sp.symbolNext s 1
        highThreshold := (sp.highThreshold + (2 ^ 32 - 1)) % 2 ^ 32 }
  else if checked && decide (norm s < 0) then .error .fail
  else
    .ok { sp with symbolNext := update sp.symbolNext s (norm s % 65536).toNat }

def nextPosition (tableSize highThreshold : Nat) : Nat → Nat → Except Stop Nat
  | fuel, position =>
    if highThreshold < position then
      match fuel with
      | 0 => .error .hang
      | fuel + 1 =>
        nextPosition tableSize highThreshold fuel ((position + fseStep tableSize) % tableSize)
    else .ok position

def placeSymbol (tableSize s : Nat) (sp : Spread × Nat) (_ : Nat) : Except Stop (Spread × Nat) :=
  match nextPosition tableSize sp.1.highThreshold tableSize
    ((sp.2 + fseStep tableSize) % tableSize) with
  | .error e => .error e
  | .ok position => .ok ({ sp.1 with symbol := update sp.1.symbol sp.2 s }, position)

def spreadSymbols (checked : Bool) (symbol : Nat → Nat) (norm : Norm) (maxSV tableLog : Nat) :
    Except Stop Spread := do
  let tableSize := 2 ^ tableLog
  let sp ← (range (maxSV + 1)).foldlM (lowProbCells checked norm)
    { symbol := symbol, symbolNext := fun _ => 0, highThreshold := tableSize - 1 }
  let (sp, position) ← (range (maxSV + 1)).foldlM
    (fun sp s => (range (norm s).toNat).foldlM (placeSymbol tableSize s) sp) (sp, 0)
  if position ≠ 0 then throw .fail
  return sp

structure FseSym where
  symbol : Nat
  nbBits : Nat
  nextState : Nat

def numberCell (tableLog : Nat) (st : (Nat → Nat) × (Nat → FseSym)) (u : Nat) (sym : Nat) :
    (Nat → Nat) × (Nat → FseSym) :=
  let nextState := st.1 sym
  let nbBits := (tableLog + 256 - zHighbit32 nextState) % 256
  (update st.1 sym ((nextState + 1) % 65536),
    update st.2 u
      { symbol := sym
        nbBits := nbBits
        nextState := (nextState * 2 ^ nbBits + (2 ^ 32 - 2 ^ tableLog)) % 65536 })

def numberCells (tableLog : Nat) (sp : Spread) (dt : Nat → FseSym) : Nat → FseSym :=
  ((range (2 ^ tableLog)).foldl (fun st u => numberCell tableLog st u (sp.symbol u))
    (sp.symbolNext, dt)).2

def fseBuildDtable (dt : Nat → FseSym) (norm : Norm) (maxSV tableLog : Nat) :
    Except Stop (Nat → FseSym) := do
  let sp ← spreadSymbols true (fun u => (dt u).symbol) norm maxSV tableLog
  return numberCells tableLog sp dt

/-- Two interleaved states give a symbol each in turn.  When the stream runs out the
other state gives one more. -/
def fseLoop (dt : Nat → FseSym) (outCap : Nat) :
    Nat → Nat → Nat → Bitr → List Nat → Except Stop (List Nat)
  | fuel, state1, state2, b, out =>
    if outCap < out.length + 2 then .error .fail
    else
      match fuel with
      | 0 => .error .hang
      | fuel + 1 =>
        let out := out ++ [(dt state1).symbol]
        let (v, b) := brRead b (dt state1).nbBits
        let state1 := (dt state1).nextState + v
        match brReload b with
        | (.overflow, _) => .ok (out ++ [(dt state2).symbol])
        | (_, b) =>
          let out := out ++ [(dt state2).symbol]
          let (v, b) := brRead b (dt state2).nbBits
          let state2 := (dt state2).nextState + v
          match brReload b with
          | (.overflow, _) => .ok (out ++ [(dt state1).symbol])
          | (_, b) => fseLoop dt outCap fuel state1 state2 b out

/-- The symbols and the table they were decoded with. -/
def fseDecompress (dt : Nat → FseSym) (outCap : Nat) (src : Ptr) (srcSize : Nat) :
    Except Stop (List Nat × (Nat → FseSym)) := do
  let hdr ← fseReadNcount src srcSize 255
  if 11 < hdr.tableLog then throw .fail
  let dt ← fseBuildDtable dt hdr.norm hdr.maxSV hdr.tableLog
  match brInit (src.add hdr.consumed) (srcSize - hdr.consumed) with
  | none => throw .fail
  | some b =>
    match brReload b with
    | (.overflow, _) => throw .fail
    | (_, b) =>
      let (state1, b) := brReadReload b hdr.tableLog
      let (state2, b) := brReadReload b hdr.tableLog
      let out ← fseLoop dt outCap outCap state1 state2 b []
      return (out, dt)

/-! ## Tables for sequences -/

structure SeqSym where
  nextState : Nat
  nbAdditionalBits : Nat
  nbBits : Nat
  baseValue : Nat

/-- A sequence table.  The source keeps the logarithm in a header cell. -/
structure SeqTable where
  log : Nat
  cell : Nat → SeqSym

def buildSeqFse (dt : SeqTable) (norm : Norm) (maxSV tableLog : Nat)
    (baseValue nbAddBits : List Nat) : Except Stop SeqTable := do
  let sp ← spreadSymbols false (fun u => (dt.cell u).baseValue) norm maxSV tableLog
  let cells := numberCells tableLog sp fun _ => { symbol := 0, nbBits := 0, nextState := 0 }
  return {
    log := tableLog
    cell := fun u =>
      if u < 2 ^ tableLog then
        { nextState := (cells u).nextState
          nbAdditionalBits := nbAddBits.getD (cells u).symbol 0
          nbBits := (cells u).nbBits
          baseValue := baseValue.getD (cells u).symbol 0 }
      else dt.cell u }

def buildSeqRle (dt : SeqTable) (baseValue nbAddBits : Nat) : SeqTable where
  log := 0
  cell := update dt.cell 0
    { nextState := 0, nbAdditionalBits := nbAddBits, nbBits := 0, baseValue := baseValue }

/-! ## Huffman tables -/

def hufTableLogMax : Nat := 12

structure HufElt where
  byte : UInt8
  nbBits : Nat

structure HufTable where
  log : Nat
  elt : Nat → HufElt

/-- The weights of all symbols, what they give for the table, and the bytes
consumed. -/
structure HufStats where
  weights : List Nat
  rankStats : Nat → Nat
  tableLog : Nat
  consumed : Nat

def countWeight (st : (Nat → Nat) × Nat) (w : Nat) : Except Stop ((Nat → Nat) × Nat) :=
  if hufTableLogMax < w then .error .fail
  else .ok (update st.1 w (st.1 w + 1), st.2 + 2 ^ w / 2)

/-- The weights as they stand in the description: packed in half bytes, or FSE
coded. -/
def readWeights (wDT : Nat → FseSym) (src : Ptr) (srcSize : Nat) :
    Except Stop (List Nat × Nat × (Nat → FseSym)) := do
  let iSize := (src 0).toNat
  if 128 ≤ iSize then
    let oSize := iSize - 127
    let iSize := (oSize + 1) / 2
    if srcSize < iSize + 1 then throw .fail
    if 256 ≤ oSize then throw .fail
    let weight := fun n =>
      if n % 2 = 0 then (src (1 + n / 2)).toNat / 16 else (src (1 + n / 2)).toNat % 16
    return ((range oSize).map weight, iSize, wDT)
  else
    if srcSize < iSize + 1 then throw .fail
    let (weights, wDT) ← fseDecompress wDT 255 (src.add 1) iSize
    return (weights, iSize, wDT)

def hufReadStats (wDT : Nat → FseSym) (src : Ptr) (srcSize : Nat) :
    Except Stop (HufStats × (Nat → FseSym)) := do
  if srcSize = 0 then throw .fail
  let (weights, iSize, wDT) ← readWeights wDT src srcSize
  let (rankStats, weightTotal) ← weights.foldlM countWeight (fun _ => 0, 0)
  if weightTotal = 0 then throw .fail
  let tableLog := zHighbit32 weightTotal + 1
  if hufTableLogMax < tableLog then throw .fail
  let rest := 2 ^ tableLog - weightTotal
  if 2 ^ zHighbit32 rest ≠ rest then throw .fail
  -- The last weight is the one that makes the sum a power of two.
  let lastWeight := zHighbit32 rest + 1
  let rankStats := update rankStats lastWeight (rankStats lastWeight + 1)
  if rankStats 1 < 2 ∨ rankStats 1 % 2 = 1 then throw .fail
  return ({ weights := weights ++ [lastWeight]
            rankStats := rankStats
            tableLog := tableLog
            consumed := iSize + 1 }, wDT)

/-- Where the symbols of each weight begin when all are sorted by weight. -/
def rankStarts (rankStats : Nat → Nat) (w : Nat) : Nat :=
  (range w).foldl (fun sum n => sum + rankStats n) 0

def sortSymbols (stats : HufStats) : Nat → Nat :=
  (stats.weights.zipIdx.foldl
    (fun (st : (Nat → Nat) × (Nat → Nat)) (wn : Nat × Nat) =>
      (update st.1 wn.1 (st.1 wn.1 + 1), update st.2 (st.1 wn.1) wn.2))
    (rankStarts stats.rankStats, fun _ => 0)).2

def fillCells (D : HufElt) (length : Nat) (st : (Nat → HufElt) × Nat) : (Nat → HufElt) × Nat :=
  ((range length).foldl (fun dt u => update dt (st.2 + u) D) st.1, st.2 + length)

/-- The cells of all symbols of one weight; the last component is the next
symbol. -/
def fillWeight (stats : HufStats) (symbols : Nat → Nat) (st : (Nat → HufElt) × Nat × Nat) (w : Nat) :
    (Nat → HufElt) × Nat × Nat :=
  let (dt, uStart, symbolIdx) := st
  let count := stats.rankStats w
  let (dt, uStart) := (range count).foldl
    (fun st s =>
      fillCells { byte := UInt8.ofNat (symbols (symbolIdx + s)), nbBits := stats.tableLog + 1 - w }
        (2 ^ w / 2) st)
    (dt, uStart)
  (dt, uStart, symbolIdx + count)

def hufReadDtable (table : HufTable) (wDT : Nat → FseSym) (src : Ptr) (srcSize : Nat) :
    Except Stop (HufTable × (Nat → FseSym) × Nat) := do
  let (stats, wDT) ← hufReadStats wDT src srcSize
  let (elt, uStart, _) := (range stats.tableLog).foldl
    (fun st w => fillWeight stats (sortSymbols stats) st (w + 1))
    (table.elt, 0, stats.rankStats 0)
  if uStart ≠ 2 ^ stats.tableLog then throw .fail
  return ({ log := stats.tableLog, elt := elt }, wDT, stats.consumed)

/-! ## Huffman streams -/

def hufDecodeSym (dt : HufTable) (b : Bitr) : UInt8 × Bitr :=
  let D := dt.elt (brLook b dt.log)
  (D.byte, brSkip b D.nbBits)

def hufDecodeStream (dt : HufTable) : Nat → Bitr → List UInt8 × Bitr
  | 0, b => ([], b)
  | n + 1, b =>
    let (c, b) := hufDecodeSym dt b
    let (cs, b) := hufDecodeStream dt n (brReload b).2
    (c :: cs, b)

/-- One stream that must be used up. -/
def hufStream (dt : HufTable) (src : Ptr) (size n : Nat) : Except Stop (List UInt8) :=
  match brInit src size with
  | none => .error .fail
  | some b =>
    let (cs, b) := hufDecodeStream dt n b
    if brEnd b then .ok cs else .error .fail

def hufDecompress (dt : HufTable) (dstSize : Nat) (cSrc : Ptr) (cSrcSize : Nat)
    (fourStreams : Bool) : Except Stop (List UInt8) := do
  if fourStreams = false then
    hufStream dt cSrc cSrcSize dstSize
  else
    if cSrcSize < 10 ∨ dstSize < 6 then throw .fail
    let l1 := rd16 cSrc 0
    let l2 := rd16 cSrc 2
    let l3 := rd16 cSrc 4
    if cSrcSize < l1 + l2 + l3 + 6 then throw .fail
    let l4 := cSrcSize - (l1 + l2 + l3 + 6)
    let seg := (dstSize + 3) / 4
    if dstSize < 3 * seg then throw .fail
    let o1 ← hufStream dt (cSrc.add 6) l1 seg
    let o2 ← hufStream dt (cSrc.add (6 + l1)) l2 seg
    let o3 ← hufStream dt (cSrc.add (6 + l1 + l2)) l3 seg
    let o4 ← hufStream dt (cSrc.add (6 + l1 + l2 + l3)) l4 (dstSize - 3 * seg)
    return o1 ++ o2 ++ o3 ++ o4

end Kil0yOS.Zstd
