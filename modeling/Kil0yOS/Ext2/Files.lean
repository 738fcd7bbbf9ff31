/-
The ext2 driver: directory entries, file contents and new nodes (kernel/fs/ext2.c).

A name is the list of its bytes, without the NUL.
-/
import Kil0yOS.Ext2.Device

namespace Kil0yOS.Ext2

open Lib

variable (m : Mount)

def ftRegFile : UInt8 := 1

def ftDir : UInt8 := 2

def zeros : Bytes := fun _ => 0

def direntMinLen (nameLen : Nat) : Nat := (8 + nameLen + 3) / 4 * 4

def copyBytes (dst : Bytes) (off : Nat) (src : List UInt8) : Bytes := fun j =>
  if off ≤ j ∧ j < off + src.length then src.getD (j - off) 0 else dst j

def direntPut (buf : Bytes) (off ino recLen : Nat) (name : List UInt8) (ftype : UInt8) : Bytes :=
  let nameLen := name.length % 256
  let buf := (buf.put32 off ino).put16 (off + 4) recLen
  let buf := (buf.set (off + 6) (UInt8.ofNat nameLen)).set (off + 7) ftype
  copyBytes buf (off + 8) (name.take nameLen)

structure Entry where
  name : List UInt8
  ino : Nat
  ftype : UInt8

def Entry.need (e : Entry) : Nat := direntMinLen e.name.length

/-- Walks the records of a directory block from `off` on to a dead one or to slack that
takes the entry, and puts it there.  A record has at least 8 bytes, so `blockSize`
steps reach the end of the block. -/
def direntInsert (e : Entry) (dbuf : Bytes) : Nat → Nat → Option Bytes
  | 0, _ => none
  | n + 1, off =>
    if off + 8 ≤ m.blockSize then
      let recLen := dbuf.get16 (off + 4)
      let mine := direntMinLen (dbuf (off + 6)).toNat
      if recLen < 8 then none
      else if dbuf.get32 off = 0 then
        if e.need ≤ recLen then some (direntPut dbuf off e.ino recLen e.name e.ftype)
        else direntInsert e dbuf n (off + recLen)
      else if mine + e.need ≤ recLen then
        some (direntPut (dbuf.put16 (off + 4) mine) (off + mine) e.ino (recLen - mine)
          e.name e.ftype)
      else direntInsert e dbuf n (off + recLen)
    else none

def direntScan (block : Nat → Nat) (e : Entry) : Nat → Nat → E Bool
  | 0, _ => pure false
  | n + 1, b => do
    let phys ← mBmap m block b
    if phys = 0 then direntScan block e n (b + 1)
    else
      match ← attempt (mReadBlock m phys) with
      | none => direntScan block e n (b + 1)
      | some dbuf =>
        match direntInsert m e dbuf m.blockSize 0 with
        | none => direntScan block e n (b + 1)
        | some dbuf' =>
          match ← attempt (mWriteBlock m phys dbuf') with
          | none => direntScan block e n (b + 1)
          | some () => pure true

variable (block : Nat → Nat)

def setSlot (i b : Nat) : Nat → Nat := fun j => if j = i then b else block j

/-- The directory's indirect block, made and zeroed when there is none. -/
def dirIndirect : E (Nat → Nat) :=
  if block 12 = 0 then do
    let ind ← mAllocBlock m
    mWriteBlock m ind zeros
    pure (setSlot block 12 ind)
  else pure block

/-- Enters block `nb` into a directory's map as logical block `bn`. -/
def dirLink (bn nb : Nat) : E (Nat → Nat) :=
  if bn < 12 then pure (setSlot block bn nb)
  else if bn - 12 < m.blockSize / 4 then do
    let block ← dirIndirect m block
    mIndSet m (block 12) (bn - 12) nb
    pure block
  else throw ()

/-- Appends a fresh block with the entry to a directory of `nblocks` blocks. -/
def dirAppend (dirIno : Nat) (dir : Inode) (nblocks : Nat) (e : Entry) : E Unit := do
  let nb ← mAllocBlock m
  mWriteBlock m nb (direntPut zeros 0 e.ino m.blockSize e.name e.ftype)
  let block ← dirLink m dir.block nblocks nb
  mWriteInode m dirIno { dir with size := (dir.size + m.blockSize) % 2 ^ 32, block := block }

def mAddDirent (dirIno : Nat) (e : Entry) : E Unit := do
  let dir ← mReadInode m dirIno
  require (dir.mode.testBit 14)
  require (1 ≤ e.name.length ∧ e.name.length ≤ 255)
  kmalloc
  kmalloc
  let nblocks := (dir.size + m.blockSize - 1) % 2 ^ 32 / m.blockSize
  let done ← direntScan m dir.block e nblocks 0
  if done then pure () else dirAppend m dirIno dir nblocks e

/-- The block behind entry `i` of an inode's map, taken from the bitmap when there is
none, and the map with it.  Nothing is written into the block. -/
def slotBlock (i : Nat) : E (Nat × (Nat → Nat)) :=
  if block i = 0 then do
    let b ← mAllocBlock m
    pure (b, setSlot block i b)
  else pure (block i, block)

/-- The block behind entry `idx` of an indirect block, taken from the bitmap when there
is none.  Nothing is written into the block. -/
def entryBlock (blk idx : Nat) : E Nat := do
  let phys ← mIndGet m blk idx
  if phys = 0 then do
    let b ← mAllocBlock m
    mIndSet m blk idx b
    pure b
  else pure phys

/-- The block of logical block `bn`, allocated with the indirect blocks that lead to it,
and the inode's map. -/
def writeBlockFor (bn : Nat) : E (Nat × (Nat → Nat)) :=
  let ppb := m.blockSize / 4
  if bn < 12 then slotBlock m block bn
  else if bn - 12 < ppb then do
    let (ind, block) ← slotBlock m block 12
    let phys ← entryBlock m ind (bn - 12)
    pure (phys, block)
  else if bn - 12 - ppb < ppb * ppb then do
    let (dind, block) ← slotBlock m block 13
    let l1blk ← entryBlock m dind ((bn - 12 - ppb) / ppb)
    let phys ← entryBlock m l1blk ((bn - 12 - ppb) % ppb)
    pure (phys, block)
  else throw ()

def padded (data : List UInt8) (off : Nat) : Bytes := fun i => data.getD (off + i) 0

def writeBlocks (data : List UInt8) : Nat → Nat → (Nat → Nat) → E (Nat → Nat)
  | 0, _, block => pure block
  | n + 1, bn, block => do
    let (phys, block) ← writeBlockFor m block bn
    mWriteBlock m phys (padded data (bn * m.blockSize))
    writeBlocks data n (bn + 1) block

def ext2WriteFile (ino : Nat) (data : List UInt8) : E Nat := do
  require (m.ready = true ∧ m.writable = true)
  let inode ← mReadInode m ino
  require (inode.mode.testBit 15)
  let nblocks := (data.length + m.blockSize - 1) / m.blockSize % 2 ^ 32
  kmalloc
  kmalloc
  kmalloc
  let block ← writeBlocks m data nblocks 0 inode.block
  mWriteInode m ino { inode with size := data.length % 2 ^ 32, block := block }
  pure data.length

def ext2CreateFile (dirIno : Nat) (name : List UInt8) : E Nat := do
  require (m.ready = true ∧ m.writable = true)
  require (1 ≤ name.length ∧ name.length ≤ 255)
  let ino ← mAllocInode m
  mWriteInode m ino { mode := 0x81A4, size := 0, block := fun _ => 0 }
  mAddDirent m dirIno { name := name, ino := ino, ftype := ftRegFile }
  pure ino

def ext2CreateDir (dirIno : Nat) (name : List UInt8) : E Nat := do
  require (m.ready = true ∧ m.writable = true)
  require (1 ≤ name.length ∧ name.length ≤ 255)
  let ino ← mAllocInode m
  let blk ← mAllocBlock m
  kmalloc
  let dbuf := direntPut zeros 0 ino 12 [0x2E] ftDir
  let dbuf := direntPut dbuf 12 dirIno (m.blockSize - 12) [0x2E, 0x2E] ftDir
  mWriteBlock m blk dbuf
  mWriteInode m ino { mode := 0x41ED, size := m.blockSize, block := setSlot (fun _ => 0) 0 blk }
  mAddDirent m dirIno { name := name, ino := ino, ftype := ftDir }
  pure ino

/-! ## Formatting and probing a device

The device is found and unmounted; what the log prints is left out.
-/

def maxGroups : Nat := 256

def superMagic : Nat := 0xEF53

def rootIno : Nat := 2

def lostFoundIno : Nat := 11

def lostFoundName : List UInt8 := [0x6C, 0x6F, 0x73, 0x74, 0x2B, 0x66, 0x6F, 0x75, 0x6E, 0x64]

def gdtBlocks (ngroups : Nat) : Nat := (ngroups * 32 + 1024 - 1) / 1024

def metaBase (ngroups g : Nat) : Nat := 2 + gdtBlocks ngroups + g * 258

def metaEnd (ngroups : Nat) : Nat := 2 + gdtBlocks ngroups + ngroups * 258

def groupTable (ngroups : Nat) (entry : Nat → Nat) : Nat → Nat := fun g =>
  if g < ngroups then entry g else 0

def mkfsMount (sectorCount : Nat) : Mount :=
  let blocksCount := sectorCount / 2
  let ngroups := (blocksCount + 8192 - 1) / 8192
  { writable := false
    ready := true
    inodesCount := ngroups * 2048
    blocksCount := blocksCount
    firstDataBlock := 1
    blocksPerGroup := 8192
    inodesPerGroup := 2048
    inodeSize := 128
    blockSize := 1024
    sectorsPerBlock := 2
    gdBlock := 2
    ngroups := ngroups
    bgBlockBitmap := groupTable ngroups fun g => metaBase ngroups g
    bgInodeBitmap := groupTable ngroups fun g => metaBase ngroups g + 1
    bgInodeTable := groupTable ngroups fun g => metaBase ngroups g + 2 }

variable (mk : Mount)

def mkfsZero : Nat → Nat → E Unit
  | 0, _ => pure ()
  | n + 1, b => do
    match ← attempt (mWriteBlock mk b zeros) with
    | none => pure ()
    | some () => mkfsZero n (b + 1)

def putGroup (gd : Bytes) (g : Nat) : Bytes :=
  let off := g * 32 % 1024
  ((gd.put32 off (mk.bgBlockBitmap g)).put32 (off + 4) (mk.bgInodeBitmap g)).put32 (off + 8)
    (mk.bgInodeTable g)

/-- Writes the descriptors of `n` groups from `g` on, a block at a time. -/
def mkfsGdt : Nat → Nat → Bytes → E Unit
  | 0, _, _ => pure ()
  | n + 1, g, gd =>
    if g + 1 = mk.ngroups ∨ (g + 1) * 32 % 1024 = 0 then do
      mWriteBlock mk (2 + g * 32 / 1024) (putGroup mk gd g)
      mkfsGdt n (g + 1) (if g + 1 < mk.ngroups then zeros else putGroup mk gd g)
    else mkfsGdt n (g + 1) (putGroup mk gd g)

/-- A bitmap with the bits below `n` set for which `used` holds. -/
def bitmapOf (used : Nat → Bool) (n : Nat) : Bytes :=
  (List.range n).foldl (fun bm i => if used i then setBit bm (i / 8) (i % 8) else bm) zeros

def mkfsBlockBitmap (g : Nat) : Bytes :=
  bitmapOf (fun i =>
    let b := mk.firstDataBlock + g * 8192 + i
    b ≥ mk.blocksCount || b < metaEnd mk.ngroups + 2) 8192

def mkfsInodeBitmap (g : Nat) : Bytes :=
  if g = 0 then bitmapOf (fun _ => true) lostFoundIno else zeros

def mkfsBitmaps (block : Nat → Nat) (bitmap : Nat → Bytes) : Nat → Nat → E Unit
  | 0, _ => pure ()
  | n + 1, g => do
    mWriteBlock mk (block g) (bitmap g)
    mkfsBitmaps block bitmap n (g + 1)

def mkfsRootDir : Bytes :=
  let zb := direntPut zeros 0 rootIno 12 [0x2E] ftDir
  let zb := direntPut zb 12 rootIno 12 [0x2E, 0x2E] ftDir
  direntPut zb 24 lostFoundIno (1024 - 24) lostFoundName ftDir

def mkfsLostFound : Bytes :=
  let zb := direntPut zeros 0 lostFoundIno 12 [0x2E] ftDir
  direntPut zb 12 rootIno (1024 - 12) [0x2E, 0x2E] ftDir

/-- A block of the inode table with one directory in it. -/
def mkfsDirInode (off block : Nat) : Bytes :=
  ((zeros.put16 off 0x41ED).put32 (off + 4) 1024).put32 (off + 40) block

def mkfsSuper : Bytes :=
  let sb := (zeros.put32 0 mk.inodesCount).put32 4 mk.blocksCount
  let sb := ((sb.put32 20 mk.firstDataBlock).put32 24 0).put32 32 mk.blocksPerGroup
  let sb := ((sb.put32 36 mk.blocksPerGroup).put32 40 mk.inodesPerGroup).put16 56 superMagic
  (((sb.put16 58 1).put32 76 1).put32 84 11).put16 88 mk.inodeSize

/-- Everything `ext2_mkfs` writes, `gd` being what the heap left in the descriptor
buffer. -/
def mkfsWrite (gd : Bytes) : E Unit := do
  mkfsZero mk (metaEnd mk.ngroups - 1) 1
  mkfsGdt mk mk.ngroups 0 gd
  mkfsBitmaps mk mk.bgBlockBitmap (mkfsBlockBitmap mk) mk.ngroups 0
  mkfsBitmaps mk mk.bgInodeBitmap mkfsInodeBitmap mk.ngroups 0
  mWriteBlock mk (metaEnd mk.ngroups) mkfsRootDir
  mWriteBlock mk (metaEnd mk.ngroups + 1) mkfsLostFound
  mWriteBlock mk (mk.bgInodeTable 0) (mkfsDirInode 128 (metaEnd mk.ngroups))
  mWriteBlock mk (mk.bgInodeTable 0 + 1) (mkfsDirInode 256 (metaEnd mk.ngroups + 1))
  mWriteBlock mk 1 (mkfsSuper mk)

def ext2Mkfs (gd : Bytes) : E Unit := do
  let mk := mkfsMount (← get).sectorCount
  require (16384 ≤ (← get).sectorCount)
  require (mk.ngroups ≤ maxGroups)
  require (metaEnd mk.ngroups + 2 < mk.blocksCount)
  kmalloc
  kmalloc
  kmalloc
  kmalloc
  kmalloc
  mkfsWrite mk gd

/-- Block `blk` of the descriptor table, from the buffer `gb` if it holds it. -/
def descBlock (m : Mount) (cur : Nat) (gb : Bytes) (blk : Nat) : E Bytes :=
  if cur = blk then pure gb else mReadBlock m blk

/-- Reads the descriptors of `n` groups from `g` on into `m`; `cur` is the block in the
buffer `gb`. -/
def probeGroups : Nat → Nat → Nat → Bytes → Mount → E Mount
  | 0, _, _, _, m => pure m
  | n + 1, g, cur, gb, m => do
    let blk := (m.gdBlock + g * 32 / m.blockSize) % 2 ^ 32
    let off := g * 32 % m.blockSize
    let gb ← descBlock m cur gb blk
    probeGroups n (g + 1) blk gb
      { m with
        bgBlockBitmap := setSlot m.bgBlockBitmap g (gb.get32 off)
        bgInodeBitmap := setSlot m.bgInodeBitmap g (gb.get32 (off + 4))
        bgInodeTable := setSlot m.bgInodeTable g (gb.get32 (off + 8)) }

def probeSuper (buf : Bytes) : Mount :=
  let blocksCount := buf.get32 4
  let blocksPerGroup := buf.get32 32
  let inodesCount := buf.get32 0
  let inodesPerGroup := buf.get32 40
  let blockSize := 1024 * 2 ^ buf.get32 24
  { writable := false
    ready := false
    inodesCount := inodesCount
    blocksCount := blocksCount
    firstDataBlock := buf.get32 20
    blocksPerGroup := blocksPerGroup
    inodesPerGroup := inodesPerGroup
    inodeSize := if buf.get32 76 ≥ 1 then buf.get16 88 else 128
    blockSize := blockSize
    sectorsPerBlock := blockSize / 512
    gdBlock := (buf.get32 20 + 1) % 2 ^ 32
    ngroups := max ((blocksCount + blocksPerGroup - 1) % 2 ^ 32 / blocksPerGroup)
      ((inodesCount + inodesPerGroup - 1) % 2 ^ 32 / inodesPerGroup)
    bgBlockBitmap := fun _ => 0
    bgInodeBitmap := fun _ => 0
    bgInodeTable := fun _ => 0 }

/-- Probes the device; `gb` is what the heap left in the descriptor buffer. -/
def ext2ProbeM (gb : Bytes) (writable : Bool) : E Mount := do
  let buf ← blkdevRead 2 1
  let m := probeSuper buf
  require (buf.get16 56 = superMagic)
  require (buf.get32 24 ≤ 6)
  require (128 ≤ m.inodeSize)
  require (m.blocksPerGroup ≠ 0 ∧ m.blocksPerGroup ≤ 8 * m.blockSize ∧ m.inodesPerGroup ≠ 0)
  require (m.ngroups ≤ maxGroups ∨ 2 ^ 31 ≤ m.ngroups)
  kmalloc
  let m ← probeGroups m.groups 0 (2 ^ 32 - 1) gb m
  pure { m with ready := true, writable := writable }

end Kil0yOS.Ext2
