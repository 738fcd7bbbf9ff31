/-
The ext2 driver: block device, bitmaps, inodes and block maps (kernel/fs/ext2.c).

The device is its bytes, and the order in which requests to it and to the kernel heap
are refused is left open.  What was written before a refused request stays written.
-/
import Kil0yOS.Lib.Bytes
import Kil0yOS.Lib.Triple

namespace Kil0yOS.Ext2

open Lib

structure Mount where
  writable : Bool
  ready : Bool
  inodesCount : Nat
  blocksCount : Nat
  firstDataBlock : Nat
  blocksPerGroup : Nat
  inodesPerGroup : Nat
  inodeSize : Nat
  blockSize : Nat
  sectorsPerBlock : Nat
  gdBlock : Nat
  ngroups : Nat
  bgBlockBitmap : Nat → Nat
  bgInodeBitmap : Nat → Nat
  bgInodeTable : Nat → Nat

/-- How many groups a loop with a signed counter visits: `ngroups` is an int. -/
def Mount.groups (m : Mount) : Nat := if m.ngroups < 2 ^ 31 then m.ngroups else 0

/-- A block device, the requests, in order, that fail from now on, and what the heap holds
behind a block buffer. -/
structure Device where
  sectorCount : Nat
  bytes : Bytes
  fails : Nat → Bool
  behind : Bytes

/-- A driver function: an error stands for -1, 0 or NULL in the source. -/
abbrev E := EStateM Unit Device

def Device.tick (d : Device) : Device := { d with fails := fun n => d.fails (n + 1) }

def kmalloc : E Unit := fun d => if d.fails 0 then .error () d.tick else .ok () d.tick

def require (p : Prop) [Decidable p] : E Unit := if p then pure () else throw ()

def Device.inside (d : Device) (lba count : Nat) : Bool :=
  count ≠ 0 && lba < d.sectorCount && count ≤ d.sectorCount - lba

def blkdevRead (lba count : Nat) : E Bytes := fun d =>
  if d.inside lba count then
    if d.fails 0 then .error () d.tick else .ok (fun i => d.bytes (512 * lba + i)) d.tick
  else .error () d

/-- The device's bytes with `count` sectors from `lba` on replaced. -/
def Device.store (d : Device) (lba count : Nat) (buf : Bytes) : Bytes := fun a =>
  if 512 * lba ≤ a ∧ a < 512 * (lba + count) then buf (a - 512 * lba) else d.bytes a

def blkdevWrite (lba count : Nat) (buf : Bytes) : E Unit := fun d =>
  if d.inside lba count then
    if d.fails 0 then .error () d.tick
    else .ok () { d.tick with bytes := d.store lba count buf }
  else .error () d

variable (m : Mount)

def mReadBlock (block : Nat) : E Bytes :=
  blkdevRead (block * m.sectorsPerBlock % 2 ^ 32) m.sectorsPerBlock

def mWriteBlock (block : Nat) (buffer : Bytes) : E Unit :=
  blkdevWrite (block * m.sectorsPerBlock % 2 ^ 32) m.sectorsPerBlock buffer

/-- The lowest clear bit of a byte. -/
def clearBit (x : UInt8) : Option Nat := (List.range 8).find? fun bit => !x.toNat.testBit bit

def setBit (bm : Bytes) (byte bit : Nat) : Bytes := fun j =>
  if j = byte then UInt8.ofNat ((bm byte).toNat ||| 2 ^ bit) else bm j

/-- Scans `n` bytes of a bitmap from `byte` on.  `number` is the item of a bit, `none`
past the end of the file system. -/
def scanBitmap (bitmap : Nat) (number : Nat → Option Nat) : Nat → Nat → Bytes → E Nat
  | 0, _, _ => pure 0
  | n + 1, byte, bm =>
    match clearBit (bm byte) with
    | none => scanBitmap bitmap number n (byte + 1) bm
    | some bit =>
      match number (byte * 8 + bit) with
      | none => scanBitmap bitmap number n (byte + 1) bm
      | some item => do
        -- The bit stays set in the buffer when the write fails.
        match ← attempt (mWriteBlock m bitmap (setBit bm byte bit)) with
        | some () =>
          if item = 0 then scanBitmap bitmap number n (byte + 1) (setBit bm byte bit)
          else pure item
        | none => scanBitmap bitmap number n (byte + 1) (setBit bm byte bit)

def scanGroups (bitmap : Nat → Nat) (nbytes : Nat) (number : Nat → Nat → Option Nat) :
    Nat → Nat → E Nat
  | 0, _ => pure 0
  | n + 1, g => do
    match ← attempt (mReadBlock m (bitmap g)) with
    | none => pure 0
    | some bm =>
      let result ← scanBitmap m (bitmap g) (number g) nbytes 0 bm
      if result = 0 then scanGroups bitmap nbytes number n (g + 1) else pure result

def blockNumber (g i : Nat) : Option Nat :=
  let b := (m.firstDataBlock + g * m.blocksPerGroup + i) % 2 ^ 32
  if b ≥ m.blocksCount then none else some b

def inodeNumber (g idx : Nat) : Option Nat :=
  let ino := (g * m.inodesPerGroup + idx + 1) % 2 ^ 32
  if idx ≥ m.inodesPerGroup ∨ ino > m.inodesCount then none else some ino

def mAllocBlock : E Nat := do
  require (m.ready = true)
  kmalloc
  let result ← scanGroups m m.bgBlockBitmap m.blockSize (blockNumber m) m.groups 0
  require (result ≠ 0)
  pure result

def mAllocInode : E Nat := do
  require (m.ready = true)
  kmalloc
  let nbytes := (m.inodesPerGroup + 7) / 8
  let result ← scanGroups m m.bgInodeBitmap nbytes (inodeNumber m) m.groups 0
  require (result ≠ 0)
  pure result

/-- The fields of an inode that the driver reads and writes. -/
structure Inode where
  mode : Nat
  size : Nat
  block : Nat → Nat

/-- The block and the offset in it of inode `ino`. -/
def mInodeLocate (ino : Nat) : E (Nat × Nat) := do
  let n := (ino + 2 ^ 32 - 1) % 2 ^ 32
  let group := n / m.inodesPerGroup
  let index := n % m.inodesPerGroup
  require (group < m.ngroups)
  let byteOff := index * m.inodeSize % 2 ^ 32
  pure ((m.bgInodeTable group + byteOff / m.blockSize) % 2 ^ 32, byteOff % m.blockSize)

def inodeAt (buf : Bytes) (off : Nat) : Inode where
  mode := buf.get16 off
  size := buf.get32 (off + 4)
  block i := buf.get32 (off + 40 + 4 * i)

def mReadInode (ino : Nat) : E Inode := do
  require (m.ready = true ∧ 1 ≤ ino ∧ ino ≤ m.inodesCount)
  let (blk, off) ← mInodeLocate m ino
  kmalloc
  let buf ← mReadBlock m blk
  if off + 100 ≤ m.blockSize then pure (inodeAt buf off)
  else
    -- The fields run over the end of the buffer.
    let d ← get
    pure (inodeAt (fun i => if i < m.blockSize then buf i else d.behind i) off)

def putInode (buf : Bytes) (off : Nat) (i : Inode) : Bytes :=
  ((buf.put16 off i.mode).put32 (off + 4) i.size).putWords (off + 40) 15 i.block

def mWriteInode (ino : Nat) (i : Inode) : E Unit := do
  require (m.ready = true)
  let (blk, off) ← mInodeLocate m ino
  kmalloc
  let buf ← mReadBlock m blk
  mWriteBlock m blk (putInode buf off i)

/-- The block at index `idx` of an indirect block, 0 when there is none or it cannot be
read. -/
def mEntry (blk idx : Nat) : E Nat := do
  if blk = 0 then pure 0
  else
    match ← attempt (mReadBlock m blk) with
    | none => pure 0
    | some ibuf => pure (ibuf.get32 (idx * 4))

/-- The block that holds logical block `bn`, 0 for a hole. -/
def mBmap (block : Nat → Nat) (bn : Nat) : E Nat :=
  let ppb := m.blockSize / 4
  if bn < 12 then pure (block bn)
  else if bn - 12 < ppb then mEntry m (block 12) (bn - 12)
  else if bn - 12 - ppb < ppb * ppb then do
    let l1 ← mEntry m (block 13) ((bn - 12 - ppb) / ppb)
    mEntry m l1 ((bn - 12 - ppb) % ppb)
  else pure 0

def mIndGet (blk idx : Nat) : E Nat := do
  let ibuf ← mReadBlock m blk
  pure (ibuf.get32 (idx * 4))

def mIndSet (blk idx val : Nat) : E Unit := do
  let ibuf ← mReadBlock m blk
  mWriteBlock m blk (ibuf.put32 (idx * 4) val)

end Kil0yOS.Ext2
