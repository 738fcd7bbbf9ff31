/-
Reading a file, and what the file holds.

`m_bmap` answers 0 for a hole, for a block behind a pointer block that cannot be read and
for a block of the triply indirect range, and the read loop fills in zeros for all three.
So what the loop returns is the file's content whatever fails exactly when all that
is not zero is in the direct blocks.
-/
import Kil0yOS.Ext2.Layout

namespace Kil0yOS.Ext2

open Lib

variable (m : Mount)

/-- `copy` bytes of `src` at `offset`. -/
def putBlock (buffer : Bytes) (offset copy : Nat) (src : Bytes) : Bytes := fun j =>
  if offset ≤ j ∧ j < offset + copy then src (j - offset) else buffer j

def readBlocks (block : Nat → Nat) (size : Nat) : Nat → Nat → Nat → Bytes → E (Nat × Bytes)
  | 0, _, offset, buffer => pure (offset, buffer)
  | n + 1, b, offset, buffer =>
    if offset < size then do
      let copy := min m.blockSize (size - offset)
      let phys ← mBmap m block b
      if phys = 0 then
        readBlocks block size n (b + 1) (offset + copy) (putBlock buffer offset copy zeros)
      else
        match ← attempt (mReadBlock m phys) with
        | none => pure (offset, buffer)
        | some bbuf =>
          readBlocks block size n (b + 1) (offset + copy) (putBlock buffer offset copy bbuf)
    else pure (offset, buffer)

def ext2ReadFileM (ino size : Nat) (buffer : Bytes) : E (Nat × Bytes) := do
  let inode ← mReadInode m ino
  let size := min size inode.size
  kmalloc
  kmalloc
  let nblocks := (size + m.blockSize - 1) % 2 ^ 32 / m.blockSize
  let r ← readBlocks m inode.block size nblocks 0 0 buffer
  -- From 2^31 on the count that is returned is negative.
  require (r.1 < 2 ^ 31)
  pure r

/-! ## What a file holds -/

/-- Block `x` lies in the device. -/
def InDevice (d : Device) (x : Nat) : Prop := (x + 1) * m.blockSize ≤ 512 * d.sectorCount
deriving Decidable

def blockBytes (B : Bytes) (x : Nat) : Bytes := fun i => B (x * m.blockSize + i)

/-- No pointer, where the block of pointers is not in the device. -/
def pointerIn (d : Device) (x i : Nat) : Option Nat :=
  if x = 0 then some 0
  else if InDevice m d x then some ((blockBytes m d.bytes x).get32 (i * 4))
  else none

/-- The block of logical block `bn`, 0 for a hole. -/
def fileBlock (d : Device) (block : Nat → Nat) (bn : Nat) : Option Nat :=
  let ppb := m.blockSize / 4
  let pointer := pointerIn m d
  if bn < 12 then some (block bn)
  else if bn - 12 < ppb then pointer (block 12) (bn - 12)
  else if bn - 12 - ppb < ppb * ppb then do
    let l1 ← pointer (block 13) ((bn - 12 - ppb) / ppb)
    pointer l1 ((bn - 12 - ppb) % ppb)
  else do
    let r := bn - 12 - ppb - ppb * ppb
    let l1 ← pointer (block 14) (r / (ppb * ppb))
    let l2 ← pointer l1 (r / ppb % ppb)
    pointer l2 (r % ppb)

/-- A byte of the file, if the blocks that lead to it are in the device. -/
def content (d : Device) (block : Nat → Nat) (k : Nat) : Option UInt8 := do
  let b ← fileBlock m d block (k / m.blockSize)
  if b = 0 then some 0
  else if InDevice m d b then some (blockBytes m d.bytes b (k % m.blockSize))
  else none

/-- Inode `ino` as it lies in the device, with the fields the driver uses in one block. -/
structure InodeIn (d : Device) (ino : Nat) (inode : Inode) : Prop where
  ready : m.ready = true
  number : 1 ≤ ino ∧ ino ≤ m.inodesCount
  place : ∃ x off, mInodeLocate m ino d = .ok (x, off) d ∧ InDevice m d x ∧
    off + 100 ≤ m.blockSize ∧ inode = inodeAt (blockBytes m d.bytes x) off

/-- Whatever fails, the bytes that the call reports are those of the file. -/
def ReadsTrue (d : Device) (ino size : Nat) (inode : Inode) : Prop :=
  ∀ fails buffer r d', ext2ReadFileM m ino size buffer { d with fails := fails } = .ok r d' →
    r.1 ≤ inode.size ∧ ∀ k < r.1, content m d inode.block k = some (r.2 k)

/-- The test that `blkdev_read` makes.  The number of the sector is cut to 32 bits before. -/
def Reads (d : Device) (x : Nat) : Prop :=
  d.inside (x * m.sectorsPerBlock % 2 ^ 32) m.sectorsPerBlock = true

def Passed (d : Device) (x : Nat) : Prop := x = 0 ∨ Reads m d x

/-- Of the bytes that the loop comes to by the direct blocks alone, those in them are in the
device, and those behind them are zero. -/
def DirectOnly (d : Device) (block : Nat → Nat) (size : Nat) : Prop :=
  ∀ k < size, (∀ b < 12, b ≤ k / m.blockSize → Passed m d (block b)) →
    if k / m.blockSize < 12 then block (k / m.blockSize) = 0 ∨ InDevice m d (block (k / m.blockSize))
    else content m d block k = some 0

/-- Block sizes as the probe makes them. -/
structure Mount.Sized (m : Mount) : Prop where
  sectors : m.blockSize = 512 * m.sectorsPerBlock
  pos : 0 < m.blockSize
  le : m.blockSize ≤ 65536

variable {m} {d d₀ : Device} {block : Nat → Nat} {size b k x i offset : Nat} {buffer : Bytes}

/-! ## Answers of the block map -/

/-- The image of `d₀`. -/
abbrev Shows (d₀ : Device) : Device → Prop := On d₀.sectorCount (· = d₀.bytes)

section Images

variable (hm : m.Sized) (hn : d₀.sectorCount ≤ 2 ^ 32)
include hm hn

theorem InDevice.sector (hx : InDevice m d₀ x) :
    512 * (x * m.sectorsPerBlock % 2 ^ 32) = x * m.blockSize ∧ Reads m d₀ x := by
  have hpos := hm.pos
  unfold InDevice at hx
  rw [hm.sectors] at hx hpos
  rw [Nat.succ_mul, Nat.mul_left_comm] at hx
  rw [Reads, hm.sectors, Nat.mod_eq_of_lt (by omega)]
  refine ⟨Nat.mul_left_comm .., ?_⟩
  simp only [Device.inside, Bool.and_eq_true, decide_eq_true_eq]
  omega

theorem mReadBlock_shows (x : Nat) :
    Triple (Shows d₀) (mReadBlock m x) (fun buf d => (Reads m d₀ x ∧
      (InDevice m d₀ x → buf = blockBytes m d₀.bytes x)) ∧ Shows d₀ d) (Shows d₀) := by
  rintro d ⟨hd, hB⟩
  have hin : d.inside (x * m.sectorsPerBlock % 2 ^ 32) m.sectorsPerBlock =
      d₀.inside (x * m.sectorsPerBlock % 2 ^ 32) m.sectorsPerBlock := by
    simp [Device.inside, hd]
  unfold mReadBlock blkdevRead
  rw [hin]
  cases h : d₀.inside (x * m.sectorsPerBlock % 2 ^ 32) m.sectorsPerBlock with
  | false => exact ⟨hd, hB⟩
  | true =>
    cases d.fails 0 with
    | true => exact ⟨hd, hB⟩
    | false =>
      refine ⟨⟨h, fun hx => ?_⟩, hd, hB⟩
      rw [(hx.sector hm hn).1, hB]
      rfl

theorem mEntry_shows (x i : Nat) :
    Triple (Shows d₀) (mEntry m x i)
      (fun r d => (∀ p, pointerIn m d₀ x i = some p → r = 0 ∨ r = p) ∧ Shows d₀ d)
      fun _ => False := by
  refine .ite (fun _ => .pure fun d hd => ⟨fun _ _ => .inl rfl, hd⟩) fun hx => ?_
  refine (mReadBlock_shows hm hn x).attempt.bind ?_
  rintro (_ | buf)
  · exact .pure fun d hd => ⟨fun _ _ => .inl rfl, hd⟩
  refine .of_fact fun h => .pure fun d hd => ⟨fun p hp => .inr ?_, hd⟩
  rw [pointerIn, if_neg hx] at hp
  split at hp
  · next hin =>
    rw [h.2 hin]
    exact Option.some.inj hp
  · cases hp

theorem mBmap_shows (block : Nat → Nat) (bn : Nat) :
    Triple (Shows d₀) (mBmap m block bn) (fun r d => (∀ x, fileBlock m d₀ block bn = some x →
      r = 0 ∧ 12 ≤ bn ∨ r = x) ∧ Shows d₀ d) fun _ => False := by
  unfold mBmap fileBlock
  by_cases h12 : bn < 12
  · simp only [if_pos h12]
    exact .pure fun d hd => ⟨fun x hx => .inr (Option.some.inj hx), hd⟩
  have h12' : 12 ≤ bn := Nat.le_of_not_lt h12
  simp only [if_neg h12]
  by_cases h1 : bn - 12 < m.blockSize / 4
  · simp only [if_pos h1]
    exact (mEntry_shows hm hn _ _).post fun r d hr =>
      ⟨fun x hx => (hr.1 x hx).imp_left fun h => ⟨h, h12'⟩, hr.2⟩
  simp only [if_neg h1]
  by_cases h2 : bn - 12 - m.blockSize / 4 < m.blockSize / 4 * (m.blockSize / 4)
  · simp only [if_pos h2]
    refine (mEntry_shows hm hn _ _).bind fun l1 => .of_fact fun hl => ?_
    by_cases h0 : l1 = 0
    · simp only [h0, mEntry, if_true]
      exact .pure fun d hd => ⟨fun _ _ => .inl ⟨rfl, h12'⟩, hd⟩
    refine (mEntry_shows hm hn _ _).post fun r d hr => ⟨fun x hx => ?_, hr.2⟩
    obtain ⟨p, hp, hx⟩ := Option.bind_eq_some_iff.mp hx
    obtain rfl := (hl p hp).resolve_left h0
    exact (hr.1 x hx).imp_left fun h => ⟨h, h12'⟩
  · simp only [if_neg h2]
    exact .pure fun d hd => ⟨fun _ _ => .inl ⟨rfl, h12'⟩, hd⟩

/-! ## The loop -/

omit hm hn in
theorem content_of_mem (hb : b * m.blockSize ≤ i) (hi : i < (b + 1) * m.blockSize)
    (hx : fileBlock m d₀ block b = some x) :
    content m d₀ block i = if x = 0 then some 0 else if InDevice m d₀ x then
      some (blockBytes m d₀.bytes x (i - b * m.blockSize)) else none := by
  have hdiv : i / m.blockSize = b := Nat.div_eq_of_lt_le hb hi
  rw [content, Nat.mod_eq_sub_div_mul, hdiv, hx]
  rfl

omit hm hn in
/-- The block of the next byte, and that it is read from the device if it is read. -/
theorem DirectOnly.next (hd : DirectOnly m d₀ block size) (hlt : b * m.blockSize < size)
    (hbs : 0 < m.blockSize) (hread : ∀ c < b, c < 12 → Passed m d₀ (block c)) :
    ∃ x, fileBlock m d₀ block b = some x ∧ (x ≠ 0 → Reads m d₀ x → InDevice m d₀ x) := by
  have hk := hd _ hlt
  rw [Nat.mul_div_cancel b hbs] at hk
  by_cases h12 : b < 12
  · refine ⟨block b, if_pos h12, fun h0 hx => ?_⟩
    rw [if_pos h12] at hk
    refine (hk fun c hc hcb => ?_).resolve_left h0
    rcases Nat.lt_or_eq_of_le hcb with h | rfl
    · exact hread c h hc
    · exact .inr hx
  · rw [if_neg h12] at hk
    have hzero := hk fun c hc _ => hread c (by omega) hc
    obtain ⟨x, hx, -⟩ := Option.bind_eq_some_iff.mp hzero
    rw [Nat.mul_div_cancel b hbs] at hx
    refine ⟨x, hx, fun h0 _ => ?_⟩
    rw [content_of_mem (Nat.le_refl _) (by rw [Nat.succ_mul]; omega) hx, if_neg h0] at hzero
    by_contra hin
    rw [if_neg hin] at hzero
    cases hzero

theorem readBlocks_true (hd : DirectOnly m d₀ block size) (n : Nat)
    (hoff : offset = min (b * m.blockSize) size)
    (hbuf : ∀ k < offset, content m d₀ block k = some (buffer k))
    (hread : ∀ c < b, c < 12 → Passed m d₀ (block c)) :
    Triple (Shows d₀) (readBlocks m block size n b offset buffer) (fun r _ => r.1 ≤ size ∧
      ∀ k < r.1, content m d₀ block k = some (r.2 k)) fun _ => False := by
  induction n generalizing b offset buffer with
  | zero => exact .pure fun _ _ => ⟨by omega, hbuf⟩
  | succ n ih =>
    refine .ite (fun hlt => ?_) fun _ => .pure fun _ _ => ⟨by omega, hbuf⟩
    have hsucc : (b + 1) * m.blockSize = b * m.blockSize + m.blockSize := Nat.succ_mul ..
    obtain ⟨x, hx, hin⟩ := hd.next (by omega) hm.pos hread
    -- the next block with `src` in it
    have hnext : ∀ src : Bytes, (∀ i, b * m.blockSize ≤ i → i < (b + 1) * m.blockSize → i < size →
        content m d₀ block i = some (src (i - b * m.blockSize))) →
        ∀ k < offset + min m.blockSize (size - offset), content m d₀ block k =
          some (putBlock buffer offset (min m.blockSize (size - offset)) src k) := by
      intro src hsrc k hk
      unfold putBlock
      split
      · rw [hsrc k (by omega) (by omega) (by omega), show b * m.blockSize = offset by omega]
      · exact hbuf k (by omega)
    have hdirect : b < 12 → x = block b := fun h => Option.some.inj (hx.symm.trans (if_pos h))
    have hstep : (b < 12 → Passed m d₀ (block b)) → ∀ c < b + 1, c < 12 →
        Passed m d₀ (block c) := by
      intro hb c hc h12
      rcases Nat.lt_succ_iff_lt_or_eq.mp hc with h | rfl
      · exact hread c h h12
      · exact hb h12
    refine (mBmap_shows hm hn block b).bind fun phys => .of_fact fun hphys =>
      .ite (fun h0 => ?_) fun h0 => ?_
    · refine ih (by omega) (hnext zeros fun i h1 h2 h3 => ?_) (hstep fun h12 => .inl ?_)
      · have hdiv : i / m.blockSize = b := Nat.div_eq_of_lt_le h1 h2
        rcases hphys x hx with ⟨-, h12⟩ | h
        · have hi := hd i h3
          rw [hdiv, if_neg (Nat.not_lt.mpr h12)] at hi
          exact hi fun c hc _ => hread c (by omega) hc
        · rw [content_of_mem h1 h2 hx, if_pos (h.symm.trans h0)]
          rfl
      · rw [← hdirect h12, ← h0]
        exact ((hphys x hx).resolve_left fun h => by omega).symm
    · obtain rfl := (hphys x hx).resolve_left fun h => h0 h.1
      refine (mReadBlock_shows hm hn _).attempt.bind ?_
      rintro (_ | bbuf)
      · exact .pure fun _ _ => ⟨by omega, hbuf⟩
      refine .of_fact fun hbb => ih (by omega) (hnext bbuf fun i h1 h2 h3 => ?_)
        (hstep fun h12 => .inr (hdirect h12 ▸ hbb.1))
      rw [content_of_mem h1 h2 hx, if_neg h0, if_pos (hin h0 hbb.1), hbb.2 (hin h0 hbb.1)]

/-- What is read stays in the buffer. -/
theorem readBlocks_keeps (n : Nat) (hoff : offset ≤ size) (hk : k < offset) :
    Triple (Shows d₀) (readBlocks m block size n b offset buffer)
      (fun r _ => k < r.1 ∧ r.1 ≤ size ∧ r.2 k = buffer k) fun _ => False := by
  induction n generalizing b offset buffer with
  | zero => exact .pure fun _ _ => ⟨hk, hoff, rfl⟩
  | succ n ih =>
    refine .ite (fun hlt => ?_) fun _ => .pure fun _ _ => ⟨hk, hoff, rfl⟩
    have hput : ∀ copy src, putBlock buffer offset copy src k = buffer k :=
      fun copy src => if_neg (by omega)
    have hrest : ∀ src, Triple (Shows d₀) (readBlocks m block size n (b + 1)
        (offset + min m.blockSize (size - offset))
        (putBlock buffer offset (min m.blockSize (size - offset)) src))
        (fun r _ => k < r.1 ∧ r.1 ≤ size ∧ r.2 k = buffer k) fun _ => False := fun src => by
      rw [← hput (min m.blockSize (size - offset)) src]
      exact ih (by omega) (by omega)
    refine (mBmap_shows hm hn block b).bind fun phys => .of_fact fun _ =>
      .ite (fun _ => hrest zeros) fun _ => (mReadBlock_shows hm hn phys).attempt.bind ?_
    rintro (_ | bbuf)
    · exact .pure fun _ _ => ⟨hk, hoff, rfl⟩
    · exact .of_fact fun _ => hrest bbuf

end Images

/-! ## Pointer blocks that fail -/

/-- The image of `d₀`, where `c` more requests are granted. -/
def Granted (d₀ : Device) (c : Nat) (d : Device) : Prop :=
  Shows d₀ d ∧ ∀ i, d.fails i = decide (c ≤ i)

variable {c : Nat}

theorem Granted.tick (h : Granted d₀ (c + 1) d) : Granted d₀ c d.tick :=
  ⟨h.1, fun i => (h.2 (i + 1)).trans (by simp)⟩

theorem kmalloc_granted : Triple (Granted d₀ (c + 1)) kmalloc (fun _ => Granted d₀ c)
    fun _ => False := by
  intro d hd
  simp [kmalloc, hd.2 0, hd.tick]

theorem mReadBlock_granted (hx : Reads m d₀ x) :
    Triple (Granted d₀ (c + 1)) (mReadBlock m x)
      (fun buf d => buf = (fun i => d₀.bytes (512 * (x * m.sectorsPerBlock % 2 ^ 32) + i)) ∧
        Granted d₀ c d) fun _ => False := by
  intro d hd
  have hin : d.inside (x * m.sectorsPerBlock % 2 ^ 32) m.sectorsPerBlock := by
    rwa [Device.inside, hd.1.1]
  simp only [mReadBlock, blkdevRead, hin, hd.2 0, if_true]
  exact ⟨by rw [← hd.1.2], hd.tick⟩

theorem mReadBlock_refused (x : Nat) :
    Triple (Granted d₀ 0) (mReadBlock m x) (fun _ _ => False) (Granted d₀ 0) := by
  intro d hd
  have htick : Granted d₀ 0 d.tick := ⟨hd.1, fun i => (hd.2 (i + 1)).trans (by simp)⟩
  unfold mReadBlock blkdevRead
  rw [hd.2 0]
  cases d.inside (x * m.sectorsPerBlock % 2 ^ 32) m.sectorsPerBlock with
  | false => exact hd
  | true => exact htick

theorem mEntry_refused (x i : Nat) : Triple (Granted d₀ 0) (mEntry m x i)
    (fun r d => r = 0 ∧ Granted d₀ 0 d) fun _ => False := by
  refine .ite (fun _ => .pure fun d hd => ⟨rfl, hd⟩) fun hx => ?_
  refine (mReadBlock_refused x).attempt.bind ?_
  rintro (_ | buf)
  · exact .pure fun d hd => ⟨rfl, hd⟩
  · exact fun d hd => hd.elim

theorem mBmap_refused (hb : 12 ≤ b) : Triple (Granted d₀ 0) (mBmap m block b)
    (fun r d => r = 0 ∧ Granted d₀ 0 d) fun _ => False := by
  unfold mBmap
  rw [if_neg (by omega)]
  refine .ite (fun _ => mEntry_refused _ _) fun _ => .ite (fun _ => ?_) fun _ =>
    .pure fun d hd => ⟨rfl, hd⟩
  exact (mEntry_refused _ _).bind fun l1 => .of_fact fun _ => mEntry_refused _ _

/-- When the requests are refused behind the block of byte `k` or from block 12 on, the
loop comes to that byte nevertheless, and fills in a zero if it is not in a direct block. -/
theorem readBlocks_refused (hm : m.Sized) (hdev : d₀.sectorCount ≤ 2 ^ 32) (hk : k < size)
    (hread : ∀ b < 12, b ≤ k / m.blockSize → Passed m d₀ (block b)) (n : Nat)
    (hoff : offset = min (b * m.blockSize) size) (hn : size ≤ (b + n) * m.blockSize)
    (hbuf : 12 ≤ k / m.blockSize → k < offset → buffer k = 0) :
    ∃ c, (12 ≤ b → c = 0) ∧ Triple (Granted d₀ c) (readBlocks m block size n b offset buffer)
      (fun r _ => k < r.1 ∧ r.1 ≤ size ∧ (12 ≤ k / m.blockSize → r.2 k = 0)) fun _ => False := by
  induction n generalizing b offset buffer with
  | zero =>
    rw [Nat.add_zero] at hn
    exact ⟨0, fun _ => rfl, .pure fun _ _ => ⟨by omega, by omega, fun h12 => hbuf h12 (by omega)⟩⟩
  | succ n ih =>
    by_cases hdone : k < offset
    · refine ⟨0, fun _ => rfl, Triple.post (Triple.pre
        (readBlocks_keeps hm hdev (n + 1) (by omega) hdone) fun d hd => hd.1) fun r d hr => ?_⟩
      exact ⟨hr.1, hr.2.1, fun h12 => hr.2.2.trans (hbuf h12 hdone)⟩
    have hsucc : (b + 1) * m.blockSize = b * m.blockSize + m.blockSize := Nat.succ_mul ..
    have hb : b ≤ k / m.blockSize := (Nat.le_div_iff_mul_le hm.pos).mpr (by omega)
    unfold readBlocks
    simp only [if_pos (show offset < size by omega)]
    have hnext : ∀ src : Bytes, (12 ≤ b → src = zeros) → 12 ≤ k / m.blockSize →
        k < offset + min m.blockSize (size - offset) →
        putBlock buffer offset (min m.blockSize (size - offset)) src k = 0 := by
      intro src hsrc h12 hlt
      have hdiv : k / m.blockSize = b := Nat.div_eq_of_lt_le (by omega) (by omega)
      rw [putBlock, if_pos (by omega), hsrc (hdiv ▸ h12)]
      rfl
    have hrest : ∀ src : Bytes, (12 ≤ b → src = zeros) → _ := fun src hsrc =>
      ih (b := b + 1) (by omega) (by rwa [Nat.add_right_comm]) (hnext src hsrc)
    by_cases h12 : 12 ≤ b
    · obtain ⟨c, hc, hT⟩ := hrest zeros fun _ => rfl
      obtain rfl := hc (by omega)
      refine ⟨0, fun _ => rfl, (mBmap_refused h12).bind fun phys => .of_fact fun h0 => ?_⟩
      rwa [if_pos h0]
    have hmap : mBmap m block b = pure (block b) := if_pos (by omega)
    rw [hmap]
    simp only [pure_bind]
    by_cases h0 : block b = 0
    · obtain ⟨c, -, hT⟩ := hrest zeros fun _ => rfl
      refine ⟨c, fun h => absurd h h12, ?_⟩
      rwa [if_pos h0]
    obtain ⟨c, -, hT⟩ := hrest _ fun h => absurd h h12
    refine ⟨c + 1, fun h => absurd h h12, ?_⟩
    rw [if_neg h0]
    refine (mReadBlock_granted ((hread b (by omega) hb).resolve_left h0)).attempt.bind ?_
    rintro (_ | bbuf)
    · exact fun _ h => h.elim
    · refine .of_fact fun hbb => ?_
      rwa [hbb]

/-! ## The whole call -/

variable {ino : Nat} {inode : Inode}

/-- The second half of `mReadInode`, for fields in one block. -/
def readInodeAt (m : Mount) (x off : Nat) : E Inode := do
  kmalloc
  let buf ← mReadBlock m x
  pure (inodeAt buf off)

theorem mReadInode_located (h : InodeIn m d ino inode) : ∃ x off, InDevice m d x ∧
    inode = inodeAt (blockBytes m d.bytes x) off ∧ mReadInode m ino = readInodeAt m x off := by
  obtain ⟨x, off, hloc, hx, hoff, hinode⟩ := h.place
  refine ⟨x, off, hx, hinode, ?_⟩
  unfold mInodeLocate require at hloc
  dsimp only at hloc
  split at hloc
  · next hgroup =>
    cases hloc
    unfold mReadInode mInodeLocate require readInodeAt
    dsimp only
    rw [if_pos ⟨h.ready, h.number⟩, if_pos hgroup]
    simp only [pure_bind, if_pos hoff]
  · cases hloc

section Calls

variable (hm : m.Sized) (hdev : d.sectorCount ≤ 2 ^ 32) (hino : InodeIn m d ino inode)
include hm hdev hino

theorem readsTrue_of_directOnly (hd : DirectOnly m d inode.block (min size inode.size)) :
    ReadsTrue m d ino size inode := by
  obtain ⟨x, off, hx, hinode, heq⟩ := mReadInode_located hino
  intro fails buffer r d' hrun
  have hcall : Triple (Shows d) (ext2ReadFileM m ino size buffer) (fun r _ => r.1 ≤ inode.size ∧
      ∀ k < r.1, content m d inode.block k = some (r.2 k)) fun _ => True := by
    unfold ext2ReadFileM
    rw [heq]
    have hread : Triple (Shows d) (readInodeAt m x off) (fun i d' => i = inode ∧ Shows d d')
        (Shows d) := by
      refine kmalloc_spec.bind fun _ => (mReadBlock_shows hm hdev x).bind fun buf => ?_
      refine .of_fact fun hbuf => .pure fun d' hd' => ⟨?_, hd'⟩
      rw [hbuf.2 hx, hinode]
    refine hread.bindStop (fun _ _ => trivial) fun i => .of_fact fun hi => ?_
    rw [hi]
    refine kmalloc_spec.bindStop (fun _ _ => trivial) fun _ => ?_
    refine kmalloc_spec.bindStop (fun _ _ => trivial) fun _ => ?_
    refine (readBlocks_true hm hdev hd _ (by simp) (by simp) (by simp)).bindStop
      (fun _ _ => trivial) fun r => require_bind (fun _ => .pure fun _ hr => ?_) fun _ _ _ => trivial
    exact ⟨hr.1.trans (Nat.min_le_right ..), hr.2⟩
  have hstart : Shows d { d with fails := fails } := ⟨rfl, rfl⟩
  exact hcall.ok hstart hrun

theorem directOnly_of_readsTrue (hsize : min size inode.size < 2 ^ 31)
    (h : ReadsTrue m d ino size inode) : DirectOnly m d inode.block (min size inode.size) := by
  obtain ⟨x, off, hx, hinode, heq⟩ := mReadInode_located hino
  have hbs := hm.pos
  have hbs' := hm.le
  intro k hk hread
  have hn : min size inode.size ≤
      (0 + (min size inode.size + m.blockSize - 1) % 2 ^ 32 / m.blockSize) * m.blockSize := by
    have hdiv := Nat.div_add_mod' (min size inode.size + m.blockSize - 1) m.blockSize
    have hmod := Nat.mod_lt (min size inode.size + m.blockSize - 1) hbs
    rw [Nat.mod_eq_of_lt (by omega), Nat.zero_add]
    omega
  have hbuf : 12 ≤ k / m.blockSize → k < 0 → zeros k = 0 := fun _ _ => rfl
  obtain ⟨c, -, hT⟩ := readBlocks_refused hm hdev hk hread _ (by simp) hn hbuf
  -- the inode, the two buffers and the blocks up to that of byte `k`, and no request after them
  have hcall : Triple (Granted d (c + 4)) (ext2ReadFileM m ino size zeros) (fun r _ => k < r.1 ∧
      (12 ≤ k / m.blockSize → r.2 k = 0)) fun _ => False := by
    unfold ext2ReadFileM
    rw [heq]
    have hsector := hx.sector hm hdev
    have hgranted : Triple (Granted d (c + 4)) (readInodeAt m x off)
        (fun i d' => i = inode ∧ Granted d (c + 2) d') fun _ => False := by
      refine kmalloc_granted.bind fun _ => (mReadBlock_granted hsector.2).bind fun buf => ?_
      refine .of_fact fun hbuf => .pure fun d' hd' => ⟨?_, hd'⟩
      rw [hbuf, hsector.1, hinode]
      rfl
    refine hgranted.bind fun i => .of_fact fun hi => ?_
    rw [hi]
    refine kmalloc_granted.bind fun _ => kmalloc_granted.bind fun _ => hT.bind fun r => ?_
    refine require_bind (fun _ => .pure fun d' hr => ⟨hr.1, hr.2.2⟩) ?_
    exact fun h _ hr => h (hr.2.1.trans_lt hsize)
  have hstart : Granted d (c + 4) { d with fails := fun i => decide (c + 4 ≤ i) } :=
    ⟨⟨rfl, rfl⟩, fun _ => rfl⟩
  have hresult := hcall _ hstart
  cases hrun : ext2ReadFileM m ino size zeros { d with fails := fun i => decide (c + 4 ≤ i) } with
  | error e d' =>
    rw [hrun] at hresult
    exact hresult.elim
  | ok r d' =>
    rw [hrun] at hresult
    have htrue := (h _ _ r d' hrun).2 k hresult.1
    split
    · next h12 =>
      simp only [content, fileBlock, if_pos h12, Option.bind_eq_bind, Option.bind_some] at htrue
      split at htrue
      · next h0 => exact .inl h0
      · split at htrue
        · next hin => exact .inr hin
        · cases htrue
    · next h12 => rw [htrue, hresult.2 (Nat.le_of_not_lt h12)]

end Calls

/-- Inode 1 has a block, eleven blocks of hole and then one byte behind the indirect block. -/
def byteBehindHole : Device where
  sectorCount := 128
  bytes :=
    let super := ((zeros.put32 1024 8).put32 1028 64).put32 1044 1
    let super := ((super.put32 1056 8192).put32 1064 8).put16 1080 superMagic
    let table := (((super.put32 2056 3).put32 3076 12289).put32 3112 7).put32 3160 5
    ((table.put32 5120 6).put32 6144 1).put32 7168 2
  fails _ := false
  behind := zeros

theorem byteBehindHole_mount : ∃ m d' inode, ext2ProbeM zeros true byteBehindHole = .ok m d' ∧
    m.Sized ∧ d'.sectorCount = 128 ∧ InodeIn m d' 1 inode ∧ m.blockSize = 1024 ∧
      inode.size = 12289 ∧ (∀ b < 12, inode.block b = 0 ∨ InDevice m d' (inode.block b)) ∧
      content m d' inode.block 0 = some 2 ∧ content m d' inode.block 12288 = some 1 := by
  refine ⟨_, _, inodeAt (blockBytes _ _ 3) 0, rfl, ⟨rfl, by decide, by decide⟩, rfl,
    ⟨rfl, by decide, 3, 0, rfl, ?_, by decide, rfl⟩, rfl, ?_, ?_, ?_, ?_⟩ <;> decide +kernel

end Kil0yOS.Ext2
