/-
The block writes of `ext2_mkfs`, one after the other.

The loop that clears the metadata leaves at the first write that fails, and formatting
goes on.  Every later write that fails ends it.  The buffer of the group descriptors is
the only one that is not cleared before it is filled.
-/
import Kil0yOS.Ext2.Layout

namespace Kil0yOS.Ext2

open Lib Bytes List Function Device

/-- The blocks of the device are those of `C`. -/
def Disk (C : Nat → Bytes) (B : Bytes) : Prop := ∀ x, ∀ i < 1024, blk B x i = C x i

variable {mk : Mount} {n k b g x i : Nat} {d d' : Device} {gd buf B : Bytes} {C : Nat → Bytes}
  {ws : List (Nat × Bytes)} {w : Nat × Bytes} {f : Unit → E Unit}

theorem Disk.write (h : Disk C B) : Disk (update C b buf) (writeAt B b buf) := by
  intro x i hi
  by_cases hx : x = b
  · subst hx
    simp [blk_writeAt_self hi]
  · rw [update_of_ne hx, blk_writeAt_of_ne hx hi]
    exact h x i hi

/-! ## Writing a list of blocks -/

def writeAll (mk : Mount) : List (Nat × Bytes) → E Unit
  | [] => pure ()
  | w :: ws => do
    mWriteBlock mk w.1 w.2
    writeAll mk ws

def written (B : Bytes) (ws : List (Nat × Bytes)) : Bytes :=
  ws.foldl (fun B w => writeAt B w.1 w.2) B

def contents (C : Nat → Bytes) (ws : List (Nat × Bytes)) : Nat → Bytes :=
  ws.foldl (fun C w => update C w.1 w.2) C

theorem Disk.written (h : Disk C B) (ws : List (Nat × Bytes)) :
    Disk (contents C ws) (written B ws) := by
  induction ws generalizing C B with
  | nil => exact h
  | cons w ws ih => exact ih h.write

theorem contents_of_ne (h : ∀ w ∈ ws, w.1 ≠ x) : contents C ws x = C x := by
  induction ws generalizing C with
  | nil => rfl
  | cons w ws ih =>
    obtain ⟨hw, hws⟩ := forall_mem_cons.mp h
    exact (ih hws).trans (update_of_ne hw.symm _ _)

theorem contents_of_mem (hnd : (ws.map Prod.fst).Nodup) (h : (x, buf) ∈ ws) :
    contents C ws x = buf := by
  obtain ⟨l₁, l₂, rfl⟩ := append_of_mem h
  rw [map_append] at hnd
  have hlast : ∀ w ∈ l₂, w.1 ≠ x := by
    rintro w hw rfl
    exact (nodup_cons.mp (nodup_append.mp hnd).2.1).1 (mem_map.mpr ⟨w, hw, rfl⟩)
  rw [contents, foldl_append]
  exact (contents_of_ne hlast).trans (update_self ..)

theorem writeAll_append (ws ws' : List (Nat × Bytes)) :
    writeAll mk (ws ++ ws') = writeAll mk ws >>= fun _ => writeAll mk ws' := by
  induction ws with
  | nil => rfl
  | cons w ws ih => simp [writeAll, ih]

section Runs

variable (hm : Layout mk n) (hn : d.sectorCount = n)
include hm hn

theorem writeAll_cons (hw : w.1 < mk.blocksCount) : writeAll mk (w :: ws) d =
    if d.fails 0 then .error () (d.after 1 d.bytes)
    else writeAll mk ws (d.after 1 (writeAt d.bytes w.1 w.2)) := by
  show EStateM.bind (mWriteBlock mk w.1 w.2) (fun _ => writeAll mk ws) d = _
  rw [EStateM.bind, mWriteBlock_eq hm hn hw]
  cases d.fails 0 <;> rfl

theorem writeAll_eq_ok (hws : ∀ w ∈ ws, w.1 < mk.blocksCount) : writeAll mk ws d = .ok () d' ↔
    (∀ i < ws.length, d.fails i = false) ∧ d' = d.after ws.length (written d.bytes ws) := by
  induction ws generalizing d with
  | nil =>
    show EStateM.Result.ok () d = .ok () d' ↔ _
    rw [EStateM.Result.ok.injEq]
    exact ⟨fun h => ⟨nofun, h.2.symm⟩, fun h => ⟨rfl, h.2.symm⟩⟩
  | cons w ws ih =>
    obtain ⟨hw, hws⟩ := forall_mem_cons.mp hws
    rw [writeAll_cons hm hn hw]
    cases hf : d.fails 0 with
    | true => exact iff_of_false nofun fun h => by simp [h.1 0 (by simp)] at hf
    | false =>
      refine (ih (d := d.after 1 _) hn hws).trans (and_congr ?_ ?_)
      · rw [length_cons, Nat.forall_lt_succ_left]
        exact (and_iff_right hf).symm
      · rfl

/-- A block that is not written is kept, also when a write fails. -/
theorem writeAll_keeps (hws : ∀ w ∈ ws, w.1 < mk.blocksCount ∧ w.1 ≠ x) (hi : i < 1024) {v : UInt8}
    (hv : blk d.bytes x i = v) : match writeAll mk ws d with
      | .ok _ d' | .error _ d' => blk d'.bytes x i = v := by
  induction ws generalizing d with
  | nil => exact hv
  | cons w ws ih =>
    obtain ⟨hw, hws⟩ := forall_mem_cons.mp hws
    rw [writeAll_cons hm hn hw.1]
    cases d.fails 0 with
    | true => exact hv
    | false => exact ih hn hws ((blk_writeAt_of_ne hw.2.symm hi).trans hv)

/-! ## The clearing loop -/

/-- The first `k` blocks behind the boot block, cleared. -/
def zeroWrites (b k : Nat) : List (Nat × Bytes) := (range' b k).map (·, zeros)

/-- The loop ends silently at the first write that fails. -/
theorem mkfsZero_eq (hb : b + k ≤ mk.blocksCount) : mkfsZero mk k b d =
    let stop := (range k).find? d.fails
    .ok () (d.after (stop.elim k (· + 1)) (written d.bytes (zeroWrites b (stop.getD k)))) := by
  induction k generalizing b d with
  | zero => rfl
  | succ k ih =>
    have hstep : mkfsZero mk (k + 1) b d = if d.fails 0 then .ok () (d.after 1 d.bytes)
        else mkfsZero mk k (b + 1) (d.after 1 (writeAt d.bytes b zeros)) := by
      show EStateM.bind (attempt (mWriteBlock mk b zeros)) _ d = _
      rw [EStateM.bind, attempt, mWriteBlock_eq hm hn (by omega)]
      cases d.fails 0 <;> rfl
    rw [hstep, range_succ_eq_map, find?_cons]
    cases hf : d.fails 0 with
    | true => rfl
    | false =>
      have hshift : d.fails ∘ Nat.succ = (d.after 1 (writeAt d.bytes b zeros)).fails := rfl
      rw [ih (d := d.after 1 _) hn (by omega), find?_map, hshift]
      cases (range k).find? (d.after 1 (writeAt d.bytes b zeros)).fails with
      | none => rfl
      | some j => rfl

end Runs

theorem contents_zeroWrites (C : Nat → Bytes) (k x : Nat) :
    contents C (zeroWrites 1 k) x = if 1 ≤ x ∧ x ≤ k then zeros else C x := by
  have hfst : (zeroWrites 1 k).map Prod.fst = range' 1 k := by
    rw [zeroWrites, map_map]
    exact map_id _
  split
  · exact contents_of_mem (hfst ▸ nodup_range') (mem_map.mpr ⟨x, by simp; omega, rfl⟩)
  · refine contents_of_ne fun w hw he => ?_
    have := mem_range'_1.mp (hfst ▸ mem_map_of_mem hw)
    omega

/-! ## The blocks that are filled -/

/-- The descriptor buffer when the loop comes to group `g`. -/
def gdtBuf (mk : Mount) (gd : Bytes) : Nat → Bytes
  | 0 => gd
  | g + 1 => if (g + 1) % 32 = 0 then zeros else putGroup mk (gdtBuf mk gd g) g

theorem putGroup_of_out (gd : Bytes) {g : Nat} (h : i < g * 32 % 1024 ∨ g * 32 % 1024 + 12 ≤ i) :
    putGroup mk gd g i = gd i := by
  unfold putGroup
  rw [put32_of_out _ _ (by omega), put32_of_out _ _ (by omega), put32_of_out _ _ (by omega)]

/-- With group `g` the buffer is brought to the device. -/
def Flushes (mk : Mount) (g : Nat) : Prop := g + 1 = mk.ngroups ∨ (g + 1) % 32 = 0
deriving Decidable

def gdtWrites (mk : Mount) (gd : Bytes) (gs : List Nat) : List (Nat × Bytes) :=
  (gs.filter fun g => Flushes mk g).map fun g => (2 + g / 32, putGroup mk (gdtBuf mk gd g) g)

/-- What is written behind the descriptors. -/
def mkfsRest (mk : Mount) : List (Nat × Bytes) :=
  ((range' 0 mk.ngroups).map fun g => (mk.bgBlockBitmap g, mkfsBlockBitmap mk g)) ++
    ((range' 0 mk.ngroups).map fun g => (mk.bgInodeBitmap g, mkfsInodeBitmap g)) ++
    [(metaEnd mk.ngroups, mkfsRootDir), (metaEnd mk.ngroups + 1, mkfsLostFound),
      (mk.bgInodeTable 0, mkfsDirInode 128 (metaEnd mk.ngroups)),
      (mk.bgInodeTable 0 + 1, mkfsDirInode 256 (metaEnd mk.ngroups + 1)), (1, mkfsSuper mk)]

/-- What is written behind the clearing loop. -/
def mkfsBlocks (mk : Mount) (gd : Bytes) : List (Nat × Bytes) :=
  gdtWrites mk gd (range' 0 mk.ngroups) ++ mkfsRest mk

theorem mkfsGdt_eq (gd : Bytes) (h : g + k = mk.ngroups) :
    mkfsGdt mk k g (gdtBuf mk gd g) = writeAll mk (gdtWrites mk gd (range' g k)) := by
  induction k generalizing g with
  | zero => rfl
  | succ k ih =>
    have hiff : g + 1 = mk.ngroups ∨ (g + 1) * 32 % 1024 = 0 ↔ Flushes mk g := by
      unfold Flushes
      omega
    rw [mkfsGdt, if_congr hiff rfl rfl, range'_succ]
    by_cases hf : Flushes mk g
    · have hnext : mkfsGdt mk k (g + 1) (if g + 1 < mk.ngroups then zeros else
          putGroup mk (gdtBuf mk gd g) g) = mkfsGdt mk k (g + 1) (gdtBuf mk gd (g + 1)) := by
        cases k with
        | zero => rfl
        | succ k => rw [gdtBuf, if_pos (by omega), if_pos (hf.resolve_left (by omega))]
      rw [hnext, ih (by omega), show 2 + g * 32 / 1024 = 2 + g / 32 by omega]
      simp [hf, writeAll, gdtWrites]
    · have hnext : gdtBuf mk gd (g + 1) = putGroup mk (gdtBuf mk gd g) g :=
        if_neg fun h => hf (.inr h)
      rw [← hnext, ih (by omega)]
      simp [hf, gdtWrites]

theorem mkfsBitmaps_eq (block : Nat → Nat) (bitmap : Nat → Bytes) (k g : Nat) :
    mkfsBitmaps mk block bitmap k g =
      writeAll mk ((range' g k).map fun g => (block g, bitmap g)) := by
  induction k generalizing g with
  | zero => rfl
  | succ k ih =>
    rw [mkfsBitmaps, ih]
    rfl

theorem mkfsWrite_eq (gd : Bytes) : mkfsWrite mk gd =
    mkfsZero mk (metaEnd mk.ngroups - 1) 1 >>= fun _ => writeAll mk (mkfsBlocks mk gd) := by
  have hgdt := mkfsGdt_eq gd (Nat.zero_add mk.ngroups)
  simp [mkfsWrite, mkfsBlocks, mkfsRest, ← hgdt, gdtBuf, mkfsBitmaps_eq, writeAll_append, writeAll]

theorem Layout.gdtBlock_lt (hm : Layout mk n) (hg : g < mk.ngroups) :
    g / 32 < gdtBlocks mk.ngroups ∧ 2 + g / 32 < mk.blocksCount := by
  have := hm.fits
  unfold metaEnd at this
  unfold gdtBlocks at this ⊢
  omega

section Blocks

variable (hm : Layout mk n)
include hm

theorem mem_gdtWrites (hw : w ∈ gdtWrites mk gd (range' 0 mk.ngroups)) :
    2 ≤ w.1 ∧ w.1 < 2 + gdtBlocks mk.ngroups := by
  obtain ⟨g, hg, rfl⟩ := mem_map.mp hw
  have hlt := (mem_range'_1.mp (mem_filter.mp hg).1).2
  have := (hm.gdtBlock_lt (g := g) (by omega)).1
  omega

/-- The superblock, the two directories, or a block at the front of a group. -/
theorem mem_mkfsRest (hw : w ∈ mkfsRest mk) :
    w.1 = 1 ∨ metaEnd mk.ngroups ≤ w.1 ∧ w.1 ≤ metaEnd mk.ngroups + 1 ∨
      ∃ g < mk.ngroups, ∃ c < 4, (c < 2 ∨ g = 0) ∧ w.1 = metaBase mk.ngroups g + c := by
  have hgroups := hm.groups.1
  have htable := hm.inodeTable 0 hgroups
  simp only [mkfsRest, mem_append, mem_map, mem_cons, not_mem_nil, or_false, or_assoc,
    mem_range'_1] at hw
  rcases hw with ⟨g, hg, rfl⟩ | ⟨g, hg, rfl⟩ | rfl | rfl | rfl | rfl | rfl
  · exact .inr (.inr ⟨g, by omega, 0, by omega, by omega, hm.blockBitmap g (by omega)⟩)
  · exact .inr (.inr ⟨g, by omega, 1, by omega, by omega, hm.inodeBitmap g (by omega)⟩)
  · exact .inr (.inl (by omega))
  · exact .inr (.inl (by omega))
  · exact .inr (.inr ⟨0, hgroups, 2, by omega, .inr rfl, htable⟩)
  · exact .inr (.inr ⟨0, hgroups, 3, by omega, .inr rfl, congrArg (· + 1) htable⟩)
  · exact .inl rfl

theorem nodup_mkfsRest : ((mkfsRest mk).map Prod.fst).Nodup := by
  have htable := hm.inodeTable 0 hm.groups.1
  have hblock : (range' 0 mk.ngroups).map mk.bgBlockBitmap =
      (range' 0 mk.ngroups).map (metaBase mk.ngroups) :=
    map_congr_left fun g hg => hm.blockBitmap g (by simpa using hg)
  have hinode : (range' 0 mk.ngroups).map mk.bgInodeBitmap =
      (range' 0 mk.ngroups).map (metaBase mk.ngroups · + 1) :=
    map_congr_left fun g hg => hm.inodeBitmap g (by simpa using hg)
  have hinj {c : Nat} : ((range' 0 mk.ngroups).map (metaBase mk.ngroups · + c)).Nodup :=
    Nodup.map (fun g g' h => by dsimp only [metaBase] at h; omega) nodup_range'
  have hfirst := metaBase_le hm.groups.1
  simp only [mkfsRest, map_append, map_map, comp_def, hblock, hinode, map_cons, map_nil]
  rw [nodup_append, nodup_append]
  refine ⟨⟨hinj (c := 0), hinj, ?_⟩, ?_, ?_⟩
  · simp only [forall_mem_map]
    unfold metaBase
    omega
  · simp [htable]
    omega
  have hapart {g c : Nat} (hg : g ∈ range' 0 mk.ngroups) (hc : c < 2) :
      ∀ b ∈ [metaEnd mk.ngroups, metaEnd mk.ngroups + 1, mk.bgInodeTable 0,
        mk.bgInodeTable 0 + 1, 1], metaBase mk.ngroups g + c ≠ b := by
    have := metaBase_le (by simpa using hg)
    have : metaBase mk.ngroups g = metaBase mk.ngroups 0 + g * 258 := by
      unfold metaBase
      omega
    simp only [forall_mem_cons, htable]
    exact ⟨by omega, by omega, by omega, by omega, by omega, nofun⟩
  simp only [forall_mem_append, forall_mem_map]
  exact ⟨fun g hg => hapart (c := 0) hg (by omega), fun g hg => hapart hg (by omega)⟩

theorem nodup_mkfsBlocks (gd : Bytes) : ((mkfsBlocks mk gd).map Prod.fst).Nodup := by
  rw [mkfsBlocks, map_append, nodup_append]
  refine ⟨?_, nodup_mkfsRest hm, ?_⟩
  · rw [gdtWrites, map_map]
    refine .map_on (fun g hg g' hg' h => ?_) (.filter _ nodup_range')
    obtain ⟨hlt, hg⟩ := mem_filter.mp hg
    obtain ⟨hlt', hg'⟩ := mem_filter.mp hg'
    rw [mem_range'_1] at hlt hlt'
    have hf : Flushes mk g := of_decide_eq_true hg
    have hf' : Flushes mk g' := of_decide_eq_true hg'
    unfold Flushes at hf hf'
    dsimp only [comp] at h
    omega
  · simp only [forall_mem_map]
    intro w hw w' hw'
    have := mem_gdtWrites hm hw
    rcases mem_mkfsRest hm hw' with h | h | ⟨g, -, c, -, -, h⟩
    · omega
    · unfold metaEnd at h
      omega
    · unfold metaBase at h
      omega

/-- The last block of the metadata belongs to an inode table and is not filled. -/
theorem mkfsBlocks_lt (hw : w ∈ mkfsBlocks mk gd) :
    w.1 < mk.blocksCount ∧ w.1 ≠ metaEnd mk.ngroups - 1 := by
  have hfits := hm.fits
  have hgroups := hm.groups.1
  rcases mem_append.mp hw with hw | hw
  · have := mem_gdtWrites hm hw
    unfold metaEnd at hfits ⊢
    omega
  have := metaBase_le hgroups
  rcases mem_mkfsRest hm hw with h | h | ⟨g, hg, c, hc, -, h⟩
  · omega
  · omega
  · have := metaBase_le hg
    omega

/-- The first block keeps what the heap left in byte 12, and is not written again. -/
theorem mkfsBlocks_head (gd : Bytes) :
    ∃ buf rest, mkfsBlocks mk gd = (2, buf) :: rest ∧ buf 12 = gd 12 ∧ ∀ w ∈ rest, w.1 ≠ 2 := by
  have hgroups := hm.groups.1
  have hfirst : min 31 (mk.ngroups - 1) ∈ (range' 0 mk.ngroups).filter fun g => Flushes mk g := by
    refine mem_filter.mpr ⟨mem_range'_1.mpr (by omega), decide_eq_true ?_⟩
    unfold Flushes
    omega
  have hsorted := (pairwise_lt_range' (s := 0) (n := mk.ngroups)).filter fun g => Flushes mk g
  have hnd := nodup_mkfsBlocks hm gd
  unfold mkfsBlocks gdtWrites at hnd ⊢
  cases hgs : (range' 0 mk.ngroups).filter fun g => Flushes mk g with
  | nil => simp [hgs] at hfirst
  | cons g gs =>
    rw [hgs] at hfirst hsorted hnd
    have hg : g < 32 := by
      rcases mem_cons.mp hfirst with h | h
      · omega
      · have := (pairwise_cons.mp hsorted).1 _ h
        omega
    rw [map_cons, show 2 + g / 32 = 2 by omega] at hnd ⊢
    refine ⟨_, _, rfl, ?_, fun w hw he => (nodup_cons.mp hnd).1 (mem_map.mpr ⟨w, hw, he⟩)⟩
    clear hnd hgs hsorted hfirst
    induction g with
    | zero => rfl
    | succ g ih => rw [gdtBuf, if_neg (by omega), putGroup_of_out _ (by omega), ih (by omega)]

end Blocks

/-! ## Formatting -/

def MkfsFits (n : Nat) : Prop :=
  16384 ≤ n ∧ (mkfsMount n).ngroups ≤ maxGroups ∧
    metaEnd (mkfsMount n).ngroups + 2 < (mkfsMount n).blocksCount

theorem MkfsFits.layout (h : MkfsFits n) : Layout (mkfsMount n) n where
  ready := rfl
  inodesCount := rfl
  firstDataBlock := rfl
  blocksPerGroup := rfl
  inodesPerGroup := rfl
  inodeSize := rfl
  blockSize := rfl
  sectorsPerBlock := rfl
  groups := by
    refine ⟨?_, h.2.1⟩
    have := h.1
    show 1 ≤ (n / 2 + 8192 - 1) / 8192
    omega
  blockBitmap := fun _ hg => if_pos hg
  inodeBitmap := fun _ hg => if_pos hg
  inodeTable := fun _ hg => if_pos hg
  fits := h.2.2
  covered := by
    show n / 2 ≤ (n / 2 + 8192 - 1) / 8192 * 8192
    omega
  device := by
    show n / 2 * 2 ≤ n
    omega
  sectors := by
    have : (n / 2 + 8192 - 1) / 8192 ≤ 256 := h.2.1
    omega

/-- What comes before the first write. -/
def mkfsPrepare (n : Nat) : E Unit := do
  require (16384 ≤ n)
  require ((mkfsMount n).ngroups ≤ maxGroups)
  require (metaEnd (mkfsMount n).ngroups + 2 < (mkfsMount n).blocksCount)
  kmalloc
  kmalloc
  kmalloc
  kmalloc
  kmalloc

theorem bind_of_ok {x : E Unit} (h : x d = .ok () d') : (x >>= f) d = f () d' := by
  show EStateM.bind x f d = _
  rw [EStateM.bind, h]

theorem bind_eq_ok {x : E Unit} :
    (x >>= f) d = .ok () d' ↔ ∃ d₁, x d = .ok () d₁ ∧ f () d₁ = .ok () d' := by
  show EStateM.bind x f d = _ ↔ _
  rw [EStateM.bind]
  cases x d <;> simp

theorem require_eq_ok {p : Prop} [Decidable p] : require p d = .ok () d' ↔ p ∧ d = d' := by
  unfold require
  split
  · next h => simp [h, pure, EStateM.pure]
  · next h => exact ⟨fun heq => (by cases heq), fun hp => absurd hp.1 h⟩

theorem kmalloc_eq_ok : kmalloc d = .ok () d' ↔ d.fails 0 = false ∧ d.after 1 d.bytes = d' := by
  unfold kmalloc
  cases d.fails 0 <;> simp [tick, Device.after]

theorem mkfsPrepare_eq_ok : mkfsPrepare n d = .ok () d' ↔
    MkfsFits n ∧ (∀ i < 5, d.fails i = false) ∧ d.after 5 d.bytes = d' := by
  simp only [mkfsPrepare, bind_eq_ok, require_eq_ok, kmalloc_eq_ok, MkfsFits, and_assoc,
    exists_and_left, exists_eq_left', Nat.forall_lt_succ_left, Nat.not_lt_zero, false_imp_iff,
    implies_true, true_and]
  rfl

theorem ext2Mkfs_eq (gd : Bytes) : ext2Mkfs gd d =
    (mkfsPrepare d.sectorCount >>= fun _ => mkfsWrite (mkfsMount d.sectorCount) gd) d := by
  simp only [mkfsPrepare, bind_assoc]
  rfl

/-- The request of the clearing loop that fails, after the five allocations. -/
def zeroStop (n : Nat) (fails : Nat → Bool) : Option Nat :=
  (range (metaEnd (mkfsMount n).ngroups - 1)).find? fun j => fails (j + 5)

/-- How many requests were made before the first block of the descriptor table. -/
def zeroRequests (n : Nat) (fails : Nat → Bool) : Nat :=
  (zeroStop n fails).elim (metaEnd (mkfsMount n).ngroups - 1) (· + 1) + 5

/-- How many blocks are written behind the clearing loop. -/
def mkfsLater (n : Nat) : Nat := (mkfsBlocks (mkfsMount n) zeros).length

/-- The device when the clearing loop has ended. -/
def Device.cleared (d : Device) : Device :=
  d.after (zeroRequests d.sectorCount d.fails) (written d.bytes (zeroWrites 1
    ((zeroStop d.sectorCount d.fails).getD (metaEnd (mkfsMount d.sectorCount).ngroups - 1))))

theorem ext2Mkfs_run (hfits : MkfsFits d.sectorCount) (h5 : ∀ i < 5, d.fails i = false)
    (gd : Bytes) : ext2Mkfs gd d = writeAll (mkfsMount d.sectorCount)
      (mkfsBlocks (mkfsMount d.sectorCount) gd) d.cleared := by
  have hle := hfits.2.2
  have hprep := mkfsPrepare_eq_ok.mpr ⟨hfits, h5, rfl⟩
  have hzero := mkfsZero_eq (d := d.after 5 d.bytes) hfits.layout rfl
    (show 1 + (metaEnd (mkfsMount d.sectorCount).ngroups - 1) ≤ _ by omega)
  rw [ext2Mkfs_eq, bind_of_ok hprep, mkfsWrite_eq, bind_of_ok hzero]
  rfl

theorem ext2Mkfs_eq_ok : ext2Mkfs gd d = .ok () d' ↔
    MkfsFits d.sectorCount ∧ (∀ i < 5, d.fails i = false) ∧
      (∀ i < mkfsLater d.sectorCount, d.cleared.fails i = false) ∧
      d' = d.cleared.after (mkfsLater d.sectorCount)
        (written d.cleared.bytes (mkfsBlocks (mkfsMount d.sectorCount) gd)) := by
  by_cases h : MkfsFits d.sectorCount ∧ ∀ i < 5, d.fails i = false
  · have hm := h.1.layout
    have hlen : (mkfsBlocks (mkfsMount d.sectorCount) gd).length = mkfsLater d.sectorCount := by
      simp [mkfsLater, mkfsBlocks, gdtWrites]
    rw [ext2Mkfs_run h.1 h.2, writeAll_eq_ok (d := d.cleared) hm rfl fun w hw =>
      (mkfsBlocks_lt hm hw).1, hlen]
    exact ⟨fun hrun => ⟨h.1, h.2, hrun⟩, fun hrun => hrun.2.2⟩
  · refine iff_of_false (fun hok => h ?_) fun hrun => h ⟨hrun.1, hrun.2.1⟩
    rw [ext2Mkfs_eq, bind_eq_ok] at hok
    obtain ⟨d₁, hprep, -⟩ := hok
    obtain ⟨hfits, h5, -⟩ := mkfsPrepare_eq_ok.mp hprep
    exact ⟨hfits, h5⟩

/-! ## What is reported -/

/-- Success means that every block is there: the device is what formatting leaves with no
write failing. -/
def MkfsReports (n : Nat) (fails : Nat → Bool) : Prop :=
  ∀ gd bytes behind d', ext2Mkfs gd ⟨n, bytes, fails, behind⟩ = .ok () d' →
    ∃ d₁, ext2Mkfs gd ⟨n, bytes, fun _ => false, behind⟩ = .ok () d₁ ∧ d'.bytes = d₁.bytes

/-- A write of the clearing loop fails, and no request before or after it. -/
def ClearingFails (n : Nat) (fails : Nat → Bool) : Prop :=
  MkfsFits n ∧ (∀ i < 5, fails i = false) ∧ (zeroStop n fails).isSome ∧
    ∀ i < mkfsLater n, fails (i + zeroRequests n fails) = false

theorem zeroStop_granted (n : Nat) : zeroStop n (fun _ => false) = none := by
  simp [zeroStop]

/-- The last block of the metadata is written by the clearing loop alone. -/
theorem ClearingFails.not_reports {fails : Nat → Bool} (h : ClearingFails n fails) :
    ¬ MkfsReports n fails := by
  obtain ⟨hfits, h5, hstop, hlater⟩ := h
  intro hall
  obtain ⟨d₁, hclean, hbytes⟩ :=
    hall zeros (fun _ => 1) zeros _ (ext2Mkfs_eq_ok.mpr ⟨hfits, h5, hlater, rfl⟩)
  obtain ⟨-, -, -, rfl⟩ := ext2Mkfs_eq_ok.mp hclean
  have hlast (k : Nat) : blk (written (written (fun _ => 1) (zeroWrites 1 k))
      (mkfsBlocks (mkfsMount n) zeros)) (metaEnd (mkfsMount n).ngroups - 1) 0 =
      if 1 ≤ metaEnd (mkfsMount n).ngroups - 1 ∧ metaEnd (mkfsMount n).ngroups - 1 ≤ k then 0
      else 1 := by
    have hdisk : Disk (fun _ _ => 1) fun _ => 1 := fun _ _ _ => rfl
    rw [((hdisk.written _).written _) _ 0 (by omega),
      contents_of_ne fun w hw => (mkfsBlocks_lt hfits.layout hw).2, contents_zeroWrites]
    split <;> rfl
  obtain ⟨j, hj⟩ := Option.isSome_iff_exists.mp hstop
  have hlt : j < metaEnd (mkfsMount n).ngroups - 1 := mem_range.mp (mem_of_find?_eq_some hj)
  have hsame := congrArg (fun B => blk B (metaEnd (mkfsMount n).ngroups - 1) 0) hbytes
  simp only [Device.after, cleared, zeroStop_granted, hj, hlast, Option.getD_some,
    Option.getD_none] at hsame
  rw [if_neg (by omega), if_pos (by omega)] at hsame
  cases hsame

/-- ext2_mkfs reports every write that fails, except where the clearing loop alone meets
one. -/
theorem ext2Mkfs_reports_iff (n : Nat) (fails : Nat → Bool) :
    MkfsReports n fails ↔ ¬ ClearingFails n fails := by
  refine ⟨fun hall hfails => hfails.not_reports hall, fun hno gd bytes behind d' hok => ?_⟩
  obtain ⟨hfits, h5, hlater, rfl⟩ := ext2Mkfs_eq_ok.mp hok
  have hstop : zeroStop n fails = none := by
    by_contra hsome
    exact hno ⟨hfits, h5, Option.ne_none_iff_isSome.mp hsome, hlater⟩
  refine ⟨_, ext2Mkfs_eq_ok.mpr ⟨hfits, fun _ _ => rfl, fun _ _ => rfl, rfl⟩, ?_⟩
  simp only [Device.after, cleared, hstop, zeroStop_granted]

/-- The first write of the clearing loop fails. -/
theorem ext2Mkfs_not_reported : ¬ ∀ n fails, MkfsReports n fails := by
  intro hall
  refine ClearingFails.not_reports ⟨by unfold MkfsFits; decide, by decide,
    by decide +kernel, ?_⟩ (hall 16384 (· == 5))
  decide +kernel

/-! ## What is leaked -/

/-- The result and the device do not show what the heap left in the descriptor buffer. -/
def NoLeak (d : Device) : Prop := ∀ gd gd', ext2Mkfs gd d = ext2Mkfs gd' d

/-- The allocations and the first block of the descriptor table are granted. -/
def DescGranted (d : Device) : Prop :=
  MkfsFits d.sectorCount ∧ (∀ i < 5, d.fails i = false) ∧
    d.fails (zeroRequests d.sectorCount d.fails) = false

theorem cleared_fails_zero : d.cleared.fails 0 = d.fails (zeroRequests d.sectorCount d.fails) :=
  congrArg d.fails (Nat.zero_add _)

/-- Byte 12 of the first block of the table is in no field that is filled. -/
theorem DescGranted.shows (h : DescGranted d) (gd : Bytes) : match ext2Mkfs gd d with
    | .ok _ d' | .error _ d' => blk d'.bytes 2 12 = gd 12 := by
  obtain ⟨hfits, h5, hdesc⟩ := h
  have hm := hfits.layout
  obtain ⟨buf, rest, heq, hbuf, hrest⟩ := mkfsBlocks_head hm gd
  obtain ⟨h2, hin⟩ := forall_mem_cons.mp
    (heq ▸ fun w (hw : w ∈ mkfsBlocks _ gd) => (mkfsBlocks_lt hm hw).1)
  rw [ext2Mkfs_run hfits h5, heq, writeAll_cons (d := d.cleared) hm rfl h2, cleared_fails_zero,
    hdesc]
  exact writeAll_keeps (d := d.cleared.after 1 _) hm rfl (fun w hw => ⟨hin w hw, hrest w hw⟩)
    (by omega) ((blk_writeAt_self (by omega)).trans hbuf)

theorem DescGranted.not_noLeak (h : DescGranted d) : ¬ NoLeak d := by
  intro hall
  have h₀ := h.shows zeros
  have h₁ := h.shows fun _ => 1
  rw [hall zeros fun _ => 1] at h₀
  cases hres : ext2Mkfs (fun _ => 1) d with
  | ok | error =>
    rw [hres] at h₀ h₁
    exact absurd (h₀.symm.trans h₁) (by decide)

/-- What is written shows nothing of the heap exactly when formatting stops before the
descriptors. -/
theorem ext2Mkfs_noLeak_iff (d : Device) : NoLeak d ↔ ¬ DescGranted d := by
  refine ⟨fun hall hdesc => hdesc.not_noLeak hall, fun hno gd gd' => ?_⟩
  cases hprep : mkfsPrepare d.sectorCount d with
  | error e d₁ =>
    have hstop (gd : Bytes) : ext2Mkfs gd d = .error e d₁ := by
      rw [ext2Mkfs_eq]
      show EStateM.bind _ _ d = _
      rw [EStateM.bind, hprep]
    rw [hstop, hstop]
  | ok _ d₁ =>
    obtain ⟨hfits, h5, -⟩ := mkfsPrepare_eq_ok.mp hprep
    have hm := hfits.layout
    have hrefused : d.cleared.fails 0 = true := by
      rw [cleared_fails_zero]
      by_contra hf
      exact hno ⟨hfits, h5, Bool.eq_false_iff.mpr hf⟩
    have hstop (gd : Bytes) : ext2Mkfs gd d = .error () (d.cleared.after 1 d.cleared.bytes) := by
      obtain ⟨buf, rest, heq, -⟩ := mkfsBlocks_head hm gd
      rw [ext2Mkfs_run hfits h5, heq, writeAll_cons (d := d.cleared) hm rfl
        (hm.gdtBlock_lt hm.groups.1).2, hrefused]
      rfl
    rw [hstop, hstop]

theorem ext2Mkfs_leaks : ¬ ∀ d, NoLeak d := by
  intro hall
  have hdesc : DescGranted ⟨16384, zeros, fun _ => false, zeros⟩ :=
    ⟨by unfold MkfsFits; decide, fun _ _ => rfl, rfl⟩
  exact hdesc.not_noLeak (hall _)

end Kil0yOS.Ext2
