/-
What `ext2_mkfs` leaves on a device, and what the probe makes of it.

With no request failing, the device is seen as a table of blocks, and every write
replaces one entry of it.
-/
import Kil0yOS.Ext2.MkfsWrites

namespace Kil0yOS.Ext2

open Lib Bytes List

def Clean (n : Nat) (P : Bytes → Prop) (d : Device) : Prop :=
  d.sectorCount = n ∧ (∀ k, d.fails k = false) ∧ P d.bytes

section Requests

variable {m : Mount} {n b : Nat} {P : Bytes → Prop} {C : Nat → Bytes} {F : Device → Prop}

theorem mReadBlock_clean (hm : Layout m n) (hb : b < m.blocksCount) :
    Triple (Clean n P) (mReadBlock m b) (fun buf => Clean n fun B => P B ∧ buf = blk B b) F := by
  rintro d ⟨hn, hfails, hP⟩
  rw [mReadBlock_eq hm hn hb, if_neg (by simp [hfails 0])]
  exact ⟨hn, fun k => hfails (k + 1), hP, rfl⟩

theorem kmalloc_clean : Triple (Clean n P) kmalloc (fun _ => Clean n P) F := by
  rintro d ⟨hn, hfails, hP⟩
  unfold kmalloc
  rw [if_neg (by simp [hfails 0])]
  exact ⟨hn, fun k => hfails (k + 1), hP⟩

end Requests

section Bitmaps

theorem bitmapOf_succ (used : Nat → Bool) (n : Nat) :
    bitmapOf used (n + 1) =
      if used n then setBit (bitmapOf used n) (n / 8) (n % 8) else bitmapOf used n := by
  unfold bitmapOf
  rw [range_succ, foldl_append]
  rfl

theorem bitAt_bitmapOf (used : Nat → Bool) (n i : Nat) :
    bitAt (bitmapOf used n) i = (decide (i < n) && used i) := by
  induction n with
  | zero => simp [bitmapOf, bitAt, zeros]
  | succ n ih =>
    have hn : n / 8 * 8 + n % 8 = n := by omega
    rw [bitmapOf_succ]
    by_cases hused : used n = true
    · rw [if_pos hused, bitAt_setBit _ (Nat.mod_lt _ (by omega)), ih, hn]
      by_cases hi : i = n
      · subst hi
        simp [hused]
      · have hlt : (i < n + 1) = (i < n) := propext (by omega)
        simp [hi, hlt]
    · rw [if_neg hused, ih]
      by_cases hi : i = n
      · subst hi
        simp [hused]
      · have hlt : (i < n + 1) = (i < n) := propext (by omega)
        simp [hlt]

end Bitmaps

section Mkfs

variable {mk : Mount} {n g : Nat} {C : Nat → Bytes} {F : Device → Prop}

def DescIn (mk : Mount) (gd : Bytes) (g : Nat) : Prop :=
  gd.get32 (g * 32 % 1024) = mk.bgBlockBitmap g ∧
    gd.get32 (g * 32 % 1024 + 4) = mk.bgInodeBitmap g ∧
    gd.get32 (g * 32 % 1024 + 8) = mk.bgInodeTable g

theorem DescIn.congr {gd gd' : Bytes} (h : DescIn mk gd g)
    (heq : ∀ i, g * 32 % 1024 ≤ i → i < g * 32 % 1024 + 12 → gd' i = gd i) : DescIn mk gd' g := by
  refine ⟨?_, ?_, ?_⟩
  · rw [get32_congr fun i h₁ h₂ => heq i h₁ (by omega)]
    exact h.1
  · rw [get32_congr fun i h₁ h₂ => heq i (by omega) (by omega)]
    exact h.2.1
  · rw [get32_congr fun i h₁ h₂ => heq i (by omega) (by omega)]
    exact h.2.2

theorem Layout.table_lt (hm : Layout mk n) (hg : g < mk.ngroups) :
    mk.bgBlockBitmap g < 2 ^ 32 ∧ mk.bgInodeBitmap g < 2 ^ 32 ∧ mk.bgInodeTable g < 2 ^ 32 := by
  have := metaBase_le hg
  have := hm.fits
  have := hm.device
  have := hm.sectors
  rw [hm.blockBitmap g hg, hm.inodeBitmap g hg, hm.inodeTable g hg]
  omega

theorem descIn_putGroup (hm : Layout mk n) (gd : Bytes) (hg : g < mk.ngroups) :
    DescIn mk (putGroup mk gd g) g := by
  obtain ⟨h₁, h₂, h₃⟩ := hm.table_lt hg
  unfold putGroup DescIn
  refine ⟨?_, ?_, ?_⟩
  · rw [get32_put32_of_out _ _ (by omega), get32_put32_of_out _ _ (by omega),
      get32_put32, Nat.mod_eq_of_lt h₁]
  · rw [get32_put32_of_out _ _ (by omega), get32_put32, Nat.mod_eq_of_lt h₂]
  · rw [get32_put32, Nat.mod_eq_of_lt h₃]

/-- The buffer holds the descriptors of its block up to the group last put in. -/
theorem descIn_gdtBuf (hm : Layout mk n) (gd : Bytes) :
    ∀ G < mk.ngroups, g ≤ G → g / 32 = G / 32 → DescIn mk (putGroup mk (gdtBuf mk gd G) G) g := by
  intro G
  induction G with
  | zero =>
    intro hG hle _
    obtain rfl := Nat.le_zero.mp hle
    exact descIn_putGroup hm _ hG
  | succ G ih =>
    intro hG hle hsame
    by_cases heq : g = G + 1
    · subst heq
      exact descIn_putGroup hm _ hG
    · rw [gdtBuf, if_neg (by omega)]
      exact (ih (by omega) (by omega) (by omega)).congr fun i _ _ => putGroup_of_out _ (by omega)

/-- The blocks of a formatted device, `C₀` being those it had before and `gd` what the
descriptor buffer held. -/
structure FormattedBlocks (mk : Mount) (gd : Bytes) (C₀ C : Nat → Bytes) : Prop where
  super : C 1 = mkfsSuper mk
  desc : ∀ g < mk.ngroups, DescIn mk (C (2 + g / 32)) g
  gdt : ∀ g < mk.ngroups, (g + 1 = mk.ngroups ∨ (g + 1) % 32 = 0) →
    C (2 + g / 32) = putGroup mk (gdtBuf mk gd g) g
  blockBitmap : ∀ g < mk.ngroups, C (metaBase mk.ngroups g) = mkfsBlockBitmap mk g
  inodeBitmap : ∀ g < mk.ngroups, C (metaBase mk.ngroups g + 1) = mkfsInodeBitmap g
  rootInode : C (metaBase mk.ngroups 0 + 2) = mkfsDirInode 128 (metaEnd mk.ngroups)
  lostFoundInode : C (metaBase mk.ngroups 0 + 3) = mkfsDirInode 256 (metaEnd mk.ngroups + 1)
  table : ∀ g < mk.ngroups, ∀ k < 256, ¬ (g = 0 ∧ k < 2) → C (metaBase mk.ngroups g + 2 + k) = zeros
  rootDir : C (metaEnd mk.ngroups) = mkfsRootDir
  lostFoundDir : C (metaEnd mk.ngroups + 1) = mkfsLostFound
  data : ∀ x, x = 0 ∨ metaEnd mk.ngroups + 2 ≤ x → C x = C₀ x

theorem formattedBlocks_mkfsBlocks (hm : Layout mk n) (gd : Bytes) (C₀ : Nat → Bytes) :
    FormattedBlocks mk gd C₀
      (contents (contents C₀ (zeroWrites 1 (metaEnd mk.ngroups - 1))) (mkfsBlocks mk gd)) := by
  have hgroups := hm.groups.1
  have hbase := metaBase_le hgroups
  have hmem {x : Nat} {buf : Bytes} {C : Nat → Bytes} (h : (x, buf) ∈ mkfsBlocks mk gd) :
      contents C (mkfsBlocks mk gd) x = buf := contents_of_mem (nodup_mkfsBlocks hm gd) h
  have hgdt : ∀ g < mk.ngroups, (g + 1 = mk.ngroups ∨ (g + 1) % 32 = 0) → ∀ C,
      contents C (mkfsBlocks mk gd) (2 + g / 32) = putGroup mk (gdtBuf mk gd g) g := by
    intro g hg hlast C
    have hin : g ∈ (range' 0 mk.ngroups).filter fun g => Flushes mk g :=
      mem_filter.mpr ⟨mem_range'_1.mpr (by omega), decide_eq_true hlast⟩
    exact hmem (mem_append_left _ (mem_map.mpr ⟨g, hin, rfl⟩))
  have hrest {x : Nat} {buf : Bytes} {C : Nat → Bytes} (h : (x, buf) ∈ mkfsRest mk) :
      contents C (mkfsBlocks mk gd) x = buf := hmem (mem_append_right _ h)
  have htable := hm.inodeTable 0 hgroups
  have hin {g : Nat} (hg : g < mk.ngroups) : g ∈ range' 0 mk.ngroups := by simpa using hg
  refine ⟨hrest (by simp [mkfsRest]), fun g hg => ?_, fun g hg h => hgdt g hg h _, fun g hg => ?_,
    fun g hg => ?_, hrest ?_, hrest ?_, fun g hg k hk hne => ?_, hrest ?_, hrest ?_, fun x hx => ?_⟩
  · -- the last group of the block
    have hlast := hgdt (min (mk.ngroups - 1) (g / 32 * 32 + 31)) (by omega) (by omega)
    rw [show 2 + g / 32 = 2 + min (mk.ngroups - 1) (g / 32 * 32 + 31) / 32 by omega, hlast]
    exact descIn_gdtBuf hm gd _ (by omega) (by omega) (by omega)
  · rw [← hm.blockBitmap g hg]
    exact hrest (mem_append_left _ (mem_append_left _ (mem_map.mpr ⟨g, hin hg, rfl⟩)))
  · rw [← hm.inodeBitmap g hg]
    exact hrest (mem_append_left _ (mem_append_right _ (mem_map.mpr ⟨g, hin hg, rfl⟩)))
  · simp [mkfsRest, htable]
  · simp [mkfsRest, htable]
  · have hend := metaBase_le hg
    rw [contents_of_ne fun w hw => ?_, contents_zeroWrites, if_pos (by omega)]
    rcases mem_append.mp hw with hw | hw
    · have := mem_gdtWrites hm hw
      unfold metaBase
      omega
    rcases mem_mkfsRest hm hw with h | h | ⟨g', hg', c, hc, hcg, h⟩
    · omega
    · omega
    · unfold metaBase at h ⊢
      omega
  · simp [mkfsRest]
  · simp [mkfsRest]
  · rw [contents_of_ne fun w hw => ?_, contents_zeroWrites, if_neg (by omega)]
    rcases mem_append.mp hw with hw | hw
    · have := mem_gdtWrites hm hw
      unfold metaEnd at hx
      omega
    rcases mem_mkfsRest hm hw with h | h | ⟨g', hg', c, hc, -, h⟩
    · omega
    · omega
    · have := metaBase_le hg'
      omega

/-- Formatting with no request failing. -/
theorem ext2Mkfs_clean (gd : Bytes) (C₀ : Nat → Bytes) :
    Triple (Clean n (Disk C₀)) (ext2Mkfs gd)
      (fun _ d => Layout (mkfsMount n) n ∧
        Clean n (fun B => ∃ C, Disk C B ∧ FormattedBlocks (mkfsMount n) gd C₀ C) d)
      fun _ => ¬ MkfsFits n := by
  rintro d ⟨rfl, hfails, hC⟩
  cases hres : ext2Mkfs gd d with
  | ok _ d' =>
    obtain ⟨hfits, -, -, rfl⟩ := ext2Mkfs_eq_ok.mp hres
    have hstop : zeroStop d.sectorCount d.fails = none := by simp [zeroStop, hfails]
    refine ⟨hfits.layout, rfl, fun k => hfails _, _, (hC.written _).written _, ?_⟩
    rw [hstop]
    exact formattedBlocks_mkfsBlocks hfits.layout gd C₀
  | error _ d' =>
    intro hfits
    have hok : ext2Mkfs gd d = .ok () _ :=
      ext2Mkfs_eq_ok.mpr ⟨hfits, fun i _ => hfails i, fun i _ => hfails _, rfl⟩
    rw [hres] at hok
    cases hok

end Mkfs

section Probe

variable {n : Nat} {gd : Bytes} {C₀ C : Nat → Bytes} {F : Device → Prop}

theorem mkfsSuper_fields (mk : Mount) : (mkfsSuper mk).get32 0 = mk.inodesCount % 2 ^ 32 ∧
      (mkfsSuper mk).get32 4 = mk.blocksCount % 2 ^ 32 ∧
      (mkfsSuper mk).get32 20 = mk.firstDataBlock % 2 ^ 32 ∧ (mkfsSuper mk).get32 24 = 0 ∧
      (mkfsSuper mk).get32 32 = mk.blocksPerGroup % 2 ^ 32 ∧
      (mkfsSuper mk).get32 40 = mk.inodesPerGroup % 2 ^ 32 ∧
      (mkfsSuper mk).get16 56 = superMagic ∧ (mkfsSuper mk).get32 76 = 1 ∧
      (mkfsSuper mk).get16 88 = mk.inodeSize % 65536 := by
  unfold mkfsSuper
  refine ⟨?_, ?_, ?_, ?_, ?_, ?_, ?_, ?_, ?_⟩ <;>
    simp (disch := omega) only [get32_put32_of_out, get32_put16_of_out,
      get16_put32_of_out, get16_put16_of_out, get32_put32, get16_put16]
  · rfl
  · rfl
  · rfl

def probed (n g : Nat) : Mount :=
  { mkfsMount n with
    ready := false
    bgBlockBitmap := groupTable g fun k => metaBase (mkfsMount n).ngroups k
    bgInodeBitmap := groupTable g fun k => metaBase (mkfsMount n).ngroups k + 1
    bgInodeTable := groupTable g fun k => metaBase (mkfsMount n).ngroups k + 2 }

theorem probeSuper_eq (hm : Layout (mkfsMount n) n) {buf : Bytes}
    (hbuf : ∀ i < 512, buf i = mkfsSuper (mkfsMount n) i) :
    probeSuper buf = probed n 0 ∧ buf.get16 56 = superMagic ∧ buf.get32 24 = 0 := by
  have hgroups := hm.groups
  have hdevice := hm.device
  have hsectors := hm.sectors
  have hinodes := hm.inodesCount
  have h16 : ∀ k, k + 2 ≤ 512 → buf.get16 k = (mkfsSuper (mkfsMount n)).get16 k :=
    fun k hk => get16_congr fun i _ _ => hbuf i (by omega)
  have h32 : ∀ k, k + 4 ≤ 512 → buf.get32 k = (mkfsSuper (mkfsMount n)).get32 k :=
    fun k hk => get32_congr fun i _ _ => hbuf i (by omega)
  obtain ⟨e₀, e₄, e₂₀, e₂₄, e₃₂, e₄₀, e₅₆, e₇₆, e₈₈⟩ := mkfsSuper_fields (mkfsMount n)
  rw [← h32 _ (by omega)] at e₀ e₄ e₂₀ e₂₄ e₃₂ e₄₀ e₇₆
  rw [← h16 _ (by omega)] at e₅₆ e₈₈
  rw [Nat.mod_eq_of_lt (by omega)] at e₀ e₄
  have hng : max ((n / 2 + 8192 - 1) % 2 ^ 32 / 8192)
      (((mkfsMount n).ngroups * 2048 + 2048 - 1) % 2 ^ 32 / 2048) = (mkfsMount n).ngroups := by
    have hdef : (mkfsMount n).ngroups = (n / 2 + 8192 - 1) / 8192 := rfl
    omega
  refine ⟨?_, e₅₆, e₂₄⟩
  unfold probeSuper probed
  rw [e₀, e₄, e₂₀, e₂₄, e₃₂, e₄₀, e₇₆, e₈₈]
  exact congrArg (fun k : Nat => { mkfsMount n with
    ready := false
    ngroups := k
    bgBlockBitmap := fun _ => 0
    bgInodeBitmap := fun _ => 0
    bgInodeTable := fun _ => 0 }) hng

theorem setSlot_groupTable (g : Nat) (entry : Nat → Nat) :
    setSlot (groupTable g entry) g (entry g) = groupTable (g + 1) entry := by
  funext k
  unfold setSlot groupTable
  by_cases hk : k = g
  · simp [hk]
  rw [if_neg hk]
  by_cases hlt : k < g
  · rw [if_pos hlt, if_pos (by omega)]
  · rw [if_neg hlt, if_neg (by omega)]

theorem probeGroups_clean (hm : Layout (mkfsMount n) n)
    (hC : FormattedBlocks (mkfsMount n) gd C₀ C) :
    ∀ k g cur gb, g + k = (mkfsMount n).ngroups →
      Triple (Clean n fun B => Disk C B ∧ (cur ≠ 2 ^ 32 - 1 → gb = blk B cur))
        (probeGroups k g cur gb (probed n g))
        (fun m => Clean n fun B => Disk C B ∧ m = probed n (mkfsMount n).ngroups) F := by
  intro k
  induction k with
  | zero =>
    intro g cur gb hg
    refine .pure fun d hd => ⟨hd.1, hd.2.1, hd.2.2.1, ?_⟩
    simp [← hg]
  | succ k ih =>
    intro g cur gb hg
    have hgn : g < (mkfsMount n).ngroups := by omega
    have hlt := (hm.gdtBlock_lt hgn).2
    have hblk : (2 + g * 32 / 1024) % 2 ^ 32 = 2 + g / 32 := by
      have := hm.device
      have := hm.sectors
      omega
    -- The block of the descriptor is in the buffer, or it is read.
    have hread : Triple (Clean n fun B => Disk C B ∧ (cur ≠ 2 ^ 32 - 1 → gb = blk B cur))
        (descBlock (probed n g) cur gb (2 + g / 32))
        (fun buf => Clean n fun B => Disk C B ∧ buf = blk B (2 + g / 32)) F := by
      have := hm.groups
      refine .ite (fun hcur => .pure ?_) fun _ => ?_
      · rintro d ⟨hn, hf, hd, hgb⟩
        refine ⟨hn, hf, hd, ?_⟩
        rw [← hcur]
        exact hgb (by omega)
      · exact (mReadBlock_clean hm hlt).pre fun d hd => ⟨hd.1, hd.2.1, hd.2.2.1⟩
    have hrun : probeGroups (k + 1) g cur gb (probed n g) =
        descBlock (probed n g) cur gb (2 + g / 32) >>= fun buf =>
          probeGroups k (g + 1) (2 + g / 32) buf
            { probed n g with
              bgBlockBitmap := setSlot (probed n g).bgBlockBitmap g (buf.get32 (g * 32 % 1024))
              bgInodeBitmap := setSlot (probed n g).bgInodeBitmap g (buf.get32 (g * 32 % 1024 + 4))
              bgInodeTable := setSlot (probed n g).bgInodeTable g
                (buf.get32 (g * 32 % 1024 + 8)) } := by
      rw [← hblk]
      rfl
    rw [hrun]
    refine .bind hread fun buf => ?_
    rintro d ⟨hn, hf, hd, rfl⟩
    obtain ⟨h₁, h₂, h₃⟩ : DescIn (mkfsMount n) (blk d.bytes (2 + g / 32)) g :=
      (hC.desc g hgn).congr fun i _ _ => hd _ i (by omega)
    rw [hm.blockBitmap g hgn] at h₁
    rw [hm.inodeBitmap g hgn] at h₂
    rw [hm.inodeTable g hgn] at h₃
    have hnext : ({ probed n g with
        bgBlockBitmap := setSlot (probed n g).bgBlockBitmap g
          ((blk d.bytes (2 + g / 32)).get32 (g * 32 % 1024))
        bgInodeBitmap := setSlot (probed n g).bgInodeBitmap g
          ((blk d.bytes (2 + g / 32)).get32 (g * 32 % 1024 + 4))
        bgInodeTable := setSlot (probed n g).bgInodeTable g
          ((blk d.bytes (2 + g / 32)).get32 (g * 32 % 1024 + 8)) } : Mount) = probed n (g + 1) := by
      rw [h₁, h₂, h₃]
      unfold probed
      rw [← setSlot_groupTable g fun k => metaBase (mkfsMount n).ngroups k,
        ← setSlot_groupTable g fun k => metaBase (mkfsMount n).ngroups k + 1,
        ← setSlot_groupTable g fun k => metaBase (mkfsMount n).ngroups k + 2]
    rw [hnext]
    exact ih (g + 1) _ _ (by omega) d ⟨hn, hf, hd, fun _ => rfl⟩

/-- The probe finds the geometry the device was formatted with. -/
theorem ext2ProbeM_clean (hm : Layout (mkfsMount n) n)
    (hC : FormattedBlocks (mkfsMount n) gd C₀ C) (gb : Bytes) (writable : Bool) :
    Triple (Clean n (Disk C)) (ext2ProbeM gb writable)
      (fun m => Clean n fun B => Disk C B ∧ m = { mkfsMount n with writable := writable }) F := by
  have hgroups := hm.groups
  have hn : 3 ≤ n := by
    have := hm.fits
    have := hm.device
    omega
  have hread : Triple (Clean n (Disk C)) (blkdevRead 2 1)
      (fun buf => Clean n fun B => Disk C B ∧ ∀ i < 512, buf i = mkfsSuper (mkfsMount n) i) F := by
    rintro d ⟨hdn, hf, hd⟩
    have hin : d.inside 2 1 = true := by
      unfold Device.inside
      simp only [Bool.and_eq_true, decide_eq_true_eq]
      omega
    unfold blkdevRead
    rw [if_pos hin, if_neg (by simp [hf 0])]
    refine ⟨hdn, fun k => hf (k + 1), hd, fun i hi => ?_⟩
    have hblk := hd 1 i (by omega)
    rw [hC.super] at hblk
    exact hblk
  refine .bind hread fun buf => ?_
  rintro d ⟨hdn, hf, hd, hbuf⟩
  obtain ⟨hsuper, hmagic, hlog⟩ := probeSuper_eq hm hbuf
  rw [hsuper]
  have hd' : Clean n (Disk C) d := ⟨hdn, hf, hd⟩
  refine require_bind (fun _ => ?_) (fun h => absurd hmagic h) d hd'
  refine require_bind (fun _ => ?_) fun h => absurd (show buf.get32 24 ≤ 6 by omega) h
  refine require_bind (fun _ => ?_) fun h => absurd (Nat.le_refl 128) h
  refine require_bind (fun _ => ?_) fun h => absurd
    (show 8192 ≠ 0 ∧ 8192 ≤ 8 * 1024 ∧ 2048 ≠ 0 by decide) h
  refine require_bind (fun _ => ?_) fun h => absurd (.inl hgroups.2) h
  refine .bind kmalloc_clean fun _ => ?_
  have hcount : (probed n 0).groups = (mkfsMount n).ngroups :=
    if_pos (show (mkfsMount n).ngroups < 2 ^ 31 by omega)
  refine ((probeGroups_clean hm hC _ 0 _ gb (by omega)).pre fun d hd =>
    ⟨hd.1, hd.2.1, hd.2.2, fun h => absurd rfl h⟩).bind fun m => .pure ?_
  rintro d ⟨hdn, hf, hd, rfl⟩
  exact ⟨hdn, hf, hd, rfl⟩

/-- What is formatted can be mounted: with no request failing, the probe finds the geometry
of `ext2_mkfs`, and only a device that does not fit is refused. -/
theorem mkfs_probe (n : Nat) (gd gb : Bytes) (writable : Bool) :
    Triple (Clean n fun _ => True) (do ext2Mkfs gd; ext2ProbeM gb writable)
      (fun m => Clean n fun _ => m = { mkfsMount n with writable := writable })
      fun _ => ¬ MkfsFits n := by
  rintro d ⟨hn, hf, -⟩
  refine (ext2Mkfs_clean gd (blk d.bytes)).bind (fun _ => ?_) d ⟨hn, hf, fun _ _ _ => rfl⟩
  rintro d' ⟨hm, hn', hf', C, hC, hblocks⟩
  refine (ext2ProbeM_clean hm hblocks gb writable).post (fun m d'' h => ?_) d' ⟨hn', hf', hC⟩
  exact ⟨h.1, h.2.1, h.2.2.2⟩

end Probe

end Kil0yOS.Ext2
