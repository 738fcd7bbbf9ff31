/-
Which pages pmm_init leaves free.

A range that is reported usable frees every page from the one it starts in to the one it
ends in, and an area that is reserved takes every page from the one it starts in to the one
it ends in.  The first is too much for a range that starts or ends inside of a page.  Where
the sum of base and length passes 2^64, hardly a page is freed or taken.
-/
import Kil0yOS.Mm.BootMap

namespace Kil0yOS.Mm

open List UInt64 BootPmm Tag

variable {map mem : Lib.Bytes} {a fuel off p : Nat} {r : Range}

/-! ## Regions -/

def Marks (base length : UInt64) (p : Nat) : Prop :=
  base.toNat / 4096 ≤ p ∧ p < (base.toNat + length.toNat + 4095) % 2 ^ 64 / 4096
deriving Decidable

namespace Pmm

variable {m : Pmm} {p : Nat}

theorem used_bitmap (used : Bool) {q : Nat} (hp : p < pmmMaxPages) :
    (if used then m.bitmapSet q else m.bitmapClear q).used p =
      if p = q then used else m.used p := by
  by_cases hq : p = q
  · subst hq
    cases used <;> cases hu : m.used p <;> simp [bitmapSet, bitmapClear, hp, hu]
  cases used <;> simp only [bitmapSet, bitmapClear, Bool.false_eq_true, if_true, if_false]
  all_goals
    split
    · exact Function.update_of_ne hq ..
    · rfl

theorem used_foldl (used : Bool) (pages : List Nat) (hp : p < pmmMaxPages) :
    (pages.foldl (fun m q => if used then m.bitmapSet q else m.bitmapClear q) m).used p =
      if p ∈ pages then used else m.used p := by
  induction pages generalizing m with
  | nil => simp
  | cons q pages ih =>
    rw [foldl_cons, ih, used_bitmap used hp]
    by_cases hmem : p ∈ pages
    all_goals simp [hmem]

theorem mem_markRegion {base length : UInt64} : (p ∈ List.range' (base / 4096).toNat
      ((if ((base + length + 4096 - 1) / 4096).toNat > pmmMaxPages then pmmMaxPages
        else ((base + length + 4096 - 1) / 4096).toNat) - (base / 4096).toNat)) ↔
      p < pmmMaxPages ∧ Marks base length p := by
  have hend : ((base + length + 4096 - 1) / 4096).toNat =
      (base.toNat + length.toNat + 4095) % 2 ^ 64 / 4096 := by
    have hsum : base + length + 4096 - 1 = base + length + 4095 := by
      rw [sub_eq_add_neg, add_assoc (base + length)]
      rfl
    rw [hsum]
    simp
  have hstart : (base / 4096).toNat = base.toNat / 4096 := by
    rfl
  rw [mem_range'_1, Marks]
  split
  · omega
  · omega

theorem used_markRegion (base length : UInt64) (used : Bool) (hp : p < pmmMaxPages) :
    (m.markRegion base length used).used p = if Marks base length p then used else m.used p := by
  unfold markRegion
  rw [used_foldl used _ hp]
  simp only [mem_markRegion, hp, true_and]

end Pmm

/-! ## Ranges reported usable -/

namespace Range

variable (r : Range)

/-- Where the range ends as pmm_init finds it: the sum wraps at 2^64, and is cut at four
gigabytes. -/
def stop : Nat := min ((r.base.toNat + r.size) % 2 ^ 64) (2 ^ 32)

/-- The pages that the range frees. -/
def Meets (p : Nat) : Prop :=
  r.base.toNat < 2 ^ 32 ∧ r.base.toNat / 4096 ≤ p ∧ p < (r.stop + 4095) / 4096
deriving Decidable

/-- The range starts or ends inside of the page. -/
def Edge (p : Nat) : Prop :=
  (p * 4096 < r.base.toNat ∧ r.base.toNat < (p + 1) * 4096) ∨
    (p * 4096 < r.base.toNat + r.size ∧ r.base.toNat + r.size < (p + 1) * 4096)

end Range

theorem noteUsable_pmm (base len : UInt64) (s : BootPmm) : (s.noteUsable base len).pmm = s.pmm := by
  simp [noteUsable, apply_ite pmm]

theorem noteUsable_ramTop (base len : UInt64) (s : BootPmm) :
    (s.noteUsable base len).ramTop = s.ramTop := by
  simp [noteUsable, apply_ite ramTop]

/-- The end of a range, once it is cut. -/
theorem Range.cut_toNat (r : Range) :
    (r.base + if r.base + UInt64.ofNat r.size > pmmSpan then pmmSpan - r.base
      else UInt64.ofNat r.size).toNat = r.stop := by
  have hspan : pmmSpan.toNat = 2 ^ 32 := rfl
  have hsum : (r.base + UInt64.ofNat r.size).toNat = (r.base.toNat + r.size) % 2 ^ 64 := by
    simp
  unfold Range.stop
  split
  · next hgt =>
    have hgt : pmmSpan.toNat < (r.base + UInt64.ofNat r.size).toNat := hgt
    rw [add_comm, sub_add_cancel]
    omega
  · next hle =>
    have hle : ¬ pmmSpan.toNat < (r.base + UInt64.ofNat r.size).toNat := hle
    omega

theorem used_addUsable (r : Range) (s : BootPmm) (hp : p < pmmMaxPages) :
    (s.addUsable r.base (UInt64.ofNat r.size)).pmm.used p =
      if r.Meets p then false else s.pmm.used p := by
  unfold addUsable
  by_cases hlow : r.base < pmmSpan
  · have hcut := r.cut_toNat
    rw [if_pos hlow]
    rw [noteUsable_pmm, Pmm.used_markRegion _ _ _ hp]
    generalize (if r.base + UInt64.ofNat r.size > pmmSpan then pmmSpan - r.base
      else UInt64.ofNat r.size) = len at hcut ⊢
    have hiff : Marks r.base len p ↔ r.Meets p := by
      have hle : r.stop ≤ 2 ^ 32 := Nat.min_le_right ..
      unfold Marks Range.Meets
      rw [UInt64.toNat_add] at hcut
      omega
    simp only [hiff]
  · rw [if_neg hlow, if_neg]
    intro hmeets
    exact hlow hmeets.1

/-- The ranges `rs` have been made free. -/
def Frees (s : BootPmm) (rs : List Range) (t : BootPmm) : Prop :=
  ∀ p < pmmMaxPages, t.pmm.used p = false ↔ s.pmm.used p = false ∨ ∃ r ∈ rs, r.Meets p

/-- The ranges are made free one after the other. -/
def addRanges (s : BootPmm) (rs : List Range) : BootPmm :=
  rs.foldl (fun s r => s.addUsable r.base (UInt64.ofNat r.size)) s

theorem addRanges_append (s : BootPmm) (rs rs' : List Range) :
    addRanges s (rs ++ rs') = addRanges (addRanges s rs) rs' := foldl_append

theorem frees_addRanges (s : BootPmm) (rs : List Range) : Frees s rs (addRanges s rs) := by
  induction rs generalizing s with
  | nil =>
    intro p _
    simp [addRanges]
  | cons r rs ih =>
    intro p hp
    show (addRanges (s.addUsable r.base (UInt64.ofNat r.size)) rs).pmm.used p = false ↔ _
    rw [ih _ p hp, used_addUsable r s hp]
    by_cases hmeets : r.Meets p
    all_goals simp [hmeets]

/-! ## The multiboot information -/

/-- The entry at an address is made free, if it is usable. -/
theorem entry_eq {e : MmapEntry} (h : e.At mem a) (s : BootPmm) : (if mem.get32 (a + 16) = 1 then
      s.addUsable (UInt64.ofNat (mem.get64 a)) (UInt64.ofNat (mem.get64 (a + 8))) else s) =
      addRanges s e.range.toList := by
  obtain ⟨hbase, hlen, htype⟩ := h
  rw [hbase, hlen, htype, MmapEntry.range]
  split
  · rw [UInt64.ofNat_toNat]
    rfl
  · rfl

/-- A table is its first entry and the table behind it. -/
theorem table_cons {α : Type} {P : Nat → α → Prop} {x : α} {xs : List α} {n : Nat}
    (h : ∀ i, ∀ hi : i < (x :: xs).length, P (a + i * n) (x :: xs)[i]) :
    P a x ∧ ∀ i, ∀ hi : i < xs.length, P (a + n + i * n) xs[i] := by
  constructor
  · have hfirst := h 0 (Nat.zero_lt_succ _)
    rwa [Nat.zero_mul] at hfirst
  · intro i hi
    have hrest := h (i + 1) (Nat.succ_lt_succ hi)
    rwa [Nat.succ_mul, Nat.add_comm (i * n), ← Nat.add_assoc] at hrest

theorem filterMap_cons_eq {α β : Type} (f : α → Option β) (x : α) (xs : List α) :
    (x :: xs).filterMap f = (f x).toList ++ xs.filterMap f := by
  rw [filterMap_eq_flatMap_toList, flatMap_cons, ← filterMap_eq_flatMap_toList]

theorem mmapLoop_eq {entrySize : Nat} {entries : List MmapEntry}
    (h : ∀ i, ∀ hi : i < entries.length, entries[i].At mem (a + i * entrySize)) (s : BootPmm) :
    mmapLoop mem entrySize entries.length a s =
      addRanges s (entries.filterMap MmapEntry.range) := by
  induction entries generalizing a s with
  | nil => rfl
  | cons e entries ih =>
    obtain ⟨hfirst, hrest⟩ := table_cons h
    rw [filterMap_cons_eq, addRanges_append, ← entry_eq hfirst, ← ih hrest]
    rfl

theorem Tag.size_le_room (t : Tag) : t.size ≤ t.room := by
  unfold room
  omega

theorem Tag.room_pos {t : Tag} (h : t.At mem a) : 8 ≤ t.room := by
  have hle := t.size_le_room
  cases t with
  | mmap entrySize entries => simp only [Tag.size] at hle; omega
  | other size => have := h.2.2.2; simp only [Tag.size] at hle; omega

theorem tagLoop_eq {stop : Nat} {tags : List Tag} (h : TagsAt mem a tags)
    (hstop : a + (tags.map room).sum < stop) (hsmall : stop < a + 2 ^ 32)
    (hfuel : (tags.map room).sum < fuel) (haveMmap : Bool) (s : BootPmm) :
    tagLoop mem stop fuel a haveMmap s =
      some (haveMmap || tags.any isMmap, addRanges s (tags.flatMap Tag.ranges)) := by
  induction tags generalizing fuel a haveMmap s with
  | nil =>
    obtain ⟨fuel, rfl⟩ : ∃ n, fuel = n + 1 := ⟨fuel - 1, by omega⟩
    have hend : mem.get32 a = 0 := h
    rw [tagLoop, if_pos (Nat.lt_of_le_of_lt (Nat.le_add_right ..) hstop)]
    rw [if_pos hend, any_nil, Bool.or_false]
    rfl
  | cons t ts ih =>
    obtain ⟨hat, hrest⟩ := h
    obtain ⟨fuel, rfl⟩ : ∃ n, fuel = n + 1 := ⟨fuel - 1, by omega⟩
    rw [map_cons, sum_cons] at hstop hfuel
    have hroom := room_pos hat
    have hsize := t.size_le_room
    have hadvance : (mem.get32 (a + 4) + 7) % 2 ^ 32 / 8 * 8 = t.room := by
      rw [hat.1, Nat.mod_eq_of_lt]
      · rfl
      · unfold room at hstop
        omega
    have hnext : ∀ have' s', tagLoop mem stop fuel (a + t.room) have' s' =
        some (have' || ts.any isMmap, addRanges s' (ts.flatMap Tag.ranges)) :=
      fun have' s' => ih hrest (by omega) (by omega) (by omega) have' s'
    rw [tagLoop, if_pos (by omega), flatMap_cons, addRanges_append]
    dsimp only
    have hmoves : ¬ t.room = 0 := by omega
    rw [hadvance]
    cases t with
    | mmap entrySize entries =>
      obtain ⟨hlen, htype, hentry, hge, hentries⟩ := hat
      have hcount : (16 + entries.length * entrySize + 2 ^ 32 - 16) % 2 ^ 32 / entrySize =
          entries.length := by
        have hsmall : entries.length * entrySize < 2 ^ 32 := by
          simp only [Tag.size] at hsize
          omega
        rw [show 16 + entries.length * entrySize + 2 ^ 32 - 16 = entries.length * entrySize + 2 ^ 32
          by omega, Nat.add_mod_right, Nat.mod_eq_of_lt hsmall, Nat.mul_div_cancel _ (by omega)]
      rw [htype, if_neg (by decide), if_pos rfl, hentry, if_neg (by omega), if_neg hmoves, hlen,
        Tag.size, hcount, hnext, mmapLoop_eq hentries]
      simp [isMmap, Tag.ranges]
    | other size =>
      obtain ⟨-, hzero, hsix, -⟩ := hat
      rw [if_neg hzero, if_neg hsix, if_neg hmoves, hnext]
      rfl

theorem readInfo_eq (b : Boot) (s : BootPmm) :
    readInfo b.hw.mem b.mbInfoPhys s =
      some (b.tags.any isMmap, addRanges s (b.tags.flatMap Tag.ranges)) := by
  unfold readInfo
  by_cases hzero : b.mbInfoPhys = 0
  · rw [if_pos hzero, b.no_info hzero]
    rfl
  obtain ⟨hat, htotal⟩ := b.info hzero
  have hlt := Lib.Bytes.get32_lt b.hw.mem b.mbInfoPhys.toNat
  rw [if_neg hzero]
  exact tagLoop_eq hat (by omega) (by omega) (by omega) false s

/-! ## The firmware's map -/

theorem desc_eq {d : EfiDesc} (h : d.At map off) (s : BootPmm) : (if map.get32 off = 7 then
      s.addUsable (UInt64.ofNat (map.get64 (off + 8))) (UInt64.ofNat (map.get64 (off + 24)) * 4096)
      else s) = addRanges s d.range.toList := by
  obtain ⟨htype, hbase, hpages⟩ := h
  rw [hbase, hpages, htype, EfiDesc.range]
  split
  · have hmul : UInt64.ofNat d.pages.toNat * 4096 = UInt64.ofNat (d.pages.toNat * 4096) := by
      rw [ofNat_mul]
      rfl
    rw [hmul, UInt64.ofNat_toNat]
    rfl
  · rfl

theorem efiLoop_eq {size dsz : Nat} {descs : List EfiDesc}
    (h : ∀ i, ∀ hi : i < descs.length, descs[i].At map (off + i * dsz))
    (hsize : size = off + descs.length * dsz) (hle : size ≤ 65536) (hpos : 0 < dsz)
    (hdsz : dsz ≤ 65536) (hfuel : descs.length < fuel) (s : BootPmm) :
    efiLoop map size dsz fuel off s = some (addRanges s (descs.filterMap EfiDesc.range)) := by
  induction descs generalizing fuel off s with
  | nil =>
    obtain ⟨fuel, rfl⟩ : ∃ n, fuel = n + 1 := ⟨fuel - 1, by omega⟩
    rw [length_nil] at hsize
    rw [efiLoop, if_neg]
    · rfl
    · omega
  | cons d descs ih =>
    obtain ⟨fuel, rfl⟩ : ∃ n, fuel = n + 1 := ⟨fuel - 1, by omega⟩
    rw [length_cons, Nat.succ_mul] at hsize
    have hmod : (off + dsz) % 2 ^ 32 = off + dsz := Nat.mod_eq_of_lt (by omega)
    obtain ⟨hfirst, hrest⟩ := table_cons h
    rw [efiLoop, hmod, if_pos (by omega), filterMap_cons_eq, addRanges_append, ← desc_eq hfirst]
    exact ih hrest (by omega) (Nat.lt_of_succ_lt_succ hfuel) _

theorem efiFallback_eq (b : Boot) (haveMmap : Bool) (s : BootPmm) :
    efiFallback b.hw.efi haveMmap s =
      some (addRanges s (if haveMmap then [] else b.descs.filterMap EfiDesc.range)) := by
  unfold efiFallback
  cases hefi : b.hw.efi with
  | none =>
    rw [b.no_report hefi]
    cases haveMmap <;> rfl
  | some e =>
    cases haveMmap with
    | true => rfl
    | false =>
      have hlists := b.report e hefi
      have hge := hlists.descSize_ge
      have hlen : b.descs.length ≤ e.size := by
        rw [hlists.size_eq]
        exact Nat.le_mul_of_pos_right _ (by omega)
      dsimp only
      rw [if_neg (show ¬ e.descSize < 40 by omega)]
      apply efiLoop_eq
      · intro i hi
        rw [Nat.zero_add]
        exact hlists.descs_at i hi
      · rw [Nat.zero_add]
        exact hlists.size_eq
      · exact hlists.size_le
      · omega
      · exact hlists.descSize_le
      · omega

/-! ## The whole of pmm_init -/

namespace Boot

variable (b : Boot)

/-- Some range reported usable frees the page. -/
def Met (p : Nat) : Prop := ∃ r ∈ b.usable, r.Meets p

def Marked (p : Nat) : Prop := ∃ a ∈ b.hw.reserved b.mbInfoPhys, Marks a.1 a.2 p

end Boot

theorem used_reserve (areas : List (UInt64 × UInt64)) (m : Pmm) (hp : p < pmmMaxPages) :
    (areas.foldl (fun m a => m.markRegion a.1 a.2 true) m).used p = false ↔
      m.used p = false ∧ ¬ ∃ a ∈ areas, Marks a.1 a.2 p := by
  induction areas generalizing m with
  | nil => simp
  | cons a areas ih =>
    rw [foldl_cons, ih, Pmm.used_markRegion _ _ _ hp]
    by_cases hmarks : Marks a.1 a.2 p
    all_goals simp [hmarks]

/-- All pages are taken as used, the usable ranges made free, and the reserved areas taken
back. -/
theorem pmmInit_eq (b : Boot) (s : BootPmm) :
    pmmInit b.hw b.mbInfoPhys s =
      (let t := addRanges s.allUsed b.usable
       some { t with
        pmm := (b.hw.reserved b.mbInfoPhys).foldl (fun m a => m.markRegion a.1 a.2 true) t.pmm }) := by
  have hno : b.tags.any isMmap = false → b.tags.flatMap Tag.ranges = [] := by
    intro h
    rw [flatMap_eq_nil_iff]
    intro t ht
    have hother := any_eq_false.mp h t ht
    cases t with
    | mmap entrySize entries => exact absurd rfl hother
    | other size => rfl
  have husable : b.tags.flatMap Tag.ranges ++ (if b.tags.any isMmap then []
      else b.descs.filterMap EfiDesc.range) = b.usable := by
    unfold Boot.usable
    cases h : b.tags.any isMmap with
    | true => simp
    | false => simp [hno h]
  show (readInfo b.hw.mem b.mbInfoPhys _).bind _ = _
  rw [readInfo_eq]
  show (efiFallback b.hw.efi (b.tags.any isMmap) _).bind _ = _
  rw [efiFallback_eq, ← addRanges_append, husable]
  rfl

theorem pmmInit_used (b : Boot) (s : BootPmm) :
    ∃ t, pmmInit b.hw b.mbInfoPhys s = some t ∧
      ∀ p < pmmMaxPages, t.pmm.used p = false ↔ b.Met p ∧ ¬ b.Marked p := by
  refine ⟨_, pmmInit_eq b s, fun p hp => ?_⟩
  rw [used_reserve _ _ hp, frees_addRanges _ _ p hp, Boot.Marked, Boot.Met]
  simp [BootPmm.allUsed]

/-! ## Where the bitmap is right -/

/-- An area that is not empty takes no page that it does not reach. -/
theorem reaches_of_marks {base length : UInt64} (hpos : 0 < length.toNat)
    (h : Marks base length p) : ∃ a, p * 4096 ≤ a ∧ a < (p + 1) * 4096 ∧
      base.toNat ≤ a ∧ a < base.toNat + length.toNat := by
  obtain ⟨hlow, hhigh⟩ := h
  by_cases hfirst : p = base.toNat / 4096
  · exact ⟨base.toNat, by omega, by omega, Nat.le_refl _, by omega⟩
  · exact ⟨p * 4096, Nat.le_refl _, by omega, by omega, by omega⟩

theorem Boot.reserved_pos (b : Boot) : ∀ a ∈ b.hw.reserved b.mbInfoPhys, 0 < a.2.toNat := by
  intro a ha
  have hkernel : 0 < (b.hw.kernelEnd - b.hw.kernelStart).toNat := by
    have hlt : b.hw.kernelStart.toNat < b.hw.kernelEnd.toNat := b.kernel
    rw [UInt64.toNat_sub_of_le _ _ (UInt64.le_of_lt b.kernel)]
    omega
  unfold BootMachine.reserved at ha
  rw [append_assoc, mem_append, mem_append] at ha
  rcases ha with ha | ha | ha
  · simp only [mem_cons, not_mem_nil, or_false] at ha
    rcases ha with rfl | rfl | rfl
    · exact hkernel
    · exact (by decide : 0 < bitmapSize.toNat)
    · exact (by decide : 0 < (0x200000 : UInt64).toNat)
  · split at ha
    · next hinfo =>
      obtain rfl := mem_singleton.mp ha
      have htotal := (b.info hinfo).total
      have hlt := Lib.Bytes.get32_lt b.hw.mem b.mbInfoPhys.toNat
      rw [UInt64.toNat_ofNat']
      omega
    · cases ha
  · split at ha
    · next hfb =>
      obtain rfl := mem_singleton.mp ha
      exact Nat.pos_of_ne_zero fun h => hfb.2 (UInt64.toNat_inj.mp h)
    · cases ha

theorem Boot.reserved_of_marked {b : Boot} (h : b.Marked p) : b.Reserved p := by
  obtain ⟨r, hr, hmarks⟩ := h
  obtain ⟨a, hlow, hhigh, hin⟩ := reaches_of_marks (b.reserved_pos r hr) hmarks
  exact ⟨a, hlow, hhigh, r, hr, hin⟩

/-- No page is freed or taken wrongly: outside of the reserved areas, a page that a usable
range starts or ends in is covered by usable ranges, and a page above the base of a usable
range that reaches 2^64 is freed nevertheless; and of the reserved areas, none that reaches
2^64 has left out a page that is freed. -/
structure Boot.Sound (b : Boot) : Prop where
  edges : ∀ p < pmmMaxPages, ¬ b.Reserved p → ∀ r ∈ b.usable, r.Meets p → r.Edge p → b.Covered p
  wraps : ∀ p < pmmMaxPages, ¬ b.Reserved p → ∀ r ∈ b.usable,
    2 ^ 64 ≤ r.base.toNat + r.size → r.base.toNat ≤ p * 4096 → b.Met p
  taken : ∀ p < pmmMaxPages, b.Reserved p → b.Met p → b.Marked p

theorem Boot.sound_iff (b : Boot) :
    (∀ p < pmmMaxPages, (b.Met p ∧ ¬ b.Marked p) ↔ (b.Covered p ∧ ¬ b.Reserved p)) ↔ b.Sound := by
  constructor
  · intro h
    refine ⟨?_, ?_, ?_⟩
    · intro p hp hfree r hr hmeets _
      exact ((h p hp).mp ⟨⟨r, hr, hmeets⟩, fun hm => hfree (reserved_of_marked hm)⟩).1
    · intro p hp hfree r hr hwrap hbase
      have hmax : pmmMaxPages = 1048576 := rfl
      have hcovered : b.Covered p := fun a hlow hhigh => ⟨r, hr, by omega, by omega⟩
      exact ((h p hp).mpr ⟨hcovered, hfree⟩).1
    · intro p hp hres hmet
      by_contra hmarked
      exact ((h p hp).mp ⟨hmet, hmarked⟩).2 hres
  intro h p hp
  constructor
  · intro hfree
    obtain ⟨⟨r, hr, hmeets⟩, hmarked⟩ := hfree
    have hres : ¬ b.Reserved p := fun hres => hmarked (h.taken p hp hres ⟨r, hr, hmeets⟩)
    refine ⟨?_, hres⟩
    by_cases hedge : r.Edge p
    · exact h.edges p hp hres r hr hmeets hedge
    · unfold Range.Meets Range.stop at hmeets
      unfold Range.Edge at hedge
      exact fun a hlow hhigh => ⟨r, hr, by omega⟩
  intro hgood
  obtain ⟨hcovered, hres⟩ := hgood
  refine ⟨?_, fun hm => hres (reserved_of_marked hm)⟩
  -- the first byte of the page is in some range
  obtain ⟨r, hr, hin⟩ := hcovered (p * 4096) (Nat.le_refl _) (by omega)
  by_cases hwrap : r.base.toNat + r.size < 2 ^ 64
  · refine ⟨r, hr, ?_⟩
    unfold Range.Meets Range.stop
    have hmax : pmmMaxPages = 1048576 := rfl
    omega
  · exact h.wraps p hp hres r hr (Nat.le_of_not_lt hwrap) hin.1

/-- pmm_init ends, and the bitmap is that of the pages that may be handed out, exactly for
the boot information that is sound. -/
theorem pmmInit_pageMap_iff (b : Boot) (s : BootPmm) :
    (∃ t, pmmInit b.hw b.mbInfoPhys s = some t ∧ b.PageMap t.pmm) ↔ b.Sound := by
  obtain ⟨t, ht, hused⟩ := pmmInit_used b s
  have hmap : b.PageMap t.pmm ↔ b.Sound := by
    rw [← b.sound_iff]
    constructor
    · intro h p hp
      have htest : t.pmm.bitmapTest p = t.pmm.used p := if_neg (Nat.not_le.mpr hp)
      rw [← hused p hp, ← htest, h p, and_iff_right hp]
    intro h p
    unfold Pmm.bitmapTest
    split
    · next hge => exact iff_of_false Bool.noConfusion fun hp => absurd hp.1 (Nat.not_lt.mpr hge)
    · next hlt => rw [hused p (Nat.lt_of_not_le hlt), h p (Nat.lt_of_not_le hlt),
        and_iff_right (Nat.lt_of_not_le hlt)]
  rw [← hmap, ht]
  constructor
  · intro h
    obtain ⟨u, hu, hpage⟩ := h
    cases hu
    exact hpage
  · intro h
    exact ⟨t, rfl, h⟩

def bootPmm : BootPmm := ⟨⟨fun _ => false, pmmMaxPages, 0⟩, [], 0⟩

/-- Boot information at 64 KiB with one usable range of 4 KiB that starts in the middle of
a page. -/
def halfPageMem : Lib.Bytes :=
  (((((Lib.Bytes.put32 (fun _ => 0) 0x10000 56).put32 0x10008 6).put32 0x1000C 40).put32 0x10010
    24).put64 0x10018 0x300800).put64 0x10020 0x1000 |>.put32 0x10028 1

theorem halfPage_entry : MmapEntry.At halfPageMem 0x10018 ⟨0x300800, 0x1000, 1⟩ :=
  ⟨by decide +kernel, by decide +kernel, by decide +kernel⟩

def halfPage : Boot where
  hw :=
    { mem := halfPageMem, kernelStart := 0x100000, kernelEnd := 0x180000, bitmap := 0x120000
      fbBase := 0, fbSize := 0, efi := none }
  mbInfoPhys := 0x10000
  tags := [.mmap 24 [⟨0x300800, 0x1000, 1⟩]]
  descs := []
  info := fun _ =>
    { tags_at := by
        refine ⟨⟨by decide +kernel, by decide +kernel, by decide +kernel, by decide, ?_⟩,
          show halfPageMem.get32 0x10030 = 0 by decide +kernel⟩
        intro i hi
        obtain rfl : i = 0 := Nat.lt_one_iff.mp hi
        exact halfPage_entry
      total := by decide +kernel }
  no_info := fun h => absurd h (by decide)
  report := fun _ h => nomatch h
  no_report := fun _ => rfl
  kernel := by decide

/-- The first half of the page that is freed was not reported usable. -/
theorem half_usable_page_freed :
    ∃ t, pmmInit halfPage.hw halfPage.mbInfoPhys bootPmm = some t ∧
      t.pmm.bitmapTest 0x300 = false ∧ ¬ halfPage.Covered 0x300 ∧ ¬ halfPage.PageMap t.pmm := by
  obtain ⟨t, ht, hused⟩ := pmmInit_used halfPage bootPmm
  have husable : halfPage.usable = [⟨0x300800, 0x1000⟩] := rfl
  have hfree : t.pmm.bitmapTest 0x300 = false := by
    show (if pmmMaxPages ≤ 0x300 then true else t.pmm.used 0x300) = false
    rw [if_neg (by decide), hused 0x300 (by decide)]
    constructor
    · exact ⟨_, husable ▸ mem_singleton_self _, by decide⟩
    · unfold Boot.Marked
      decide +kernel
  have hcovered : ¬ halfPage.Covered 0x300 := by
    intro h
    obtain ⟨r, hr, hbase, -⟩ := h 0x300000 (by decide) (by decide)
    obtain rfl := mem_singleton.mp hr
    exact absurd hbase (by decide)
  exact ⟨t, ht, hfree, hcovered, fun h => hcovered ((h 0x300).mp hfree).2.1⟩

end Kil0yOS.Mm
