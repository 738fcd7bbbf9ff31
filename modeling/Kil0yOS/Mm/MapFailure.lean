/-
What a failed `uvm_map_range` leaves behind.

When there is no frame for a page, the pages before it are unmapped and their frames
given back, whether the call had mapped them or had found them mapped.  The page
tables it has made stay.  So the call is undone exactly when no page it has reached was
mapped already, and each had its table.  Ranges lie below four gigabytes.
-/
import Kil0yOS.Mm.CreateDirs
import Kil0yOS.Mm.FrameRuns

namespace Kil0yOS.Mm

open Lib List Memory Function Pmm

/-! ## The promise -/

/-- The entry of a USER page. -/
def userEntry (s : Space) (v : Nat) : Option UInt64 :=
  if hasFlag (vmmGetPte s v) vmmPresent && hasFlag (vmmGetPte s v) vmmUser then
    some (vmmGetPte s v)
  else none

def Memory.entry (m : Memory) (c : Nat × Nat) : Option UInt64 := userEntry (m.space c.1) c.2

/-- The frames that the loop of `uvm_map_range` fills with zeros. -/
def zeroedPages (a : Nat) (prot : UInt32) : List Nat → Memory → List Nat
  | [], _ => []
  | v :: vs, m =>
    let pte := vmmGetPte (m.space a) v
    if hasFlag pte vmmPresent && hasFlag pte vmmUser then
      match m.mapPage a v (pte &&& ~~~0xFFF) (protToPte (pteToProt pte ||| prot)) with
      | none => []
      | some m => zeroedPages a prot vs m
    else
      let (pmm, phys) := m.pmm.pmmAllocPage
      if phys = 0 then []
      else
        match { m with pmm := pmm }.mapPage a v phys (protToPte prot) with
        | none => []
        | some m => entryPage phys :: zeroedPages a prot vs m

/-- The USER pages are those from before, with frames nobody has written to, and the
free pages are free. -/
structure Undone (m m' : Memory) (zeroed : List Nat) : Prop where
  entries : m'.entry = m.entry
  contents : ∀ c p, m.owner c = some p → p ∉ zeroed
  frames : ∀ p ∈ m.pmm.freePages, p ∈ m'.pmm.freePages

/-- None of the pages the loop comes to with the free pages there are is a USER page, and each
it maps has its table. -/
def Undoable (m : Memory) (a : Nat) (vs : List Nat) : Prop :=
  (∀ u ∈ vs.take (m.pmm.freePages.length + 1), userPage (m.space a) u = none) ∧
    ∀ u ∈ vs.take m.pmm.freePages.length, (tablePage (m.space a) (windowOf u)).isSome = true

variable {m m' m₁ : Memory} {a p u v : Nat} {vs done : List Nat} {s s' : Space} {c : Nat × Nat}
  {phys flags : UInt64} {prot : UInt32}

/-! ## Single pages -/

theorem userEntry_eq_none : userEntry s v = none ↔ userPage s v = none := by
  unfold userPage userEntry
  split <;> simp

theorem userEntry_of_pte (h : vmmGetPte s' u = vmmGetPte s u) : userEntry s' u = userEntry s u := by
  unfold userEntry
  rw [h]

theorem userEntry_of_kernelOnly (h : KernelOnly s u) : userEntry s u = none := by
  rw [userEntry, h.2, Bool.and_false]
  rfl

theorem entry_of_ne (hother : ∀ b, b ≠ a → m'.space b = m.space b)
    (hself : ∀ u, u ≠ v → userEntry (m'.space a) u = userEntry (m.space a) u) (hc : c ≠ (a, v)) :
    m'.entry c = m.entry c := by
  obtain ⟨b, u⟩ := c
  by_cases hb : b = a
  · subst hb
    exact hself u fun hu => hc (by rw [hu])
  · exact congrArg (userEntry · u) (hother b hb)

/-- A mapping changes one entry.  The page has its table, or takes one from the
allocator. -/
theorem mapPage_entry (hu : hasFlag flags vmmUser = true) (h : m.mapPage a v phys flags = some m') :
    (∀ c, c ≠ (a, v) → m'.entry c = m.entry c) ∧
      ((tablePage (m.space a) (windowOf v)).isSome = true ∧ m'.pmm = m.pmm ∧
          (∀ w, (tablePage (m'.space a) w).isSome = (tablePage (m.space a) w).isSome) ∨
        tablePage (m.space a) (windowOf v) = none ∧ m'.pmm = m.pmm.pmmAllocPage.1 ∧
          m.pmm.pmmAllocPage.2 ≠ 0) := by
  unfold mapPage at h
  split at h
  · cases h
  rename_i pmm s hs
  cases h
  obtain ⟨page, entries, rfl, ht⟩ := vmmMapPage_eq hu hs
  refine ⟨fun c => entry_of_ne (fun b hb => space_setMm_of_ne hb) fun u hne => ?_, ?_⟩
  · rw [space_setMm_self]
    rcases ht.pte hne _ with hsame | ⟨hk, hk'⟩
    · exact userEntry_of_pte hsame
    · exact (userEntry_of_kernelOnly hk').trans (userEntry_of_kernelOnly hk).symm
  cases ht with
  | old hw =>
    left
    refine ⟨by simp [tablePage, hw], rfl, fun w => ?_⟩
    rw [space_setMm_self]
    by_cases hwv : w = windowOf v
    · simp [tablePage, setPte, hwv, hw]
    · simp only [tablePage, setPte, update_of_ne hwv]
  | split hw hz => exact .inr ⟨by simp only [tablePage, hw], rfl, hz⟩
  | new hw hz => exact .inr ⟨by simp only [tablePage, hw], rfl, hz⟩

theorem releasePage_entry (h : FramesOk m) (hp : userPage (m.space a) v = some p) :
    (releasePage a m v).entry (a, v) = none ∧
      ∀ c, c ≠ (a, v) → (releasePage a m v).entry c = m.entry c := by
  have hr := releasePage_releases hp (h.managed (a, v) p hp)
  constructor
  · rw [entry, userEntry_eq_none]
    have ho := congrFun hr.owner (a, v)
    rw [update_self] at ho
    exact ho
  · refine fun c => entry_of_ne hr.other fun u hu => userEntry_of_pte ?_
    rw [hr.self]
    exact (vmmUnmapPage_spec hp).2 u hu

/-! ## The way back -/

/-- The pages `done` are gone, with their frames free, and the pages nobody has are in use
still. -/
structure RolledBack (a : Nat) (m : Memory) (done : List Nat) (m' : Memory) : Prop where
  gone : ∀ u ∈ done, m'.entry (a, u) = none
  freed : ∀ u ∈ done, ∀ p, m.owner (a, u) = some p → p ∈ m'.pmm.freePages
  idle : ∀ p, m.pmm.used p = true → (∀ c, m.owner c ≠ some p) → m'.pmm.used p = true

theorem rollback (h : FramesOk m) (hnd : done.Nodup)
    (hdone : ∀ u ∈ done, ∃ p, userPage (m.space a) u = some p) :
    RolledBack a m done (done.foldl (releasePage a) m) ∧
      (∀ c, (∀ u ∈ done, c ≠ (a, u)) → (done.foldl (releasePage a) m).entry c = m.entry c) ∧
      ∀ p ∈ m.pmm.freePages, p ∈ (done.foldl (releasePage a) m).pmm.freePages := by
  induction done generalizing m with
  | nil => exact ⟨⟨by simp, by simp, fun _ hu _ => hu⟩, fun _ _ => rfl, fun _ hp => hp⟩
  | cons v vs ih =>
    obtain ⟨⟨p, hp⟩, hvs⟩ := forall_mem_cons.mp hdone
    obtain ⟨hv, hnd⟩ := nodup_cons.mp hnd
    have hman := h.managed (a, v) p hp
    obtain ⟨hgone, hother⟩ := releasePage_entry h hp
    have hr := releasePage_releases hp hman
    have hpmm := pmmFreePage_pageAddr hman.1 hman.2 (h.owned.used (c := (a, v)) hp)
    rw [← hr.pmm] at hpmm
    have howner : ∀ u ∈ vs, (releasePage a m v).owner (a, u) = m.owner (a, u) := by
      intro u hu
      rw [hr.owner, update_of_ne]
      rintro ⟨⟩
      exact hv hu
    obtain ⟨hback, hsame, hfree⟩ := ih (h.releasePage hp) hnd fun u hu => by
      obtain ⟨q, hq⟩ := hvs u hu
      exact ⟨q, (howner u hu).trans hq⟩
    refine ⟨⟨forall_mem_cons.mpr ⟨?_, hback.gone⟩, forall_mem_cons.mpr ⟨fun q hq => ?_, ?_⟩, ?_⟩,
      fun c hc => ?_, fun q hq => hfree q ?_⟩
    · refine (hsame _ fun u hu => ?_).trans hgone
      rintro ⟨⟩
      exact hv hu
    · obtain rfl : p = q := Option.some.inj (hp.symm.trans hq)
      refine hfree p (mem_freePages.mpr ⟨hman.1, ?_⟩)
      rw [hpmm]
      exact update_self _ _ _
    · intro u hu q hq
      exact hback.freed u hu q ((howner u hu).trans hq)
    · intro q hq hnot
      have hqp : q ≠ p := by
        rintro rfl
        exact hnot (a, v) hp
      refine hback.idle q ?_ fun c hc => ?_
      · rw [hpmm]
        exact (update_of_ne hqp _ _).trans hq
      · rw [hr.owner] at hc
        exact hnot c (update_none_eq_some hc).2
    · obtain ⟨hcv, hcs⟩ := forall_mem_cons.mp hc
      exact (hsame c hcs).trans (hother c hcv)
    · obtain ⟨hlt, hq⟩ := mem_freePages.mp hq
      refine mem_freePages.mpr ⟨hlt, ?_⟩
      rw [hpmm]
      by_cases hqp : q = p
      · rw [hqp]
        exact update_self _ _ _
      · exact (update_of_ne hqp _ _).trans hq

/-! ## The loop -/

/-- With page zero reserved, an allocation fails when no page is free. -/
theorem Pmm.alloc_cases {pmm : Pmm} (h0 : pmm.used 0 = true) :
    pmm.freePages = [] ∧ pmm.pmmAllocPage.2 = 0 ∨
      ∃ p, pmm.freePages = p :: pmm.pmmAllocPage.1.freePages ∧ entryPage pmm.pmmAllocPage.2 = p ∧
        pmm.pmmAllocPage.2 ≠ 0 ∧ pmm.pmmAllocPage.1.used = update pmm.used p true ∧
        pmm.used p = false := by
  rw [pmmAllocPage_eq]
  cases hfs : pmm.freePages with
  | nil => exact .inl ⟨rfl, rfl⟩
  | cons p fs =>
    obtain ⟨hp, hu⟩ := mem_freePages.mp (hfs ▸ mem_cons_self)
    have hne : p ≠ 0 := by
      rintro rfl
      rw [h0] at hu
      cases hu
    refine .inr ⟨p, ?_, entryPage_pageAddr hp, mt (pageAddr_eq_zero hp).mp hne, ?_, hu⟩
    · exact congrArg _ (freePages_take hfs).symm
    · show (pmm.bitmapSet p).used = _
      rw [bitmapSet_free hp hu]

/-- One page is mapped, to its old frame or to a free one. -/
structure Mapped (a : Nat) (m : Memory) (v p : Nat) (m₁ : Memory) : Prop where
  ok : FramesOk m₁
  owner : m₁.owner = update m.owner (a, v) (some p)
  entry : ∀ c, c ≠ (a, v) → m₁.entry c = m.entry c
  used : ∀ q, m.pmm.used q = true → m₁.pmm.used q = true
  frame : m.owner (a, v) = some p ∨ m.pmm.used p = false

section

variable (h : Mapped a m v p m₁)
include h

theorem Mapped.self : userPage (m₁.space a) v = some p :=
  (congrFun h.owner (a, v)).trans (update_self _ _ _)

theorem Mapped.of_ne (hne : u ≠ v) :
    userPage (m₁.space a) u = userPage (m.space a) u :=
  (congrFun h.owner (a, u)).trans (update_of_ne (fun e => hne (Prod.mk.inj e).2) _ _)

theorem Mapped.of_used {q : Nat} (hq : m₁.pmm.used q = false) :
    m.pmm.used q = false := by
  cases hu : m.pmm.used q with
  | false => rfl
  | true =>
    rw [h.used q hu] at hq
    cases hq

end

theorem used_of_maps {page : Nat} (h0 : m.pmm.used 0 = true) (hm : Maps m m' a v page) (q : Nat)
    (hq : m.pmm.used q = true) : m'.pmm.used q = true := by
  rcases hm.pmm with he | he
  · rw [he]
    exact hq
  · rw [he]
    exact alloc_used_mono h0 q hq

theorem Mapped.of_remap (h : FramesOk m) (hp : userPage (m.space a) v = some p)
    (hpage : entryPage phys = p) (hu : hasFlag flags vmmUser = true)
    (hmap : m.mapPage a v phys flags = some m₁) : Mapped a m v p m₁ := by
  have hm := mapPage_maps hu hmap
  rw [hpage] at hm
  exact ⟨h.remap hm hp, hm.owner, (mapPage_entry hu hmap).1, used_of_maps h.zero hm, .inl hp⟩

theorem Mapped.of_fresh (h : FramesOk m) (hfree : m.pmm.used p = false)
    (hpage : entryPage m.pmm.pmmAllocPage.2 = p) (hphys : m.pmm.pmmAllocPage.2 ≠ 0)
    (hu : hasFlag flags vmmUser = true)
    (hmap : mapPage { m with pmm := m.pmm.pmmAllocPage.1 } a v m.pmm.pmmAllocPage.2 flags =
      some m₁) : Mapped a m v p m₁ := by
  have hm := mapPage_maps hu hmap
  have hok := h.map_fresh hphys hm
  rw [hpage] at hm
  refine ⟨hok, hm.owner, (mapPage_entry hu hmap).1, fun q hq => ?_, .inr hfree⟩
  exact used_of_maps h.alloc.zero hm q (alloc_used_mono h.zero q hq)

/-- The first page is there, or has its table, or takes two pages of which one stays. -/
inductive Takes (a : Nat) (m : Memory) (v p : Nat) (m₁ : Memory) : Prop
  | nothing : userPage (m.space a) v = some p → Takes a m v p m₁
  | frame : userPage (m.space a) v = none → m.pmm.freePages = p :: m₁.pmm.freePages →
    (tablePage (m.space a) (windowOf v)).isSome = true →
    (∀ w, (tablePage (m₁.space a) w).isSome = (tablePage (m.space a) w).isSome) → Takes a m v p m₁
  | table {q : Nat} {fs : List Nat} : tablePage (m.space a) (windowOf v) = none →
    m.pmm.freePages = p :: q :: fs → m₁.pmm.used q = true → (∀ c, m₁.owner c ≠ some q) →
    Takes a m v p m₁

/-- What the failed loop has done with its first page. -/
theorem mapLoop_cons (h : FramesOk m) (hl : mapLoop a prot done (v :: vs) m = some (m', false)) :
    userPage (m.space a) v = none ∧ m.pmm.freePages = [] ∧ m' = done.foldl (releasePage a) m ∨
      ∃ m₁ p, mapLoop a prot (done ++ [v]) vs m₁ = some (m', false) ∧ Mapped a m v p m₁ ∧
        Takes a m v p m₁ := by
  rw [mapLoop] at hl
  dsimp only at hl
  split at hl
  · next hflags =>
    have hp := userPage_of_flags hflags
    split at hl
    · cases hl
    · next m₁ hmap =>
      exact .inr ⟨m₁, _, hl, .of_remap h hp (entryPage_and_not_low _) (protToPte_user _) hmap,
        .nothing hp⟩
  next hflags =>
  have hnone : userPage (m.space a) v = none := by
    rw [userPage, if_neg hflags]
  rcases alloc_cases h.zero with ⟨hfree, hz⟩ | ⟨p, hfree, hpage, hphys, hused, hp⟩
  · rw [if_pos hz] at hl
    cases hl
    exact .inl ⟨hnone, hfree, by rw [FramesOk.stable.alloc_failed h hz]⟩
  rw [if_neg hphys] at hl
  split at hl
  · cases hl
  rename_i m₁ hmap
  have hm := Mapped.of_fresh h hp hpage hphys (protToPte_user _) hmap
  refine .inr ⟨m₁, p, hl, hm, ?_⟩
  rcases (mapPage_entry (protToPte_user _) hmap).2 with ⟨htable, hpmm, htables⟩ | ⟨htable, hpmm, hz⟩
  · refine .frame hnone ?_ htable htables
    rw [hpmm]
    exact hfree
  rcases alloc_cases h.alloc.zero with ⟨-, hz'⟩ | ⟨q, hfree', -, -, hused', hq⟩
  · exact absurd hz' hz
  rw [hfree'] at hfree
  refine .table htable hfree ?_ fun c hc => ?_
  · rw [hpmm]
    exact (congrFun hused' q).trans (update_self _ _ _)
  -- the page of the table is nobody's
  rw [hm.owner] at hc
  rcases update_cases hc with ⟨-, hc⟩ | ⟨-, hc⟩
  · rw [← Option.some.inj hc, hused, update_self] at hq
    cases hq
  · rw [alloc_used_mono h.zero q (h.owned.used hc)] at hq
    cases hq

theorem RolledBack.of_mapped (h : RolledBack a m₁ (done ++ [v]) m') (hm : Mapped a m v p m₁)
    (hv : v ∉ done) : RolledBack a m done m' := by
  have hmem : ∀ u ∈ done, u ∈ done ++ [v] := fun u hu => mem_append_left _ hu
  refine ⟨fun u hu => h.gone u (hmem u hu), fun u hu q hq => h.freed u (hmem u hu) q ?_,
    fun q hq hnot => h.idle q (hm.used q hq) fun c hc => ?_⟩
  · exact (hm.of_ne fun huv => hv (huv ▸ hu)).trans hq
  rw [hm.owner] at hc
  rcases update_cases hc with ⟨-, hc⟩ | ⟨-, hc⟩
  · rcases hm.frame with hp | hp
    · exact hnot _ (hp.trans hc)
    · rw [Option.some.inj hc, hq] at hp
      cases hp
  · exact hnot c hc

theorem undoable_cons (hm : Mapped a m v p m₁) (hv : v ∉ vs)
    (hnone : userPage (m.space a) v = none) (hfree : m.pmm.freePages = p :: m₁.pmm.freePages)
    (htable : (tablePage (m.space a) (windowOf v)).isSome = true)
    (htables : ∀ w, (tablePage (m₁.space a) w).isSome = (tablePage (m.space a) w).isSome) :
    Undoable m a (v :: vs) ↔ Undoable m₁ a vs := by
  have huser : ∀ n, (∀ u ∈ vs.take n, userPage (m.space a) u = none) ↔
      ∀ u ∈ vs.take n, userPage (m₁.space a) u = none := by
    refine fun n => forall₂_congr fun u hu => ?_
    rw [hm.of_ne fun huv => hv (huv ▸ mem_of_mem_take hu)]
  simp [Undoable, hfree, hnone, htable, huser, htables]

/-- The failed loop has taken back what it did from `m` on exactly when it could. -/
theorem mapLoop_fails (h : FramesOk m) (hnd : (done ++ vs).Nodup)
    (hdone : ∀ u ∈ done, ∃ p, userPage (m.space a) u = some p)
    (hl : mapLoop a prot done vs m = some (m', false)) :
    RolledBack a m done m' ∧
      (((∀ c, (∀ u ∈ done, c ≠ (a, u)) → m'.entry c = m.entry c) ∧
          ∀ p ∈ m.pmm.freePages, p ∈ m'.pmm.freePages) ↔ Undoable m a vs) := by
  induction vs generalizing m done with
  | nil => cases hl
  | cons v vs ih =>
    obtain ⟨hnd₁, hnd₂, hdisj⟩ := nodup_append.mp hnd
    have hv : v ∉ done := fun hd => hdisj v hd v mem_cons_self rfl
    rcases mapLoop_cons h hl with ⟨hnone, hfree, rfl⟩ | ⟨m₁, p, hl, hm, ht⟩
    · obtain ⟨hback, hsame, hframes⟩ := rollback h hnd₁ hdone
      exact ⟨hback, fun _ => by simp [Undoable, hfree, hnone], fun _ => ⟨hsame, hframes⟩⟩
    have hdone₁ : ∀ u ∈ done ++ [v], ∃ p, userPage (m₁.space a) u = some p := by
      refine forall_mem_append.mpr ⟨fun u hu => ?_, forall_mem_singleton.mpr ⟨p, hm.self⟩⟩
      rw [hm.of_ne fun huv => hv (huv ▸ hu)]
      exact hdone u hu
    obtain ⟨hback, hiff⟩ := ih hm.ok (by rwa [append_assoc]) hdone₁ hl
    have hgone := hback.gone v (by simp)
    refine ⟨hback.of_mapped hm hv, ?_⟩
    cases ht with
    | nothing hp =>
      -- a USER page goes with the others
      refine ⟨fun hsame => ?_, fun hundo => ?_⟩
      · have hold := (hsame.1 (a, v) fun u hu e => hv ((Prod.mk.inj e).2 ▸ hu)).symm.trans hgone
        rw [entry, userEntry_eq_none, hp] at hold
        cases hold
      · rw [hundo.1 v (by simp)] at hp
        cases hp
    | @table q fs htable hfree hused hnobody =>
      refine ⟨fun hsame => ?_, fun hundo => ?_⟩
      · have hq := (mem_freePages.mp (hsame.2 q (by rw [hfree]; simp))).2
        rw [hback.idle q hused hnobody] at hq
        cases hq
      · have hsome := hundo.2 v (by rw [hfree]; simp)
        rw [htable] at hsome
        cases hsome
    | frame hnone hfree htable htables =>
      rw [undoable_cons hm (nodup_cons.mp hnd₂).1 hnone hfree htable htables, ← hiff, hfree]
      constructor
      · rintro ⟨hsame, hframes⟩
        refine ⟨fun c hc => ?_, (forall_mem_cons.mp hframes).2⟩
        obtain ⟨hc, hcv⟩ := forall_mem_append.mp hc
        exact (hsame c hc).trans (hm.entry c (hcv v (by simp))).symm
      rintro ⟨hsame, hframes⟩
      refine ⟨fun c hc => ?_, forall_mem_cons.mpr ⟨hback.freed v (by simp) p hm.self, hframes⟩⟩
      by_cases hcv : c = (a, v)
      · rw [hcv, hgone]
        exact (userEntry_eq_none.mpr hnone).symm
      · exact (hsame c (forall_mem_append.mpr ⟨hc, by simpa using hcv⟩)).trans (hm.entry c hcv)

/-- The loop writes to frames that were free. -/
theorem used_of_zeroedPages (h : FramesOk m) (hp : p ∈ zeroedPages a prot vs m) :
    m.pmm.used p = false := by
  induction vs generalizing m with
  | nil => cases hp
  | cons v vs ih =>
    rw [zeroedPages] at hp
    dsimp only at hp
    split at hp
    · next hflags =>
      split at hp
      · cases hp
      rename_i m₁ hmap
      have hm := Mapped.of_remap h (userPage_of_flags hflags) (entryPage_and_not_low _)
        (protToPte_user _) hmap
      exact hm.of_used (ih hm.ok hp)
    rcases alloc_cases h.zero with ⟨-, hz⟩ | ⟨q, -, hpage, hphys, -, hq⟩
    · rw [if_pos hz] at hp
      cases hp
    rw [if_neg hphys] at hp
    split at hp
    · cases hp
    rename_i m₁ hmap
    have hm := Mapped.of_fresh h hq hpage hphys (protToPte_user _) hmap
    rcases mem_cons.mp hp with rfl | hp
    · rw [hpage]
      exact hq
    · exact hm.of_used (ih hm.ok hp)

theorem uvmMapRange_fails_iff {start stop : UInt64} (hrange : start < stop) :
    m.uvmMapRange a start stop prot = some (m', false) ↔
      mapLoop a prot [] (pagesOf (pageDown start) (pageUp stop)) m = some (m', false) := by
  rw [uvmMapRange, if_neg (UInt64.not_le.mpr hrange)]
  dsimp only
  split <;> simp_all

theorem mapLoop_stop (hfree : m.pmm.freePages = []) (hnone : userPage (m.space a) v = none) :
    mapLoop a prot done (v :: vs) m = some (done.foldl (releasePage a) m, false) := by
  have halloc : m.pmm.pmmAllocPage = (m.pmm, 0) := by
    rw [pmmAllocPage_eq, hfree]
    rfl
  rw [mapLoop]
  rw [if_neg, halloc]
  · rfl
  · intro hflags
    rw [userPage_of_flags hflags] at hnone
    cases hnone

/-- With no page free, a USER page before one that is not is unmapped. -/
theorem mapLoop_loses (h : FramesOk m) (hfree : m.pmm.freePages = [])
    (hv : (hasFlag (vmmGetPte (m.space a) v) vmmPresent &&
      hasFlag (vmmGetPte (m.space a) v) vmmUser) = true) (hu : userPage (m.space a) u = none) :
    ∃ m', mapLoop a prot [] (v :: u :: vs) m = some (m', false) ∧ m'.entry (a, v) = none ∧
      ∀ b, b ≠ a → m'.space b = m.space b := by
  have hp := userPage_of_flags hv
  obtain ⟨m₁, hmap, hpmm, hother⟩ : ∃ m₁, m.mapPage a v (vmmGetPte (m.space a) v &&& ~~~0xFFF)
      (protToPte (pteToProt (vmmGetPte (m.space a) v) ||| prot)) = some m₁ ∧ m₁.pmm = m.pmm ∧
      ∀ b, b ≠ a → m₁.space b = m.space b := by
    obtain ⟨page, entries, hs, -, -⟩ := table_of_userPage hp
    rw [mapPage, vmmMapPage, hs]
    exact ⟨_, rfl, rfl, fun b hb => space_setMm_of_ne hb⟩
  have hm := Mapped.of_remap h hp (entryPage_and_not_low _) (protToPte_user _) hmap
  have hnone : userPage (m₁.space a) u = none := by
    rw [hm.of_ne]
    · exact hu
    · rintro rfl
      rw [hp] at hu
      cases hu
  refine ⟨releasePage a m₁ v, ?_, (releasePage_entry hm.ok hm.self).1, fun b hb => ?_⟩
  · rw [mapLoop]
    rw [if_pos hv, hmap]
    exact mapLoop_stop (by rw [hpmm]; exact hfree) hnone
  · exact ((releasePage_releases hm.self (hm.ok.managed (a, v) _ hm.self)).other b hb).trans
      (hother b hb)

/-- A memory with two free pages: one for a page of the user and one for its table. -/
def lastTwo : Memory :=
  { boot with
    pmm := { used := fun p => decide (p ≠ 5 ∧ p ≠ 6), usedPages := 1048574, lastPage := 5 } }

theorem lastTwo_booted : lastTwo.Booted :=
  ⟨boot_booted.pages, boot_booted.regions, by decide, rfl⟩

def lastMapped : Memory := lastTwo.run (.mapRange 0 0x10000000 0x10001000 uvmProtWrite)

theorem lastTwo_step : lastTwo.Step (.mapRange 0 0x10000000 0x10001000 uvmProtWrite) lastMapped :=
  step_run (by decide) (by decide +kernel)

theorem lastMapped_ok : FramesOk lastMapped := by
  refine (FramesOk.stable.step trivial (.of_booted lastTwo_booted) (.of_booted lastTwo_booted) ?_
    (fun _ _ => trivial) lastTwo_step).1
  trivial

theorem lastMapped_full : lastMapped.pmm.freePages = [] := by
  apply eq_nil_iff_forall_not_mem.mpr
  intro p hp
  have hfree := (mem_freePages.mp hp).2
  rcases update_cases hfree with ⟨-, hfree⟩ | ⟨h6, hfree⟩
  · cases hfree
  · rcases update_cases hfree with ⟨-, hfree⟩ | ⟨h5, hfree⟩
    · cases hfree
    · exact of_decide_eq_false hfree ⟨h5, h6⟩

/-- The call finds the first page mapped and has none for the second. -/
theorem lastMapped_fails : ∃ m',
    lastMapped.uvmMapRange 0 0x10000000 0x10002000 uvmProtWrite = some (m', false) ∧
      m'.entry (0, 0x10000) = none ∧ ∀ b, b ≠ 0 → m'.space b = lastMapped.space b := by
  obtain ⟨m', hl, hrest⟩ : ∃ m', mapLoop 0 uvmProtWrite [] [0x10000, 0x10001] lastMapped =
      some (m', false) ∧ m'.entry (0, 0x10000) = none ∧
      ∀ b, b ≠ 0 → m'.space b = lastMapped.space b :=
    mapLoop_loses lastMapped_ok lastMapped_full (by decide +kernel) (by decide +kernel)
  refine ⟨m', ?_, hrest⟩
  rw [uvmMapRange_fails_iff (by decide)]
  exact hl

/-- With its table there, a page is mapped to a free one. -/
theorem mapLoop_maps {fs : List Nat} (h : FramesOk m) (hfree : m.pmm.freePages = p :: fs)
    (hnone : userPage (m.space a) v = none)
    (htable : (tablePage (m.space a) (windowOf v)).isSome = true) :
    ∃ m₁, mapLoop a prot done (v :: vs) m = mapLoop a prot (done ++ [v]) vs m₁ ∧
      m₁.pmm.freePages = fs ∧ Mapped a m v p m₁ := by
  rcases alloc_cases h.zero with ⟨hnil, -⟩ | ⟨q, hcons, hpage, hphys, -, hq⟩
  · rw [hnil] at hfree
    cases hfree
  obtain ⟨rfl, hrest⟩ := cons.inj (hcons.symm.trans hfree)
  obtain ⟨m₁, hmap, hpmm⟩ : ∃ m₁, mapPage { m with pmm := m.pmm.pmmAllocPage.1 } a v
      m.pmm.pmmAllocPage.2 (protToPte prot) = some m₁ ∧ m₁.pmm = m.pmm.pmmAllocPage.1 := by
    unfold tablePage at htable
    split at htable
    · next hs =>
      unfold mapPage vmmMapPage
      rw [show Memory.space { m with pmm := m.pmm.pmmAllocPage.1 } a = m.space a from rfl, hs]
      exact ⟨_, rfl, rfl⟩
    all_goals cases htable
  refine ⟨m₁, ?_, hpmm ▸ hrest, .of_fresh h hq hpage hphys (protToPte_user _) hmap⟩
  rw [mapLoop, if_neg]
  · simp only [hphys, if_false, hmap]
  · intro hflags
    rw [userPage_of_flags hflags] at hnone
    cases hnone

/-- The page is unmapped again.  Its table stays. -/
def lastUnmapped : Memory := lastMapped.uvmUnmapRange 0 0x10000000 0x10001000

theorem lastMapped_user : userPage (lastMapped.space 0) 0x10000 = some 5 := by decide +kernel

theorem lastUnmapped_ok : FramesOk lastUnmapped :=
  FramesOk.stable.uvmUnmapRange lastMapped_ok (by decide +kernel)

theorem lastUnmapped_free : lastUnmapped.pmm.freePages = [5] := by
  have hmem : ∀ p, p ∈ lastUnmapped.pmm.freePages ↔ p = 5 := by
    intro p
    have hpmm : lastUnmapped.pmm = (releasePage 0 lastMapped 0x10000).pmm := rfl
    have hr := releasePage_releases lastMapped_user (by decide)
    have hused := lastMapped_ok.owned.used (c := (0, 0x10000)) lastMapped_user
    rw [hpmm, hr.pmm, pmmFreePage_pageAddr (by decide) (by decide) hused, mem_freePages]
    constructor
    · rintro ⟨hp, hfree⟩
      rcases update_cases hfree with ⟨rfl, -⟩ | ⟨-, hfree⟩
      · rfl
      · have := mem_freePages.mpr ⟨hp, hfree⟩
        rw [lastMapped_full] at this
        cases this
    · rintro rfl
      exact ⟨by decide, rfl⟩
  have hnd : lastUnmapped.pmm.freePages.Nodup := by
    refine Nodup.filter _ (nodup_append'.mpr ⟨nodup_range', nodup_range', fun p hp hp' => ?_⟩)
    rw [mem_range'_1] at hp hp'
    omega
  exact perm_singleton.mp ((perm_ext_iff_of_nodup hnd (nodup_singleton 5)).mpr (by simpa using hmem))

end Kil0yOS.Mm
