/-
What the calls on descriptors and descriptor tables do to the references.

Every call keeps the counts.  The one exception is `dup` on a full table: the
reference it took stays in no place, and is listed as lost.
-/
import Kil0yOS.Files.CloseRefs

namespace Kil0yOS.Files

open Lib State List Function

variable {s s' : State} {hand hand' loose dying : List Nat} {f p t pid parent : Nat} {tb : FdTable}
  {q : Nat × FdTable} {β : Type} {fd : Int} {child : Nat}

namespace State

def tableAt (s : State) (pid : Nat) : Option (Nat × FdTable) :=
  (s.procs pid).bind fun t => (s.tables t).map fun tb => (t, tb)

def fileAt (s : State) (pid : Nat) (fd : Int) : Option Nat :=
  (s.tableAt pid).bind fun p => p.2.get fd

def freeSlots (s : State) (pid : Nat) : Nat :=
  match s.tableAt pid with
  | none => 0
  | some p => p.2.fds.count none

theorem tableAt_eq_some :
    s.tableAt pid = some q ↔ s.procs pid = some q.1 ∧ s.tables q.1 = some q.2 := by
  rw [tableAt]
  cases hp : s.procs pid with
  | none => simp
  | some t =>
    cases ht : s.tables t with
    | none =>
      simp only [Option.bind_some, ht, Option.map_none, Option.some.injEq]
      constructor
      · intro h
        cases h
      · intro h
        rw [← h.1, ht] at h
        cases h.2
    | some tb =>
      simp only [Option.bind_some, ht, Option.map_some, Option.some.injEq]
      constructor
      · intro h
        subst h
        exact ⟨rfl, ht⟩
      intro h
      obtain ⟨h1, h2⟩ := h
      rw [← h1, ht, Option.some.injEq] at h2
      exact Prod.ext h1 h2

end State

namespace SameTables

theorem tableAt (h : SameTables s' s) (pid : Nat) : s'.tableAt pid = s.tableAt pid := by
  simp [State.tableAt, h.procs, h.tables]

theorem freeSlots (h : SameTables s' s) (pid : Nat) : s'.freeSlots pid = s.freeSlots pid := by
  simp [State.freeSlots, h.tableAt]

end SameTables

theorem FdTable.get_eq_some (h : tb.get fd = some f) : tb.fds[fd.toNat]? = some (some f) := by
  rw [FdTable.get] at h
  split at h
  · cases h
  · rw [Option.join_eq_some_iff] at h
    exact h

theorem FdTable.get_eq_none (hlen : tb.fds.length = lnxMaxFds) (hfd : ¬ (fd < 0 ∨ fd ≥ lnxMaxFds))
    (h : tb.get fd = none) : tb.fds[fd.toNat]? = some none := by
  rw [FdTable.get, if_neg hfd, Option.join_eq_none_iff] at h
  rcases h with h | h
  · rw [getElem?_eq_none_iff] at h
    omega
  · exact h

/-! ## Small steps -/

theorem Good.permHand (h : Good s hand loose dying) (hperm : hand'.Perm hand) :
    Good s hand' loose dying := by
  refine { h with files := ?_ }
  apply h.files.move rfl rfl rfl
  intro g
  rw [hperm.count_eq g]

theorem get_bind_run (g : State → M β) (s : State) : (get >>= g) s = g s s := rfl

theorem procTable_of_none (h : s.procs pid = none) : procTable pid s = some (none, s) := by
  rw [procTable, get_bind_run, h]
  rfl

theorem procTable_bind (h : Good s hand loose dying) {g : Option (Nat × FdTable) → M β}
    {R : β → State → Prop} :
    Returns (procTable pid >>= g) s R ↔ Returns (g (s.tableAt pid)) s R := by
  have heq : (procTable pid >>= g) s = g (s.tableAt pid) s := by
    show (procTable pid s).bind (fun q => g q.1 q.2) = _
    have hpt : procTable pid s = some (s.tableAt pid, s) := by
      rw [tableAt]
      cases hp : s.procs pid with
      | none => exact procTable_of_none hp
      | some t =>
        obtain ⟨tb, ht⟩ := h.table_of_proc hp
        rw [procTable, get_bind_run, hp]
        simp only [Option.bind_some, ht, Option.map_some]
        rfl
    rw [hpt]
    rfl
  rw [Returns, Returns, heq]

theorem fdGetFile_bind (h : Good s hand loose dying) {g : Option Nat → M β} {R : β → State → Prop} :
    Returns (fdGetFile pid fd >>= g) s R ↔ Returns (g (s.fileAt pid fd)) s R := by
  rw [fdGetFile, bind_assoc, procTable_bind h, fileAt]
  cases s.tableAt pid with
  | none => rfl
  | some q => rfl

theorem slotRefs_pos {fd : Nat} (hp : Good s hand loose dying) (ht : s.tables t = some tb)
    (hfd : tb.fds[fd]? = some (some f)) : 0 < s.slotRefs.count f := by
  apply count_pos_iff.mpr
  rw [slotRefs, mem_gather]
  refine ⟨t, hp.table_lt ht, ?_⟩
  rw [slotsOf, ht]
  exact mem_filterMap.mpr ⟨some f, mem_of_getElem? hfd, rfl⟩

theorem held_pos_of_fileAt (h : Good s hand loose dying)
    (hf : s.fileAt pid fd = some f) : 0 < s.held f := by
  rw [fileAt, Option.bind_eq_some_iff] at hf
  obtain ⟨q, hq, hget⟩ := hf
  have := slotRefs_pos h (tableAt_eq_some.mp hq).2 (FdTable.get_eq_some hget)
  rw [held]
  omega

/-- An allocation, without which the call ends. -/
theorem kmalloc_guard {a : β} {x : M β} {R : β → State → Prop}
    (hstop : ∀ m, R a { s with mallocs := m }) (hgo : ∀ m, Returns x { s with mallocs := m } R) :
    Returns (kmalloc >>= fun b => if b = true then x else pure a) s R := by
  have hrun : (kmalloc >>= fun b => if b = true then x else pure a : M β) s =
      (if s.mallocs.headD true = true then x else pure a : M β)
        { s with mallocs := s.mallocs.tail } := rfl
  rw [Returns, hrun]
  by_cases hb : s.mallocs.headD true = true
  · rw [if_pos hb]
    exact hgo _
  · rw [if_neg hb]
    exact returns_pure.mpr (hstop _)

theorem fileRef_returns (h : Good s hand loose dying) (hf : 0 < s.held f + hand.count f) :
    Returns (fileRef f) s fun _ s' => Good s' (f :: hand) loose dying ∧ SameTables s' s := by
  obtain ⟨file, hfile⟩ := h.files.exists_of_held hf
  rw [fileRef, returns_get_bind, hfile]
  simp only
  rw [setRefs, returns_modify]
  refine ⟨?_, ⟨rfl, rfl, rfl⟩⟩
  have hlive := h.files.live f file hfile
  refine h.setRefs hfile ?_ ?_ ?_
  · rw [count_cons_self]
    omega
  · rw [count_cons_self]
    omega
  · intro g hg
    rw [count_cons_of_ne (Ne.symm hg)]

/-- A new file object has its first reference in hand, and owns what its kind
says. -/
theorem fileNew_returns (kind : FileKind) (h : Good s hand (kind.socks ++ loose) dying) :
    Returns (fileNew kind) s fun r s' => SameTables s' s ∧
      match r with
      | none => Good s' hand (kind.socks ++ loose) dying
      | some f => Good s' (f :: hand) loose dying := by
  refine kmalloc_guard (fun m => ⟨⟨rfl, rfl, rfl⟩, h.withMallocs m⟩) fun m => ?_
  rw [returns_modifyGet]
  exact ⟨⟨rfl, rfl, rfl⟩, (h.withMallocs m).newFile⟩

/-! ## Slots -/

theorem tableAt_putTable (hq : s.tableAt pid = some q) (tb' : FdTable) :
    (s.putTable q.1 tb').tableAt pid = some (q.1, tb') :=
  tableAt_eq_some.mpr ⟨(tableAt_eq_some.mp hq).1, update_self ..⟩

theorem Good.fillSlot (h : Good s (f :: hand) loose dying) (ht : s.tables t = some tb) {fd : Nat}
    (hfd : tb.fds[fd]? = some none) :
    Good (s.putTable t { tb with fds := tb.fds.set fd (some f) }) hand loose dying := by
  refine h.setSlot ht hfd fun g => ?_
  rw [Good.count_toList_some, Option.toList_none, count_nil, count_cons]
  simp only [beq_iff_eq]
  omega

theorem fdInstall_returns (h : Good s (f :: hand) loose []) :
    Returns (fdInstall pid f) s fun r s' =>
      (r < 0 ∧ s' = s ∧ s.freeSlots pid = 0) ∨
        (0 ≤ r ∧ Good s' hand loose [] ∧ s'.freeSlots pid + 1 = s.freeSlots pid) := by
  rw [fdInstall, procTable_bind h]
  cases hq : s.tableAt pid with
  | none =>
    rw [returns_pure]
    refine .inl ⟨by decide, rfl, ?_⟩
    rw [freeSlots, hq]
  | some q =>
    simp only
    have ht := (tableAt_eq_some.mp hq).2
    cases hi : q.2.fds.findIdx? Option.isNone with
    | none =>
      rw [returns_pure]
      refine .inl ⟨by decide, rfl, ?_⟩
      rw [freeSlots, hq]
      apply count_eq_zero.mpr
      intro hmem
      have := findIdx?_eq_none_iff.mp hi none hmem
      cases this
    | some fd =>
      simp only
      obtain ⟨hlt, hnone, _⟩ := findIdx?_eq_some_iff_getElem.mp hi
      have hget : q.2.fds[fd]? = some none := by
        rw [getElem?_eq_getElem hlt, Option.isNone_iff_eq_none.mp hnone]
      rw [setSlot, returns_modify_bind, returns_pure]
      refine .inr ⟨Int.natCast_nonneg fd, ?_, ?_⟩
      · exact h.fillSlot ht hget
      have htab := tableAt_putTable hq { q.2 with fds := q.2.fds.set fd (some f) }
      rw [freeSlots, htab, freeSlots, hq]
      simp only
      rw [count_set hlt]
      have hpos : 0 < q.2.fds.count none :=
        count_pos_iff.mpr (mem_of_getElem? hget)
      rw [getElem?_eq_getElem hlt, Option.some.injEq] at hget
      simp only [hget, beq_self_eq_true, if_true]
      simp only [reduceCtorEq, beq_iff_eq, if_false]
      omega

/-- What `fd_close` leaves of the table of the caller. -/
def ClosedSlot (s s' : State) (pid : Nat) (fd : Int) : Prop :=
  ∀ q, s.tableAt pid = some q →
    (q.2.get fd = none ∧ s'.tableAt pid = some q) ∨
      s'.tableAt pid = some (q.1, { q.2 with fds := q.2.fds.set fd.toNat none })

section

variable (h : Good s hand loose [])
include h

theorem fdClose_returns (fd : Int) :
    Returns (fdClose pid fd) s fun _ s' => Good s' hand loose [] ∧ ClosedSlot s s' pid fd := by
  rw [fdClose, procTable_bind h]
  cases hq : s.tableAt pid with
  | none =>
    rw [returns_pure]
    refine ⟨h, ?_⟩
    intro q hq'
    rw [hq] at hq'
    cases hq'
  | some q =>
    simp only
    have ht := (tableAt_eq_some.mp hq).2
    cases hget : q.2.get fd with
    | none =>
      rw [returns_pure]
      refine ⟨h, ?_⟩
      intro q' hq'
      rw [hq] at hq'
      cases hq'
      exact .inl ⟨hget, hq⟩
    | some f =>
      rw [setSlot, returns_modify_bind]
      have hg : Good (s.putTable q.1 { q.2 with fds := q.2.fds.set fd.toNat none })
          (f :: hand) loose [] := by
        refine h.setSlot ht (FdTable.get_eq_some hget) fun g => ?_
        rw [Good.count_toList_some, Option.toList_none, count_nil, count_cons]
        simp only [beq_iff_eq]
        omega
      refine (fileClose_returns hg).last fun _ s₁ h₁ => ⟨h₁.1, fun q' hq' => ?_⟩
      rw [hq] at hq'
      cases hq'
      rw [h₁.2.tableAt]
      exact .inr (tableAt_putTable hq _)

/-- A copy of a descriptor.  The reference is lost when no slot is free. -/
theorem fdDup_returns (fd : Int) :
    Returns (fdDup pid fd) s fun _ s' => ∃ lost, Good s' (lost ++ hand) loose [] ∧
      (s.fileAt pid fd = none ∨ 0 < s.freeSlots pid → lost = []) := by
  rw [fdDup, fdGetFile_bind h]
  cases hf : s.fileAt pid fd with
  | none =>
    exact .pure ⟨[], h, fun _ => rfl⟩
  | some f =>
    have hheld := held_pos_of_fileAt h hf
    apply (fileRef_returns h (by omega)).bind
    intro _ s₁ h₁
    apply (fdInstall_returns h₁.1).mono
    intro r s₂ h₂
    rcases h₂ with ⟨_, he, hfree⟩ | ⟨_, hg, _⟩
    · subst he
      refine ⟨[f], h₁.1, ?_⟩
      intro hcond
      rw [h₁.2.freeSlots] at hfree
      rcases hcond with hcond | hcond
      · cases hcond
      · omega
    · exact ⟨[], hg, fun _ => rfl⟩

theorem fdDup2_returns (fd fd2 : Int) :
    Returns (fdDup2 pid fd fd2) s fun _ s' => Good s' hand loose [] := by
  refine returns_guard (fun _ => h) fun heq => ?_
  rw [fdGetFile_bind h]
  cases hf : s.fileAt pid fd with
  | none =>
    exact .pure h
  | some f =>
    refine returns_guard (fun _ => h) fun hrange => ?_
    apply (fdClose_returns h fd2).bind
    intro _ s₁ h₁
    obtain ⟨hg₁, hclosed⟩ := h₁
    rw [fileAt, Option.bind_eq_some_iff] at hf
    obtain ⟨q, hq, hget⟩ := hf
    have hlen := (h.tables.live q.1 q.2 (tableAt_eq_some.mp hq).2).2.2
    -- the slot of `fd` is as before, and that of `fd2` is free
    have hslots : ∃ tb', s₁.tableAt pid = some (q.1, tb') ∧
        tb'.fds[fd.toNat]? = some (some f) ∧ tb'.fds[fd2.toNat]? = some none := by
      have hfd := FdTable.get_eq_some hget
      rcases hclosed q hq with ⟨hnone, ht⟩ | ht
      · exact ⟨q.2, ht, hfd, FdTable.get_eq_none hlen hrange hnone⟩
      refine ⟨_, ht, ?_, ?_⟩
      · have hne : fd2.toNat ≠ fd.toNat := by
          have hrange' : ¬ (fd < 0 ∨ fd ≥ lnxMaxFds) := by
            intro hc
            rw [FdTable.get, if_pos hc] at hget
            cases hget
          omega
        rw [getElem?_set_ne hne]
        exact hfd
      · rw [getElem?_set_self (by omega)]
    obtain ⟨tb', htab, hfd, hfd2⟩ := hslots
    rw [procTable_bind hg₁, htab]
    have ht' := (tableAt_eq_some.mp htab).2
    have hpos := slotRefs_pos hg₁ ht' hfd
    apply (fileRef_returns hg₁ (by rw [held]; omega)).bind
    intro _ s₂ h₂
    rw [setSlot, returns_modify_bind, returns_pure]
    exact h₂.1.fillSlot (h₂.2.tables ▸ ht') hfd2

end

/-! ## Tables -/

/-- The console goes into slots that are free. -/
theorem installTtys_returns (n i : Nat) (h : Good s hand loose []) (hq : s.tableAt pid = some q)
    (hfree : ∀ j, i ≤ j → j < i + n → q.2.fds[j]? = some none) :
    Returns (installTtys pid i n) s fun _ s' => Good s' hand loose [] := by
  induction n generalizing s i q with
  | zero =>
    rw [installTtys, returns_pure]
    exact h
  | succ n ih =>
    refine (fileNew_returns .tty h).option (fun _ h₁ => .pure h₁.2) fun f s₁ h₁ => ?_
    have hg := h₁.2
    have hq₁ : s₁.tableAt pid = some q := (h₁.1.tableAt pid).trans hq
    rw [procTable_bind hg, hq₁]
    have ht := (tableAt_eq_some.mp hq₁).2
    have hi := hfree i (Nat.le_refl i) (by omega)
    apply ih (i + 1) (hg.fillSlot ht hi) (tableAt_putTable hq₁ _)
    intro j hj hjn
    rw [getElem?_set_ne (by omega)]
    exact hfree j (by omega) (by omega)

theorem fdTableInit_returns (h : Good s hand loose []) (hpid : pid < maxProcesses)
    (hnone : s.procs pid = none) :
    Returns (fdTableInit pid) s fun _ s' => Good s' hand loose [] := by
  refine kmalloc_guard (fun m => h.withMallocs m) fun m => ?_
  refine installTtys_returns 3 0 (q := (s.nextTable, _)) ?_ (tableAt_eq_some.mpr
    ⟨update_self .., update_self ..⟩) ?_
  · refine (h.withMallocs m).newTable hpid hnone length_replicate fun g => ?_
    simp
  intro j _ hj
  have : j < lnxMaxFds := by
    simp only [lnxMaxFds]
    omega
  simp [this]

theorem refSlots_returns (fds : List (Option Nat)) (h : Good s hand loose dying)
    (hlive : ∀ f, some f ∈ fds → 0 < s.slotRefs.count f) :
    Returns (refSlots fds) s fun _ s' =>
      Good s' (fds.filterMap id ++ hand) loose dying ∧ SameTables s' s := by
  induction fds generalizing s hand with
  | nil =>
    rw [refSlots, returns_pure]
    exact ⟨h, SameTables.refl s⟩
  | cons x fds ih =>
    cases x with
    | none =>
      exact ih h fun f hf => hlive f (mem_cons_of_mem _ hf)
    | some f =>
      have hpos := hlive f mem_cons_self
      apply (fileRef_returns h (by rw [held]; omega)).bind
      intro _ s₁ h₁
      apply (ih h₁.1 ?_).mono
      · intro _ s₂ h₂
        refine ⟨h₂.1.permHand ?_, h₂.2.trans h₁.2⟩
        exact perm_middle.symm
      · intro g hg
        rw [h₁.2.slotRefs]
        exact hlive g (mem_cons_of_mem _ hg)

section

variable (h : Good s hand loose [])
include h

theorem fdTableFork_returns (hchild : child < maxProcesses)
    (hnone : s.procs child = none) (hparent : s.procs parent ≠ none) :
    Returns (fdTableFork parent child) s fun _ s' => Good s' hand loose [] := by
  refine kmalloc_guard (fun m => h.withMallocs m) fun m => ?_
  have hm := h.withMallocs m
  rw [procTable_bind hm]
  obtain ⟨t, hp⟩ := Option.ne_none_iff_exists'.mp hparent
  obtain ⟨tb, ht⟩ := h.table_of_proc hp
  have hq : tableAt { s with mallocs := m } parent = some (t, tb) :=
    tableAt_eq_some.mpr ⟨hp, ht⟩
  rw [hq]
  have hslots : ∀ f, some f ∈ tb.fds → 0 < (slotRefs { s with mallocs := m }).count f := by
    intro f hf
    obtain ⟨i, hi⟩ := getElem?_of_mem hf
    exact slotRefs_pos hm ht hi
  apply (refSlots_returns tb.fds hm hslots).bind
  intro _ s₁ h₁
  rw [returns_modify]
  refine h₁.1.newTable hchild ((congrFun h₁.2.procs child).trans hnone)
    (h.tables.live t tb ht).2.2 fun g => ?_
  simp [Nat.add_comm]

theorem fdTableShare_returns (hchild : child < maxProcesses)
    (hnone : s.procs child = none) :
    Returns (fdTableShare parent child) s fun _ s' => Good s' hand loose [] := by
  rw [fdTableShare, procTable_bind h]
  cases hq : s.tableAt parent with
  | none =>
    exact .pure h
  | some q =>
    rw [returns_modify]
    have ht := (tableAt_eq_some.mp hq).2
    have hlive := h.tables.live q.1 q.2 ht
    refine h.setUsers hchild ht hnone ?_ ?_ ?_
    · rw [Good.count_toList_some, if_pos rfl, Option.toList_none, count_nil]
      omega
    · omega
    · intro i hi
      rw [Good.count_toList_some, if_neg (Ne.symm hi)]
      exact ⟨rfl, rfl⟩

theorem fdTableExit_returns :
    Returns (fdTableExit pid) s fun _ s' => Good s' hand loose [] := by
  rw [fdTableExit, procTable_bind h]
  cases hq : s.tableAt pid with
  | none =>
    exact .pure h
  | some q =>
    simp only
    obtain ⟨hp, ht⟩ := tableAt_eq_some.mp hq
    by_cases hlast : q.2.refs - 1 > 0
    · rw [if_pos hlast, returns_modify]
      refine h.setUsers (h.pid_lt hp) ht hp ?_ hlast ?_
      · rw [Good.count_toList_some, if_pos rfl, Option.toList_none, count_nil]
        omega
      · intro i hi
        rw [Good.count_toList_some, if_neg (Ne.symm hi)]
        exact ⟨rfl, rfl⟩
    · rw [if_neg hlast]
      have hg : Good { s with procs := update s.procs pid none, tables := update s.tables q.1 none }
          (q.2.fds.filterMap id ++ hand) loose [] :=
        h.freeTable hp ht hlast
      apply (fileCloses_returns _ hg).mono
      intro _ s₁ h₁
      exact h₁.1

end

end Kil0yOS.Files
