/-
What holds between the calls and, with the references a call has in hand, inside of
them: every reference is counted, and everything referred to is there.

`hand` are the references a call holds in its own variables, `loose` the sockets
that no file and no backlog owns yet, and `dying` the sockets whose end has begun.
All three are empty between two calls, unless references have been lost.
-/
import Kil0yOS.Lib.Returns
import Kil0yOS.Lib.Tables
import Kil0yOS.Files.Calls

namespace Kil0yOS.Files

open Lib State List Function Option

namespace State

variable {refs : Int} {fd : Nat} {x y : Option Nat}

def held (s : State) (f : Nat) : Nat :=
  s.slotRefs.count f + (s.queued.map ScmRef.file).count f

def sockOf (s : State) (f : Nat) : List Nat :=
  match s.files f with
  | some file => file.kind.socks
  | none => []

def pendOf (s : State) (dying : List Nat) (l : Nat) : List Nat :=
  if l ∈ dying then []
  else
    match s.socks l with
    | some u => u.pend
    | none => []

def backlogs (s : State) (dying : List Nat) : List Nat := gather s.nextSock (s.pendOf dying)

def fileSocks (s : State) : List Nat := gather s.nextFile s.sockOf

end State

/-- File objects count the references to them, and one that is gone was closed
once. -/
structure FileRefs (s : State) (hand : List Nat) : Prop where
  fresh : ∀ f, s.nextFile ≤ f → s.files f = none
  live : ∀ f file, s.files f = some file →
    file.refs = ((s.held f + hand.count f : Nat) : Int) ∧ 0 < s.held f + hand.count f ∧
      s.closes.count f = 0
  dead : ∀ f, s.files f = none →
    s.held f + hand.count f = 0 ∧ s.closes.count f = if f < s.nextFile then 1 else 0

/-- A table that lost a process without `fd_table_exit` counts more users than it has. -/
structure TableRefs (s : State) : Prop where
  fresh : ∀ t, s.nextTable ≤ t → s.tables t = none
  slots : ∀ p, maxProcesses ≤ p → s.procs p = none
  live : ∀ t tb, s.tables t = some tb →
    (s.tableRefs.count t : Int) ≤ tb.refs ∧ 0 < tb.refs ∧ tb.fds.length = lnxMaxFds
  dead : ∀ t, s.tables t = none → s.tableRefs.count t = 0

structure Owners (s : State) (loose dying : List Nat) : Prop where
  fresh : ∀ k, s.nextSock ≤ k → s.socks k = none
  once : ∀ k, s.fileSocks.count k + (s.backlogs dying).count k + loose.count k =
    if (s.socks k).isSome then 1 else 0

structure Peers (s : State) (dying : List Nat) : Prop where
  pointsBack : ∀ k u p, s.socks k = some u → u.peer = some p → k ∉ dying →
    p ∉ dying ∧ ∃ v, s.socks p = some v ∧ v.peer = some k
  idle : ∀ k u, s.socks k = some u → u.state ≠ .connected → u.peer = none

/-- Nobody has got hold of the socket so far: nothing waits in it, and it has no
name. -/
def Untouched (s : State) (c : Nat) : Prop :=
  (∀ u, s.socks c = some u → u.scm = [] ∧ u.pend = []) ∧ ∀ n ∈ s.bindTab, n.map Prod.snd ≠ some c

structure Backlogs (s : State) (dying : List Nat) : Prop where
  untouched : ∀ l u c, s.socks l = some u → l ∉ dying → c ∈ u.pend → Untouched s c
  bound : ∀ n ∈ s.bindTab, ∀ l, n.map Prod.snd = some l → (s.socks l).isSome

/-- References handed to a send are on their way, delivered or released, and were
delivered after their message. -/
structure Conserved (s : State) : Prop where
  balance : ∀ r, s.handed.count r =
    s.queued.count r + (s.delivered.map Prod.fst).count r + s.released.count r
  onTime : ∀ d ∈ s.delivered, d.1.off ≤ d.2

structure Counted (s : State) (hand loose dying : List Nat) : Prop where
  files : FileRefs s hand
  tables : TableRefs s
  owners : Owners s loose dying
  backlogs : Backlogs s dying
  scm : Conserved s

structure Good (s : State) (hand loose dying : List Nat) : Prop
    extends Counted s hand loose dying where
  peers : Peers s dying

variable {s s' : State} {hand hand' loose loose' dying : List Nat} {f k p t pid : Nat} {file : File}
  {tb : FdTable}

/-! ## Changes of one part -/

namespace FileRefs

section

variable (h : FileRefs s hand)
include h

theorem mem_lt (hf : s.files f = some file) : f < s.nextFile := by
  by_contra hn
  rw [h.fresh f (Nat.le_of_not_lt hn)] at hf
  cases hf

theorem exists_of_held (hpos : 0 < s.held f + hand.count f) : ∃ file, s.files f = some file := by
  cases hf : s.files f with
  | some file => exact ⟨file, rfl⟩
  | none =>
    have := (h.dead f hf).1
    omega

/-- References move between the slots, the queues and the hand. -/
theorem move (hfiles : s'.files = s.files)
    (hnext : s'.nextFile = s.nextFile) (hcloses : s'.closes = s.closes)
    (hbal : ∀ f, s'.held f + hand'.count f = s.held f + hand.count f) : FileRefs s' hand' := by
  constructor
  · intro f hf
    rw [hfiles]
    rw [hnext] at hf
    exact h.fresh f hf
  · intro f file hf
    rw [hfiles] at hf
    rw [hbal f, hcloses]
    exact h.live f file hf
  · intro f hf
    rw [hfiles] at hf
    rw [hbal f, hcloses, hnext]
    exact h.dead f hf

theorem set {x : Option File} (hlt : f < s'.nextFile)
    (hle : s.nextFile ≤ s'.nextFile) (hnext : ∀ g, g ≠ f → (g < s'.nextFile ↔ g < s.nextFile))
    (hfiles : s'.files = update s.files f x)
    (hlive : ∀ file, x = some file → file.refs = ((s'.held f + hand'.count f : Nat) : Int) ∧
      0 < s'.held f + hand'.count f ∧ s'.closes.count f = 0)
    (hdead : x = none → s'.held f + hand'.count f = 0 ∧ s'.closes.count f = 1)
    (hother : ∀ g, g ≠ f → s'.held g + hand'.count g = s.held g + hand.count g ∧
      s'.closes.count g = s.closes.count g) : FileRefs s' hand' := by
  constructor
  · intro g hg
    rw [hfiles, update_of_ne (by omega)]
    exact h.fresh g (by omega)
  · intro g file hg
    rcases update_cases (hfiles ▸ hg) with ⟨rfl, hx⟩ | ⟨hgf, hg⟩
    · exact hlive file hx
    · rw [(hother g hgf).1, (hother g hgf).2]
      exact h.live g file hg
  · intro g hg
    rcases update_cases (hfiles ▸ hg) with ⟨rfl, hx⟩ | ⟨hgf, hg⟩
    · rw [if_pos hlt]
      exact hdead hx
    · rw [(hother g hgf).1, (hother g hgf).2]
      simp only [hnext g hgf]
      exact h.dead g hg

end

end FileRefs

theorem TableRefs.set (h : TableRefs s) {x : Option FdTable} (hlt : t < s'.nextTable)
    (hle : s.nextTable ≤ s'.nextTable) (htables : s'.tables = update s.tables t x)
    (hslots : ∀ p, maxProcesses ≤ p → s'.procs p = none)
    (hlive : ∀ tb, x = some tb →
      (s'.tableRefs.count t : Int) ≤ tb.refs ∧ 0 < tb.refs ∧ tb.fds.length = lnxMaxFds)
    (hdead : x = none → s'.tableRefs.count t = 0)
    (hother : ∀ i, i ≠ t → s'.tableRefs.count i = s.tableRefs.count i) : TableRefs s' := by
  refine ⟨?_, hslots, ?_, ?_⟩
  · intro i hi
    rw [htables, update_of_ne (by omega)]
    exact h.fresh i (by omega)
  · intro i tb hi
    rcases update_cases (htables ▸ hi) with ⟨rfl, hx⟩ | ⟨hit, hi⟩
    · exact hlive tb hx
    · rw [hother i hit]
      exact h.live i tb hi
  · intro i hi
    rcases update_cases (htables ▸ hi) with ⟨rfl, hx⟩ | ⟨hit, hi⟩
    · exact hdead hx
    · rw [hother i hit]
      exact h.dead i hi

/-! ## Parts that stay -/

structure SameTables (s' s : State) : Prop where
  tables : s'.tables = s.tables
  nextTable : s'.nextTable = s.nextTable
  procs : s'.procs = s.procs

namespace SameTables

theorem refl (s : State) : SameTables s s := ⟨rfl, rfl, rfl⟩

theorem trans {s₁ s₂ s₃ : State} (h : SameTables s₃ s₂) (h' : SameTables s₂ s₁) :
    SameTables s₃ s₁ :=
  ⟨h.tables.trans h'.tables, h.nextTable.trans h'.nextTable, h.procs.trans h'.procs⟩

theorem slotRefs (h : SameTables s' s) : s'.slotRefs = s.slotRefs := by
  simp only [State.slotRefs, h.nextTable]
  apply gather_congr
  intro t _
  simp only [slotsOf, h.tables]

end SameTables

namespace Good

theorem withMallocs (h : Good s hand loose dying) (m : List Bool) :
    Good { s with mallocs := m } hand loose dying :=
  ⟨⟨{ h.files with },
    { h.tables with },
    { h.owners with }, { h.backlogs with },
    { h.scm with }⟩, { h.peers with }⟩

/-! ## File objects -/

section

variable {files : Nat → Option File} {nextFile : Nat} {closes : List Nat}

theorem held_files : held { s with files := files, nextFile := nextFile, closes := closes } f =
    s.held f := rfl

/-- File objects change, and with them only what counts and owns. -/
theorem ofFiles (h : Good s hand loose dying)
    (hrefs : FileRefs { s with files := files, nextFile := nextFile, closes := closes } hand')
    (hown : ∀ k, (fileSocks { s with files := files, nextFile := nextFile }).count k +
      loose'.count k = s.fileSocks.count k + loose.count k) :
    Good { s with files := files, nextFile := nextFile, closes := closes } hand' loose' dying := by
  refine ⟨⟨hrefs, { h.tables with },
    ⟨h.owners.fresh, fun k => ?_⟩, { h.backlogs with },
    { h.scm with }⟩, { h.peers with }⟩
  have hold := h.owners.once k
  have hnew := hown k
  show (fileSocks { s with files := files, nextFile := nextFile }).count k +
    (s.backlogs dying).count k + loose'.count k = if (s.socks k).isSome then 1 else 0
  omega

end

theorem newFile {kind : FileKind} (h : Good s hand (kind.socks ++ loose) dying) :
    Good { s with
      files := update s.files s.nextFile (some { kind := kind, refs := 1 })
      nextFile := s.nextFile + 1 } (s.nextFile :: hand) loose dying := by
  have hdead := h.files.dead s.nextFile (h.files.fresh _ (Nat.le_refl _))
  rw [if_neg (Nat.lt_irrefl _)] at hdead
  refine h.ofFiles (h.files.set (Nat.lt_succ_self _) (Nat.le_succ _) ?_ rfl ?_ nofun ?_) fun k => ?_
  · dsimp only
    omega
  · intro file hf
    cases hf
    rw [held_files, count_cons_self, ← Nat.add_assoc, hdead.1]
    exact ⟨rfl, Nat.one_pos, hdead.2⟩
  · intro g hg
    rw [count_cons_of_ne (Ne.symm hg)]
    exact ⟨rfl, rfl⟩
  · -- the new file owns what its kind says
    rw [fileSocks, gather_succ_of_eq]
    · simp only [sockOf, update_self, count_append]
      exact Nat.add_assoc ..
    · intro i hi
      simp only [sockOf, update_of_ne hi]

/-- The reference count of a live file is changed together with the hand. -/
theorem setRefs (h : Good s hand loose dying) (hf : s.files f = some file)
    (hrefs : refs = ((s.held f + hand'.count f : Nat) : Int)) (hpos : 0 < s.held f + hand'.count f)
    (hother : ∀ g, g ≠ f → hand'.count g = hand.count g) :
    Good { s with files := update s.files f (some { file with refs := refs }) } hand' loose
      dying := by
  refine h.ofFiles (h.files.set (h.files.mem_lt hf) (Nat.le_refl _) (fun _ _ => Iff.rfl) rfl ?_
    nofun ?_) fun k => ?_
  · intro file' hf'
    cases hf'
    exact ⟨hrefs, hpos, (h.files.live f file hf).2.2⟩
  · intro g hg
    rw [hother g hg]
    exact ⟨rfl, rfl⟩
  have hsame : fileSocks { s with files := update s.files f (some { file with refs := refs }) } =
      s.fileSocks := by
    refine gather_congr fun g _ => ?_
    by_cases hg : g = f
    · simp [sockOf, hg, hf]
    · simp only [sockOf, update_of_ne hg]
  rw [hsame]

/-- The last reference goes.  What the file owned has no owner then. -/
theorem freeFile (h : Good s (f :: hand) loose dying) (hf : s.files f = some file)
    (hlast : file.refs - 1 = 0) :
    Good { s with files := update s.files f none, closes := f :: s.closes } hand
      (file.kind.socks ++ loose) dying := by
  have hlt := h.files.mem_lt hf
  have hlive := h.files.live f file hf
  rw [count_cons_self] at hlive
  refine h.ofFiles (h.files.set hlt (Nat.le_refl _) (fun _ _ => Iff.rfl) rfl
    nofun ?_ ?_) fun k => ?_
  · intro _
    rw [held_files, count_cons_self, hlive.2.2]
    exact ⟨by omega, rfl⟩
  · intro g hg
    rw [count_cons_of_ne (Ne.symm hg), count_cons_of_ne (Ne.symm hg)]
    exact ⟨rfl, rfl⟩
  · have hswap := gather_count_swap (b := s.sockOf)
      (c := sockOf { s with files := update s.files f none }) hlt
      (fun g hg => by simp only [sockOf, update_of_ne hg]) k
    simp only [sockOf, hf, update_self, count_nil] at hswap
    simp only [count_append, fileSocks]
    omega

/-! ## Slots and tables -/

theorem count_filterMap_id (l : List (Option Nat)) (g : Nat) :
    (l.filterMap id).count g = l.count (some g) := by
  induction l with
  | nil => rfl
  | cons x l ih =>
    cases x with
    | none => simpa [count_cons] using ih
    | some f =>
      rw [filterMap_cons_some (show id (some f) = some f from rfl), count_cons, count_cons, ih]
      simp

theorem count_slots_set {l : List (Option Nat)} (hx : l[fd]? = some x) (y : Option Nat) (g : Nat) :
    ((l.set fd y).filterMap id).count g + x.toList.count g =
      (l.filterMap id).count g + y.toList.count g := by
  obtain ⟨hlt, hget⟩ := List.getElem?_eq_some_iff.mp hx
  have hopt : ∀ z : Option Nat, z.toList.count g = if (z == some g) = true then 1 else 0 := by
    intro z
    cases z with
    | none => rfl
    | some f => simp [count_cons]
  rw [count_filterMap_id, count_filterMap_id, count_set hlt, hopt, hopt, hget]
  split
  · rename_i hxg
    have hmem : some g ∈ l := by
      rw [← eq_of_beq hxg, ← hget]
      exact getElem_mem hlt
    have := count_pos_iff.mpr hmem
    omega
  · omega

section

variable (h : Good s hand loose dying)
include h

theorem table_lt (ht : s.tables t = some tb) : t < s.nextTable := by
  by_contra hn
  rw [h.tables.fresh t (Nat.le_of_not_lt hn)] at ht
  cases ht

theorem pid_lt (hp : s.procs pid = some t) : pid < maxProcesses := by
  by_contra hn
  rw [h.tables.slots pid (Nat.le_of_not_lt hn)] at hp
  cases hp

theorem table_of_proc (hp : s.procs pid = some t) :
    ∃ tb, s.tables t = some tb := by
  cases ht : s.tables t with
  | some tb => exact ⟨tb, rfl⟩
  | none =>
    have hle := count_le_gather (b := fun p => (s.procs p).toList) (h.pid_lt hp) t
    rw [hp] at hle
    have hzero := h.tables.dead t ht
    rw [tableRefs] at hzero
    simp [hzero] at hle

end

section

variable {tables : Nat → Option FdTable} {nextTable : Nat} {procs : Nat → Option Nat}

/-- Tables change, and with them only the references of their slots. -/
theorem ofTables (h : Good s hand loose dying)
    (htables : TableRefs { s with tables := tables, nextTable := nextTable, procs := procs })
    (hbal : ∀ g, (State.slotRefs { s with tables := tables, nextTable := nextTable }).count g +
      hand'.count g = s.slotRefs.count g + hand.count g) :
    Good { s with tables := tables, nextTable := nextTable, procs := procs } hand' loose dying := by
  refine ⟨⟨h.files.move rfl rfl rfl fun g => ?_, htables, { h.owners with },
    { h.backlogs with }, { h.scm with }⟩,
    { h.peers with }⟩
  have hg := hbal g
  show (slotRefs { s with tables := tables, nextTable := nextTable }).count g +
    (s.queued.map ScmRef.file).count g + hand'.count g = s.held g + hand.count g
  rw [held]
  omega

end

theorem slotRefs_swap (ht : s.tables t = some tb) (hlt : t < s.nextTable) (x : Option FdTable)
    (g : Nat) : (State.slotRefs { s with tables := update s.tables t x }).count g +
        (tb.fds.filterMap id).count g =
      s.slotRefs.count g + (x.elim [] fun tb => tb.fds.filterMap id).count g := by
  have hswap := gather_count_swap (b := s.slotsOf)
    (c := slotsOf { s with tables := update s.tables t x }) hlt
    (fun i hi => by simp only [slotsOf, update_of_ne hi]) g
  simp only [slotsOf, ht, update_self] at hswap
  cases x <;> exact hswap

/-- A slot is written, and what was in it is in hand. -/
theorem setSlot (h : Good s hand loose dying) (ht : s.tables t = some tb)
    (hx : tb.fds[fd]? = some x)
    (hbal : ∀ g, y.toList.count g + hand'.count g = x.toList.count g + hand.count g) :
    Good (s.putTable t { tb with fds := tb.fds.set fd y }) hand' loose dying := by
  have hlt := h.table_lt ht
  refine h.ofTables (h.tables.set hlt (Nat.le_refl _) rfl h.tables.slots ?_ nofun
    fun i _ => rfl) fun g => ?_
  · intro tb' hx
    cases hx
    have hlive := h.tables.live t tb ht
    exact ⟨hlive.1, hlive.2.1, length_set.trans hlive.2.2⟩
  have h1 := slotRefs_swap ht hlt (some { tb with fds := tb.fds.set fd y }) g
  have h2 := count_slots_set hx y g
  have h3 := hbal g
  simp only [elim_some] at h1
  omega

theorem tableRefs_swap (hpid : pid < maxProcesses) (hx : s.procs pid = x) (y : Option Nat)
    (i : Nat) :
    (tableRefs { s with procs := update s.procs pid y }).count i + x.toList.count i =
      s.tableRefs.count i + y.toList.count i := by
  have hswap := gather_count_swap
    (c := fun p => (update s.procs pid y p).toList) hpid
    (fun p hp => by rw [update_of_ne hp]) i
  simp only [hx, update_self] at hswap
  exact hswap

theorem slots_update (h : Good s hand loose dying) (hpid : pid < maxProcesses) (p : Nat)
    (hp : maxProcesses ≤ p) : update s.procs pid y p = none := by
  rw [update_of_ne (by omega)]
  exact h.tables.slots p hp

theorem count_toList_some (a i : Nat) : (some a).toList.count i = if a = i then 1 else 0 := by
  simp [count_cons]

section

variable (h : Good s hand loose dying)
include h

/-- A process without a table gets one of its own, with references that were in
hand. -/
theorem newTable (hpid : pid < maxProcesses)
    (hnone : s.procs pid = none) {fds : List (Option Nat)} (hlen : fds.length = lnxMaxFds)
    (hbal : ∀ g, hand'.count g + (fds.filterMap id).count g = hand.count g) :
    Good { s with
      procs := update s.procs pid (some s.nextTable)
      tables := update s.tables s.nextTable (some { refs := 1, fds := fds })
      nextTable := s.nextTable + 1 } hand' loose dying := by
  have hswap := tableRefs_swap hpid hnone (some s.nextTable)
  simp only [count_toList_some, toList_none, count_nil] at hswap
  have hzero := h.tables.dead s.nextTable (h.tables.fresh _ (Nat.le_refl _))
  refine h.ofTables (h.tables.set (Nat.lt_succ_self _) (Nat.le_succ _) rfl (h.slots_update hpid)
    ?_ nofun ?_) fun g => ?_
  · intro tb hx
    cases hx
    have hs := hswap s.nextTable
    rw [if_pos rfl] at hs
    simp only [tableRefs] at hs hzero ⊢
    exact ⟨by omega, by omega, hlen⟩
  · intro i hit
    have hs := hswap i
    rw [if_neg (Ne.symm hit)] at hs
    simp only [tableRefs] at hs ⊢
    omega
  · rw [slotRefs, gather_succ_of_eq (b := s.slotsOf), count_append]
    · have hg := hbal g
      simp only [slotsOf, update_self]
      rw [slotRefs]
      omega
    · intro i hi
      simp only [slotsOf, update_of_ne hi]

/-- The number of users of a table changes by one process that comes or goes. -/
theorem setUsers (hpid : pid < maxProcesses)
    (ht : s.tables t = some tb) (hx : s.procs pid = x)
    (hrefs : refs + (x.toList.count t : Int) = tb.refs + (y.toList.count t : Int)) (hpos : 0 < refs)
    (hother : ∀ i, i ≠ t → x.toList.count i = 0 ∧ y.toList.count i = 0) :
    Good { s with
      procs := update s.procs pid y
      tables := update s.tables t (some { tb with refs := refs }) } hand loose dying := by
  have hswap := tableRefs_swap hpid hx y
  have hlt := h.table_lt ht
  refine h.ofTables (h.tables.set hlt (Nat.le_refl _) rfl (h.slots_update hpid) ?_
    nofun ?_) fun g => ?_
  · intro tb' hx'
    cases hx'
    have hs := hswap t
    have hlive := h.tables.live t tb ht
    simp only [tableRefs] at hs hlive ⊢
    exact ⟨by omega, by omega, hlive.2.2⟩
  · intro i hit
    have hs := hswap i
    rw [(hother i hit).1, (hother i hit).2] at hs
    simp only [tableRefs] at hs ⊢
    omega
  · have hs := slotRefs_swap ht hlt (some { tb with refs := refs }) g
    simp only [elim_some] at hs
    omega

/-- A slot of the process table is cleared. -/
theorem clearSlot (hpid : pid < maxProcesses) :
    Good { s with procs := update s.procs pid none } hand loose dying := by
  have hle : ∀ i, (tableRefs { s with procs := update s.procs pid none }).count i ≤
      s.tableRefs.count i := by
    intro i
    have hs := tableRefs_swap (s := s) hpid rfl none i
    rw [toList_none, count_nil] at hs
    omega
  refine h.ofTables ⟨h.tables.fresh, h.slots_update hpid, ?_, ?_⟩ fun g => rfl
  · intro t tb ht
    have hlive := h.tables.live t tb ht
    exact ⟨(Int.ofNat_le.mpr (hle t)).trans hlive.1, hlive.2⟩
  · intro t ht
    exact Nat.le_zero.mp ((hle t).trans_eq (h.tables.dead t ht))

/-- The last user leaves a table, and what was in it is in hand. -/
theorem freeTable (hp : s.procs pid = some t)
    (ht : s.tables t = some tb) (hlast : ¬ tb.refs - 1 > 0) :
    Good { s with procs := update s.procs pid none, tables := update s.tables t none }
      (tb.fds.filterMap id ++ hand) loose dying := by
  have hswap := tableRefs_swap (h.pid_lt hp) hp none
  simp only [count_toList_some, toList_none, count_nil] at hswap
  have hlive := h.tables.live t tb ht
  refine h.ofTables (h.tables.set (h.table_lt ht) (Nat.le_refl _) rfl
    (h.slots_update (h.pid_lt hp)) nofun ?_ ?_) fun g => ?_
  · have hs := hswap t
    rw [if_pos rfl] at hs
    simp only [tableRefs] at hs hlive ⊢
    omega
  · intro i hit
    have hs := hswap i
    rw [if_neg (Ne.symm hit)] at hs
    simp only [tableRefs] at hs ⊢
    omega
  · have hs := slotRefs_swap ht (h.table_lt ht) none g
    rw [elim_none, count_nil] at hs
    rw [count_append]
    omega

end

end Good

end Kil0yOS.Files
