/-
Child exit: what `wait4` reports, and how often.

The end of a child reaches its parent in one of two ways: a zombie found by
`wait4`, or a dying child that hands its status to the parent blocked on it.
Terminations are numbered in the order they happen, and the numbers returned by
`wait4` calls are collected, so that a termination reported twice shows as a
number listed twice.
-/
import Kil0yOS.Core.Lifecycle

namespace Kil0yOS.Core

open Lib Kernel List Function

variable {rangeOk : Bool} {pid status : Int32} {proc : Process} {f : Process → Process} {i j : Slot}
variable {statusPtr : UInt64}

/-- The kernel with a record of terminations.  The record is not in the
source. -/
structure ExitRun where
  kernel : Kernel
  /-- The number of the last termination of each slot. -/
  term : Slot → Nat
  terms : Nat
  /-- The terminations `wait4` has returned, newest first. -/
  told : List Nat

namespace ExitRun

def isExitAction : Action → Bool
  | .schedule _ | .fork _ | .exit _ | .kill _ | .wait4 _ _ _ => true
  | _ => false

def dies (k : Kernel) : Action → Option Slot
  | .exit _ | .kill _ => k.current.filter fun p => !(k.procs p).isThread
  | _ => none

/-- The slot whose end is returned to its parent: by the hand-over in
`process_exit`, or by a `wait4` that finds it a zombie. -/
def reports (k : Kernel) : Action → Option Slot
  | .exit _ => k.current.filter fun p =>
    !(k.procs p).isThread &&
      ((k.exitGroupKillThreads p).processFindWaiter
        ((k.exitGroupKillThreads p).procs p).pid.toInt32).isSome
  | .wait4 pid statusPtr rangeOk =>
    match k.current, (k.scWait4 pid statusPtr rangeOk).2 with
    | some p, .reaped _ => k.processFindChild p pid
    | _, _ => none
  | _ => none

def step (s : ExitRun) (a : Action) : ExitRun :=
  let term :=
    match dies s.kernel a with
    | some p => update s.term p s.terms
    | none => s.term
  { kernel := s.kernel.step a
    term := term
    terms := if (dies s.kernel a).isSome then s.terms + 1 else s.terms
    told :=
      match reports s.kernel a with
      | some c => term c :: s.told
      | none => s.told }

def Step (s : ExitRun) (a : Action) (s' : ExitRun) : Prop :=
  isExitAction a = true ∧ s' = s.step a

/-- Single-threaded programs with numbers of their own, and nothing ended yet. -/
structure Booted (s : ExitRun) : Prop where
  kernel : s.kernel.Booted
  single : ∀ i, (s.kernel.procs i).isThread = false ∧
    (s.kernel.procs i).tgid = (s.kernel.procs i).pid
  distinct : ∀ i j, (s.kernel.procs i).pid = (s.kernel.procs j).pid →
    (s.kernel.procs i).pid ≠ 0 → i = j
  told : s.told = []

/-! ## The promise -/

/-- The slot is a zombie whose end has been reported. -/
def Told (s : ExitRun) (c : Slot) : Prop :=
  (s.kernel.procs c).state = .zombie ∧ s.term c ∈ s.told
deriving Decidable

/-- What holds between calls: no termination was reported twice, and nobody is
BLOCKED on a child that has ended. -/
structure Sound (s : ExitRun) : Prop where
  once : s.told.Nodup
  woken : ∀ p c, (s.kernel.procs p).state = .blocked → (s.kernel.procs c).state = .zombie →
    (s.kernel.procs c).parentPid = (s.kernel.procs p).pid.toInt32 →
      (s.kernel.procs p).waitPid ≠ (s.kernel.procs c).pid.toInt32

/-- What a `wait4` of the process `p` answers: `ECHILD` only without an untold
child, and, asked for any child while there is a zombie, a zombie. -/
structure Answers (s : ExitRun) (p : Slot) (pid : Int32) (statusPtr : UInt64) (rangeOk : Bool) :
    Prop where
  echild : (s.kernel.scWait4 pid statusPtr rangeOk).2 = .echild →
    ∀ c, s.kernel.isChild p pid c = true → s.Told c
  zombie : pid = -1 →
    (∃ c, s.kernel.isChild p pid c = true ∧ (s.kernel.procs c).state = .zombie) →
      ∃ c, s.kernel.isChild p pid c = true ∧ (s.kernel.procs c).state = .zombie ∧
        (s.kernel.scWait4 pid statusPtr rangeOk).2 = .reaped (s.kernel.procs c).pid

/-! ## The condition -/

/-- A `wait4` of the process `p` for which the code does what it promises: not all
the children asked for are BLOCKED; when it is for any child and there is a
zombie, the first child that is not BLOCKED is one, and the status pointer is
good; and a zombie it finds was not handed over before. -/
structure WaitSafe (s : ExitRun) (p : Slot) (pid : Int32) (statusPtr : UInt64) (rangeOk : Bool) :
    Prop where
  notAllBlocked : (∃ c, s.kernel.isChild p pid c = true) →
    ∃ c, s.kernel.isChild p pid c = true ∧ (s.kernel.procs c).state ≠ .blocked
  zombieFirst : pid = -1 →
    (∃ c, s.kernel.isChild p pid c = true ∧ (s.kernel.procs c).state = .zombie) →
      (statusPtr = 0 ∨ rangeOk = true) ∧
        ∀ c, s.kernel.processFindChild p pid = some c → (s.kernel.procs c).state = .zombie
  untold : ∀ c, s.kernel.processFindChild p pid = some c → ¬ s.Told c

def Safe (s : ExitRun) : Action → Prop
  | .fork _ => s.kernel.nextPid ≠ 0 ∧ ∀ i, (s.kernel.procs i).pid ≠ s.kernel.nextPid
  | .kill _ => ∀ p ∈ s.kernel.current, ∀ i, (s.kernel.procs i).state = .blocked →
    (s.kernel.procs i).waitPid ≠ (s.kernel.procs p).pid.toInt32
  | .wait4 pid statusPtr rangeOk =>
    ∀ p ∈ s.kernel.current, s.WaitSafe p pid statusPtr rangeOk
  | _ => True

end ExitRun

/-! ## The invariant of the process table -/

namespace Kernel

/-- The process waits in `wait4` for the child, and the child has not ended. -/
structure Awaits (k : Kernel) (p c : Slot) : Prop where
  used : (k.procs c).state ≠ .unused
  alive : (k.procs c).state ≠ .zombie
  waitPid : (k.procs p).waitPid = (k.procs c).pid.toInt32
  parent : (k.procs c).parentPid = (k.procs p).pid.toInt32

/-- Process numbers tell processes apart. -/
structure IdsOk (k : Kernel) : Prop where
  pid : ∀ i, (k.procs i).state ≠ .unused → (k.procs i).pid ≠ 0
  single : ∀ i, (k.procs i).state ≠ .unused →
    (k.procs i).isThread = false ∧ (k.procs i).tgid = (k.procs i).pid
  parent : ∀ i, (k.procs i).state ≠ .unused → (k.procs i).parentPid ≠ (k.procs i).pid.toInt32
  distinct : ∀ i j, (k.procs i).pid = (k.procs j).pid → (k.procs i).pid ≠ 0 → i = j

/-- Whoever is BLOCKED waits for a child that has not ended. -/
def WaitersOk (k : Kernel) : Prop := ∀ p, (k.procs p).state = .blocked → ∃ c, k.Awaits p c

variable {k k' k₀ : Kernel} {p c par : Slot} {o : Option Slot}

structure SameId (p p' : Process) : Prop where
  pid : p'.pid = p.pid
  isThread : p'.isThread = p.isThread
  tgid : p'.tgid = p.tgid
  parentPid : p'.parentPid = p.parentPid

theorem SameId.refl (p : Process) : SameId p p := ⟨rfl, rfl, rfl, rfl⟩

/-- What `IdsOk` asks of one process. -/
def IdOk (q : Process) : Prop :=
  q.state ≠ .unused → q.pid ≠ 0 ∧ (q.isThread = false ∧ q.tgid = q.pid) ∧
    q.parentPid ≠ q.pid.toInt32

theorem IdsOk.idOk (h : k.IdsOk) (i : Slot) : IdOk (k.procs i) :=
  fun hi => ⟨h.pid i hi, h.single i hi, h.parent i hi⟩

theorem Awaits.of_procs (h : k.Awaits i c) (hi : k'.procs i = k.procs i)
    (hsame : SameId (k.procs c) (k'.procs c)) (hused : (k'.procs c).state ≠ .unused)
    (halive : (k'.procs c).state ≠ .zombie) : k'.Awaits i c := by
  refine ⟨hused, halive, ?_, ?_⟩
  · rw [hi, hsame.pid]
    exact h.waitPid
  · rw [hi, hsame.parentPid]
    exact h.parent

/-- The table is in order, and of its zombies only `o` is new. -/
structure Goes (k₀ : Kernel) (o : Option Slot) (k : Kernel) : Prop where
  ids : k.IdsOk
  waiters : k.WaitersOk
  zombie : ∀ c, (k.procs c).state = .zombie → (k₀.procs c).state = .zombie ∨ o = some c

section

variable (h : Goes k₀ o k)
include h

/-- The process in one slot is replaced.  It may be BLOCKED only on a child of its own, and
whoever waits for it still does. -/
theorem Goes.replace (hprocs : k'.procs = update k.procs c proc) (hid : IdOk proc)
    (hpid : proc.pid = (k.procs c).pid ∨ (proc.pid ≠ 0 → ∀ i, (k.procs i).pid ≠ proc.pid))
    (hblocked : proc.state = .blocked → ∃ d, k'.Awaits c d)
    (hwaited : ∀ i, (k.procs i).state = .blocked → k.Awaits i c →
      SameId (k.procs c) proc ∧ proc.state ≠ .unused ∧ proc.state ≠ .zombie)
    (hz : proc.state = .zombie → o = some c) : Goes k₀ o k' := by
  have hself : k'.procs c = proc := by simp [hprocs]
  have hother : ∀ i, i ≠ c → k'.procs i = k.procs i := fun i hi => by
    rw [hprocs, update_of_ne hi]
  have hall : ∀ i, IdOk (k'.procs i) := by
    rw [hprocs]
    exact (forall_update_iff _ fun _ => IdOk).mpr ⟨hid, fun i _ => h.ids.idOk i⟩
  have hnew : ∀ i, i ≠ c → proc.pid = (k.procs i).pid → proc.pid = 0 := by
    intro i hi he
    by_contra hne
    rcases hpid with hpid | hfresh
    · rw [hpid] at he hne
      exact hi (h.ids.distinct c i he hne).symm
    · exact hfresh hne i he.symm
  refine ⟨⟨fun i hi => (hall i hi).1, fun i hi => (hall i hi).2.1, fun i hi => (hall i hi).2.2,
    fun i j hij hne => ?_⟩, fun i hi => ?_, fun d hd => ?_⟩
  · by_cases hic : i = c
    · rw [hic, hself] at hij hne
      by_contra hij'
      have hjc : j ≠ c := fun hjc => hij' (hic.trans hjc.symm)
      rw [hother j hjc] at hij
      exact hne (hnew j hjc hij)
    rw [hother i hic] at hij hne
    by_cases hjc : j = c
    · rw [hjc, hself] at hij
      exact absurd (hij.trans (hnew i hic hij.symm)) hne
    · rw [hother j hjc] at hij
      exact h.ids.distinct i j hij hne
  · by_cases hic : i = c
    · rw [hic] at hi ⊢
      rw [hself] at hi
      exact hblocked hi
    rw [hother i hic] at hi
    obtain ⟨d, hd⟩ := h.waiters i hi
    refine ⟨d, ?_⟩
    by_cases hdc : d = c
    · subst hdc
      refine hd.of_procs (hother i hic) ?_ ?_ ?_ <;> rw [hself]
      · exact (hwaited i hi hd).1
      · exact (hwaited i hi hd).2.1
      · exact (hwaited i hi hd).2.2
    · refine hd.of_procs (hother i hic) ?_ ?_ ?_ <;> rw [hother d hdc]
      · exact .refl _
      · exact hd.used
      · exact hd.alive
  · by_cases hdc : d = c
    · rw [hdc, hself] at hd
      exact .inr (hdc ▸ hz hd)
    · rw [hother d hdc] at hd
      exact h.zombie d hd

theorem Goes.setProc (hsame : SameId (k.procs p) (f (k.procs p)))
    (hused : (f (k.procs p)).state ≠ .unused → (k.procs p).state ≠ .unused)
    (hblocked : (f (k.procs p)).state = .blocked → ∃ c, (k.setProc p f).Awaits p c)
    (hgone : (f (k.procs p)).state = .unused ∨ (f (k.procs p)).state = .zombie →
      ∀ i, (k.procs i).state = .blocked → ¬ k.Awaits i p)
    (hz : (f (k.procs p)).state = .zombie → o = some p) : Goes k₀ o (k.setProc p f) := by
  refine h.replace rfl (fun hu => ?_) (.inl hsame.pid) hblocked (fun i hi hc => ?_) hz
  · rw [hsame.pid, hsame.isThread, hsame.tgid, hsame.parentPid]
    exact h.ids.idOk p (hused hu)
  · exact ⟨hsame, fun hu => hgone (.inl hu) i hi hc, fun hz => hgone (.inr hz) i hi hc⟩

theorem Goes.setRunnable (hsame : SameId (k.procs p) (f (k.procs p)))
    (hused : (k.procs p).state ≠ .unused)
    (hstate : (f (k.procs p)).state = .ready ∨ (f (k.procs p)).state = .running) :
    Goes k₀ o (k.setProc p f) := by
  refine h.setProc hsame (fun _ => hused) (fun hb => ?_) (fun hg => ?_) fun hz => ?_
  · simp [hb] at hstate
  · rcases hg with hg | hg <;> simp [hg] at hstate
  · simp [hz] at hstate

theorem Goes.setCurrent (cur : Option Slot) : Goes k₀ o (k.setCurrent cur) where
  ids := { h.ids with }
  waiters p hp := (h.waiters p hp).imp fun _ hc => { hc with }
  zombie := h.zombie

end

/-! ## Waiters -/

/-- The waiter `process_exit` finds is the parent. -/
theorem processFindWaiter_parent (hids : k.IdsOk) (hwait : k.WaitersOk)
    (hp : (k.procs p).state ≠ .unused)
    (h : k.processFindWaiter (k.procs p).pid.toInt32 = some par) :
    (k.procs par).state = .blocked ∧ (k.procs p).parentPid = (k.procs par).pid.toInt32 := by
  have hfound := find?_some h
  simp only [Bool.and_eq_true, Bool.or_eq_true, decide_eq_true_eq, beq_iff_eq, bne_iff_ne,
    any_eq_true] at hfound
  obtain ⟨⟨hb, -⟩, hcases⟩ := hfound
  have hself : ∀ j, (k.procs j).pid.toInt32 = (k.procs p).pid.toInt32 → j = p := by
    intro j hj
    exact (hids.distinct p j (toInt32_inj hj).symm (hids.pid p hp)).symm
  refine ⟨hb, ?_⟩
  rcases hcases with ⟨hw, -⟩ | ⟨-, j, -, ⟨hj, -⟩, hparent⟩
  · obtain ⟨c, hc⟩ := hwait par hb
    obtain rfl := hself c (hc.waitPid.symm.trans hw)
    exact hc.parent
  · obtain rfl := hself j hj
    exact hparent

theorem processFindWaiter_none (hids : k.IdsOk)
    (h : k.processFindWaiter (k.procs p).pid.toInt32 = none)
    (hi : (k.procs i).state = .blocked) : ¬ k.Awaits i p := by
  intro hc
  have hnot := find?_eq_none.mp h i (mem_finRange i)
  have hused : (k.procs i).state ≠ .unused := by
    rw [hi]
    exact nofun
  apply hnot
  simp only [Bool.and_eq_true, Bool.or_eq_true, decide_eq_true_eq, beq_iff_eq, bne_iff_ne,
    Bool.not_eq_true', any_eq_true]
  refine ⟨⟨hi, (hids.single i hused).1⟩, ?_⟩
  by_cases hm : (k.procs i).waitPid = -1
  · right
    exact ⟨⟨hm, .inl (hc.waitPid.symm.trans hm)⟩, p, mem_finRange p,
      ⟨rfl, (hids.single p hc.used).1⟩, hc.parent⟩
  · exact .inl ⟨hc.waitPid, hm⟩

/-- A process waits for one child at a time, and a child has one parent. -/
theorem IdsOk.parent_unique (h : k.IdsOk) (hi : (k.procs i).state ≠ .unused)
    (he : (k.procs i).pid.toInt32 = (k.procs j).pid.toInt32) : i = j :=
  h.distinct i j (toInt32_inj he) (h.pid i hi)

/-! ## The end of a process -/

theorem exitGroupKillThreads_single (h : k.IdsOk) (hp : (k.procs p).state ≠ .unused) :
    k.exitGroupKillThreads p = k := by
  have hno : ∀ t, k.isSibling p t = false := by
    intro t
    rw [Bool.eq_false_iff]
    intro hs
    simp only [isSibling, Bool.and_eq_true, bne_iff_ne, beq_iff_eq] at hs
    obtain ⟨⟨htp, hused⟩, htg⟩ := hs
    rw [(h.single t hused).2, (h.single p hp).2] at htg
    exact htp (h.distinct t p htg (h.pid t hused))
  unfold exitGroupKillThreads
  generalize finRange maxProcesses = ts
  induction ts with
  | nil => rfl
  | cons t ts ih =>
    rw [foldl_cons, if_neg (by rw [hno t]; exact Bool.false_ne_true)]
    exact ih

theorem Goes.zombify (h : Goes k₀ (some p) k) (hp : (k.procs p).state ≠ .unused) (status : Int32)
    (hnone : ∀ i, (k.procs i).state = .blocked → ¬ k.Awaits i p) :
    Goes k₀ (some p) (k.zombify p status) :=
  h.setProc ⟨rfl, rfl, rfl, rfl⟩ (fun _ => hp) nofun (fun _ => hnone) fun _ => rfl

theorem setProc_comm {g : Process → Process} (h : i ≠ j) (k : Kernel) :
    (k.setProc i f).setProc j g = (k.setProc j g).setProc i f := by
  unfold setProc
  simp only [update_of_ne h, update_of_ne h.symm, update_comm h]

/-! ## Steps of the table -/

structure TableOk (k : Kernel) : Prop where
  ids : k.IdsOk
  waiters : k.WaitersOk
  current : k.CurrentOk

variable (h : k.TableOk)
include h

theorem TableOk.goes : Goes k o k := ⟨h.ids, h.waiters, fun _ => .inl⟩

theorem TableOk.schedule (j : Slot) : Goes k none (k.schedule j) ∧ (k.schedule j).CurrentOk := by
  unfold Kernel.schedule
  split
  · next hj =>
    have hused : (k.procs j).state ≠ .unused := by
      rw [hj]
      exact nofun
    have hpre : Goes k none k.preempt ∧ (k.preempt.procs j).state ≠ .unused := by
      unfold preempt
      split
      · next i hi =>
        refine ⟨h.goes.setRunnable ⟨rfl, rfl, rfl, rfl⟩ (h.current.ne_unused hi) (.inl rfl), ?_⟩
        rw [procs_setProc]
        split
        · exact nofun
        · exact hused
      · exact ⟨h.goes, hused⟩
    exact ⟨(hpre.1.setRunnable ⟨rfl, rfl, rfl, rfl⟩ hpre.2 (.inr rfl)).setCurrent _,
      currentOk_setProc rfl⟩
  · exact ⟨h.goes, h.current⟩

theorem TableOk.processFork (hpid : k.nextPid ≠ 0)
    (hfresh : ∀ i, (k.procs i).pid ≠ k.nextPid) (ok : Bool) :
    Goes k none (k.processFork ok) ∧ (k.processFork ok).CurrentOk := by
  unfold Kernel.processFork
  split
  · exact ⟨h.goes, h.current⟩
  rename_i p hp
  split
  · exact ⟨h.goes, h.current⟩
  split
  · exact ⟨h.goes, h.current⟩
  rename_i c hc
  have hfree := findFreeProcess_unused hc
  refine ⟨h.goes.replace rfl ?_ (.inr ?_) ?_ (fun _ _ hw => absurd hfree hw.used) ?_,
    h.current.update (hfree.trans_ne nofun)⟩
  · cases ok
    · exact fun hu => absurd rfl hu
    · exact fun _ => ⟨hpid, ⟨rfl, rfl⟩, fun e => hfresh p (toInt32_inj e)⟩
  · cases ok
    · exact fun hz => absurd rfl hz
    · exact fun _ => hfresh
  · cases ok <;> exact nofun
  · cases ok <;> exact nofun

section

variable (hp : k.current = some p)
include hp

/-- A program that runs is no thread and has none. -/
theorem TableOk.single : ¬ (k.procs p).isThread = true ∧ k.exitGroupKillThreads p = k := by
  have hused := h.current.ne_unused hp
  rw [(h.ids.single p hused).1]
  exact ⟨Bool.false_ne_true, exitGroupKillThreads_single h.ids hused⟩

theorem processExit_single (status : Int32) :
    k.processExit status =
      match k.processFindWaiter (k.procs p).pid.toInt32 with
      | some par => (k.zombify p status).resumeWaiter par (k.procs p).pid
      | none => (k.zombify p status).setCurrent none := by
  obtain ⟨hthread, hkill⟩ := h.single hp
  cases hw : k.processFindWaiter (k.procs p).pid.toInt32 with
  | none => simp [processExit, hp, hthread, hkill, hw]
  | some par => simp [processExit, hp, hthread, hkill, hw]

theorem processKillCurrent_single (status : Int32) :
    k.processKillCurrent status = (k.zombify p status).setCurrent none := by
  obtain ⟨hthread, hkill⟩ := h.single hp
  unfold processKillCurrent
  rw [hp]
  dsimp only
  rw [if_neg hthread, hkill]

/-- The parent is resumed, and then nobody waits for the child. -/
theorem TableOk.handOver
    (hpar : k.processFindWaiter (k.procs p).pid.toInt32 = some par) (status : Int32) (pid : UInt32) :
    Goes k (some p) ((k.zombify p status).resumeWaiter par pid) := by
  have hused := h.current.ne_unused hp
  obtain ⟨hb, hparent⟩ := processFindWaiter_parent h.ids h.waiters hused hpar
  have hne : p ≠ par := by
    rintro rfl
    rw [h.current p hp] at hb
    cases hb
  have hparused : (k.procs par).state ≠ .unused := by
    rw [hb]
    exact nofun
  unfold resumeWaiter zombify
  rw [setProc_comm hne]
  refine .setCurrent (.zombify (h.goes.setRunnable ⟨rfl, rfl, rfl, rfl⟩ hparused (.inr rfl)) ?_
    status fun i hi hc => ?_) _
  · rwa [procs_setProc_of_ne hne]
  have hi' : i ≠ par := by
    rintro rfl
    rw [procs_setProc_self] at hi
    cases hi
  have hip := hc.parent
  rw [procs_setProc_of_ne hne, procs_setProc_of_ne hi', hparent] at hip
  exact hi' (h.ids.parent_unique hparused hip).symm

end

theorem TableOk.processExit (status : Int32) :
    Goes k k.current (k.processExit status) ∧ (k.processExit status).CurrentOk := by
  cases hp : k.current with
  | none =>
    unfold Kernel.processExit
    rw [hp]
    exact ⟨h.goes, h.current⟩
  | some p =>
    have hused := h.current.ne_unused hp
    rw [processExit_single h hp]
    split
    · next par hpar => exact ⟨h.handOver hp hpar status _, currentOk_setProc rfl⟩
    · next hnone =>
      exact ⟨(h.goes.zombify hused status fun i hi =>
        processFindWaiter_none h.ids hnone hi).setCurrent none, currentOk_none rfl⟩

theorem TableOk.processKillCurrent (status : Int32)
    (hnone : ∀ p ∈ k.current, ∀ i, (k.procs i).state = .blocked →
      (k.procs i).waitPid ≠ (k.procs p).pid.toInt32) :
    Goes k k.current (k.processKillCurrent status) ∧ (k.processKillCurrent status).CurrentOk := by
  cases hp : k.current with
  | none =>
    unfold Kernel.processKillCurrent
    rw [hp]
    exact ⟨h.goes, h.current⟩
  | some p =>
    rw [processKillCurrent_single h hp]
    exact ⟨(h.goes.zombify (h.current.ne_unused hp) status fun i hi hc =>
      hnone p hp i hi hc.waitPid).setCurrent none, currentOk_none rfl⟩

theorem TableOk.processReap (hz : (k.procs c).state = .zombie) :
    Goes k none (k.processReap c) ∧ (k.processReap c).CurrentOk :=
  ⟨h.goes.setProc ⟨rfl, rfl, rfl, rfl⟩ (fun hu => absurd rfl hu) nofun
    (fun _ i _ hc => hc.alive hz) nofun, h.current.update (hz.trans_ne nofun)⟩

theorem TableOk.processWaitRun (hp : (k.procs p).state = .running)
    (hused : (k.procs c).state ≠ .unused) (hz : (k.procs c).state ≠ .zombie)
    (hparent : (k.procs c).parentPid = (k.procs p).pid.toInt32) (statusPtr : UInt64) :
    Goes k none (k.processWaitRun p c statusPtr) ∧ (k.processWaitRun p c statusPtr).CurrentOk := by
  have hcp : c ≠ p := by
    rintro rfl
    exact h.ids.parent c hused hparent
  refine ⟨.setCurrent (.setRunnable ?_ ⟨rfl, rfl, rfl, rfl⟩ ?_ (.inr rfl)) _,
    currentOk_setProc rfl⟩
  · refine h.goes.setProc ⟨rfl, rfl, rfl, rfl⟩ (fun _ hu => ?_) (fun _ => ⟨c, ?_⟩) (fun hg => ?_) nofun
    · rw [hp] at hu
      cases hu
    · refine ⟨?_, ?_, ?_, ?_⟩ <;> rw [procs_setProc_of_ne hcp]
      · exact hused
      · exact hz
      · simp
      · rw [procs_setProc_self]
        exact hparent
    · rcases hg with hg | hg <;> cases hg
  · rwa [procs_setProc_of_ne hcp]

theorem TableOk.scWait4 (pid : Int32) (statusPtr : UInt64) (rangeOk : Bool) :
    Goes k none (k.scWait4 pid statusPtr rangeOk).1 ∧
      (k.scWait4 pid statusPtr rangeOk).1.CurrentOk := by
  unfold Kernel.scWait4
  split
  · exact ⟨h.goes, h.current⟩
  rename_i p hp
  split
  · exact ⟨h.goes, h.current⟩
  rename_i c hc
  obtain ⟨hused, -, -, hparent⟩ := processFindChild_some hc
  split
  · next hz =>
    split
    · exact ⟨h.goes, h.current⟩
    · exact h.processReap hz
  · next hz => exact h.processWaitRun (h.current p hp) hused hz hparent statusPtr

end Kernel

/-! ## Runs -/

namespace ExitRun

variable {s : ExitRun} {k : Kernel} {a : Action} {p c : Slot}

theorem dies_exit (h : k.TableOk) (status : Int32) : dies k (.exit status) = k.current := by
  unfold dies
  cases hp : k.current with
  | none => rfl
  | some p =>
    have hsingle := (h.ids.single p (h.current.ne_unused hp)).1
    rw [Option.filter_some, hsingle]
    rfl

theorem dies_kill (h : k.TableOk) (status : Int32) : dies k (.kill status) = k.current :=
  dies_exit h status

/-- A report is a hand-over by the process that dies, or a zombie found. -/
theorem reports_cases (h : k.TableOk) (hr : reports k a = some c) :
    dies k a = some c ∨ dies k a = none ∧ (k.procs c).state = .zombie ∧
      ∃ pid statusPtr rangeOk p, a = .wait4 pid statusPtr rangeOk ∧ k.current = some p ∧
        k.processFindChild p pid = some c := by
  cases a with
  | exit status =>
    left
    rw [dies_exit h]
    exact (Option.filter_eq_some_iff.mp hr).1
  | wait4 pid statusPtr rangeOk =>
    right
    refine ⟨rfl, ?_⟩
    rw [reports] at hr
    cases hp : k.current with
    | none =>
      rw [hp] at hr
      cases hr
    | some p =>
      rw [hp] at hr
      split at hr
      · next q pid' hq hres =>
        cases hq
        refine ⟨?_, pid, statusPtr, rangeOk, p, rfl, rfl, hr⟩
        unfold scWait4 at hres
        rw [hp] at hres
        dsimp only at hres
        rw [hr] at hres
        dsimp only at hres
        by_contra hz
        rw [if_neg hz] at hres
        cases hres
      · cases hr
  | _ => cases hr

structure Inv (s : ExitRun) : Prop where
  table : s.kernel.TableOk
  once : s.told.Nodup
  told_lt : ∀ n ∈ s.told, n < s.terms
  term_lt : ∀ c, (s.kernel.procs c).state = .zombie → s.term c < s.terms

theorem Inv.goes (h : s.Inv) (ha : isExitAction a = true) (hs : s.Safe a) :
    Goes s.kernel (dies s.kernel a) (s.kernel.step a) ∧ (s.kernel.step a).CurrentOk := by
  cases a with
  | schedule j => exact h.table.schedule j
  | fork ok => exact h.table.processFork hs.1 hs.2 ok
  | exit status =>
    rw [dies_exit h.table]
    exact h.table.processExit status
  | kill status =>
    rw [dies_kill h.table]
    exact h.table.processKillCurrent status hs
  | wait4 pid statusPtr rangeOk => exact h.table.scWait4 pid statusPtr rangeOk
  | clone | setTidAddress | block | futexWait | futexWake | wake | wakeStatus | elapse | tick =>
    cases ha

theorem term_step_of_dies (hd : dies s.kernel a = some p) :
    (s.step a).term = update s.term p s.terms ∧ (s.step a).terms = s.terms + 1 := by
  unfold step
  rw [hd]
  exact ⟨rfl, rfl⟩

theorem term_step_of_none (hd : dies s.kernel a = none) :
    (s.step a).term = s.term ∧ (s.step a).terms = s.terms := by
  unfold step
  rw [hd]
  exact ⟨rfl, rfl⟩

theorem told_step_of_none (hr : reports s.kernel a = none) : (s.step a).told = s.told := by
  unfold step
  rw [hr]

theorem told_step_of_reports (hr : reports s.kernel a = some c) :
    (s.step a).told = (s.step a).term c :: s.told := by
  unfold step
  rw [hr]

theorem terms_le_step (s : ExitRun) (a : Action) : s.terms ≤ (s.step a).terms := by
  cases hd : dies s.kernel a with
  | none => exact Nat.le_of_eq (term_step_of_none hd).2.symm
  | some p =>
    rw [(term_step_of_dies hd).2]
    omega

theorem Inv.term_lt_step (h : s.Inv) (ha : isExitAction a = true) (hs : s.Safe a)
    (hz : ((s.step a).kernel.procs c).state = .zombie) : (s.step a).term c < (s.step a).terms := by
  have hcases := (h.goes ha hs).1.zombie c hz
  cases hd : dies s.kernel a with
  | none =>
    rw [hd] at hcases
    obtain ⟨hterm, hterms⟩ := term_step_of_none hd
    rw [hterm, hterms]
    rcases hcases with hz | hc
    · exact h.term_lt c hz
    · cases hc
  | some p =>
    obtain ⟨hterm, hterms⟩ := term_step_of_dies hd
    rw [hterm, hterms]
    by_cases hcp : c = p
    · rw [hcp, update_self]
      omega
    rw [hd] at hcases
    rw [update_of_ne hcp]
    rcases hcases with hz | hc
    · exact Nat.lt_succ_of_lt (h.term_lt c hz)
    · exact absurd (Option.some.inj hc).symm hcp

/-- A step that meets the condition reports a termination for the first time. -/
theorem Inv.report_fresh (h : s.Inv) (hs : s.Safe a) (hr : reports s.kernel a = some c) :
    (s.step a).term c ∉ s.told ∧ (s.step a).term c < (s.step a).terms := by
  rcases reports_cases h.table hr with hd | ⟨hd, hz, pid, statusPtr, rangeOk, p, rfl, hp, hfind⟩
  · obtain ⟨hterm, hterms⟩ := term_step_of_dies hd
    rw [hterm, hterms, update_self]
    exact ⟨fun hm => absurd (h.told_lt _ hm) (Nat.lt_irrefl _), Nat.lt_succ_self _⟩
  · exact ⟨fun hm => (hs p hp).untold c hfind ⟨hz, hm⟩, h.term_lt c hz⟩

theorem Inv.step (h : s.Inv) (ha : isExitAction a = true) (hs : s.Safe a) : (s.step a).Inv := by
  have hle := terms_le_step s a
  have hold : ∀ n ∈ s.told, n < (s.step a).terms := fun n hn =>
    Nat.lt_of_lt_of_le (h.told_lt n hn) hle
  obtain ⟨hgoes, hcurrent⟩ := h.goes ha hs
  have htold : (s.step a).told.Nodup ∧ ∀ n ∈ (s.step a).told, n < (s.step a).terms := by
    cases hr : reports s.kernel a with
    | none =>
      rw [told_step_of_none hr]
      exact ⟨h.once, hold⟩
    | some c =>
      obtain ⟨hfresh, hlt⟩ := h.report_fresh hs hr
      rw [told_step_of_reports hr]
      exact ⟨nodup_cons.mpr ⟨hfresh, h.once⟩, forall_mem_cons.mpr ⟨hlt, hold⟩⟩
  exact ⟨⟨hgoes.ids, hgoes.waiters, hcurrent⟩, htold.1, htold.2,
    fun c hz => h.term_lt_step ha hs hz⟩

theorem Booted.inv (h : s.Booted) : s.Inv := by
  have hnot : ∀ i, (s.kernel.procs i).state ≠ .blocked ∧ (s.kernel.procs i).state ≠ .zombie := by
    intro i
    rcases (h.kernel.procs i).2 with hu | ⟨hr, -⟩
    · rw [hu]
      exact ⟨nofun, nofun⟩
    · rw [hr]
      exact ⟨nofun, nofun⟩
  have hready : ∀ i, (s.kernel.procs i).state ≠ .unused → (s.kernel.procs i).pid ≠ 0 ∧
      (s.kernel.procs i).parentPid = 0 := by
    intro i hi
    rcases (h.kernel.procs i).2 with hu | ⟨-, hpid, -, hparent⟩
    · exact absurd hu hi
    · exact ⟨hpid, hparent⟩
  refine ⟨⟨⟨fun i hi => (hready i hi).1, fun i _ => h.single i, fun i hi e => ?_, h.distinct⟩,
    fun i hb => absurd hb (hnot i).1, currentOk_none h.kernel.current⟩, ?_, ?_,
    fun c hz => absurd hz (hnot c).2⟩
  · rw [(hready i hi).2] at e
    exact (hready i hi).1 (toInt32_inj e.symm)
  · rw [h.told]
    exact nodup_nil
  · rw [h.told]
    exact nofun

theorem Inv.sound (h : s.Inv) : s.Sound := by
  refine ⟨h.once, fun p c hp hz _ hw => ?_⟩
  obtain ⟨d, hd⟩ := h.table.waiters p hp
  have hdc : d = c := h.table.ids.parent_unique hd.used (hd.waitPid.symm.trans hw)
  rw [hdc] at hd
  exact hd.alive hz

theorem processFindChild_none (h : k.processFindChild p pid = none)
    (hc : k.isChild p pid c = true) : (k.procs c).state = .blocked := by
  have hnot := find?_eq_none.mp h c (mem_finRange c)
  rw [hc, Bool.true_and, decide_eq_true_eq, not_not] at hnot
  exact hnot

/-- What the code does in a `wait4` that meets the condition. -/
theorem WaitSafe.answers (h : s.WaitSafe p pid statusPtr rangeOk) (hp : s.kernel.current = some p) :
    s.Answers p pid statusPtr rangeOk := by
  have hfirst : ∀ d, s.kernel.isChild p pid d = true →
      ∃ c, s.kernel.processFindChild p pid = some c := by
    intro d hd
    obtain ⟨c, hc, hnb⟩ := h.notAllBlocked ⟨d, hd⟩
    cases hfind : s.kernel.processFindChild p pid with
    | none => exact absurd (processFindChild_none hfind hc) hnb
    | some c => exact ⟨c, rfl⟩
  constructor
  · intro hres d hd
    obtain ⟨c, hc⟩ := hfirst d hd
    unfold scWait4 at hres
    rw [hp] at hres
    dsimp only at hres
    rw [hc] at hres
    dsimp only at hres
    split at hres
    · split at hres <;> cases hres
    · cases hres
  rintro hpid ⟨d, hd, hdz⟩
  obtain ⟨hptr, hzombie⟩ := h.zombieFirst hpid ⟨d, hd, hdz⟩
  obtain ⟨c, hc⟩ := hfirst d hd
  have hz := hzombie c hc
  have hgood : ¬ (statusPtr ≠ 0 ∧ rangeOk = false) := by
    rintro ⟨hne, hf⟩
    rcases hptr with h0 | ht
    · exact hne h0
    · rw [hf] at ht
      cases ht
  have hfound := find?_some hc
  refine ⟨c, (Bool.and_eq_true_iff.mp hfound).1, hz, ?_⟩
  unfold scWait4
  rw [hp]
  dsimp only
  rw [hc]
  simp [hz, hgood]

/-- In every run that meets the condition no termination is reported twice and
nobody stays BLOCKED on a child that has ended, and a `wait4` that meets it
answers as promised. -/
theorem child_exit_reported {s : ExitRun} (h : Reach Booted Safe Step s) :
    s.Sound ∧ ∀ p pid statusPtr rangeOk, s.kernel.current = some p →
      s.Safe (.wait4 pid statusPtr rangeOk) → s.Answers p pid statusPtr rangeOk := by
  have hinv : s.Inv := by
    refine h.invariant (fun _ hb => hb.inv) ?_
    rintro s a s' hs hsafe ⟨ha, rfl⟩
    exact hs.step ha hsafe
  exact ⟨hinv.sound, fun p pid statusPtr rangeOk hp hsafe => (hsafe p hp).answers hp⟩

/-! ## A child reported twice -/

instance (pid : Int32) (statusPtr : UInt64) (rangeOk : Bool) :
    Decidable (s.WaitSafe p pid statusPtr rangeOk) :=
  decidable_of_iff (_ ∧ _ ∧ _)
    ⟨fun h => ⟨h.1, h.2.1, h.2.2⟩, fun h => ⟨h.notAllBlocked, h.zombieFirst, h.untold⟩⟩

instance (a : Action) : Decidable (s.Safe a) :=
  match a with
  | .fork _ => inferInstanceAs (Decidable (_ ∧ _))
  | .kill _ => inferInstanceAs (Decidable (∀ p ∈ s.kernel.current, _))
  | .wait4 _ _ _ => inferInstanceAs (Decidable (∀ p ∈ s.kernel.current, _))
  | .schedule _ | .clone _ _ _ _ | .exit _ | .setTidAddress _ | .block _ _ _ _
  | .futexWait _ _ _ _ _ | .futexWake _ _ | .wake _ _ | .wakeStatus _ _ | .elapse _ | .tick _ =>
    isTrue trivial

def twoPrograms : ExitRun :=
  { kernel := Kernel.twoPrograms, term := fun _ => 0, terms := 0, told := [] }

theorem twoPrograms_booted : twoPrograms.Booted := by
  refine ⟨Kernel.twoPrograms_booted, ?_, ?_, rfl⟩ <;> decide +kernel

theorem twoPrograms_reach {ok : ExitRun → Action → Prop} (acts : List Action)
    (h : Along (fun s a => ok s a ∧ isExitAction a = true) step twoPrograms acts) :
    Reach Booted ok Step (acts.foldl step twoPrograms) :=
  .foldl (fun _ _ h => ⟨h.1, h.2, rfl⟩) (.start twoPrograms_booted) acts h

def childEndsFirst : List Action := [.schedule 0, .fork true, .schedule 2, .exit 7, .schedule 0]

/-- The parent waits for its child, is resumed by it, and waits once more. -/
def waitsTwice : List Action :=
  [.schedule 0, .fork true, .wait4 (-1) 0 true, .exit 7, .wait4 (-1) 0 true]

theorem child_exit_reported_zombie : (childEndsFirst.foldl step twoPrograms).Answers 0 (-1) 0 true ∧
      ((childEndsFirst.foldl step twoPrograms).kernel.scWait4 (-1) 0 true).2 = .reaped 3 := by
  have hreach : Reach Booted Safe Step (childEndsFirst.foldl step twoPrograms) :=
    twoPrograms_reach _ (by decide +kernel)
  refine ⟨(child_exit_reported hreach).2 0 (-1) 0 true ?_ ?_, ?_⟩ <;> decide +kernel

/-- The zombie that resumed its parent is still there for the next `wait4`. -/
theorem child_reported_twice : ¬ ∀ s, Reach Booted (fun _ _ => True) Step s → s.Sound := by
  intro hall
  have honce := (hall _ (twoPrograms_reach waitsTwice (by decide +kernel))).once
  revert honce
  decide +kernel

end ExitRun
end Kil0yOS.Core
