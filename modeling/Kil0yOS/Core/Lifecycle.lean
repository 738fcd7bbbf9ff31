/-
Creation and end of processes and threads: slot allocation, `fork`, `clone`,
`wait4`, thread exit, `exit_group` and the fault path of `core/process.c`.

A step of the kernel is one system call of the current process, one event of an
interrupt or one decision of the scheduler.  Address spaces are told apart by
number; what they map is the subject of the memory modules.  Of a failing
allocation only the outcome is kept.
-/
import Kil0yOS.Core.Futex
import Kil0yOS.Lib.Run

namespace Kil0yOS.Core.Kernel

open List

/-! ## New processes -/

variable (k : Kernel)

def findFreeProcess : Option Slot :=
  (finRange maxProcesses).find? fun i => (k.procs i).state = .unused

def processAllocSlot : Process :=
  { Process.zero with
    pid := k.nextPid
    tid := k.nextPid
    tgid := k.nextPid
    parentPid :=
      match k.current with
      | some p => (k.procs p).pid.toInt32
      | none => 0 }

/-- The slot `c` with its new contents.  The process counter has moved, and
`tids` threads were numbered. -/
def installSlot (c : Slot) (proc : Process) (tids : UInt32) : Kernel :=
  { k with
    procs := Function.update k.procs c proc
    nextPid := k.nextPid + 1
    nextTid := k.nextTid + tids
    nextMm := k.nextMm + 1 }

/-- `process_fork`; `ok` is false when the new address space cannot be made, and
the slot is then zeroed again. -/
def processFork (ok : Bool) : Kernel :=
  match k.current with
  | none => k
  | some p =>
    if (k.procs p).mm = none then k
    else
      match k.findFreeProcess with
      | none => k
      | some c =>
        let child :=
          { k.processAllocSlot with
            parentPid := (k.procs p).pid.toInt32
            mm := some k.nextMm
            frameRet := 0
            state := .ready }
        k.installSlot c (if ok then child else Process.zero) 0

/-- `process_clone`: `thread` and `vm` are the flags `CLONE_THREAD` and
`CLONE_VM`, and `clearTid` is the child's tid pointer, zero without
`CLONE_CHILD_CLEARTID`. -/
def processClone (thread vm : Bool) (clearTid : UInt64) (ok : Bool) : Kernel :=
  match k.current with
  | none => k
  | some p =>
    if (k.procs p).mm = none then k
    else
      match k.findFreeProcess with
      | none => k
      | some c =>
        let parent := k.procs p
        let slot := k.processAllocSlot
        let child :=
          { slot with
            pid := if thread then parent.tgid else slot.pid
            tgid := if thread then parent.tgid else slot.tgid
            tid := if thread then k.nextTid else slot.tid
            isThread := thread
            parentPid := parent.pid.toInt32
            mm := if vm then parent.mm else some k.nextMm
            clearChildTid := clearTid
            frameRet := 0
            state := .ready }
        k.installSlot c (if vm || ok then child else Process.zero) (if thread then 1 else 0)

theorem findFreeProcess_unused {k : Kernel} {c : Slot} (h : k.findFreeProcess = some c) :
    (k.procs c).state = .unused := by
  simpa using find?_some h

/-! ## The end of threads and processes -/

def threadClearTid (t : Slot) : Kernel :=
  if (k.procs t).clearChildTid = 0 then k
  else
    (k.futexWakeUser (k.procs t).clearChildTid 1).1.setProc t fun proc =>
      { proc with clearChildTid := 0 }

def threadRelease (t : Slot) : Kernel :=
  (k.threadClearTid t).setProc t fun proc =>
    { proc with mm := none, waitPid := 0, state := .unused }

def isSibling (leader t : Slot) : Bool :=
  t != leader && (k.procs t).state != .unused && (k.procs t).tgid == (k.procs leader).tgid

def exitGroupKillThreads (leader : Slot) : Kernel :=
  (finRange maxProcesses).foldl
    (fun k t => if k.isSibling leader t then k.threadRelease t else k) k

/-- `process_find_waiter`.  A process that waits for any child is one only for a
child it forked. -/
def processFindWaiter (childPid : Int32) : Option Slot :=
  (finRange maxProcesses).find? fun i =>
    let p := k.procs i
    decide (p.state = .blocked) && !p.isThread &&
      (p.waitPid == childPid && p.waitPid != -1 ||
        p.waitPid == -1 && (childPid == -1 || p.parentPid != 0) &&
          (finRange maxProcesses).any fun j =>
            (k.procs j).pid.toInt32 == childPid && !(k.procs j).isThread &&
              (k.procs j).parentPid == p.pid.toInt32)

def zombify (p : Slot) (status : Int32) : Kernel :=
  k.setProc p fun proc => { proc with state := .zombie, exitStatus := status }

/-- The dying child resumes its parent with the result of `wait4` in the parked
frame. -/
def resumeWaiter (par : Slot) (childPid : UInt32) : Kernel :=
  (k.setProc par fun proc =>
    { proc with frameRet := childPid.toUInt64, state := .running, waitPid := 0 }).setCurrent
    (some par)

def processExit (status : Int32) : Kernel :=
  match k.current with
  | none => k
  | some p =>
    if (k.procs p).isThread then (k.threadRelease p).setCurrent none
    else
      let k := k.exitGroupKillThreads p
      match k.processFindWaiter (k.procs p).pid.toInt32 with
      | some par => (k.zombify p status).resumeWaiter par (k.procs p).pid
      | none => (k.zombify p status).setCurrent none

def processKillCurrent (status : Int32) : Kernel :=
  match k.current with
  | none => k
  | some p =>
    if (k.procs p).isThread then (k.threadRelease p).setCurrent none
    else ((k.exitGroupKillThreads p).zombify p status).setCurrent none

/-! ## `wait4` -/

def isChild (parent : Slot) (pid : Int32) (i : Slot) : Bool :=
  let c := k.procs i
  decide (c.state ≠ .unused) && !c.isThread && c.parentPid == (k.procs parent).pid.toInt32 &&
    (decide (pid ≤ 0) || c.pid.toInt32 == pid)

def processFindChild (parent : Slot) (pid : Int32) : Option Slot :=
  (finRange maxProcesses).find? fun i =>
    k.isChild parent pid i && decide ((k.procs i).state ≠ .blocked)

inductive Wait4Result
  | echild
  | einval
  | reaped (pid : UInt32)
  | parked
  deriving DecidableEq, Repr

def processReap (c : Slot) : Kernel :=
  k.setProc c fun proc => { proc with mm := none, state := .unused }

def processWaitRun (p child : Slot) (statusPtr : UInt64) : Kernel :=
  let k := k.setProc p fun proc =>
    { proc with
      frameRet := 0
      state := .blocked
      waitPid := (k.procs child).pid.toInt32
      waitStatusPtr := statusPtr
      park := none }
  (k.setProc child fun proc => { proc with state := .running }).setCurrent (some child)

/-- `sc_wait4`; `rangeOk` is the answer of `process_check_user_range` for the
status pointer. -/
def scWait4 (pid : Int32) (statusPtr : UInt64) (rangeOk : Bool) : Kernel × Wait4Result :=
  match k.current with
  | none => (k, .echild)
  | some p =>
    match k.processFindChild p pid with
    | none => (k, .echild)
    | some c =>
      if (k.procs c).state = .zombie then
        if statusPtr ≠ 0 ∧ rangeOk = false then (k, .einval)
        else (k.processReap c, .reaped (k.procs c).pid)
      else (k.processWaitRun p c statusPtr, .parked)

theorem processFindChild_some {k : Kernel} {parent c : Slot} {pid : Int32}
    (h : k.processFindChild parent pid = some c) :
    (k.procs c).state ≠ .unused ∧ (k.procs c).state ≠ .blocked ∧ (k.procs c).isThread = false ∧
      (k.procs c).parentPid = (k.procs parent).pid.toInt32 := by
  have hfound := find?_some h
  simp only [isChild, Bool.and_eq_true, decide_eq_true_eq, Bool.not_eq_true', beq_iff_eq] at hfound
  exact ⟨hfound.1.1.1.1, hfound.2, hfound.1.1.1.2, hfound.1.1.2⟩

/-! ## Steps -/

inductive Action
  /-- The scheduler gives the processor to a READY process. -/
  | schedule (j : Slot)
  | fork (ok : Bool)
  | clone (thread vm : Bool) (clearTid : UInt64) (ok : Bool)
  | exit (status : Int32)
  | kill (status : Int32)
  | wait4 (pid : Int32) (statusPtr : UInt64) (rangeOk : Bool)
  | setTidAddress (tidptr : UInt64)
  | block (q : QueueId) (kind : WaitKind) (ret timeoutUs : UInt64)
  | futexWait (uaddr : UInt64) (rangeOk valueEq kmallocOk : Bool) (timeoutUs : UInt64)
  | futexWake (uaddr : UInt64) (n : Int)
  | wake (q : QueueId) (max : Int)
  | wakeStatus (q : QueueId) (ret : UInt64)
  /-- Time passes without a timer interrupt. -/
  | elapse (now : UInt64)
  | tick (now : UInt64)
  deriving DecidableEq, Repr

def preempt : Kernel :=
  match k.current with
  | some i => k.setProc i fun proc => { proc with state := .ready }
  | none => k

def schedule (j : Slot) : Kernel :=
  if (k.procs j).state = .ready then
    (k.preempt.setProc j fun proc => { proc with state := .running }).setCurrent (some j)
  else k

def setTidAddress (tidptr : UInt64) : Kernel :=
  match k.current with
  | none => k
  | some p => k.setProc p fun proc => { proc with clearChildTid := tidptr }

def elapse (now : UInt64) : Kernel :=
  if k.uptime ≤ now then { k with uptime := now } else k

def step : Action → Kernel
  | .schedule j => k.schedule j
  | .fork ok => k.processFork ok
  | .clone thread vm clearTid ok => k.processClone thread vm clearTid ok
  | .exit status => k.processExit status
  | .kill status => k.processKillCurrent status
  | .wait4 pid statusPtr rangeOk => (k.scWait4 pid statusPtr rangeOk).1
  | .setTidAddress tidptr => k.setTidAddress tidptr
  | .block q kind ret timeoutUs => k.waitBlock q kind ret timeoutUs
  | .futexWait uaddr rangeOk valueEq kmallocOk timeoutUs =>
    k.futexWait uaddr rangeOk valueEq kmallocOk timeoutUs
  | .futexWake uaddr n => (k.futexWakeUser uaddr n).1
  | .wake q max => k.waitWake q max
  | .wakeStatus q ret => k.waitWakeStatus q ret
  | .elapse now => k.elapse now
  | .tick now => (k.elapse now).waitTimersPoll

/-- System calls name the queues of `wait.c` only; the queue of a futex waiter is
reached through the futex calls. -/
def Action.valid : Action → Bool
  | .block q _ _ _ | .wake q _ | .wakeStatus q _ => q.isGlobal
  | _ => true

def Step (a : Action) (k' : Kernel) : Prop := a.valid = true ∧ k' = k.step a

def CurrentOk : Prop := ∀ i, k.current = some i → (k.procs i).state = .running

/-- The process counter has not come round to zero or to a number in use. -/
def PidFree : Prop :=
  k.nextPid ≠ 0 ∧ ∀ i, (k.procs i).state ≠ .unused → (k.procs i).pid ≠ k.nextPid

section Current

variable {k : Kernel} {p : Slot}

theorem currentOk_none (h : k.current = none) : k.CurrentOk := by
  intro i hi
  rw [h] at hi
  cases hi

theorem currentOk_setProc {f : Process → Process} (h : (f (k.procs p)).state = .running) :
    ((k.setProc p f).setCurrent (some p)).CurrentOk := by
  intro i hi
  obtain rfl : p = i := Option.some.inj hi
  rw [procs_setCurrent, procs_setProc_self]
  exact h

theorem CurrentOk.ne_unused (h : k.CurrentOk) (hp : k.current = some p) :
    (k.procs p).state ≠ .unused := by
  rw [h p hp]
  exact nofun

theorem CurrentOk.update {k' : Kernel} {proc : Process} (h : k.CurrentOk)
    (hp : (k.procs p).state ≠ .running) (hprocs : k'.procs = Function.update k.procs p proc := by rfl)
    (hcurrent : k'.current = k.current := by rfl) : k'.CurrentOk := by
  intro i hi
  rw [hcurrent] at hi
  have hip : i ≠ p := by
    rintro rfl
    exact hp (h i hi)
  rw [hprocs, Function.update_of_ne hip]
  exact h i hi

end Current

/-- The kernel after boot: no process is blocked, and queues, timers and the
futex table are empty. -/
structure Booted (k : Kernel) : Prop where
  queues : ∀ q, k.queues q = { head := none, tail := none }
  timers : ∀ i, (k.timers i).used = false
  futexTab : ∀ b, k.futexTab b = []
  freed : ∀ w, k.freed w = false
  current : k.current = none
  procs : ∀ i, (k.procs i).waitPid = 0 ∧
    ((k.procs i).state = .unused ∨
      (k.procs i).state = .ready ∧ (k.procs i).pid ≠ 0 ∧ (k.procs i).tgid ≠ 0 ∧
        (k.procs i).parentPid = 0)

def loaded (pid : UInt32) (mm : Nat) : Process :=
  { Process.zero with pid := pid, tid := pid, tgid := pid, state := .ready, mm := some mm }

/-- A booted kernel with two programs in the first two slots. -/
def twoPrograms : Kernel :=
  { procs := fun i => if i = 0 then loaded 1 0 else if i = 1 then loaded 2 1 else Process.zero
    current := none
    nextPid := 3
    nextTid := 0x40000000
    nextMm := 2
    queues := fun _ => { head := none, tail := none }
    timers := fun _ =>
      { used := false, deadlineUs := 0, wq := .sleep, kind := .restart, ret := 0, owner := (0, 0) }
    uptime := 0
    waiters := fun _ => { uaddr := 0, proc := 0 }
    futexTab := fun _ => []
    nextWaiter := 0
    freed := fun _ => false
    parks := 0 }

theorem twoPrograms_booted : twoPrograms.Booted := by
  refine ⟨fun _ => rfl, fun _ => rfl, fun _ => rfl, fun _ => rfl, rfl, ?_⟩
  decide +kernel

/-- A run of theirs whose actions are all possible and allowed. -/
theorem twoPrograms_reach {ok : Kernel → Action → Prop} (acts : List Action)
    (h : Lib.Along (fun k a => ok k a ∧ a.valid = true) step twoPrograms acts) :
    Lib.Reach Booted ok Step (acts.foldl step twoPrograms) :=
  .foldl (fun _ _ h => ⟨h.1, h.2, rfl⟩) (.start twoPrograms_booted) acts h

end Kil0yOS.Core.Kernel
