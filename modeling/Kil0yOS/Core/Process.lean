/-
Processes, wait queues, timers and futex waiters: the part of the kernel state
that `core/process.c`, `sched/wait.c` and the futex calls of
`core/syscall_lnx.c` share.

Pointers into the process table are slot numbers, and wait queues are threaded
through the slots by `wait_next` as in the source.  A futex waiter is named by
the number of the allocation that made it; the memory of a freed one is not
handed out again, so `freed` tells for every pointer whether it still refers to
a waiter.  System calls run with interrupts off, so one call is one step.

Three fields are not in the source and no function of it reads them: `park` says
which wait a process entered last, `parks` numbers these waits, and a timer's
`owner` is the wait it was armed for.
-/
import Mathlib.Algebra.GroupWithZero.Nat
import Mathlib.Data.List.FinRange

namespace Kil0yOS.Core

open Function

abbrev maxProcesses : Nat := 128
abbrev waitTimers : Nat := 64
abbrev futHash : Nat := 16

instance : NeZero maxProcesses := ⟨by decide⟩

abbrev Slot := Fin maxProcesses

inductive ProcessState
  | unused
  | ready
  | running
  | blocked
  | zombie
  deriving DecidableEq, Repr

/-- The queues of `wait.c` and the private queue of each futex waiter. -/
inductive QueueId
  | sleep
  | net
  | tty
  | poll
  | unix
  | pipe
  | futex (w : Nat)
  deriving DecidableEq, Repr

/-- The queues of `wait.c`, which every system call may use. -/
def QueueId.isGlobal : QueueId → Bool
  | .futex _ => false
  | _ => true

inductive WaitKind
  | restart
  | complete
  deriving DecidableEq, Repr

/-- A stay on a wait queue: its number, the queue, when it began and the timeout
asked for, zero for none. -/
structure Park where
  id : Nat
  queue : QueueId
  since : UInt64
  timeout : UInt64
  deriving DecidableEq, Repr

structure Process where
  pid : UInt32
  tid : UInt32
  tgid : UInt32
  isThread : Bool
  state : ProcessState
  mm : Option Nat
  clearChildTid : UInt64
  exitStatus : Int32
  parentPid : Int32
  waitPid : Int32
  waitStatusPtr : UInt64
  waitNext : Option Slot
  /-- The RAX slot of the parked frame. -/
  frameRet : UInt64
  park : Option Park
  deriving DecidableEq, Repr

/-- A slot after `memset(proc, 0, sizeof(process_t))`. -/
def Process.zero : Process :=
  { pid := 0, tid := 0, tgid := 0, isThread := false, state := .unused, mm := none,
    clearChildTid := 0, exitStatus := 0, parentPid := 0, waitPid := 0, waitStatusPtr := 0,
    waitNext := none, frameRet := 0, park := none }

structure WaitQueue where
  head : Option Slot
  tail : Option Slot
  deriving DecidableEq, Repr

structure WaitTimer where
  used : Bool
  deadlineUs : UInt64
  wq : QueueId
  kind : WaitKind
  ret : UInt64
  owner : Slot × Nat
  deriving DecidableEq, Repr

structure FutexWaiter where
  uaddr : UInt64
  proc : Slot
  deriving DecidableEq, Repr

structure Kernel where
  procs : Slot → Process
  current : Option Slot
  nextPid : UInt32
  nextTid : UInt32
  nextMm : Nat
  queues : QueueId → WaitQueue
  timers : Fin waitTimers → WaitTimer
  uptime : UInt64
  waiters : Nat → FutexWaiter
  futexTab : Fin futHash → List Nat
  nextWaiter : Nat
  freed : Nat → Bool
  parks : Nat

theorem toInt32_inj {m n : UInt32} (h : m.toInt32 = n.toInt32) : m = n :=
  congrArg Int32.toUInt32 h

namespace Kernel

variable (k : Kernel)

def setProc (i : Slot) (f : Process → Process) : Kernel :=
  { k with procs := update k.procs i (f (k.procs i)) }

def setNext (i : Slot) (next : Option Slot) : Kernel :=
  k.setProc i fun proc => { proc with waitNext := next }

def setQueue (q : QueueId) (wq : WaitQueue) : Kernel :=
  { k with queues := update k.queues q wq }

def setTimer (i : Fin waitTimers) (t : WaitTimer) : Kernel :=
  { k with timers := update k.timers i t }

def setCurrent (c : Option Slot) : Kernel := { k with current := c }

def waitNext (i : Slot) : Option Slot := (k.procs i).waitNext

/-- The wait a BLOCKED process sits in, if it is one on a queue. -/
def parked (i : Slot) : Option Park :=
  if (k.procs i).state = .blocked then (k.procs i).park else none

/-- Everything but the process table and the queues. -/
def rest : Kernel :=
  { k with procs := fun _ => Process.zero, queues := fun _ => { head := none, tail := none } }

theorem procs_setProc (i j : Slot) (f : Process → Process) :
    (k.setProc i f).procs j = if j = i then f (k.procs i) else k.procs j := by
  unfold setProc
  by_cases h : j = i
  · subst h
    simp
  · simp [h]

@[simp] theorem procs_setProc_self (i : Slot) (f : Process → Process) :
    (k.setProc i f).procs i = f (k.procs i) := by
  rw [procs_setProc, if_pos rfl]

theorem procs_setProc_of_ne {k : Kernel} {i j : Slot} {f : Process → Process} (h : j ≠ i) :
    (k.setProc i f).procs j = k.procs j := by
  rw [procs_setProc, if_neg h]

theorem waitNext_setNext (i j : Slot) (next : Option Slot) :
    (k.setNext i next).waitNext j = if j = i then next else k.waitNext j := by
  unfold setNext waitNext
  rw [procs_setProc]
  split <;> rfl

@[simp] theorem waitNext_setNext_self (i : Slot) (next : Option Slot) :
    (k.setNext i next).waitNext i = next := by
  rw [waitNext_setNext, if_pos rfl]

theorem waitNext_setNext_of_ne {k : Kernel} {i j : Slot} {next : Option Slot} (h : j ≠ i) :
    (k.setNext i next).waitNext j = k.waitNext j := by
  rw [waitNext_setNext, if_neg h]

@[simp] theorem waitNext_setQueue (q : QueueId) (wq : WaitQueue) :
    (k.setQueue q wq).waitNext = k.waitNext := rfl

@[simp] theorem queues_setNext (i : Slot) (next : Option Slot) :
    (k.setNext i next).queues = k.queues := rfl

@[simp] theorem procs_setQueue (q : QueueId) (wq : WaitQueue) :
    (k.setQueue q wq).procs = k.procs := rfl

@[simp] theorem queues_setQueue_self (q : QueueId) (wq : WaitQueue) :
    (k.setQueue q wq).queues q = wq := update_self _ _ _

theorem queues_setQueue_of_ne {k : Kernel} {q r : QueueId} {wq : WaitQueue} (h : r ≠ q) :
    (k.setQueue q wq).queues r = k.queues r := update_of_ne h _ _

@[simp] theorem timers_setTimer_self (i : Fin waitTimers) (t : WaitTimer) :
    (k.setTimer i t).timers i = t := update_self _ _ _

theorem timers_setTimer_of_ne {k : Kernel} {i j : Fin waitTimers} {t : WaitTimer} (h : j ≠ i) :
    (k.setTimer i t).timers j = k.timers j := update_of_ne h _ _

@[simp] theorem procs_setCurrent (c : Option Slot) : (k.setCurrent c).procs = k.procs := rfl

theorem parked_eq_some {k : Kernel} {i : Slot} {park : Park} :
    k.parked i = some park ↔ (k.procs i).state = .blocked ∧ (k.procs i).park = some park := by
  unfold parked
  by_cases h : (k.procs i).state = .blocked
  · simp [h]
  · simp [h]

def parkedOn (i : Slot) : Option QueueId := (k.parked i).map Park.queue

theorem parkedOn_congr {k k' : Kernel} {i : Slot} (hstate : (k'.procs i).state = (k.procs i).state)
    (hpark : (k'.procs i).park = (k.procs i).park) : k'.parkedOn i = k.parkedOn i := by
  unfold parkedOn parked
  rw [hstate, hpark]

theorem parkedOn_of_not_blocked {k : Kernel} {i : Slot} (h : (k.procs i).state ≠ .blocked) :
    k.parkedOn i = none := by
  unfold parkedOn parked
  rw [if_neg h]
  rfl

end Kernel
end Kil0yOS.Core
