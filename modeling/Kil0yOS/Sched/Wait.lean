/-
Wait queues and one-shot timers: `kernel/sched/wait.c`.

The walks along a queue look at no more than `maxProcesses` slots.  A queue that
ends has no more, and what keeps it so is the subject of
`Kil0yOS.Sched.WaitQueues`.
-/
import Kil0yOS.Core.Process
import Kil0yOS.Lib.Chain

namespace Kil0yOS.Core.Kernel

open Lib

variable {k k' : Kernel} {q : QueueId} {i p : Slot} {ret us : UInt64} {kind : WaitKind}
  {owner : Slot × Nat}

/-! ## Queues -/

def wqPush (k : Kernel) (q : QueueId) (p : Slot) : Kernel :=
  match (k.queues q).tail with
  | none => (k.setNext p none).setQueue q { head := some p, tail := some p }
  | some t =>
    ((k.setNext p none).setNext t (some p)).setQueue q { k.queues q with tail := some p }

def wqPop (k : Kernel) (q : QueueId) (p : Slot) : Kernel :=
  let head := k.waitNext p
  let tail := if head = none then none else (k.queues q).tail
  (k.setQueue q { head := head, tail := tail }).setNext p none

/-- The link that led to `p` is replaced by the one behind it: either the head of
the queue or the `wait_next` of the slot in front. -/
def wqBypass (k : Kernel) (q : QueueId) (p : Slot) : Option Kernel :=
  if (k.queues q).head = some p then
    some (k.setQueue q { k.queues q with head := k.waitNext p })
  else
    match firstWhere k.waitNext (fun i => decide (k.waitNext i = some p)) maxProcesses
        (k.queues q).head with
    | some i => some (k.setNext i (k.waitNext p))
    | none => none

/-- The search for the new tail when the last slot was taken out. -/
def wqRetail (k : Kernel) (q : QueueId) (p : Slot) : Kernel :=
  if (k.queues q).tail = some p then
    k.setQueue q
      { k.queues q with
        tail := firstWhere k.waitNext (fun i => (k.waitNext i).isNone) maxProcesses
          (k.queues q).head }
  else k

def wqUnlink (k : Kernel) (q : QueueId) (p : Slot) : Kernel :=
  match k.wqBypass q p with
  | some k' => (k'.wqRetail q p).setNext p none
  | none => k

/-! ## Waking -/

def wakeLocked (k : Kernel) (p : Slot) (kind : WaitKind) (ret : UInt64) : Kernel :=
  k.setProc p fun proc =>
    { proc with
      frameRet := if kind = .complete then ret else proc.frameRet
      state := .ready }

section

variable (k : Kernel) (p i : Slot) (kind : WaitKind) (ret : UInt64)

theorem procs_wakeLocked : (k.wakeLocked p kind ret).procs i =
      if i = p then
        { k.procs p with
          frameRet := if kind = .complete then ret else (k.procs p).frameRet
          state := .ready }
      else k.procs i := by
  unfold wakeLocked
  rw [procs_setProc]

@[simp] theorem queues_wakeLocked : (k.wakeLocked p kind ret).queues = k.queues := rfl

@[simp] theorem waitNext_wakeLocked : (k.wakeLocked p kind ret).waitNext i = k.waitNext i := by
  unfold waitNext
  rw [procs_wakeLocked]
  split
  · next hi => rw [hi]
  · rfl

theorem state_wakeLocked : ((k.wakeLocked p kind ret).procs p).state = .ready := by
  rw [procs_wakeLocked, if_pos rfl]

end

theorem parkedOn_wakeLocked_of_ne
    (h : i ≠ p) : (k.wakeLocked p kind ret).parkedOn i = k.parkedOn i := by
  unfold parkedOn parked
  rw [procs_wakeLocked, if_neg h]

/-- The loop of `wait_wake` with `max - n` wake-ups left, `none` for no limit.
Each turn takes a slot off the queue, so one turn more than there are slots
always empties it. -/
def waitWakeLoop (q : QueueId) : Nat → Option Nat → Kernel → Kernel
  | 0, _, k => k
  | fuel + 1, left, k =>
    if left = some 0 then k
    else
      match (k.queues q).head with
      | none => k
      | some p =>
        let k' := k.wqPop q p
        if (k.procs p).state = .blocked then
          waitWakeLoop q fuel (left.map (· - 1)) (k'.wakeLocked p .restart 0)
        else waitWakeLoop q fuel left k'

def waitWake (k : Kernel) (q : QueueId) (max : Int) : Kernel :=
  waitWakeLoop q (maxProcesses + 1) (if max < 0 then none else some max.toNat) k

def waitWakeStatusLoop (q : QueueId) (ret : UInt64) : Nat → Kernel → Kernel
  | 0, k => k
  | fuel + 1, k =>
    match (k.queues q).head with
    | none => k
    | some p =>
      let k' := k.wqPop q p
      if (k.procs p).state = .blocked then k'.wakeLocked p .complete ret
      else waitWakeStatusLoop q ret fuel k'

def waitWakeStatus (k : Kernel) (q : QueueId) (ret : UInt64) : Kernel :=
  waitWakeStatusLoop q ret (maxProcesses + 1) k

/-! ## Timers -/

/-- `wait_timer_arm` for the wait `owner`; `none` when the pool is exhausted. -/
def waitTimerArm (k : Kernel) (q : QueueId) (us : UInt64) (kind : WaitKind) (ret : UInt64)
    (owner : Slot × Nat) : Option Kernel :=
  match (List.finRange waitTimers).find? fun i => !(k.timers i).used with
  | none => none
  | some i =>
    some (k.setTimer i
      { used := true, deadlineUs := k.uptime + us, wq := q, kind := kind, ret := ret,
        owner := owner })

theorem waitTimerArm_eq (h : k.waitTimerArm q us kind ret owner = some k') : ∃ i, k' = k.setTimer i
      { used := true, deadlineUs := k.uptime + us, wq := q, kind := kind, ret := ret,
        owner := owner } ∧ (k.timers i).used = false := by
  unfold waitTimerArm at h
  split at h
  · cases h
  · next i hi =>
    cases h
    exact ⟨i, rfl, by simpa using List.find?_some hi⟩

/-- A wait that arms a timer, or none for a wait without end, changes timers
only. -/
theorem armed_eq (h : (if us ≠ 0 then k.waitTimerArm q us kind ret owner else some k) = some k') :
    ∃ ts, k' = { k with timers := ts } := by
  split at h
  · obtain ⟨i, rfl, -⟩ := waitTimerArm_eq h
    exact ⟨_, rfl⟩
  · exact ⟨_, (Option.some.inj h).symm⟩

def timerDue (k : Kernel) (i : Fin waitTimers) : Bool :=
  (k.timers i).used && decide ((k.timers i).deadlineUs ≤ k.uptime)

def firstBlocked (k : Kernel) (q : QueueId) : Option Slot :=
  firstWhere k.waitNext (fun i => (k.procs i).state = .blocked) maxProcesses (k.queues q).head

theorem firstBlocked_blocked (h : k.firstBlocked q = some p) : (k.procs p).state = .blocked := by
  simpa using of_firstWhere_eq_some h

def timerDisarm (k : Kernel) (i : Fin waitTimers) : Kernel :=
  k.setTimer i { k.timers i with used := false }

theorem timerDisarm_timers_of_ne {i j : Fin waitTimers} (h : j ≠ i) :
    (k.timerDisarm i).timers j = k.timers j := timers_setTimer_of_ne h

theorem timerDisarm_used_self (k : Kernel) (i : Fin waitTimers) :
    ((k.timerDisarm i).timers i).used = false := by
  simp [timerDisarm]

/-- A timer still in use is not the one disarmed. -/
theorem timerDisarm_used {i j : Fin waitTimers}
    (h : ((k.timerDisarm i).timers j).used = true) : (k.timerDisarm i).timers j = k.timers j := by
  apply timerDisarm_timers_of_ne
  rintro rfl
  rw [timerDisarm_used_self] at h
  cases h

/-- A timer's wake-up: the process leaves the timer's queue. -/
def timerWake (k : Kernel) (t : WaitTimer) (p : Slot) : Kernel :=
  (k.wqUnlink t.wq p).wakeLocked p t.kind t.ret

def timerExpire (k : Kernel) (i : Fin waitTimers) : Kernel :=
  if k.timerDue i then
    match (k.timerDisarm i).firstBlocked (k.timers i).wq with
    | some p => (k.timerDisarm i).timerWake (k.timers i) p
    | none => k.timerDisarm i
  else k

def waitTimersPoll (k : Kernel) : Kernel :=
  (List.finRange waitTimers).foldl timerExpire k

/-! ## Parking -/

def newPark (k : Kernel) (q : QueueId) (us : UInt64) : Park :=
  { id := k.parks, queue := q, since := k.uptime, timeout := us }

/-- Mark the current process BLOCKED and give up the processor.  The scheduler
then resumes some READY process or the kernel's own task. -/
def parkCurrent (k : Kernel) (p : Slot) (park : Park) (ret : UInt64) : Kernel :=
  { k.setProc p fun proc =>
      { proc with frameRet := ret, state := .blocked, park := some park } with
    current := none
    parks := k.parks + 1 }

section

variable (k : Kernel) (p i : Slot) (park : Park) (ret : UInt64)

theorem procs_parkCurrent : (k.parkCurrent p park ret).procs i =
      if i = p then { k.procs p with frameRet := ret, state := .blocked, park := some park }
      else k.procs i := by
  unfold parkCurrent
  rw [procs_setProc]

@[simp] theorem waitNext_parkCurrent : (k.parkCurrent p park ret).waitNext i = k.waitNext i := by
  unfold waitNext
  rw [procs_parkCurrent]
  split
  · next hi => rw [hi]
  · rfl

theorem parkedOn_parkCurrent_self : (k.parkCurrent p park ret).parkedOn p = some park.queue := by
  unfold parkedOn parked
  rw [procs_parkCurrent, if_pos rfl]
  rfl

end

theorem parkedOn_parkCurrent_of_ne {park : Park}
    (h : i ≠ p) : (k.parkCurrent p park ret).parkedOn i = k.parkedOn i := by
  unfold parkedOn parked
  rw [procs_parkCurrent, if_neg h]

/-- `wait_block`.  With the timer pool exhausted it spins and returns. -/
def waitBlock (k : Kernel) (q : QueueId) (kind : WaitKind) (ret timeoutUs : UInt64) : Kernel :=
  match k.current with
  | none => k
  | some p =>
    let armed :=
      if timeoutUs ≠ 0 then k.waitTimerArm q timeoutUs kind ret (p, k.parks) else some k
    match armed with
    | none => k
    | some k' =>
      (k'.wqPush q p).parkCurrent p (k.newPark q timeoutUs)
        (if kind = .complete then ret else (k.procs p).frameRet)

/-! ## What queue operations and wake-ups may change -/

/-- Two processes that differ only in their place in a queue. -/
def Relinked (p p' : Process) : Prop := p' = { p with waitNext := p'.waitNext }

/-- Two processes that differ in their place in a queue, or of which the second
has been woken. -/
structure Stirred (p p' : Process) : Prop where
  eq : p' = { p with waitNext := p'.waitNext, frameRet := p'.frameRet, state := p'.state }
  state : p'.state = p.state ∨ p.state = .blocked ∧ p'.state = .ready

namespace Stirred

variable {p p' p'' : Process}

theorem refl (p : Process) : Stirred p p := ⟨rfl, .inl rfl⟩

section

variable (h : Stirred p p')
include h

theorem trans (h' : Stirred p' p'') : Stirred p p'' := by
  refine ⟨?_, ?_⟩
  · have e := h.eq
    have e' := h'.eq
    rw [e] at e'
    exact e'
  rcases h.state with hs | ⟨hb, hr⟩
  · rw [← hs]
    exact h'.state
  rcases h'.state with hs' | ⟨hb', -⟩
  · exact .inr ⟨hb, hs'.trans hr⟩
  · rw [hr] at hb'
    cases hb'

theorem park : p'.park = p.park := by rw [h.eq]
theorem tgid : p'.tgid = p.tgid := by rw [h.eq]

theorem blocked (hb : p'.state = .blocked) : p.state = .blocked := by
  rcases h.state with hs | ⟨-, hr⟩
  · rw [← hs, hb]
  · rw [hb] at hr
    cases hr

end

end Stirred

/-- A kernel in which processes were moved in queues, and nothing else. -/
structure RelinkedBy (k k' : Kernel) : Prop where
  procs : ∀ i, Relinked (k.procs i) (k'.procs i)
  rest : k'.rest = k.rest

/-- A kernel in which processes were moved in queues and woken, and nothing
else. -/
structure StirredBy (k k' : Kernel) : Prop where
  procs : ∀ i, Stirred (k.procs i) (k'.procs i)
  rest : k'.rest = k.rest

namespace RelinkedBy

variable {k k' k'' : Kernel}

theorem refl (k : Kernel) : RelinkedBy k k := ⟨fun _ => rfl, rfl⟩

section

variable (h : RelinkedBy k k')
include h

theorem trans (h' : RelinkedBy k' k'') : RelinkedBy k k'' := by
  refine ⟨fun i => ?_, h'.rest.trans h.rest⟩
  have e := h.procs i
  have e' := h'.procs i
  rw [e] at e'
  exact e'

theorem stirredBy : StirredBy k k' :=
  ⟨fun i => ⟨by rw [h.procs i], .inl (by rw [h.procs i])⟩, h.rest⟩

theorem state (i : Slot) : (k'.procs i).state = (k.procs i).state := by
  rw [h.procs i]

theorem park (i : Slot) : (k'.procs i).park = (k.procs i).park := by
  rw [h.procs i]

theorem parkedOn (i : Slot) : k'.parkedOn i = k.parkedOn i :=
  parkedOn_congr (h.state i) (h.park i)

end

end RelinkedBy

namespace StirredBy

variable {k k' k'' : Kernel}

theorem refl (k : Kernel) : StirredBy k k := ⟨fun _ => .refl _, rfl⟩

section

variable (h : StirredBy k k')
include h

theorem trans (h' : StirredBy k' k'') : StirredBy k k'' :=
  ⟨fun i => (h.procs i).trans (h'.procs i), h'.rest.trans h.rest⟩

theorem field {β : Type} (f : Kernel → β) (hf : ∀ k, f k.rest = f k) : f k' = f k := by
  rw [← hf k', h.rest, hf]

theorem timers : k'.timers = k.timers := h.field Kernel.timers fun _ => rfl
theorem waiters : k'.waiters = k.waiters := h.field Kernel.waiters fun _ => rfl
theorem futexTab : k'.futexTab = k.futexTab :=
  h.field Kernel.futexTab fun _ => rfl
theorem freed : k'.freed = k.freed := h.field Kernel.freed fun _ => rfl
theorem uptime : k'.uptime = k.uptime := h.field Kernel.uptime fun _ => rfl
theorem current : k'.current = k.current := h.field Kernel.current fun _ => rfl
theorem parks : k'.parks = k.parks := h.field Kernel.parks fun _ => rfl
theorem nextWaiter : k'.nextWaiter = k.nextWaiter :=
  h.field Kernel.nextWaiter fun _ => rfl

end

end StirredBy

theorem setQueue_relinkedBy (k : Kernel) (q : QueueId) (wq : WaitQueue) :
    RelinkedBy k (k.setQueue q wq) := ⟨fun _ => rfl, rfl⟩

theorem setNext_relinkedBy (k : Kernel) (p : Slot) (next : Option Slot) :
    RelinkedBy k (k.setNext p next) := by
  refine ⟨fun j => ?_, rfl⟩
  unfold setNext
  rw [procs_setProc]
  split
  · next hj => rw [hj]; rfl
  · rfl

theorem wqBypass_relinkedBy (h : k.wqBypass q p = some k') : RelinkedBy k k' := by
  unfold wqBypass at h
  split at h
  · cases h
    exact setQueue_relinkedBy _ _ _
  split at h
  · next i _ =>
    cases h
    exact setNext_relinkedBy _ i _
  · cases h

section

variable (k : Kernel) (q : QueueId) (p : Slot)

theorem wqPush_relinkedBy : RelinkedBy k (k.wqPush q p) := by
  have h1 := setNext_relinkedBy k p none
  unfold wqPush
  split
  · exact h1.trans (setQueue_relinkedBy _ _ _)
  · next t _ =>
      exact (h1.trans (setNext_relinkedBy _ t (some p))).trans (setQueue_relinkedBy _ _ _)

theorem wqPop_relinkedBy : RelinkedBy k (k.wqPop q p) := by
  exact (setQueue_relinkedBy k q _).trans (setNext_relinkedBy _ p none)

theorem wqRetail_relinkedBy : RelinkedBy k (k.wqRetail q p) := by
  unfold wqRetail
  split
  · exact setQueue_relinkedBy _ _ _
  · exact .refl k

theorem wqUnlink_relinkedBy : RelinkedBy k (k.wqUnlink q p) := by
  unfold wqUnlink
  split
  · next k' hk =>
    exact ((wqBypass_relinkedBy hk).trans (wqRetail_relinkedBy _ _ _)).trans
      (setNext_relinkedBy _ p none)
  · exact .refl k

end

theorem wakeLocked_stirredBy (h : (k.procs p).state = .blocked) (kind : WaitKind)
    (ret : UInt64) : StirredBy k (k.wakeLocked p kind ret) := by
  refine ⟨fun j => ?_, rfl⟩
  unfold wakeLocked
  rw [procs_setProc]
  split
  · next hj =>
    rw [hj]
    exact ⟨rfl, .inr ⟨h, rfl⟩⟩
  · exact .refl _

theorem popWake_stirredBy (h : (k.procs p).state = .blocked) (kind : WaitKind) (ret : UInt64) :
    StirredBy k ((k.wqPop q p).wakeLocked p kind ret) := by
  have hpop := wqPop_relinkedBy k q p
  exact hpop.stirredBy.trans (wakeLocked_stirredBy ((hpop.state p).trans h) kind ret)

theorem waitWakeLoop_stirredBy (q : QueueId) (fuel : Nat) (left : Option Nat) (k : Kernel) :
    StirredBy k (waitWakeLoop q fuel left k) := by
  induction fuel generalizing left k with
  | zero => exact .refl k
  | succ fuel ih =>
    rw [waitWakeLoop]
    split
    · exact .refl k
    split
    · exact .refl k
    rename_i p _
    split
    · next hb => exact (popWake_stirredBy hb .restart 0).trans (ih _ _)
    · exact (wqPop_relinkedBy k q p).stirredBy.trans (ih _ _)

theorem waitWake_stirredBy (k : Kernel) (q : QueueId) (max : Int) :
    StirredBy k (k.waitWake q max) := waitWakeLoop_stirredBy q _ _ k

theorem waitWakeStatus_stirredBy (k : Kernel) (q : QueueId) (ret : UInt64) :
    StirredBy k (k.waitWakeStatus q ret) := by
  unfold waitWakeStatus
  generalize maxProcesses + 1 = fuel
  induction fuel generalizing k with
  | zero => exact .refl k
  | succ fuel ih =>
    rw [waitWakeStatusLoop]
    split
    · exact .refl k
    rename_i p _
    split
    · next hb => exact popWake_stirredBy hb .complete ret
    · exact (wqPop_relinkedBy k q p).stirredBy.trans (ih _)

theorem timerWake_stirredBy (h : (k.procs p).state = .blocked)
    (t : WaitTimer) : StirredBy k (k.timerWake t p) := by
  have hrel := wqUnlink_relinkedBy k t.wq p
  exact hrel.stirredBy.trans (wakeLocked_stirredBy ((hrel.state p).trans h) t.kind t.ret)

theorem timerWake_state (k : Kernel) (t : WaitTimer) (p : Slot) :
    ((k.timerWake t p).procs p).state = .ready :=
  state_wakeLocked _ _ _ _

theorem timerWake_parked_of_ne {t : WaitTimer} {j : Slot} (h : j ≠ p) :
    (k.timerWake t p).parked j = k.parked j := by
  have hrel := wqUnlink_relinkedBy k t.wq p
  unfold timerWake parked
  rw [procs_wakeLocked, if_neg h, hrel.state, hrel.park]

end Kil0yOS.Core.Kernel
