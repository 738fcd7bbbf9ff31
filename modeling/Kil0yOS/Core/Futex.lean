/-
Futex waits and wakes of `core/syscall_lnx.c`.

The bucket lists linked by `bnext` are lists of waiters.  Whether the user
address passes the range check, whether the word still has the expected value
and whether `kmalloc` succeeds are arguments of the call.
-/
import Kil0yOS.Sched.Wait

namespace Kil0yOS.Core

open Function

def futexHash (uaddr : UInt64) : Fin futHash :=
  Fin.ofNat futHash ((uaddr >>> 2) ^^^ (uaddr >>> 17)).toNat

/-- `-L_ETIMEDOUT` as the timer stores it. -/
def etimedout : UInt64 := 0 - 110

namespace Kernel

variable (k : Kernel)

def futexAlloc (uaddr : UInt64) (p : Slot) : Kernel :=
  { k.setQueue (.futex k.nextWaiter) { head := none, tail := none } with
    waiters := update k.waiters k.nextWaiter { uaddr := uaddr, proc := p }
    nextWaiter := k.nextWaiter + 1 }

def futexFree (w : Nat) : Kernel :=
  { k with freed := update k.freed w true }

/-- Enter the waiter into its bucket and park the process on the waiter's own
queue. -/
def futexPark (w : Nat) (p : Slot) (park : Park) : Kernel :=
  let h := futexHash (k.waiters w).uaddr
  let k := { k with futexTab := update k.futexTab h (w :: k.futexTab h) }
  ((k.setNext p none).setQueue (.futex w) { head := some p, tail := some p }).parkCurrent p park 0

def futexWait (uaddr : UInt64) (rangeOk valueEq kmallocOk : Bool) (timeoutUs : UInt64) : Kernel :=
  match k.current with
  | none => k
  | some p =>
    if rangeOk && valueEq && kmallocOk then
      let w := k.nextWaiter
      let k' := k.futexAlloc uaddr p
      let armed :=
        if timeoutUs ≠ 0 then
          k'.waitTimerArm (.futex w) timeoutUs .complete etimedout (p, k.parks)
        else some k'
      match armed with
      | none => k'.futexFree w
      | some k' => k'.futexPark w p (k.newPark (.futex w) timeoutUs)
    else k

/-- The walk of `futex_wake_user` along a bucket: the state after it, the waiters
left in the bucket and the number woken. -/
def futexWakeLoop (uaddr : UInt64) (n : Int) : List Nat → Nat → Kernel → Kernel × List Nat × Nat
  | [], woken, k => (k, [], woken)
  | w :: ws, woken, k =>
    if (k.waiters w).uaddr ≠ uaddr then
      let r := futexWakeLoop uaddr n ws woken k
      (r.1, w :: r.2.1, r.2.2)
    else if (k.procs (k.waiters w).proc).state = .blocked then
      if 0 ≤ n ∧ n ≤ woken then
        let r := futexWakeLoop uaddr n ws woken k
        (r.1, w :: r.2.1, r.2.2)
      else
        futexWakeLoop uaddr n ws (woken + 1) ((k.waitWakeStatus (.futex w) 0).futexFree w)
    else futexWakeLoop uaddr n ws woken (k.futexFree w)

def futexWakeUser (uaddr : UInt64) (n : Int) : Kernel × Nat :=
  let h := futexHash uaddr
  let r := futexWakeLoop uaddr n (k.futexTab h) 0 k
  ({ r.1 with futexTab := update r.1.futexTab h r.2.1 }, r.2.2)

/-- Does the timer refer to a queue that still exists? -/
def timerLive (i : Fin waitTimers) : Bool :=
  match (k.timers i).wq with
  | .futex w => !k.freed w
  | _ => true

/-! ## What a wake may change -/

/-- Processes were moved in queues and woken, and futex waiters were taken out of
the table and freed. -/
structure FutexStirred (k k' : Kernel) : Prop where
  procs : ∀ i, Stirred (k.procs i) (k'.procs i)
  rest : { k'.rest with futexTab := k.futexTab, freed := k.freed } = k.rest

namespace FutexStirred

variable {k k' k'' : Kernel}

theorem refl (k : Kernel) : FutexStirred k k := ⟨fun _ => .refl _, rfl⟩

section

variable (h : FutexStirred k k')
include h

theorem field {β : Type} (f : Kernel → β)
    (hf : ∀ (k : Kernel) t d, f { k.rest with futexTab := t, freed := d } = f k) : f k' = f k := by
  rw [← hf k' k.futexTab k.freed, h.rest]
  exact hf k k.futexTab k.freed

theorem timers : k'.timers = k.timers := h.field Kernel.timers fun _ _ _ => rfl
theorem waiters : k'.waiters = k.waiters :=
  h.field Kernel.waiters fun _ _ _ => rfl
theorem current : k'.current = k.current :=
  h.field Kernel.current fun _ _ _ => rfl
theorem parks : k'.parks = k.parks := h.field Kernel.parks fun _ _ _ => rfl
theorem nextWaiter : k'.nextWaiter = k.nextWaiter :=
  h.field Kernel.nextWaiter fun _ _ _ => rfl

theorem trans (h' : FutexStirred k' k'') : FutexStirred k k'' := by
  refine ⟨fun i => (h.procs i).trans (h'.procs i), ?_⟩
  have e : { k''.rest with futexTab := k.futexTab, freed := k.freed } =
      { { k''.rest with futexTab := k'.futexTab, freed := k'.freed } with
        futexTab := k.futexTab, freed := k.freed } := rfl
  rw [e, h'.rest]
  exact h.rest

end

end FutexStirred

theorem StirredBy.futexStirred {k k' : Kernel} (h : StirredBy k k') : FutexStirred k k' := by
  refine ⟨h.procs, ?_⟩
  rw [h.rest]
  rfl

theorem futexFree_stirred (k : Kernel) (w : Nat) : FutexStirred k (k.futexFree w) :=
  ⟨fun _ => .refl _, rfl⟩

theorem futexWakeLoop_stirred (uaddr : UInt64) (n : Int) (ws : List Nat) (woken : Nat)
    (k : Kernel) : FutexStirred k (futexWakeLoop uaddr n ws woken k).1 := by
  induction ws generalizing woken k with
  | nil => exact .refl k
  | cons w ws ih =>
    rw [futexWakeLoop]
    split
    · exact ih woken k
    split
    · split
      · exact ih woken k
      · exact ((waitWakeStatus_stirredBy k _ 0).futexStirred.trans (futexFree_stirred _ w)).trans
          (ih _ _)
    · exact (futexFree_stirred k w).trans (ih _ _)

theorem futexWakeLoop_futexTab (uaddr : UInt64) (n : Int) (ws : List Nat) (woken : Nat)
    (k : Kernel) : (futexWakeLoop uaddr n ws woken k).1.futexTab = k.futexTab := by
  induction ws generalizing woken k with
  | nil => rfl
  | cons w ws ih =>
    rw [futexWakeLoop]
    split
    · exact ih woken k
    split
    · split
      · exact ih woken k
      · exact (ih _ _).trans (waitWakeStatus_stirredBy k _ 0).futexTab
    · exact ih _ _

theorem futexWakeUser_stirred (k : Kernel) (uaddr : UInt64) (n : Int) :
    FutexStirred k (k.futexWakeUser uaddr n).1 := by
  have h := futexWakeLoop_stirred uaddr n (k.futexTab (futexHash uaddr)) 0 k
  exact { h with }

end Kernel
end Kil0yOS.Core
