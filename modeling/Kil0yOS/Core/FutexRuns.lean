/-
Futex wake-ups over whole runs.

Each step keeps the futex table, the private queues and the timers in order, as
long as the wake-ups it makes meet their condition.
-/
import Kil0yOS.Core.FutexWake

namespace Kil0yOS.Core.Kernel

open Lib List Function

variable {k k' : Kernel} {q r : QueueId} {p t : Slot} {w : Nat} {uaddr : UInt64} {n : Int}
  {f : Process → Process} {park : Park} {a : Action}

/-! ## Steps that enter no futex wait -/

/-- Waiters may have been made, but none was entered into the table or freed. -/
structure FutexFrame (k k' : Kernel) : Prop where
  waiters : ∀ w < k.nextWaiter, k'.waiters w = k.waiters w
  futexTab : k'.futexTab = k.futexTab
  nextWaiter : k.nextWaiter ≤ k'.nextWaiter
  freed : k'.freed = k.freed

theorem FutexFrame.of_eq (hw : k'.waiters = k.waiters) (ht : k'.futexTab = k.futexTab)
    (hn : k'.nextWaiter = k.nextWaiter) (hf : k'.freed = k.freed) : FutexFrame k k' :=
  ⟨fun w _ => congrFun hw w, ht, hn.ge, hf⟩

theorem StirredBy.futexFrame (h : StirredBy k k') : FutexFrame k k' :=
  .of_eq h.waiters h.futexTab h.nextWaiter h.freed

/-- A waiter that a timer may point to. -/
def Allocated (k : Kernel) (w : Nat) : Prop := w < k.nextWaiter ∧ k.freed w = false

section

variable (h : k.FutexInv)
include h

namespace FutexInv

theorem armed {i : Fin waitTimers} (hu : (k.timers i).used = true)
    (hw : (k.timers i).wq = .futex w) : k.Allocated w :=
  ⟨h.timer_lt i w hu hw, timerLive_of_futex (h.live i hu) hw⟩

theorem shrink (hf : FutexFrame k k')
    (htimers : ∀ i w, (k'.timers i).used = true → (k'.timers i).wq = .futex w → k.Allocated w)
    (hparked : ∀ p w, k'.parkedOn p = some (.futex w) →
      k.parkedOn p = some (.futex w) ∧ k'.queues (.futex w) = k.queues (.futex w)) :
    k'.FutexInv := by
  constructor
  · intro p w hp
    obtain ⟨hp', hq⟩ := hparked p w hp
    have hpark := h.parked p w hp'
    have hw := hf.waiters w (h.entry_lt _ w hpark.mem)
    refine ⟨?_, ?_, hq.trans hpark.queue, fun b v hv hproc => ?_⟩
    · rw [hw]
      exact hpark.proc
    · rw [hw, hf.futexTab]
      exact hpark.mem
    · rw [hf.futexTab] at hv
      rw [hf.waiters v (h.entry_lt b v hv)] at hproc
      exact hpark.latest b v hv hproc
  · rw [hf.futexTab]
    exact h.sorted
  · rw [hf.futexTab]
    exact fun b w hw => (h.entry_lt b w hw).trans_le hf.nextWaiter
  · intro i hu
    refine timerLive_of fun w hw => ?_
    rw [hf.freed, (htimers i w hu hw).2]
    exact Bool.false_ne_true
  · exact fun i w hu hw => (htimers i w hu hw).1.trans_le hf.nextWaiter
  · rw [hf.freed]
    exact fun w hw => (h.freed_lt w hw).trans_le hf.nextWaiter

theorem of_parkedOn (hf : FutexFrame k k')
    (htimers : k'.timers = k.timers) (hqueues : k'.queues = k.queues)
    (hparked : ∀ p q, k'.parkedOn p = some q → k.parkedOn p = some q) : k'.FutexInv := by
  refine h.shrink hf (fun i w => ?_) fun p w hp => ⟨hparked p _ hp, ?_⟩
  · rw [htimers]
    exact h.armed
  · rw [hqueues]

theorem setProc
    (hf : (k.setProc p f).parkedOn p = none ∨ (k.setProc p f).parkedOn p = k.parkedOn p) :
    (k.setProc p f).FutexInv := by
  refine h.of_parkedOn (.of_eq rfl rfl rfl rfl) rfl rfl fun j q hj => ?_
  by_cases hjp : j = p
  · subst hjp
    rcases hf with hf | hf
    · rw [hf] at hj
      cases hj
    · rw [← hf]
      exact hj
  · rw [← hj]
    unfold parkedOn Kernel.parked
    rw [procs_setProc_of_ne hjp]

theorem setProc_state
    (hf : (f (k.procs p)).state ≠ .blocked) : (k.setProc p f).FutexInv := by
  refine h.setProc (.inl (parkedOn_of_not_blocked ?_))
  rw [procs_setProc_self]
  exact hf

theorem setCurrent (c : Option Slot) : (k.setCurrent c).FutexInv :=
  h.of_parkedOn (.of_eq rfl rfl rfl rfl) rfl rfl fun _ _ hp => hp

/-- Wake-ups on a queue of `wait.c`. -/
theorem of_stirredBy (hs : StirredBy k k')
    (hqueues : ∀ w, k'.queues (.futex w) = k.queues (.futex w)) : k'.FutexInv := by
  refine h.shrink hs.futexFrame (fun i w => ?_) fun p w hp => ⟨?_, hqueues w⟩
  · rw [hs.timers]
    exact h.armed
  · exact parkedOn_of_stirred (hs.procs p) hp

end FutexInv

end

theorem waitWakeLoop_queues (h : r ≠ q) (fuel : Nat) (left : Option Nat) (k : Kernel) :
    (waitWakeLoop q fuel left k).queues r = k.queues r := by
  induction fuel generalizing left k with
  | zero => rfl
  | succ fuel ih =>
    rw [waitWakeLoop]
    split
    · rfl
    split
    · rfl
    split
    · simp [ih, queues_wqPop_of_ne h]
    · rw [ih, queues_wqPop_of_ne h]

theorem waitWakeStatusLoop_queues (h : r ≠ q) (ret : UInt64) (fuel : Nat) (k : Kernel) :
    (waitWakeStatusLoop q ret fuel k).queues r = k.queues r := by
  induction fuel generalizing k with
  | zero => rfl
  | succ fuel ih =>
    rw [waitWakeStatusLoop]
    split
    · rfl
    split
    · simp [queues_wqPop_of_ne h]
    · rw [ih, queues_wqPop_of_ne h]

theorem FutexInv.waitWake (h : k.FutexInv) (hq : q.isGlobal = true) (max : Int) :
    (k.waitWake q max).FutexInv := by
  refine h.of_stirredBy (waitWake_stirredBy k q max) fun w => waitWakeLoop_queues ?_ _ _ k
  rintro rfl
  cases hq

theorem FutexInv.waitWakeStatus (h : k.FutexInv) (hq : q.isGlobal = true) (ret : UInt64) :
    (k.waitWakeStatus q ret).FutexInv := by
  refine h.of_stirredBy (waitWakeStatus_stirredBy k q ret) fun w =>
    waitWakeStatusLoop_queues ?_ ret _ k
  rintro rfl
  cases hq

/-! ## Timers -/

theorem queues_wqBypass {k' : Kernel} (hb : k.wqBypass q p = some k') (h : r ≠ q) :
    k'.queues r = k.queues r := by
  unfold wqBypass at hb
  split at hb
  · cases hb
    exact queues_setQueue_of_ne h
  split at hb
  · cases hb
    rfl
  · cases hb

theorem queues_wqRetail (h : r ≠ q) : (k.wqRetail q p).queues r = k.queues r := by
  unfold wqRetail
  split
  · exact queues_setQueue_of_ne h
  · rfl

theorem queues_wqUnlink (h : r ≠ q) : (k.wqUnlink q p).queues r = k.queues r := by
  unfold wqUnlink
  split
  · next k' hk' => simp [queues_wqRetail h, queues_wqBypass hk' h]
  · rfl

section

variable (h : k.FutexInv)
include h

namespace FutexInv

/-- On a private queue the first BLOCKED process is the one it holds. -/
theorem firstBlocked_eq (hp : k.parkedOn p = some (.futex w)) :
    k.firstBlocked (.futex w) = some p := by
  unfold firstBlocked
  rw [(h.parked p w hp).queue]
  show firstWhere k.waitNext _ (127 + 1) (some p) = some p
  rw [firstWhere, if_pos]
  exact decide_eq_true (blocked_of_parkedOn hp)

theorem timerDisarm (i : Fin waitTimers) : (k.timerDisarm i).FutexInv := by
  refine h.shrink (.of_eq rfl rfl rfl rfl) (fun j w hu hw => ?_) fun p w hp => ⟨hp, rfl⟩
  have hsame := timerDisarm_used hu
  rw [hsame] at hu hw
  exact h.armed hu hw

theorem timerWake {t : WaitTimer} (hp : k.firstBlocked t.wq = some p) :
    (k.timerWake t p).FutexInv := by
  have hstir := timerWake_stirredBy (firstBlocked_blocked hp) t
  refine h.shrink hstir.futexFrame (fun i w => ?_) fun j w hj => ?_
  · rw [hstir.timers]
    exact h.armed
  have hj' := parkedOn_of_stirred (hstir.procs j) hj
  refine ⟨hj', queues_wqUnlink fun e => ?_⟩
  -- the queue would be the timer's own, and its process is the one just woken
  rw [← e, h.firstBlocked_eq hj'] at hp
  cases hp
  have hb := blocked_of_parkedOn hj
  rw [timerWake_state] at hb
  cases hb

theorem timerExpire (i : Fin waitTimers) : (k.timerExpire i).FutexInv := by
  unfold Kernel.timerExpire
  split
  · split
    · next p hp => exact (h.timerDisarm i).timerWake hp
    · exact h.timerDisarm i
  · exact h

theorem waitTimersPoll : k.waitTimersPoll.FutexInv :=
  foldlRecOn _ _ h fun _ hk i _ => hk.timerExpire i

theorem elapse (now : UInt64) : (k.elapse now).FutexInv := by
  unfold Kernel.elapse
  split
  · exact h.of_parkedOn (.of_eq rfl rfl rfl rfl) rfl rfl fun _ _ hp => hp
  · exact h

end FutexInv

end

/-! ## Parking -/

theorem queues_wqPush (h : r ≠ q) : (k.wqPush q p).queues r = k.queues r := by
  unfold wqPush
  split <;> exact queues_setQueue_of_ne h

theorem FutexInv.push (h : k.FutexInv) (hq : q.isGlobal = true) (us ret : UInt64) :
    ((k.wqPush q p).parkCurrent p (k'.newPark q us) ret).FutexInv := by
  have hrel := wqPush_relinkedBy k q p
  have hne : ∀ w, QueueId.futex w ≠ q := by
    rintro w rfl
    cases hq
  have hf := hrel.stirredBy.futexFrame
  refine h.shrink { hf with } (fun i w hu hw => ?_)
    fun j w hj => ?_
  · have htimers : ((k.wqPush q p).parkCurrent p (k'.newPark q us) ret).timers = k.timers :=
      hrel.stirredBy.timers
    rw [htimers] at hu hw
    exact h.armed hu hw
  have hjp : j ≠ p := by
    rintro rfl
    rw [parkedOn_parkCurrent_self] at hj
    exact hne w (Option.some.inj hj).symm
  rw [parkedOn_parkCurrent_of_ne hjp, hrel.parkedOn] at hj
  exact ⟨hj, queues_wqPush (hne w)⟩

/-- The state after a wait on a live queue has armed its timer, if it has one. -/
theorem FutexInv.arm (h : k.FutexInv) (hq : ∀ w, q = .futex w → k.Allocated w) {us ret : UInt64}
    {kind : WaitKind} {owner : Slot × Nat}
    (harm : (if us ≠ 0 then k.waitTimerArm q us kind ret owner else some k) = some k') :
    k'.FutexInv := by
  split at harm
  · obtain ⟨i, rfl, -⟩ := waitTimerArm_eq harm
    refine h.shrink (.of_eq rfl rfl rfl rfl) (fun j w hu hw => ?_) fun p w hp => ⟨hp, rfl⟩
    by_cases hji : j = i
    · rw [hji, timers_setTimer_self] at hw
      exact hq w hw
    · rw [timers_setTimer_of_ne hji] at hu hw
      exact h.armed hu hw
  · cases harm
    exact h

theorem FutexInv.waitBlock (h : k.FutexInv) (hq : q.isGlobal = true) (kind : WaitKind)
    (ret us : UInt64) : (k.waitBlock q kind ret us).FutexInv := by
  unfold Kernel.waitBlock
  split
  · exact h
  dsimp only
  split
  · exact h
  next k' hk' =>
  have hk : k'.FutexInv := by
    refine h.arm (fun w e => ?_) hk'
    rw [e] at hq
    cases hq
  exact hk.push hq us _

theorem mem_futexPark {b : Fin futHash} {v : Nat} :
    v ∈ (k.futexPark w p park).futexTab b ↔
      v = w ∧ b = futexHash (k.waiters w).uaddr ∨ v ∈ k.futexTab b := by
  show v ∈ update k.futexTab _ _ b ↔ _
  by_cases hb : b = futexHash (k.waiters w).uaddr
  · rw [hb]
    simp
  · simp [hb]

section

variable (h : k.FutexInv)
include h

namespace FutexInv

theorem futexAlloc (uaddr : UInt64) (p : Slot) : (k.futexAlloc uaddr p).FutexInv := by
  refine h.shrink ⟨fun w hw => update_of_ne (Nat.ne_of_lt hw) _ _, rfl, Nat.le_succ _, rfl⟩
    (fun _ _ => h.armed) fun p w hp => ⟨hp, queues_setQueue_of_ne fun e => ?_⟩
  have hw := h.entry_lt _ w (h.parked p w hp).mem
  exact Nat.ne_of_lt hw (QueueId.futex.inj e)

theorem futexFree (hw : w < k.nextWaiter)
    (hfree : ∀ i, (k.timers i).used = true → (k.timers i).wq ≠ .futex w) :
    (k.futexFree w).FutexInv := by
  refine ⟨fun p v hp => ?_, h.sorted, h.entry_lt, fun i hu => timerLive_of fun v hv hf => ?_,
    h.timer_lt, fun v hf => ?_⟩
  · have hpark := h.parked p v hp
    exact { hpark with }
  · rcases freed_futexFree hf with rfl | hf
    · exact hfree i hu hv
    · exact absurd ((h.armed hu hv).2.symm.trans hf) Bool.false_ne_true
  · rcases freed_futexFree hf with rfl | hf
    · exact hw
    · exact h.freed_lt v hf

/-- A process parks through a waiter newer than all in the table. -/
theorem futexPark (hw : w < k.nextWaiter) (hp : (k.waiters w).proc = p)
    (hnew : ∀ b, ∀ v ∈ k.futexTab b, v < w) (hpark : park.queue = .futex w) :
    (k.futexPark w p park).FutexInv := by
  have hle : ∀ b, ∀ v ∈ (k.futexPark w p park).futexTab b, v ≤ w := by
    intro b v hv
    rcases mem_futexPark.mp hv with ⟨rfl, -⟩ | hv
    · omega
    · exact Nat.le_of_lt (hnew b v hv)
  constructor
  · intro j v hj
    by_cases hjp : j = p
    · rw [hjp, Kernel.futexPark, parkedOn_parkCurrent_self, hpark] at hj
      obtain rfl := QueueId.futex.inj (Option.some.inj hj)
      rw [hjp]
      exact ⟨hp, mem_futexPark.mpr (.inl ⟨rfl, rfl⟩), queues_setQueue_self _ _ _,
        fun b v hv _ => hle b v hv⟩
    have hj' : k.parkedOn j = some (.futex v) := by
      rw [← hj, Kernel.futexPark, parkedOn_parkCurrent_of_ne hjp]
      unfold parkedOn Kernel.parked
      simp [setNext, procs_setProc_of_ne hjp]
    have hv := h.parked j v hj'
    have hvw := hnew _ v hv.mem
    refine ⟨hv.proc, mem_futexPark.mpr (.inr hv.mem), ?_, fun b u hu hproc => ?_⟩
    · rw [← hv.queue]
      exact queues_setQueue_of_ne fun e => Nat.ne_of_lt hvw (QueueId.futex.inj e)
    · rcases mem_futexPark.mp hu with ⟨rfl, -⟩ | hu
      · exact absurd (hproc.symm.trans hp) hjp
      · exact hv.latest b u hu hproc
  · exact (forall_update_iff k.futexTab fun _ ws => ws.Pairwise (· > ·)).mpr
      ⟨pairwise_cons.mpr ⟨hnew _, h.sorted _⟩, fun b _ => h.sorted b⟩
  · exact fun b v hv => (hle b v hv).trans_lt hw
  · exact h.live
  · exact h.timer_lt
  · exact h.freed_lt

theorem futexWait (uaddr : UInt64) (rangeOk valueEq kmallocOk : Bool) (us : UInt64) :
    (k.futexWait uaddr rangeOk valueEq kmallocOk us).FutexInv := by
  unfold Kernel.futexWait
  split
  · exact h
  rename_i p _
  split
  · dsimp only
    have halloc := h.futexAlloc uaddr p
    have hnew : k.nextWaiter < (k.futexAlloc uaddr p).nextWaiter := Nat.lt_succ_self _
    split
    · refine halloc.futexFree hnew fun i hu hw => ?_
      exact absurd (h.timer_lt i _ hu hw) (Nat.lt_irrefl _)
    next k₁ hk₁ =>
    have hinv : k₁.FutexInv := by
      refine halloc.arm (fun w e => ?_) hk₁
      rw [← QueueId.futex.inj e]
      refine ⟨hnew, Bool.eq_false_iff.mpr fun hf => ?_⟩
      exact absurd (h.freed_lt _ hf) (Nat.lt_irrefl _)
    obtain ⟨ts, rfl⟩ := armed_eq hk₁
    refine hinv.futexPark hnew ?_ h.entry_lt rfl
    show (update k.waiters _ _ _).proc = p
    simp
  · exact h

/-! ## Processes and threads -/

theorem schedule (j : Slot) : (k.schedule j).FutexInv := by
  have hpre : k.preempt.FutexInv := by
    unfold preempt
    split
    · exact h.setProc_state nofun
    · exact h
  unfold Kernel.schedule
  split
  · have hset : (k.preempt.setProc j fun proc => { proc with state := .running }).FutexInv :=
      hpre.setProc_state nofun
    exact hset.setCurrent _
  · exact h

theorem installSlot {proc : Process} (hstate : proc.state ≠ .blocked) (c : Slot)
    (tids : UInt32) : (k.installSlot c proc tids).FutexInv := by
  have hset : (k.setProc c fun _ => proc).FutexInv := h.setProc_state hstate
  exact hset.of_parkedOn (.of_eq rfl rfl rfl rfl) rfl rfl fun _ _ hp => hp

theorem processFork (ok : Bool) : (k.processFork ok).FutexInv := by
  unfold Kernel.processFork
  split
  · exact h
  split
  · exact h
  split
  · exact h
  · refine h.installSlot ?_ _ _
    cases ok <;> exact nofun

theorem processClone (thread vm : Bool) (clearTid : UInt64) (ok : Bool) :
    (k.processClone thread vm clearTid ok).FutexInv := by
  unfold Kernel.processClone
  split
  · exact h
  split
  · exact h
  split
  · exact h
  · refine h.installSlot ?_ _ _
    split <;> exact nofun

section

variable (hs : ∀ c ∈ k.clearTidCalls t, c.state.CallSafe c.uaddr c.n)
include hs

theorem threadClearTid :
    (k.threadClearTid t).FutexInv := by
  unfold Kernel.threadClearTid
  unfold clearTidCalls at hs
  split
  · exact h
  rename_i hz
  rw [if_neg hz] at hs
  have hwake := h.futexWakeUser (hs _ (mem_singleton.mpr rfl))
  refine hwake.setProc (.inr (parkedOn_congr ?_ ?_))
  · simp
  · simp

theorem threadRelease :
    (k.threadRelease t).FutexInv :=
  (h.threadClearTid hs).setProc_state nofun

end

theorem clearTidCalls : ∀ c ∈ k.clearTidCalls t, c.state.FutexInv := by
  intro c hc
  unfold Kernel.clearTidCalls at hc
  split at hc
  · exact absurd hc not_mem_nil
  · rw [mem_singleton.mp hc]
    exact h

/-- `exit_group`: the invariant holds at each wake-up on the way, and at the
end. -/
theorem kill {leader : Slot} (ts : List Slot)
    (hs : ∀ c ∈ killCalls leader ts k, c.state.CallSafe c.uaddr c.n) :
    (ts.foldl (fun k t => if k.isSibling leader t then k.threadRelease t else k) k).FutexInv ∧
      ∀ c ∈ killCalls leader ts k, c.state.FutexInv := by
  induction ts generalizing k with
  | nil => exact ⟨h, nofun⟩
  | cons t ts ih =>
    rw [killCalls] at hs ⊢
    rw [foldl_cons]
    split
    · next hsib =>
      rw [if_pos hsib] at hs
      have hfirst := fun c hc => hs c (mem_append_left _ hc)
      obtain ⟨hend, hcalls⟩ := ih (h.threadRelease hfirst) fun c hc => hs c (mem_append_right _ hc)
      refine ⟨hend, fun c hc => ?_⟩
      rcases mem_append.mp hc with hc | hc
      · exact h.clearTidCalls c hc
      · exact hcalls c hc
    · next hsib =>
      rw [if_neg hsib] at hs
      exact ih h hs

theorem resumeWaiter (par : Slot) (childPid : UInt32) :
    (k.resumeWaiter par childPid).FutexInv := by
  have hset : (k.setProc par fun proc =>
      { proc with frameRet := childPid.toUInt64, state := .running, waitPid := 0 }).FutexInv :=
    h.setProc_state nofun
  exact hset.setCurrent (some par)

/-- The way out of a program, up to where the leader is a zombie, and the wake-ups
on it. -/
theorem leave (hp : k.current = some p)
    (hs : ∀ c ∈ k.exitCalls, c.state.CallSafe c.uaddr c.n) :
    ((k.procs p).isThread = true → ((k.threadRelease p).setCurrent none).FutexInv) ∧
      ((k.procs p).isThread ≠ true → ∀ status,
        ((k.exitGroupKillThreads p).zombify p status).FutexInv) ∧
      ∀ c ∈ k.exitCalls, c.state.FutexInv := by
  unfold Kernel.exitCalls at hs ⊢
  rw [hp] at hs ⊢
  dsimp only at hs ⊢
  by_cases hthread : (k.procs p).isThread = true
  · rw [if_pos hthread] at hs ⊢
    exact ⟨fun _ => (h.threadRelease hs).setCurrent none, fun hne => absurd hthread hne,
      h.clearTidCalls⟩
  · rw [if_neg hthread] at hs ⊢
    obtain ⟨hend, hcalls⟩ := h.kill _ hs
    exact ⟨fun hne => absurd hne hthread, fun _ _ => hend.setProc_state nofun, hcalls⟩

end FutexInv

section

variable (hs : ∀ c ∈ k.exitCalls, c.state.CallSafe c.uaddr c.n)
include hs

theorem FutexInv.processExit (status : Int32) : (k.processExit status).FutexInv := by
  unfold Kernel.processExit
  split
  · exact h
  next p hp =>
  obtain ⟨hthread, hleader, -⟩ := h.leave hp hs
  split
  · next ht => exact hthread ht
  next ht =>
  dsimp only
  split
  · exact (hleader ht status).resumeWaiter _ _
  · exact (hleader ht status).setCurrent none

theorem FutexInv.processKillCurrent (status : Int32) : (k.processKillCurrent status).FutexInv := by
  unfold Kernel.processKillCurrent
  split
  · exact h
  next p hp =>
  obtain ⟨hthread, hleader, -⟩ := h.leave hp hs
  split
  · next ht => exact hthread ht
  · next ht => exact (hleader ht status).setCurrent none

theorem FutexInv.exitCalls : ∀ c ∈ k.exitCalls, c.state.FutexInv := by
  cases hp : k.current with
  | none =>
    unfold Kernel.exitCalls
    rw [hp]
    exact nofun
  | some p => exact (h.leave hp hs).2.2

end

theorem FutexInv.scWait4 (pid : Int32) (statusPtr : UInt64) (rangeOk : Bool) :
    (k.scWait4 pid statusPtr rangeOk).1.FutexInv := by
  unfold Kernel.scWait4
  split
  · exact h
  rename_i p _
  split
  · exact h
  rename_i c _
  split
  · split
    · exact h
    · have hreap : (k.processReap c).FutexInv := h.setProc_state ProcessState.noConfusion
      exact hreap
  -- a process that waits for a child sits on no queue
  have hpark : (k.setProc p fun proc =>
      { proc with
        frameRet := 0
        state := .blocked
        waitPid := (k.procs c).pid.toInt32
        waitStatusPtr := statusPtr
        park := none }).FutexInv := by
    refine h.setProc (.inl ?_)
    unfold parkedOn Kernel.parked
    rw [procs_setProc_self]
    rfl
  exact (hpark.setProc_state ProcessState.noConfusion).setCurrent _

theorem FutexInv.setTidAddress (tidptr : UInt64) : (k.setTidAddress tidptr).FutexInv := by
  unfold Kernel.setTidAddress
  split
  · exact h
  · refine h.setProc (.inr (parkedOn_congr ?_ ?_))
    · simp
    · simp

end

/-! ## Runs -/

theorem Booted.futexInv (h : k.Booted) : k.FutexInv := by
  have hnot : ∀ p q, k.parkedOn p ≠ some q := by
    intro p q hp
    have hb := blocked_of_parkedOn hp
    rcases (h.procs p).2 with hu | ⟨hr, -⟩
    · rw [hu] at hb
      cases hb
    · rw [hr] at hb
      cases hb
  have hused : ∀ i, (k.timers i).used ≠ true := by
    intro i hu
    rw [h.timers i] at hu
    cases hu
  refine ⟨fun p w hp => absurd hp (hnot p _), fun b => ?_, fun b w hw => ?_,
    fun i hu => absurd hu (hused i), fun i w hu => absurd hu (hused i), fun w hf => ?_⟩
  · rw [h.futexTab]
    exact List.Pairwise.nil
  · rw [h.futexTab] at hw
    exact absurd hw not_mem_nil
  · rw [h.freed] at hf
    cases hf

theorem FutexInv.step (h : k.FutexInv) (hs : k.FutexSafe a) (hvalid : a.valid = true) :
    (k.step a).FutexInv := by
  cases a with
  | schedule j => exact h.schedule j
  | fork ok => exact h.processFork ok
  | clone thread vm clearTid ok => exact h.processClone thread vm clearTid ok
  | exit status => exact h.processExit hs status
  | kill status => exact h.processKillCurrent hs status
  | wait4 pid statusPtr rangeOk => exact h.scWait4 pid statusPtr rangeOk
  | setTidAddress tidptr => exact h.setTidAddress tidptr
  | block q kind ret us => exact h.waitBlock hvalid kind ret us
  | futexWait uaddr rangeOk valueEq kmallocOk us =>
    exact h.futexWait uaddr rangeOk valueEq kmallocOk us
  | futexWake uaddr n => exact h.futexWakeUser (hs _ (mem_singleton.mpr rfl))
  | wake q max => exact h.waitWake hvalid max
  | wakeStatus q ret => exact h.waitWakeStatus hvalid ret
  | elapse now => exact h.elapse now
  | tick now => exact (h.elapse now).waitTimersPoll

/-- The states in which the calls of a step are made keep the invariant too. -/
theorem FutexInv.wakeCalls (h : k.FutexInv) (hs : k.FutexSafe a) :
    ∀ c ∈ k.wakeCalls a, c.state.FutexInv := by
  cases a with
  | futexWake uaddr n =>
    intro c hc
    rw [mem_singleton.mp hc]
    exact h
  | exit status => exact h.exitCalls hs
  | kill status => exact h.exitCalls hs
  | _ => exact nofun

/-- Wake-ups do what they are for, and no armed timer is left on a freed
queue. -/
structure FutexExact (k : Kernel) (a : Action) : Prop where
  live : k.TimersLive
  calls : ∀ c ∈ k.wakeCalls a, 0 ≤ c.n → c.state.WakeExact c.uaddr c.n

/-- In every run whose wake-ups meet the condition, each further wake-up that
meets it wakes exactly as many as it may of the waits it is for. -/
theorem futex_exact {k : Kernel} (h : Reach Booted FutexSafe Step k) {a : Action}
    (hs : k.FutexSafe a) : k.FutexExact a := by
  have hinv : k.FutexInv := by
    refine h.invariant (fun _ hb => hb.futexInv) ?_
    rintro k a k' hk hsafe ⟨hvalid, rfl⟩
    exact hk.step hsafe hvalid
  exact ⟨hinv.live, fun c hc hn => (hinv.wakeCalls hs c hc).wakeExact (hs c hc) hn⟩

/-! ## A thread waits for another -/

instance (uaddr : UInt64) (n : Int) : Decidable (k.CallSafe uaddr n) :=
  decidable_of_iff (_ ∧ _)
    ⟨fun h => ⟨h.1, h.2⟩, fun h => ⟨h.own, h.unarmed⟩⟩

instance (a : Action) : Decidable (k.FutexSafe a) :=
  inferInstanceAs (Decidable (∀ c ∈ k.wakeCalls a, _))

/-- A program starts a thread and then waits on a futex; the thread runs. -/
def futexSleeps (timeoutUs : UInt64) : List Action :=
  [.schedule 0, .clone true true 0 true, .futexWait 0x1000 true true true timeoutUs, .schedule 2]

/-- The wait has no timeout: the thread's wake finds one waiter and wakes it. -/
theorem futex_exact_untimed :
    ((futexSleeps 0).foldl step twoPrograms).FutexExact (.futexWake 0x1000 1) ∧
      (((futexSleeps 0).foldl step twoPrograms).futexWakeUser 0x1000 1).2 = 1 := by
  refine ⟨futex_exact (twoPrograms_reach (futexSleeps 0) ?_) ?_, ?_⟩ <;> decide +kernel

def futexWoken : List Action := futexSleeps 100 ++ [.futexWake 0x1000 1]

/-- With a timeout the wake frees the waiter under the armed timer. -/
theorem futex_timer_dangles :
    ¬ ∀ k, Reach Booted (fun _ _ => True) Step k → ∀ a, k.FutexExact a := by
  intro hall
  have hlive := (hall _ (twoPrograms_reach futexWoken (by decide +kernel)) (.tick 0)).live 0
  revert hlive
  decide +kernel

end Kil0yOS.Core.Kernel
