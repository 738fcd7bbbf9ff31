/-
The wait queues stay sound through whole runs of the kernel.

What breaks them is `exit_group`: it frees the slots of the leader's threads
without taking them off the queue they are parked on.  The runs considered here
do not do that, do not let a timer fire on the queue of a futex waiter that was
freed, and do not wrap the process counter round to zero.
-/
import Kil0yOS.Sched.WaitQueues

namespace Kil0yOS.Core.Kernel

open Lib Kernel List Function

/-! ## The invariant -/

/-- A process that waits for a child sits on no queue, and a process in use has a
number and is not its own parent. -/
structure ProcOk (p : Process) : Prop where
  waiting : p.waitPid ≠ 0 → p.state = .blocked ∧ p.park = none
  pid : p.state ≠ .unused → p.pid ≠ 0
  tgid : p.state ≠ .unused → p.tgid ≠ 0
  parent : p.state ≠ .unused → p.isThread = false → p.parentPid ≠ p.pid.toInt32

structure WaitInv (k : Kernel) : Prop where
  sound : k.QueuesSound
  procs : ∀ i, ProcOk (k.procs i)
  fresh : ∀ i w, k.parkedOn i = some (.futex w) → w < k.nextWaiter

structure RunInv (k : Kernel) : Prop extends WaitInv k where
  current : k.CurrentOk

variable {k k' : Kernel} {q : QueueId} {l : List Slot} {p c leader t : Slot} {f : Process → Process}
  {s : ProcessState} {ret : UInt64} {park : Park} {par : Slot}

theorem ProcOk.relinked {p p' : Process} (h : ProcOk p) (hr : Relinked p p') : ProcOk p' := by
  rw [hr]
  exact { h with }

/-- A process in use that keeps its numbers. -/
theorem ProcOk.reuse {p p' : Process} (h : ProcOk p) (hused : p.state ≠ .unused)
    (hid : p'.pid = p.pid ∧ p'.tgid = p.tgid ∧ p'.isThread = p.isThread ∧ p'.parentPid = p.parentPid)
    (hwait : p'.waitPid ≠ 0 → p'.state = .blocked ∧ p'.park = none) : ProcOk p' := by
  obtain ⟨hpid, htgid, hthread, hparent⟩ := hid
  refine ⟨hwait, fun _ => ?_, fun _ => ?_, fun _ => ?_⟩
  · rw [hpid]
    exact h.pid hused
  · rw [htgid]
    exact h.tgid hused
  · rw [hthread, hparent, hpid]
    exact h.parent hused

theorem procOk_unused {p : Process} (h : p.state = .unused) (hwait : p.waitPid = 0) : ProcOk p :=
  ⟨fun hw => absurd hwait hw, fun hne => absurd h hne, fun hne => absurd h hne,
    fun hne => absurd h hne⟩

theorem ProcOk.waitPid_eq_zero {p : Process} (h : ProcOk p) (hp : p.state ≠ .blocked) :
    p.waitPid = 0 := by
  by_contra hw
  exact hp (h.waiting hw).1

section

variable (h : k.WaitInv)
include h

theorem WaitInv.of_eq (hprocs : k'.procs = k.procs) (hqueues : k'.queues = k.queues)
    (hnext : k.nextWaiter ≤ k'.nextWaiter) : k'.WaitInv := by
  have hpark : ∀ i, k'.parkedOn i = k.parkedOn i := fun i =>
    parkedOn_congr (by rw [hprocs]) (by rw [hprocs])
  refine ⟨h.sound.of_untouched hqueues (fun i _ => by rw [hprocs]) fun i hi => by rw [hpark, hi],
    fun i => ?_, fun i w hw => ?_⟩
  · rw [hprocs]
    exact h.procs i
  · rw [hpark] at hw
    exact Nat.lt_of_lt_of_le (h.fresh i w hw) hnext

theorem WaitInv.setProc (hp : k.parkedOn p = none) (hok : ProcOk (f (k.procs p)))
    (hnot : (f (k.procs p)).state ≠ .blocked ∨ (f (k.procs p)).park = none) :
    (k.setProc p f).WaitInv := by
  have hself : (k.setProc p f).parkedOn p = none := by
    unfold parkedOn parked
    rw [procs_setProc_self]
    rcases hnot with hb | hn
    · rw [if_neg hb]
      rfl
    · rw [hn, ite_self]
      rfl
  have hother : ∀ i, i ≠ p → (k.setProc p f).parkedOn i = k.parkedOn i := fun i hi =>
    parkedOn_congr (by rw [procs_setProc_of_ne hi]) (by rw [procs_setProc_of_ne hi])
  refine ⟨h.sound.of_untouched rfl (fun i hi => ?_) fun i hi => ?_,
    (forall_update_iff _ fun _ => ProcOk).mpr ⟨hok, fun i _ => h.procs i⟩, fun i w hw => ?_⟩
  · have hip : i ≠ p := fun e => hi (e ▸ hp)
    exact procs_setProc_of_ne hip
  · by_cases hip : i = p
    · rw [hip]
      exact hself
    · rw [hother i hip]
      exact hi
  · by_cases hip : i = p
    · rw [hip, hself] at hw
      cases hw
    · rw [hother i hip] at hw
      exact h.fresh i w hw

/-- A process on no queue changes its state. -/
theorem WaitInv.restate (hused : (k.procs p).state ≠ .unused)
    (hnb : (k.procs p).state ≠ .blocked)
    (hid : (f (k.procs p)).pid = (k.procs p).pid ∧ (f (k.procs p)).tgid = (k.procs p).tgid ∧
      (f (k.procs p)).isThread = (k.procs p).isThread ∧
      (f (k.procs p)).parentPid = (k.procs p).parentPid)
    (hwait : (f (k.procs p)).waitPid = (k.procs p).waitPid)
    (hnot : (f (k.procs p)).state ≠ .blocked) : (k.setProc p f).WaitInv := by
  have hok := h.procs p
  refine h.setProc (parkedOn_of_not_blocked hnb) (hok.reuse hused hid fun hw => ?_) (.inl hnot)
  exact absurd (hwait.trans (hok.waitPid_eq_zero hnb)) hw

theorem WaitInv.setCurrent (c : Option Slot) : (k.setCurrent c).WaitInv :=
  h.of_eq rfl rfl (Nat.le_refl _)

end

theorem parkedOn_of_state (h : (k.procs p).state = s) (hs : s ≠ .blocked) : k.parkedOn p = none :=
  parkedOn_of_not_blocked (by rw [h]; exact hs)

/-! ## Waking -/

section

variable (h : k.WaitInv)
include h

namespace WaitInv

theorem wake {kind : WaitKind} (hl : k.Lists q l) (hp : p ∈ l) (hrel : k.RelinkedBy k')
    (hsound : (k'.wakeLocked p kind ret).QueuesSound) : (k'.wakeLocked p kind ret).WaitInv := by
  have hnext : (k'.wakeLocked p kind ret).nextWaiter = k.nextWaiter := hrel.stirredBy.nextWaiter
  obtain ⟨hb, hpk⟩ := hl.blocked hp
  refine ⟨hsound, fun i => ?_, fun i w hw => ?_⟩
  · have hok := (h.procs i).relinked (hrel.procs i)
    rw [procs_wakeLocked]
    split
    · next hi =>
      subst hi
      have hblocked := (hrel.state i).trans hb
      refine hok.reuse (by rw [hblocked]; exact nofun) ⟨rfl, rfl, rfl, rfl⟩ fun hw => ?_
      exact absurd ((hrel.park i).symm.trans (hok.waiting hw).2) hpk
    · exact hok
  · rw [hnext]
    by_cases hi : i = p
    · have hready := state_wakeLocked k' p kind ret
      rw [hi, parkedOn_of_state hready nofun] at hw
      cases hw
    · rw [parkedOn_wakeLocked_of_ne hi, hrel.parkedOn i] at hw
      exact h.fresh i w hw

theorem popWake (hhead : (k.queues q).head = some p) (kind : WaitKind) (ret : UInt64) :
    (k.procs p).state = .blocked ∧ ((k.wqPop q p).wakeLocked p kind ret).WaitInv := by
  obtain ⟨l, hl⟩ := h.sound q
  obtain ⟨m, rfl⟩ := hl.head_mem hhead
  exact ⟨(hl.blocked mem_cons_self).1,
    h.wake hl mem_cons_self (wqPop_relinkedBy k q p) (h.sound.popWake hhead)⟩

theorem waitWakeLoop (q : QueueId) (fuel : Nat) (left : Option Nat) :
    (waitWakeLoop q fuel left k).WaitInv := by
  induction fuel generalizing left k with
  | zero => exact h
  | succ fuel ih =>
    rw [waitWakeLoop]
    split
    · exact h
    split
    · exact h
    rename_i p hhead
    obtain ⟨hb, hinv⟩ := h.popWake hhead .restart 0
    rw [if_pos hb]
    exact ih hinv _

theorem waitWake (q : QueueId) (max : Int) : (k.waitWake q max).WaitInv :=
  h.waitWakeLoop q _ _

theorem waitWakeStatus (q : QueueId) (ret : UInt64) : (k.waitWakeStatus q ret).WaitInv := by
  unfold Kernel.waitWakeStatus
  rw [waitWakeStatusLoop]
  split
  · exact h
  rename_i p hhead
  obtain ⟨hb, hinv⟩ := h.popWake hhead .complete ret
  rw [if_pos hb]
  exact hinv

theorem timerExpire (i : Fin waitTimers) : (k.timerExpire i).WaitInv := by
  unfold Kernel.timerExpire
  split
  · have h' : (k.timerDisarm i).WaitInv := h.of_eq rfl rfl (Nat.le_refl _)
    split
    · next p hp =>
      obtain ⟨l, hl⟩ := h'.sound (k.timers i).wq
      have hmem := hl.firstBlocked_mem hp
      exact h'.wake hl hmem (wqUnlink_relinkedBy _ _ p) (h'.sound.unlinkWake hl hmem)
    · exact h'
  · exact h

theorem waitTimersPoll : k.waitTimersPoll.WaitInv :=
  foldlRecOn _ _ h fun _ hk i _ => hk.timerExpire i

theorem futexWakeLoop (uaddr : UInt64) (n : Int) (ws : List Nat)
    (woken : Nat) : (futexWakeLoop uaddr n ws woken k).1.WaitInv := by
  induction ws generalizing woken k with
  | nil => exact h
  | cons w ws ih =>
    have hfree : ∀ k : Kernel, k.WaitInv → (k.futexFree w).WaitInv := fun k hk =>
      hk.of_eq rfl rfl (Nat.le_refl _)
    rw [futexWakeLoop]
    split
    · exact ih h woken
    split
    · split
      · exact ih h woken
      · exact ih (hfree _ (h.waitWakeStatus _ 0)) _
    · exact ih (hfree _ h) _

theorem futexWakeUser (uaddr : UInt64) (n : Int) : (k.futexWakeUser uaddr n).1.WaitInv :=
  (h.futexWakeLoop uaddr n _ 0).of_eq rfl rfl (Nat.le_refl _)

/-! ## Parking -/

theorem futexAlloc (uaddr : UInt64) (p : Slot) : (k.futexAlloc uaddr p).WaitInv := by
  refine ⟨fun q => ?_, h.procs, fun i w hw => Nat.lt_succ_of_lt (h.fresh i w hw)⟩
  by_cases hq : q = .futex k.nextWaiter
  · refine ⟨[], ⟨?_, ?_⟩, nodup_nil, fun i => ⟨fun hi => absurd hi not_mem_nil, ?_⟩⟩
    · show (update k.queues (.futex k.nextWaiter) _ q).head = none
      simp [hq]
    · show (update k.queues (.futex k.nextWaiter) _ q).tail = none
      simp [hq]
    · intro hi
      rw [hq] at hi
      exact absurd (h.fresh i k.nextWaiter hi) (Nat.lt_irrefl _)
  · obtain ⟨l, hl⟩ := h.sound q
    exact ⟨l, hl.congr (update_of_ne hq _ _) (fun _ _ => rfl) fun _ => Iff.rfl⟩

end WaitInv

end

theorem WaitInv.push (h : k.WaitInv) (hrun : (k.procs p).state = .running) (hpark : park.queue = q)
    (hq : ∀ w, q = .futex w → w < k.nextWaiter) :
    ((k.wqPush q p).parkCurrent p park ret).WaitInv := by
  have hrel := wqPush_relinkedBy k q p
  have hnot : k.parkedOn p = none := parkedOn_of_state hrun nofun
  have hnext : ((k.wqPush q p).parkCurrent p park ret).nextWaiter = k.nextWaiter :=
    hrel.stirredBy.nextWaiter
  refine ⟨h.sound.push hnot hpark, fun i => ?_, fun i w hw => ?_⟩
  · have hok := (h.procs i).relinked (hrel.procs i)
    rw [procs_parkCurrent]
    split
    · next hi =>
      subst hi
      have hstate := (hrel.state i).trans hrun
      refine hok.reuse (by rw [hstate]; exact nofun) ⟨rfl, rfl, rfl, rfl⟩ fun hw => ?_
      exact absurd (hok.waitPid_eq_zero (by rw [hstate]; exact nofun)) hw
    · exact hok
  · rw [hnext]
    by_cases hi : i = p
    · rw [hi, parkedOn_parkCurrent_self, hpark] at hw
      exact hq w (Option.some.inj hw)
    · rw [parkedOn_parkCurrent_of_ne hi, hrel.parkedOn i] at hw
      exact h.fresh i w hw

theorem RunInv.waitBlock (h : k.RunInv) (hq : ∀ w, q ≠ .futex w) (kind : WaitKind)
    (ret timeoutUs : UInt64) : (k.waitBlock q kind ret timeoutUs).RunInv := by
  unfold Kernel.waitBlock
  split
  · exact h
  rename_i p hp
  have hrun := h.current p hp
  dsimp only
  split
  · exact h
  rename_i k' hk'
  obtain ⟨ts, rfl⟩ := armed_eq hk'
  exact ⟨.push (h.of_eq rfl rfl (Nat.le_refl _)) hrun rfl fun w e => absurd e (hq w),
    currentOk_none rfl⟩

/-- Entering a futex wait links the process into the empty queue of its waiter. -/
theorem futexPark_eq {w : Nat} (h : (k.queues (.futex w)).tail = none) :
    k.futexPark w p park =
      (({ k with
          futexTab := update k.futexTab (futexHash (k.waiters w).uaddr)
            (w :: k.futexTab (futexHash (k.waiters w).uaddr)) }).wqPush (.futex w) p).parkCurrent
        p park 0 := by
  unfold futexPark wqPush
  rw [h]

theorem RunInv.futexWait (h : k.RunInv) (uaddr : UInt64) (rangeOk valueEq kmallocOk : Bool)
    (timeoutUs : UInt64) : (k.futexWait uaddr rangeOk valueEq kmallocOk timeoutUs).RunInv := by
  unfold Kernel.futexWait
  split
  · exact h
  rename_i p hp
  split
  · have hrun := h.current p hp
    have halloc := h.futexAlloc uaddr p
    dsimp only
    split
    · exact ⟨halloc.of_eq rfl rfl (Nat.le_refl _), h.current⟩
    rename_i k' hk'
    obtain ⟨ts, rfl⟩ := armed_eq hk'
    rw [futexPark_eq]
    · refine ⟨.push (halloc.of_eq rfl rfl (Nat.le_refl _)) hrun rfl fun w e => ?_,
        currentOk_none rfl⟩
      cases e
      exact Nat.lt_succ_self _
    · show (update k.queues (.futex k.nextWaiter) _ _).tail = none
      simp
  · exact h

/-! ## New processes -/

theorem RunInv.installSlot {proc : Process} (h : k.RunInv) (hfree : (k.procs c).state = .unused)
    (hok : ProcOk proc) (hnot : proc.state ≠ .blocked)
    (tids : UInt32) : (k.installSlot c proc tids).RunInv := by
  have hset : (k.setProc c fun _ => proc).WaitInv :=
    h.setProc (parkedOn_of_state hfree nofun) hok (.inl hnot)
  exact ⟨hset.of_eq rfl rfl (Nat.le_refl _), h.current.update (hfree.trans_ne nofun)⟩

theorem RunInv.processFork (h : k.RunInv) (hpid : k.PidFree) (ok : Bool) :
    (k.processFork ok).RunInv := by
  unfold Kernel.processFork
  split
  · exact h
  rename_i p hp
  split
  · exact h
  split
  · exact h
  rename_i c hc
  have hfree := findFreeProcess_unused hc
  cases ok with
  | false => exact h.installSlot hfree (procOk_unused rfl rfl) ProcessState.noConfusion 0
  | true =>
    refine h.installSlot hfree ?_ ProcessState.noConfusion 0
    refine ⟨fun hw => absurd rfl hw, fun _ => hpid.1, fun _ => hpid.1, fun _ _ e => ?_⟩
    exact hpid.2 p (h.current.ne_unused hp) (toInt32_inj e)

theorem RunInv.processClone (h : k.RunInv) (hpid : k.PidFree) (thread vm : Bool)
    (clearTid : UInt64) (ok : Bool) : (k.processClone thread vm clearTid ok).RunInv := by
  unfold Kernel.processClone
  split
  · exact h
  rename_i p hp
  split
  · exact h
  split
  · exact h
  rename_i c hc
  have hfree := findFreeProcess_unused hc
  have htgid := (h.procs p).tgid (h.current.ne_unused hp)
  dsimp only
  split
  · refine h.installSlot hfree ?_ ProcessState.noConfusion _
    cases thread with
    | true =>
      exact ⟨fun hw => absurd rfl hw, fun _ => htgid, fun _ => htgid, fun _ ht => by cases ht⟩
    | false =>
      refine ⟨fun hw => absurd rfl hw, fun _ => hpid.1, fun _ => hpid.1, fun _ _ e => ?_⟩
      exact hpid.2 p (h.current.ne_unused hp) (toInt32_inj e)
  · exact h.installSlot hfree (procOk_unused rfl rfl) ProcessState.noConfusion _

/-! ## The end of threads and processes -/

theorem parkedOn_eq_none : k.parkedOn p = none ↔
    (k.procs p).state ≠ .blocked ∨ (k.procs p).park = none := by
  unfold parkedOn parked
  by_cases h : (k.procs p).state = .blocked
  · simp [h]
  · simp [h]

/-- Stirring takes processes off queues, never onto them. -/
theorem parkedOn_none_of_stirred (h : Stirred (k.procs p) (k'.procs p)) (hp : k.parkedOn p = none) :
    k'.parkedOn p = none := by
  rw [parkedOn_eq_none] at hp ⊢
  rcases hp with hb | hn
  · exact .inl fun hb' => hb (h.blocked hb')
  · exact .inr (h.park.trans hn)

theorem WaitInv.threadRelease (h : k.WaitInv) (hp : k.parkedOn p = none) :
    (k.threadRelease p).WaitInv := by
  have hclear : (k.threadClearTid p).WaitInv ∧ (k.threadClearTid p).parkedOn p = none := by
    unfold threadClearTid
    split
    · exact ⟨h, hp⟩
    have hwake := h.futexWakeUser (k.procs p).clearChildTid 1
    have hnot := parkedOn_none_of_stirred
      ((futexWakeUser_stirred k (k.procs p).clearChildTid 1).procs p) hp
    have hok := hwake.procs p
    refine ⟨hwake.setProc hnot { hok with }
      (parkedOn_eq_none.mp hnot), ?_⟩
    rw [parkedOn_eq_none, procs_setProc_self]
    exact parkedOn_eq_none.mp hnot
  exact hclear.1.setProc hclear.2 (procOk_unused rfl rfl) (.inl nofun)

theorem threadRelease_stirred {i : Slot} (h : i ≠ t) :
    Stirred (k.procs i) ((k.threadRelease t).procs i) := by
  unfold threadRelease
  rw [procs_setProc_of_ne h]
  unfold threadClearTid
  split
  · exact .refl _
  · rw [procs_setProc_of_ne h]
    exact (futexWakeUser_stirred k _ 1).procs i

/-- No thread of the leader's group sits on a wait queue. -/
def SiblingsUnparked (k : Kernel) (leader : Slot) : Prop :=
  ∀ t, k.isSibling leader t = true → k.parkedOn t = none

theorem isSibling_iff : k.isSibling leader t = true ↔
    t ≠ leader ∧ (k.procs t).state ≠ .unused ∧ (k.procs t).tgid = (k.procs leader).tgid := by
  unfold isSibling
  simp [and_assoc]

theorem SiblingsUnparked.threadRelease (h : k.SiblingsUnparked leader)
    (ht : t ≠ leader) : (k.threadRelease t).SiblingsUnparked leader := by
  intro u hu
  obtain ⟨hne, hused, htgid⟩ := isSibling_iff.mp hu
  have hut : u ≠ t := by
    rintro rfl
    exact hused (by simp [threadRelease])
  have hstir := threadRelease_stirred (k := k) hut
  have hlead := threadRelease_stirred (k := k) (Ne.symm ht)
  apply parkedOn_none_of_stirred hstir
  refine h u (isSibling_iff.mpr ⟨hne, fun hun => ?_, ?_⟩)
  · rcases hstir.state with hs | ⟨hb, -⟩
    · exact hused (hs.trans hun)
    · rw [hun] at hb
      cases hb
  · rw [← hstir.tgid, ← hlead.tgid]
    exact htgid

/-- `exit_group` keeps the invariant when it meets no parked thread, and to the
leader it does nothing. -/
theorem WaitInv.exitGroupKillThreads (h : k.WaitInv) (hsib : k.SiblingsUnparked leader) :
    (k.exitGroupKillThreads leader).WaitInv ∧
      Stirred (k.procs leader) ((k.exitGroupKillThreads leader).procs leader) := by
  unfold Kernel.exitGroupKillThreads
  generalize finRange maxProcesses = ts
  induction ts generalizing k with
  | nil => exact ⟨h, Stirred.refl _⟩
  | cons t ts ih =>
    rw [foldl_cons]
    split
    · next ht =>
      have hne : t ≠ leader := (isSibling_iff.mp ht).1
      obtain ⟨hinv, hstir⟩ := ih (h.threadRelease (hsib t ht)) (hsib.threadRelease hne)
      exact ⟨hinv, (threadRelease_stirred (Ne.symm hne)).trans hstir⟩
    · exact ih h hsib

theorem Stirred.running {p p' : Process} (h : Stirred p p') (hrun : p.state = .running) :
    p'.state = .running := by
  rcases h.state with hs | ⟨hb, -⟩
  · exact hs.trans hrun
  · rw [hrun] at hb
    cases hb

theorem WaitInv.zombify (h : k.WaitInv) (hrun : (k.procs p).state = .running) (status : Int32) :
    (k.zombify p status).WaitInv :=
  h.restate (by rw [hrun]; exact nofun) (by rw [hrun]; exact nofun) ⟨rfl, rfl, rfl, rfl⟩ rfl nofun

/-- A process found as the waiter of a child is BLOCKED in `wait4`. -/
theorem processFindWaiter_waiting {childPid : Int32} (hpid : childPid ≠ 0)
    (h : k.processFindWaiter childPid = some par) :
    (k.procs par).state = .blocked ∧ (k.procs par).waitPid ≠ 0 := by
  have hfound := find?_some h
  simp only [Bool.and_eq_true, Bool.or_eq_true, decide_eq_true_eq, beq_iff_eq, bne_iff_ne] at hfound
  refine ⟨hfound.1.1, fun hz => ?_⟩
  rcases hfound.2 with ⟨he, -⟩ | ⟨⟨hm, -⟩, -⟩
  · exact hpid (he.symm.trans hz)
  · rw [hz] at hm
    exact absurd hm (by decide)

theorem WaitInv.resumeWaiter (h : k.WaitInv) (hb : (k.procs par).state = .blocked)
    (hw : (k.procs par).waitPid ≠ 0)
    (childPid : UInt32) : (k.resumeWaiter par childPid).RunInv := by
  have hok := h.procs par
  have hnot : k.parkedOn par = none := parkedOn_eq_none.mpr (.inr (hok.waiting hw).2)
  refine ⟨.setCurrent (h.setProc hnot ?_ (.inl ProcessState.noConfusion)) _,
    currentOk_setProc rfl⟩
  exact hok.reuse (by rw [hb]; exact nofun) ⟨rfl, rfl, rfl, rfl⟩ fun hz => absurd rfl hz

theorem WaitInv.threadExit (h : k.WaitInv) (hrun : (k.procs p).state = .running) :
    ((k.threadRelease p).setCurrent none).RunInv :=
  ⟨(h.threadRelease (parkedOn_of_state hrun nofun)).setCurrent none, currentOk_none rfl⟩

theorem RunInv.processExit (h : k.RunInv)
    (hsib : ∀ p ∈ k.current, (k.procs p).isThread = false → k.SiblingsUnparked p)
    (status : Int32) : (k.processExit status).RunInv := by
  unfold Kernel.processExit
  split
  · exact h
  rename_i p hp
  have hrun := h.current p hp
  split
  · exact h.threadExit hrun
  rename_i hthread
  obtain ⟨hinv, hstir⟩ :=
    h.exitGroupKillThreads (hsib p hp (Bool.eq_false_iff.mpr hthread))
  have hrun' := hstir.running hrun
  have hpid : ((k.exitGroupKillThreads p).procs p).pid.toInt32 ≠ 0 := fun e =>
    (hinv.procs p).pid (by rw [hrun']; exact nofun) (toInt32_inj e)
  dsimp only
  split
  · next par hpar =>
    obtain ⟨hb, hw⟩ := processFindWaiter_waiting hpid hpar
    have hne : par ≠ p := fun e => by
      rw [e, hrun'] at hb
      cases hb
    refine (hinv.zombify hrun' status).resumeWaiter ?_ ?_ _
    · rw [zombify, procs_setProc_of_ne hne]
      exact hb
    · rw [zombify, procs_setProc_of_ne hne]
      exact hw
  · exact ⟨(hinv.zombify hrun' status).setCurrent none, currentOk_none rfl⟩

theorem RunInv.processKillCurrent (h : k.RunInv)
    (hsib : ∀ p ∈ k.current, (k.procs p).isThread = false → k.SiblingsUnparked p)
    (status : Int32) : (k.processKillCurrent status).RunInv := by
  unfold Kernel.processKillCurrent
  split
  · exact h
  rename_i p hp
  have hrun := h.current p hp
  split
  · exact h.threadExit hrun
  rename_i hthread
  obtain ⟨hinv, hstir⟩ :=
    h.exitGroupKillThreads (hsib p hp (Bool.eq_false_iff.mpr hthread))
  exact ⟨(hinv.zombify (hstir.running hrun) status).setCurrent none, currentOk_none rfl⟩

/-! ## `wait4` and the scheduler -/

theorem RunInv.processReap (h : k.RunInv) (hz : (k.procs c).state = .zombie) :
    (k.processReap c).RunInv := by
  have hnb : (k.procs c).state ≠ .blocked := by
    rw [hz]
    exact nofun
  refine ⟨h.setProc (parkedOn_of_not_blocked hnb) ?_ (.inl nofun), h.current.update (hz.trans_ne nofun)⟩
  exact procOk_unused rfl ((h.procs c).waitPid_eq_zero hnb)

theorem WaitInv.processWaitRun (h : k.WaitInv) (hrun : (k.procs p).state = .running)
    (hused : (k.procs c).state ≠ .unused) (hnb : (k.procs c).state ≠ .blocked) (hne : c ≠ p)
    (statusPtr : UInt64) : (k.processWaitRun p c statusPtr).RunInv := by
  have hpark : (k.setProc p fun proc =>
      { proc with
        frameRet := 0
        state := .blocked
        waitPid := (k.procs c).pid.toInt32
        waitStatusPtr := statusPtr
        park := none }).WaitInv := by
    refine h.setProc (parkedOn_of_state hrun nofun) ?_ (.inr rfl)
    exact (h.procs p).reuse (by rw [hrun]; exact nofun) ⟨rfl, rfl, rfl, rfl⟩ fun _ => ⟨rfl, rfl⟩
  refine ⟨.setCurrent (hpark.restate ?_ ?_ ⟨rfl, rfl, rfl, rfl⟩ rfl ProcessState.noConfusion)
    _, currentOk_setProc rfl⟩
  · rw [procs_setProc_of_ne hne]
    exact hused
  · rw [procs_setProc_of_ne hne]
    exact hnb

theorem RunInv.scWait4 (h : k.RunInv) (pid : Int32) (statusPtr : UInt64) (rangeOk : Bool) :
    (k.scWait4 pid statusPtr rangeOk).1.RunInv := by
  unfold Kernel.scWait4
  split
  · exact h
  rename_i p hp
  split
  · exact h
  rename_i c hc
  obtain ⟨hused, hnb, hthread, hparent⟩ := processFindChild_some hc
  split
  · next hz =>
    split
    · exact h
    · exact h.processReap hz
  -- the caller is not its own child
  have hne : c ≠ p := by
    rintro rfl
    exact (h.procs c).parent hused hthread hparent
  exact h.processWaitRun (h.current p hp) hused hnb hne statusPtr

theorem RunInv.schedule (h : k.RunInv) (j : Slot) : (k.schedule j).RunInv := by
  unfold Kernel.schedule
  split
  · next hj =>
    have hpre : k.preempt.WaitInv ∧ (k.preempt.procs j).state = .ready := by
      unfold preempt
      split
      · next i hi =>
        have hrun := h.current i hi
        have hij : j ≠ i := fun e => by
          rw [e, hrun] at hj
          cases hj
        refine ⟨h.restate (h.current.ne_unused hi) ?_ ⟨rfl, rfl, rfl, rfl⟩ rfl nofun, ?_⟩
        · rw [hrun]
          exact nofun
        · rw [procs_setProc_of_ne hij]
          exact hj
      · exact ⟨h.toWaitInv, hj⟩
    obtain ⟨hinv, hready⟩ := hpre
    refine ⟨.setCurrent (hinv.restate ?_ ?_ ⟨rfl, rfl, rfl, rfl⟩ rfl
      ProcessState.noConfusion) _, currentOk_setProc rfl⟩
    all_goals
      rw [hready]
      exact nofun
  · exact h

theorem RunInv.setTidAddress (h : k.RunInv) (tidptr : UInt64) : (k.setTidAddress tidptr).RunInv := by
  unfold Kernel.setTidAddress
  split
  · exact h
  rename_i p hp
  have hrun := h.current p hp
  have hnb : (k.procs p).state ≠ .blocked := by
    rw [hrun]
    exact nofun
  refine ⟨h.restate (h.current.ne_unused hp) hnb ⟨rfl, rfl, rfl, rfl⟩ rfl hnb, fun i hi => ?_⟩
  rw [procs_setProc]
  split
  · exact hrun
  · exact h.current i hi

/-! ## Runs -/

/-- The guard on the steps of a run.  A timer that fires on the queue of a freed
waiter would read memory that may hold anything. -/
def QueueSafe (k : Kernel) : Action → Prop
  | .fork _ | .clone _ _ _ _ => k.PidFree
  | .exit _ | .kill _ =>
    ∀ p ∈ k.current, (k.procs p).isThread = false → k.SiblingsUnparked p
  | .tick now => ∀ i, (k.elapse now).timerDue i = true → k.timerLive i = true
  | _ => True

theorem Booted.runInv (h : k.Booted) : k.RunInv := by
  have hnot : ∀ i, k.parkedOn i = none := by
    intro i
    apply parkedOn_of_not_blocked
    rcases (h.procs i).2 with hu | ⟨hr, -⟩
    · rw [hu]
      exact nofun
    · rw [hr]
      exact nofun
  refine ⟨⟨fun q => ⟨[], ⟨?_, ?_⟩, nodup_nil, fun i => ?_⟩, fun i => ?_, fun i w hw => ?_⟩,
    currentOk_none h.current⟩
  · rw [h.queues q]
    exact rfl
  · rw [h.queues q]
    rfl
  · rw [hnot i]
    simp
  · obtain ⟨hwait, hstate⟩ := h.procs i
    rcases hstate with hu | ⟨-, hpid, htgid, hparent⟩
    · exact procOk_unused hu hwait
    · refine ⟨fun hw => absurd hwait hw, fun _ => hpid, fun _ => htgid, fun _ _ e => ?_⟩
      rw [hparent] at e
      exact hpid (toInt32_inj e.symm)
  · rw [hnot i] at hw
    cases hw

theorem RunInv.elapse (h : k.RunInv) (now : UInt64) : (k.elapse now).RunInv := by
  unfold Kernel.elapse
  split
  · exact ⟨h.of_eq rfl rfl (Nat.le_refl _), h.current⟩
  · exact h

theorem CurrentOk.of_stirred (h : k.CurrentOk) (hprocs : ∀ i, Stirred (k.procs i) (k'.procs i))
    (hcurrent : k'.current = k.current) : k'.CurrentOk := by
  intro i hi
  rw [hcurrent] at hi
  exact (hprocs i).running (h i hi)

theorem timerExpire_stirred (k : Kernel) (i : Fin waitTimers) :
    (∀ j, Stirred (k.procs j) ((k.timerExpire i).procs j)) ∧
      (k.timerExpire i).current = k.current := by
  unfold timerExpire
  split
  · split
    · next p hp =>
      have hstir := timerWake_stirredBy (firstBlocked_blocked hp) (k.timers i)
      exact ⟨hstir.procs, hstir.current⟩
    · exact ⟨fun j => .refl _, rfl⟩
  · exact ⟨fun j => .refl _, rfl⟩

theorem waitTimersPoll_stirred (k : Kernel) :
    (∀ j, Stirred (k.procs j) (k.waitTimersPoll.procs j)) ∧
      k.waitTimersPoll.current = k.current := by
  unfold waitTimersPoll
  generalize finRange waitTimers = is
  induction is generalizing k with
  | nil => exact ⟨fun j => .refl _, rfl⟩
  | cons i is ih =>
    obtain ⟨h1, h2⟩ := timerExpire_stirred k i
    obtain ⟨h3, h4⟩ := ih (k.timerExpire i)
    exact ⟨fun j => (h1 j).trans (h3 j), h4.trans h2⟩

theorem RunInv.step {a : Action} (h : k.RunInv) (hsafe : k.QueueSafe a) (hvalid : a.valid = true) :
    (k.step a).RunInv := by
  cases a with
  | schedule j => exact h.schedule j
  | fork ok => exact h.processFork hsafe ok
  | clone thread vm clearTid ok => exact h.processClone hsafe thread vm clearTid ok
  | exit status => exact h.processExit hsafe status
  | kill status => exact h.processKillCurrent hsafe status
  | wait4 pid statusPtr rangeOk => exact h.scWait4 pid statusPtr rangeOk
  | setTidAddress tidptr => exact h.setTidAddress tidptr
  | block q kind ret timeoutUs =>
    refine h.waitBlock (fun w e => ?_) kind ret timeoutUs
    subst e
    cases hvalid
  | futexWait uaddr rangeOk valueEq kmallocOk timeoutUs =>
    exact h.futexWait uaddr rangeOk valueEq kmallocOk timeoutUs
  | futexWake uaddr n =>
    have hstir := futexWakeUser_stirred k uaddr n
    exact ⟨h.futexWakeUser uaddr n, h.current.of_stirred hstir.procs hstir.current⟩
  | wake q max =>
    have hstir := waitWake_stirredBy k q max
    exact ⟨h.waitWake q max, h.current.of_stirred hstir.procs hstir.current⟩
  | wakeStatus q ret =>
    have hstir := waitWakeStatus_stirredBy k q ret
    exact ⟨h.waitWakeStatus q ret, h.current.of_stirred hstir.procs hstir.current⟩
  | elapse now => exact h.elapse now
  | tick now =>
    obtain ⟨hprocs, hcurrent⟩ := waitTimersPoll_stirred (k.elapse now)
    show (k.elapse now).waitTimersPoll.RunInv
    exact ⟨(h.elapse now).waitTimersPoll, (h.elapse now).current.of_stirred hprocs hcurrent⟩

/-- In every run in which `exit_group` meets no parked thread, no timer fires on
a freed waiter and process numbers are not used twice, each wait queue lists
exactly the processes parked on it. -/
theorem queues_sound {k : Kernel} (h : Reach Booted QueueSafe Step k) : k.QueuesSound := by
  have hinv : k.RunInv := by
    refine h.invariant (fun _ hb => hb.runInv) ?_
    rintro k a k' hk hsafe ⟨hvalid, rfl⟩
    exact hk.step hsafe hvalid
  exact hinv.sound

/-! ## A thread killed on its queue -/

instance (a : Action) : Decidable (k.QueueSafe a) :=
  match a with
  | .fork _ | .clone _ _ _ _ => inferInstanceAs (Decidable (_ ∧ ∀ _, _ → _))
  | .exit _ | .kill _ => inferInstanceAs (Decidable (∀ p ∈ k.current, _ → ∀ _, _ → _))
  | .tick _ => inferInstanceAs (Decidable (∀ _, _ → _))
  | .schedule _ | .wait4 _ _ _ | .setTidAddress _ | .block _ _ _ _ | .futexWait _ _ _ _ _
  | .futexWake _ _ | .wake _ _ | .wakeStatus _ _ | .elapse _ => isTrue trivial

/-- A program starts a thread, which then waits in `poll` without a timeout. -/
def threadPolls : List Action :=
  [.schedule 0, .clone true true 0 true, .schedule 2, .block .poll .restart 0 0, .schedule 0]

def threadWoken : List Action := threadPolls ++ [.wake .poll (-1), .exit 0]

def threadKilled : List Action := threadPolls ++ [.exit 0]

/-- The thread is woken before the program ends. -/
theorem queues_sound_woken : (threadWoken.foldl step twoPrograms).QueuesSound ∧
      ((threadWoken.foldl step twoPrograms).queues .poll).head = none :=
  ⟨queues_sound (twoPrograms_reach threadWoken (by decide +kernel)), by decide +kernel⟩

/-- The program ends while its thread waits: the freed slot still hangs on the
queue. -/
theorem queues_unsound_exit_group :
    ¬ ∀ k, Reach Booted (fun _ _ => True) Step k → k.QueuesSound := by
  intro hall
  have hhead : ((threadKilled.foldl step twoPrograms).queues .poll).head = some 2 := by
    decide +kernel
  have hfree : ((threadKilled.foldl step twoPrograms).procs 2).state = .unused := by
    decide +kernel
  obtain ⟨l, hl⟩ := hall _ (twoPrograms_reach threadKilled (by decide +kernel)) .poll
  obtain ⟨m, rfl⟩ := hl.head_mem hhead
  have hb := (hl.blocked mem_cons_self).1
  rw [hfree] at hb
  cases hb

end Kil0yOS.Core.Kernel
