/-
Timed waits: when a timer tick ends a stay on a wait queue.

A timer knows the queue it was armed for and wakes the first process BLOCKED on
it, whoever that is.  It does the right thing as long as that process is the one
that armed it, and a timer whose owner has left in the meantime finds nobody.
Under that condition a tick ends exactly the waits whose timeout has run out.
-/
import Mathlib.Data.UInt
import Kil0yOS.Core.Lifecycle

namespace Kil0yOS.Core

variable {f : Process → Process} {j : Slot} {ret : UInt64}

def Park.Expired (park : Park) (now : UInt64) : Prop :=
  park.timeout ≠ 0 ∧ park.since.toNat + park.timeout.toNat ≤ now.toNat

namespace Kernel

open Lib Function

/-! ## The promise -/

def Action.timed : Action → Bool
  | .schedule _ | .block _ _ _ _ | .futexWait _ _ _ _ _ | .futexWake _ _ | .wake _ _
  | .wakeStatus _ _ | .elapse _ | .tick _ => true
  | _ => false

variable (k : Kernel)

def TimedStep (a : Action) (k' : Kernel) : Prop := a.timed = true ∧ k.Step a k'

/-- A tick ends a wait exactly when its timeout has run out. -/
def TickExact (now : UInt64) : Prop :=
  ∀ p park, k.parked p = some park →
    (((k.step (.tick now)).procs p).state ≠ .blocked ↔ park.Expired (k.elapse now).uptime)

/-! ## The condition -/

/-- Is the process that armed the timer still in the wait it armed it for? -/
def ownerWaits (i : Fin waitTimers) : Bool :=
  (k.parked (k.timers i).owner.1).any fun park => park.id == (k.timers i).owner.2

/-- The timer's queue exists, and the first process BLOCKED on it is the timer's
owner, or there is none when the owner has left. -/
def MeetsOwner (i : Fin waitTimers) : Prop :=
  k.timerLive i = true ∧
    k.firstBlocked (k.timers i).wq = if k.ownerWaits i then some (k.timers i).owner.1 else none
deriving Decidable

/-- The guard on the steps of a run: deadlines do not overflow the clock, and
each timer that a tick finds due meets its owner. -/
def TimerSafe : Action → Prop
  | .block _ _ _ us | .futexWait _ _ _ _ us => k.uptime.toNat + us.toNat < 2 ^ 64
  | .tick now =>
    Along (fun k i => k.timerDue i = true → k.MeetsOwner i) timerExpire (k.elapse now)
      (List.finRange waitTimers)
  | _ => True

/-! ## The invariant -/

/-- Every timed wait has its timer, set for its deadline. -/
structure TimerInv (k : Kernel) : Prop where
  park_id : ∀ p park, k.parked p = some park → park.id < k.parks
  armed : ∀ p park, k.parked p = some park → park.timeout ≠ 0 →
    ∃ i, (k.timers i).used = true ∧ (k.timers i).owner = (p, park.id)
  timer_id : ∀ i, (k.timers i).used = true → (k.timers i).owner.2 < k.parks
  deadline : ∀ i p park, (k.timers i).used = true → (k.timers i).owner = (p, park.id) →
    k.parked p = some park → park.timeout ≠ 0 ∧
      (k.timers i).deadlineUs.toNat = park.since.toNat + park.timeout.toNat

variable {k k' : Kernel} {q : QueueId} {p : Slot} {park : Park} {i : Fin waitTimers} {us : UInt64}

/-- A wait of the state reached is an old one, whose timer is left alone, or a new
one with the next number; so is a timer in use. -/
theorem TimerInv.change (h : k.TimerInv) (hparks : k.parks ≤ k'.parks)
    (hwaits : ∀ p park, k'.parked p = some park →
      (k.parked p = some park ∧ ∀ i, (k.timers i).used = true →
        (k.timers i).owner = (p, park.id) → k'.timers i = k.timers i) ∨
      (park.id = k.parks ∧ k.parks < k'.parks ∧ (park.timeout ≠ 0 →
        ∃ i, (k'.timers i).used = true ∧ (k'.timers i).owner = (p, park.id))))
    (htimers : ∀ i, (k'.timers i).used = true → k'.timers i = k.timers i ∨
      (k'.timers i).owner.2 < k'.parks ∧ ∀ park, k'.parked (k'.timers i).owner.1 = some park →
        park.timeout ≠ 0 ∧ (k'.timers i).deadlineUs.toNat = park.since.toNat + park.timeout.toNat) :
    k'.TimerInv := by
  constructor
  · intro p park hp
    rcases hwaits p park hp with ⟨hp, -⟩ | ⟨hid, hlt, -⟩
    · exact (h.park_id p park hp).trans_le hparks
    · omega
  · intro p park hp hto
    rcases hwaits p park hp with ⟨hp, hkeep⟩ | ⟨-, -, hnew⟩
    · obtain ⟨i, hu, ho⟩ := h.armed p park hp hto
      refine ⟨i, ?_⟩
      rw [hkeep i hu ho]
      exact ⟨hu, ho⟩
    · exact hnew hto
  · intro i hu
    rcases htimers i hu with heq | ⟨hlt, -⟩
    · rw [heq] at hu ⊢
      exact (h.timer_id i hu).trans_le hparks
    · exact hlt
  · intro i p park hu ho hp
    rcases htimers i hu with heq | ⟨-, hdead⟩
    · rw [heq] at hu ho ⊢
      rcases hwaits p park hp with ⟨hp, -⟩ | ⟨hid, -⟩
      · exact h.deadline i p park hu ho hp
      -- an old timer carries an older number than a new wait
      have hold := h.timer_id i hu
      rw [ho, hid] at hold
      omega
    · rw [ho] at hdead
      exact hdead park hp

/-- A step that leaves the timers alone and parks nobody. -/
theorem TimerInv.shrink (h : k.TimerInv) (htimers : k'.timers = k.timers) (hparks : k'.parks = k.parks)
    (hparked : ∀ p park, k'.parked p = some park → k.parked p = some park) : k'.TimerInv := by
  refine h.change hparks.ge (fun p park hp => .inl ⟨hparked p park hp, fun i _ _ => ?_⟩)
    fun i _ => .inl ?_
  · rw [htimers]
  · rw [htimers]

theorem parked_of_stirred (h : Stirred (k.procs p) (k'.procs p)) (hp : k'.parked p = some park) :
    k.parked p = some park := by
  obtain ⟨hb, hpk⟩ := parked_eq_some.mp hp
  exact parked_eq_some.mpr ⟨h.blocked hb, h.park.symm.trans hpk⟩

theorem Booted.timerInv (h : k.Booted) : k.TimerInv := by
  have hnot : ∀ p park, k.parked p ≠ some park := by
    intro p park hp
    have hb := (parked_eq_some.mp hp).1
    rcases (h.procs p).2 with hu | ⟨hr, -⟩
    · rw [hu] at hb
      cases hb
    · rw [hr] at hb
      cases hb
  refine ⟨fun p park hp => absurd hp (hnot p park), fun p park hp => absurd hp (hnot p park),
    fun i hu => ?_, fun i p park _ _ hp => absurd hp (hnot p park)⟩
  rw [h.timers i] at hu
  cases hu

/-! ## Parking -/

/-- The state after arming the timer of a new wait, if it has one. -/
structure Armed (k k' : Kernel) (p : Slot) (us : UInt64) : Prop where
  timers : (us = 0 ∧ k'.timers = k.timers) ∨
    ∃ i t, us ≠ 0 ∧ (k.timers i).used = false ∧ k'.timers = update k.timers i t ∧
      t.used = true ∧ t.owner = (p, k.parks) ∧ t.deadlineUs = k.uptime + us
  parks : k'.parks = k.parks
  procs : ∀ i, (k'.procs i).state = (k.procs i).state ∧ (k'.procs i).park = (k.procs i).park

theorem parked_parkCurrent_of_ne (h : j ≠ p) :
    (k.parkCurrent p park ret).parked j = k.parked j := by
  unfold parked
  rw [procs_parkCurrent, if_neg h]

theorem Armed.parked (h : Armed k k' p us) (j : Slot) : k'.parked j = k.parked j := by
  unfold Kernel.parked
  rw [(h.procs j).1, (h.procs j).2]

theorem TimerInv.enter (h : k.TimerInv) (ha : Armed k k' p us)
    (hlt : k.uptime.toNat + us.toNat < 2 ^ 64) (ret : UInt64) :
    (k'.parkCurrent p (k.newPark q us) ret).TimerInv := by
  have hself : (k'.parkCurrent p (k.newPark q us) ret).parked p = some (k.newPark q us) := by
    rw [parked_eq_some, procs_parkCurrent, if_pos rfl]
    exact ⟨rfl, rfl⟩
  have hparks : (k'.parkCurrent p (k.newPark q us) ret).parks = k.parks + 1 :=
    congrArg (· + 1) ha.parks
  refine h.change (hparks ▸ Nat.le_succ _) (fun j park hj => ?_) fun i hu => ?_
  · by_cases hjp : j = p
    · rw [hjp, hself] at hj
      obtain rfl := Option.some.inj hj
      refine .inr ⟨rfl, hparks ▸ Nat.lt_succ_self _, fun hto => ?_⟩
      rcases ha.timers with ⟨hz, -⟩ | ⟨i, t, -, -, heq, hused, howner, -⟩
      · exact absurd hz hto
      refine ⟨i, ?_⟩
      show (k'.timers i).used = true ∧ (k'.timers i).owner = _
      rw [heq, update_self, howner, hjp]
      exact ⟨hused, rfl⟩
    · rw [parked_parkCurrent_of_ne hjp, ha.parked] at hj
      refine .inl ⟨hj, fun i hu _ => ?_⟩
      show k'.timers i = _
      rcases ha.timers with ⟨-, heq⟩ | ⟨i', t, -, hfree, heq, -⟩
      · rw [heq]
      rw [heq, update_of_ne]
      rintro rfl
      rw [hfree] at hu
      cases hu
  · show k'.timers i = _ ∨ (k'.timers i).owner.2 < _ ∧ ∀ park,
      Kernel.parked _ (k'.timers i).owner.1 = _ → _ ∧ (k'.timers i).deadlineUs.toNat = _
    rcases ha.timers with ⟨-, heq⟩ | ⟨i', t, hus, -, heq, -, howner, hdead⟩
    · exact .inl (congrFun heq i)
    rw [heq]
    by_cases hi : i = i'
    · rw [hi, update_self, howner, hdead, hparks, hself]
      refine .inr ⟨Nat.lt_succ_self _, fun park hj => ?_⟩
      obtain rfl := Option.some.inj hj
      exact ⟨hus, (UInt64.toNat_add ..).trans (Nat.mod_eq_of_lt hlt)⟩
    · rw [update_of_ne hi]
      exact .inl rfl

theorem armed_of_eq {kind : WaitKind} (h : (if us ≠ 0 then
    k.waitTimerArm q us kind ret (p, k.parks) else some k) = some k') : Armed k k' p us := by
  split at h
  · next hus =>
    obtain ⟨i, rfl, hfree⟩ := waitTimerArm_eq h
    exact ⟨.inr ⟨i, _, hus, hfree, rfl, rfl, rfl, rfl⟩, rfl, fun _ => ⟨rfl, rfl⟩⟩
  · next hus =>
    cases h
    exact ⟨.inl ⟨not_not.mp hus, rfl⟩, rfl, fun _ => ⟨rfl, rfl⟩⟩

theorem Armed.push (h : Armed k k' p us) (q : QueueId) (j : Slot) :
    Armed k (k'.wqPush q j) p us := by
  have hrel := wqPush_relinkedBy k' q j
  refine ⟨?_, hrel.stirredBy.parks.trans h.parks, fun i => ?_⟩
  · rw [hrel.stirredBy.timers]
    exact h.timers
  · rw [hrel.state, hrel.park]
    exact h.procs i

theorem TimerInv.waitBlock (h : k.TimerInv) (kind : WaitKind) (ret : UInt64)
    (hlt : k.uptime.toNat + us.toNat < 2 ^ 64) : (k.waitBlock q kind ret us).TimerInv := by
  unfold Kernel.waitBlock
  split
  · exact h
  rename_i p _
  dsimp only
  split
  · exact h
  next k' hk' => exact h.enter ((armed_of_eq hk').push q p) hlt _

theorem TimerInv.futexWait (h : k.TimerInv) (uaddr : UInt64) (rangeOk valueEq kmallocOk : Bool)
    (hlt : k.uptime.toNat + us.toNat < 2 ^ 64) :
    (k.futexWait uaddr rangeOk valueEq kmallocOk us).TimerInv := by
  unfold Kernel.futexWait
  split
  · exact h
  rename_i p _
  split
  · have halloc : (k.futexAlloc uaddr p).TimerInv := h.shrink rfl rfl fun _ _ hp => hp
    dsimp only
    split
    · exact h.shrink rfl rfl fun _ _ hp => hp
    rename_i k' hk'
    have harmed : Armed (k.futexAlloc uaddr p) k' p us := armed_of_eq hk'
    have hset : ∀ (tab : Fin futHash → List Nat) (wq : WaitQueue), Armed (k.futexAlloc uaddr p)
          (({ k' with futexTab := tab }.setNext p none).setQueue (.futex k.nextWaiter) wq)
          p us := by
      intro tab wq
      refine ⟨harmed.timers, harmed.parks, fun j => ?_⟩
      have hrel := setNext_relinkedBy { k' with futexTab := tab } p none
      rw [procs_setQueue, hrel.state, hrel.park]
      exact harmed.procs j
    exact halloc.enter (hset _ _) hlt 0
  · exact h

/-! ## Ticks -/

theorem ownerWaits_iff : k.ownerWaits i = true ↔
    ∃ park, k.parked (k.timers i).owner.1 = some park ∧ park.id = (k.timers i).owner.2 := by
  unfold ownerWaits
  cases h : k.parked (k.timers i).owner.1 with
  | none => simp
  | some park => simp

theorem timerDue_iff : k.timerDue i = true ↔
    (k.timers i).used = true ∧ (k.timers i).deadlineUs.toNat ≤ k.uptime.toNat := by
  unfold timerDue
  simp [UInt64.le_iff_toNat_le]

/-- What one expiry does to the waits: it ends waits that have run out, and no
others. -/
structure Expires (k k' : Kernel) : Prop where
  inv : k'.TimerInv
  uptime : k'.uptime = k.uptime
  procs : ∀ j, Stirred (k.procs j) (k'.procs j)
  due : ∀ i, k'.timerDue i = true → k.timerDue i = true
  waits : ∀ j park, k.parked j = some park →
    k'.parked j = some park ∨ (k'.procs j).state ≠ .blocked ∧ park.Expired k.uptime

theorem Expires.refl (h : k.TimerInv) : Expires k k :=
  ⟨h, rfl, fun _ => .refl _, fun _ hd => hd, fun _ _ hp => .inl hp⟩

theorem Expires.trans {k'' : Kernel} (h : Expires k k') (h' : Expires k' k'') : Expires k k'' := by
  refine ⟨h'.inv, h'.uptime.trans h.uptime, fun j => (h.procs j).trans (h'.procs j),
    fun i hd => h.due i (h'.due i hd), fun j park hp => ?_⟩
  rcases h.waits j park hp with hp' | ⟨hready, hexp⟩
  · rw [← h.uptime]
    exact h'.waits j park hp'
  · exact .inr ⟨fun hb => hready ((h'.procs j).blocked hb), hexp⟩

theorem timerDisarm_due {j : Fin waitTimers} (h : (k.timerDisarm i).timerDue j = true) :
    k.timerDue j = true ∧ j ≠ i := by
  rw [timerDue_iff] at h ⊢
  obtain ⟨hu, hd⟩ := h
  refine ⟨?_, fun e => ?_⟩
  · have heq := timerDisarm_used hu
    rw [heq] at hu hd
    exact ⟨hu, hd⟩
  · rw [e, timerDisarm_used_self] at hu
    cases hu

section

variable (h : k.TimerInv)
include h

namespace TimerInv

theorem disarm (htimers : k'.timers = (k.timerDisarm i).timers)
    (hparks : k'.parks = k.parks)
    (hparked : ∀ p park, k'.parked p = some park →
      k.parked p = some park ∧ (k.timers i).owner ≠ (p, park.id)) : k'.TimerInv := by
  refine h.change hparks.ge (fun p park hp => .inl ?_) fun j hu => .inl ?_
  · obtain ⟨hp', hne⟩ := hparked p park hp
    refine ⟨hp', fun j _ ho => ?_⟩
    rw [htimers, timerDisarm_timers_of_ne]
    rintro rfl
    exact hne ho
  · rw [htimers] at hu ⊢
    exact timerDisarm_used hu

/-- The timer of a wait that is over is disarmed, and nobody is woken. -/
theorem expire_left (hw : k.ownerWaits i = false) : Expires k (k.timerDisarm i) := by
  refine ⟨h.disarm rfl rfl fun p park hp => ⟨hp, fun ho => ?_⟩, rfl, fun _ => .refl _,
    fun j hd => (timerDisarm_due hd).1, fun _ _ hp => .inl hp⟩
  have hwaits : k.ownerWaits i = true := by
    refine ownerWaits_iff.mpr ⟨park, ?_⟩
    rw [ho]
    exact ⟨hp, rfl⟩
  rw [hw] at hwaits
  cases hwaits

/-- The timer of a wait that has run out ends it. -/
theorem expire_owner (hdue : k.timerDue i = true)
    (howner : (k.timers i).owner = (p, park.id)) (hp : k.parked p = some park) :
    Expires k ((k.timerDisarm i).timerWake (k.timers i) p) := by
  obtain ⟨hused, hdead⟩ := timerDue_iff.mp hdue
  obtain ⟨hto, hdl⟩ := h.deadline i p park hused howner hp
  have hb : ((k.timerDisarm i).procs p).state = .blocked := (parked_eq_some.mp hp).1
  have hstir := timerWake_stirredBy hb (k.timers i)
  have hready := timerWake_state (k.timerDisarm i) (k.timers i) p
  refine ⟨h.disarm hstir.timers hstir.parks fun j park' hj => ?_, hstir.uptime, hstir.procs,
    fun j hd => ?_, fun j park' hj => ?_⟩
  · refine ⟨parked_of_stirred (hstir.procs j) hj, fun ho => ?_⟩
    obtain ⟨rfl, -⟩ := Prod.mk.inj (howner.symm.trans ho)
    rw [(parked_eq_some.mp hj).1] at hready
    cases hready
  · have hd' : (k.timerDisarm i).timerDue j = true := by
      unfold timerDue at hd ⊢
      rwa [hstir.timers, hstir.uptime] at hd
    exact (timerDisarm_due hd').1
  by_cases hjp : j = p
  · right
    subst hjp
    obtain rfl : park = park' := Option.some.inj (hp.symm.trans hj)
    refine ⟨by rw [hready]; exact nofun, hto, ?_⟩
    rw [← hdl]
    exact hdead
  · left
    rw [timerWake_parked_of_ne hjp]
    exact hj

theorem timerExpire (hm : k.timerDue i = true → k.MeetsOwner i) :
    Expires k (k.timerExpire i) ∧ (k.timerExpire i).timerDue i = false := by
  have hdone : ∀ k', Expires k k' → (k'.timers i).used = false → k'.timerDue i = false := by
    intro k' _ hu
    unfold timerDue
    rw [hu]
    rfl
  unfold Kernel.timerExpire
  by_cases hdue : k.timerDue i = true
  · have hfirst : (k.timerDisarm i).firstBlocked (k.timers i).wq = _ := (hm hdue).2
    rw [if_pos hdue, hfirst]
    by_cases hw : k.ownerWaits i = true
    · obtain ⟨park, hp, hid⟩ := ownerWaits_iff.mp hw
      have howner : (k.timers i).owner = ((k.timers i).owner.1, park.id) := by rw [hid]
      have hexp := h.expire_owner hdue howner hp
      have hb : ((k.timerDisarm i).procs (k.timers i).owner.1).state = .blocked :=
        (parked_eq_some.mp hp).1
      rw [if_pos hw]
      refine ⟨hexp, hdone _ hexp ?_⟩
      rw [(timerWake_stirredBy hb (k.timers i)).timers]
      exact timerDisarm_used_self k i
    · have hexp := h.expire_left (Bool.eq_false_iff.mpr hw)
      rw [if_neg hw]
      exact ⟨hexp, hdone _ hexp (timerDisarm_used_self k i)⟩
  · rw [if_neg hdue]
    exact ⟨.refl h, Bool.eq_false_iff.mpr hdue⟩

theorem expireAll (is : List (Fin waitTimers))
    (hall : Along (fun k i => k.timerDue i = true → k.MeetsOwner i) Kernel.timerExpire k is) :
    Expires k (is.foldl Kernel.timerExpire k) ∧
      ∀ i ∈ is, (is.foldl Kernel.timerExpire k).timerDue i = false := by
  induction is generalizing k with
  | nil => exact ⟨.refl h, nofun⟩
  | cons i is ih =>
    obtain ⟨hexp, hnot⟩ := h.timerExpire hall.1
    obtain ⟨hexp', hnot'⟩ := ih hexp.inv hall.2
    refine ⟨hexp.trans hexp', fun j hj => ?_⟩
    rcases List.mem_cons.mp hj with rfl | hj
    · apply Bool.eq_false_iff.mpr
      intro hd
      rw [hexp'.due j hd] at hnot
      cases hnot
    · exact hnot' j hj

theorem elapse (now : UInt64) : (k.elapse now).TimerInv := by
  unfold Kernel.elapse
  split
  · exact h.shrink rfl rfl fun _ _ hp => hp
  · exact h

/-- A tick whose timers meet their owners ends exactly the waits that have run
out. -/
theorem tick {now : UInt64} (hsafe : k.TimerSafe (.tick now)) :
    (k.step (.tick now)).TimerInv ∧ k.TickExact now := by
  obtain ⟨hexp, hnot⟩ := (h.elapse now).expireAll _ hsafe
  have hpoll : k.step (.tick now) = (List.finRange waitTimers).foldl Kernel.timerExpire
    (k.elapse now) := rfl
  unfold TickExact
  rw [hpoll]
  generalize (List.finRange waitTimers).foldl Kernel.timerExpire (k.elapse now) = k' at *
  refine ⟨hexp.inv, fun p park hp => ?_⟩
  have hp' : (k.elapse now).parked p = some park := by
    rw [← hp]
    unfold Kernel.elapse
    split <;> rfl
  constructor
  · intro hwoken
    rcases hexp.waits p park hp' with hstill | ⟨-, hexpired⟩
    · exact absurd (parked_eq_some.mp hstill).1 hwoken
    · exact hexpired
  intro hexpired hb
  have hstill : k'.parked p = some park := by
    refine parked_eq_some.mpr ⟨hb, ?_⟩
    exact (hexp.procs p).park.trans (parked_eq_some.mp hp').2
  -- its timer would still be armed, and due
  obtain ⟨i, hu, howner⟩ := hexp.inv.armed p park hstill hexpired.1
  have hdl := (hexp.inv.deadline i p park hu howner hstill).2
  have hdue := timerDue_iff.mpr ⟨hu, by rw [hdl, hexp.uptime]; exact hexpired.2⟩
  rw [hnot i (List.mem_finRange i)] at hdue
  cases hdue

/-! ## Runs -/

theorem of_stirred (hprocs : ∀ i, Stirred (k.procs i) (k'.procs i))
    (htimers : k'.timers = k.timers) (hparks : k'.parks = k.parks) : k'.TimerInv :=
  h.shrink htimers hparks fun p _ hp => parked_of_stirred (hprocs p) hp

theorem setProc
    (hstate : (f (k.procs p)).state ≠ .blocked) : (k.setProc p f).TimerInv := by
  refine h.shrink rfl rfl fun j park hj => ?_
  rw [parked_eq_some, procs_setProc] at hj
  rw [parked_eq_some]
  split at hj
  · exact absurd hj.1 hstate
  · exact hj

theorem schedule (j : Slot) : (k.schedule j).TimerInv := by
  have hpre : k.preempt.TimerInv := by
    unfold preempt
    split
    · exact h.setProc nofun
    · exact h
  unfold Kernel.schedule
  split
  · have hset : (k.preempt.setProc j fun proc => { proc with state := .running }).TimerInv :=
      hpre.setProc nofun
    exact hset.shrink rfl rfl fun _ _ hp => hp
  · exact h

theorem step {a : Action} (htimed : a.timed = true)
    (hsafe : k.TimerSafe a) : (k.step a).TimerInv := by
  cases a with
  | schedule j => exact h.schedule j
  | block q kind ret us => exact h.waitBlock kind ret hsafe
  | futexWait uaddr rangeOk valueEq kmallocOk us =>
    exact h.futexWait uaddr rangeOk valueEq kmallocOk hsafe
  | futexWake uaddr n =>
    have hstir := futexWakeUser_stirred k uaddr n
    exact h.of_stirred hstir.procs hstir.timers hstir.parks
  | wake q max =>
    have hstir := waitWake_stirredBy k q max
    exact h.of_stirred hstir.procs hstir.timers hstir.parks
  | wakeStatus q ret =>
    have hstir := waitWakeStatus_stirredBy k q ret
    exact h.of_stirred hstir.procs hstir.timers hstir.parks
  | elapse now => exact h.elapse now
  | tick now => exact (h.tick hsafe).1
  | fork | clone | exit | kill | wait4 | setTidAddress => cases htimed

end TimerInv

end

/-- In every run in which due timers meet their owners, a tick ends the waits
whose timeout has run out, and no others. -/
theorem tick_exact {k : Kernel} (h : Reach Booted TimerSafe TimedStep k) {now : UInt64}
    (hsafe : k.TimerSafe (.tick now)) : k.TickExact now := by
  have hinv : k.TimerInv := by
    refine h.invariant (fun _ hb => hb.timerInv) ?_
    rintro k a k' hk hsafe ⟨htimed, -, rfl⟩
    exact hk.step htimed hsafe
  exact (hinv.tick hsafe).2

/-! ## Two sleepers -/

instance (a : Action) : Decidable (k.TimerSafe a) :=
  match a with
  | .block _ _ _ _ | .futexWait _ _ _ _ _ => inferInstanceAs (Decidable (_ < _))
  | .tick _ => inferInstanceAs (Decidable (Along _ _ _ _))
  | .schedule _ | .fork _ | .clone _ _ _ _ | .exit _ | .kill _ | .wait4 _ _ _ | .setTidAddress _
  | .futexWake _ _ | .wake _ _ | .wakeStatus _ _ | .elapse _ => isTrue trivial

/-- Two programs call `nanosleep` one after the other. -/
def sleepers (first second : UInt64) : List Action :=
  [.schedule 0, .block .sleep .complete 0 first, .schedule 1, .block .sleep .complete 0 second]

theorem sleepers_reach {ok : Kernel → Action → Prop} (first second : UInt64)
    (h : Along (fun k a => ok k a ∧ a.timed = true ∧ a.valid = true) step twoPrograms
      (sleepers first second)) :
    Reach Booted ok TimedStep ((sleepers first second).foldl step twoPrograms) :=
  Reach.foldl (fun _ _ h => ⟨h.1, h.2.1, h.2.2, rfl⟩) (.start twoPrograms_booted) _ h

/-- The shorter sleep is ahead in the queue, and its timer finds it. -/
theorem tick_exact_in_order : ((sleepers 10 1000).foldl step twoPrograms).TickExact 10 ∧
      ((((sleepers 10 1000).foldl step twoPrograms).step (.tick 10)).procs 0).state = .ready := by
  refine ⟨tick_exact (sleepers_reach 10 1000 ?_) ?_, ?_⟩ <;> decide +kernel

/-- The timer of the second sleep completes the first one, 990 microseconds
early, and leaves its own process asleep. -/
theorem tick_wakes_other_sleeper :
    ¬ ∀ k, Reach Booted (fun _ _ => True) TimedStep k → ∀ now, k.TickExact now := by
  intro hall
  have hexact := hall _ (sleepers_reach 1000 10 (by decide +kernel)) 10
  have hpark : ((sleepers 1000 10).foldl step twoPrograms).parked 0 =
      some { id := 0, queue := .sleep, since := 0, timeout := 1000 } := by decide +kernel
  have hwoken : ((((sleepers 1000 10).foldl step twoPrograms).step (.tick 10)).procs 0).state ≠
      .blocked := by decide +kernel
  have hearly := ((hexact 0 _ hpark).mp hwoken).2
  revert hearly
  decide +kernel

end Kernel
end Kil0yOS.Core
