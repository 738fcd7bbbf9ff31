/-
Futex wake-ups: whom `futex_wake_user` wakes.

The waiter table knows addresses but not address spaces, keeps the entries of
waits that ended by a timeout until the next wake, and a wake frees the waiter
that a timer may still point to.  A wake does what it is for as long as the
BLOCKED processes named in the table under the address are waits of the caller's
address space on that address, and no armed timer is left behind on an entry it
frees.
-/
import Mathlib.Data.Finset.Card
import Mathlib.Data.Fintype.Basic
import Kil0yOS.Core.Lifecycle

namespace Kil0yOS.Core.Kernel

open Lib List Function

/-! ## The promise -/

variable (k : Kernel)

def callerMm : Option Nat :=
  match k.current with
  | some p => (k.procs p).mm
  | none => none

def waitsFor (uaddr : UInt64) (p : Slot) : Bool :=
  match k.parkedOn p with
  | some (.futex w) => (k.waiters w).uaddr == uaddr
  | _ => false

/-- The processes of the caller's address space parked in a futex wait on the
address. -/
def waiting (uaddr : UInt64) : Finset Slot :=
  Finset.univ.filter fun p => k.waitsFor uaddr p = true ∧ (k.procs p).mm = k.callerMm

def changed (k k' : Kernel) : Finset Slot :=
  Finset.univ.filter fun p => (k'.procs p).state ≠ (k.procs p).state

structure WakeExact (k : Kernel) (uaddr : UInt64) (n : Int) : Prop where
  ret : (k.futexWakeUser uaddr n).2 = min n.toNat (k.waiting uaddr).card
  count : (changed k (k.futexWakeUser uaddr n).1).card = (k.futexWakeUser uaddr n).2
  only : ∀ p ∈ changed k (k.futexWakeUser uaddr n).1,
    p ∈ k.waiting uaddr ∧ ((k.futexWakeUser uaddr n).1.procs p).state = .ready

def TimersLive : Prop := ∀ i, (k.timers i).used = true → k.timerLive i = true

/-- A call of `futex_wake_user` and the state it is made in. -/
structure WakeCall where
  state : Kernel
  uaddr : UInt64
  n : Int

def clearTidCalls (t : Slot) : List WakeCall :=
  if (k.procs t).clearChildTid = 0 then [] else [⟨k, (k.procs t).clearChildTid, 1⟩]

/-- The calls `exit_group` makes while it goes through the slots. -/
def killCalls (leader : Slot) : List Slot → Kernel → List WakeCall
  | [], _ => []
  | t :: ts, k =>
    if k.isSibling leader t then k.clearTidCalls t ++ killCalls leader ts (k.threadRelease t)
    else killCalls leader ts k

def exitCalls : List WakeCall :=
  match k.current with
  | none => []
  | some p =>
    if (k.procs p).isThread then k.clearTidCalls p
    else killCalls p (finRange maxProcesses) k

def wakeCalls : Action → List WakeCall
  | .futexWake uaddr n => [⟨k, uaddr, n⟩]
  | .exit _ | .kill _ => k.exitCalls
  | _ => []

/-! ## The condition -/

/-- Is the waiter an entry for the address, and the one its process sits in? -/
def isCurrent (uaddr : UInt64) (w : Nat) : Bool :=
  (k.waiters w).uaddr == uaddr && k.parkedOn (k.waiters w).proc == some (.futex w)

/-- As many as a wake of `n` still takes after `woken`; a negative `n` takes
all. -/
def upTo (n : Int) (woken : Nat) (ws : List Nat) : List Nat :=
  if 0 ≤ n then ws.take (n.toNat - woken) else ws

/-- The waiters that a wake of `n` is for. -/
def toWake (uaddr : UInt64) (n : Int) : List Nat :=
  upTo n 0 ((k.futexTab (futexHash uaddr)).filter (k.isCurrent uaddr))

/-- Every BLOCKED process the table names under the address waits for it in the
caller's address space, and no armed timer is on an entry whose process has gone
or is woken. -/
structure CallSafe (k : Kernel) (uaddr : UInt64) (n : Int) : Prop where
  own : ∀ w ∈ k.futexTab (futexHash uaddr), (k.waiters w).uaddr = uaddr →
    (k.procs (k.waiters w).proc).state = .blocked →
      k.waitsFor uaddr (k.waiters w).proc = true ∧ (k.procs (k.waiters w).proc).mm = k.callerMm
  unarmed : ∀ i, (k.timers i).used = true → ∀ w ∈ k.futexTab (futexHash uaddr),
    (k.timers i).wq = .futex w → (k.waiters w).uaddr = uaddr →
      (k.procs (k.waiters w).proc).state = .blocked ∧
        ∀ g ∈ k.toWake uaddr n, (k.waiters g).proc ≠ (k.waiters w).proc

def FutexSafe (a : Action) : Prop :=
  ∀ c ∈ k.wakeCalls a, c.state.CallSafe c.uaddr c.n

/-! ## The invariant -/

/-- The process is parked through the waiter: the waiter is in the table, its
queue holds the process alone, and the process has no newer entry. -/
structure FutexParked (k : Kernel) (p : Slot) (w : Nat) : Prop where
  proc : (k.waiters w).proc = p
  mem : w ∈ k.futexTab (futexHash (k.waiters w).uaddr)
  queue : k.queues (.futex w) = { head := some p, tail := some p }
  latest : ∀ b, ∀ v ∈ k.futexTab b, (k.waiters v).proc = p → v ≤ w

structure FutexInv (k : Kernel) : Prop where
  parked : ∀ p w, k.parkedOn p = some (.futex w) → k.FutexParked p w
  sorted : ∀ b, (k.futexTab b).Pairwise (· > ·)
  entry_lt : ∀ b, ∀ w ∈ k.futexTab b, w < k.nextWaiter
  live : k.TimersLive
  timer_lt : ∀ i w, (k.timers i).used = true → (k.timers i).wq = .futex w → w < k.nextWaiter
  freed_lt : ∀ w, k.freed w = true → w < k.nextWaiter

variable {k k' : Kernel} {q r : QueueId} {p : Slot} {w : Nat} {ws : List Nat} {uaddr : UInt64}
  {n : Int} {woken : Nat} {i : Fin waitTimers}

theorem isCurrent_iff : k.isCurrent uaddr w = true ↔
    (k.waiters w).uaddr = uaddr ∧ k.parkedOn (k.waiters w).proc = some (.futex w) := by
  unfold isCurrent
  simp

theorem waitsFor_iff : k.waitsFor uaddr p = true ↔
    ∃ w, k.parkedOn p = some (.futex w) ∧ (k.waiters w).uaddr = uaddr := by
  unfold waitsFor
  split
  · next w h => simp [h]
  rename_i h
  constructor
  · intro hf
    cases hf
  · rintro ⟨w, hw, -⟩
    exact absurd hw (h w)

theorem blocked_of_parkedOn (h : k.parkedOn p = some q) : (k.procs p).state = .blocked := by
  by_contra hb
  rw [parkedOn_of_not_blocked hb] at h
  cases h

theorem parkedOn_of_stirred (h : Stirred (k.procs p) (k'.procs p)) (hp : k'.parkedOn p = some q) :
    k.parkedOn p = some q := by
  have hb := blocked_of_parkedOn hp
  rw [← hp]
  exact (parkedOn_congr (hb.trans (h.blocked hb).symm) h.park).symm

/-! ## The walk along a bucket -/

/-- What the walk needs of the entries in front of it: newer entries come first,
and each BLOCKED process named under the address sits in one of them. -/
structure WalkOk (k : Kernel) (uaddr : UInt64) (ws : List Nat) : Prop where
  sorted : ws.Pairwise (· > ·)
  known : ∀ w ∈ ws, (k.waiters w).uaddr = uaddr →
    (k.procs (k.waiters w).proc).state = .blocked →
      ∃ g ∈ ws, k.isCurrent uaddr g = true ∧ (k.waiters g).proc = (k.waiters w).proc ∧ w ≤ g
  queue : ∀ w ∈ ws, k.isCurrent uaddr w = true →
    (k.queues (.futex w)).head = some (k.waiters w).proc

/-- What the walk has done when it has woken the waiters `ids`. -/
structure Walked (k k' : Kernel) (uaddr : UInt64) (ws kept ids : List Nat) : Prop where
  state : ∀ p, (k'.procs p).state =
    if p ∈ ids.map (fun w => (k.waiters w).proc) then .ready else (k.procs p).state
  queues : ∀ w, (k'.procs (k.waiters w).proc).state = .blocked →
    k'.queues (.futex w) = k.queues (.futex w)
  sublist : kept.Sublist ws
  keeps : ∀ w ∈ ws, (k'.procs (k.waiters w).proc).state = .blocked → w ∈ kept
  freed : ∀ w, k'.freed w = true → k.freed w = true ∨
    w ∈ ws ∧ (k.waiters w).uaddr = uaddr ∧ (k'.procs (k.waiters w).proc).state ≠ .blocked

/-- On a queue whose head is BLOCKED, `wait_wake_status` wakes the head. -/
theorem waitWakeStatus_head (hhead : (k.queues q).head = some p)
    (hb : (k.procs p).state = .blocked) (ret : UInt64) :
    k.waitWakeStatus q ret = (k.wqPop q p).wakeLocked p .complete ret := by
  rw [waitWakeStatus, waitWakeStatusLoop, hhead]
  dsimp only
  rw [if_pos hb]

theorem queues_wqPop_of_ne (h : r ≠ q) : (k.wqPop q p).queues r = k.queues r := by
  exact queues_setQueue_of_ne h

theorem upTo_reached (h : 0 ≤ n ∧ n ≤ woken) (ws : List Nat) : upTo n woken ws = [] := by
  have hz : n.toNat - woken = 0 := by omega
  simp [upTo, h.1, hz]

theorem upTo_cons (h : ¬ (0 ≤ n ∧ n ≤ woken)) (w : Nat) (ws : List Nat) :
    upTo n woken (w :: ws) = w :: upTo n (woken + 1) ws := by
  unfold upTo
  split
  · next hn =>
    have hs : n.toNat - woken = n.toNat - (woken + 1) + 1 := by omega
    simp [hs]
  · rfl

theorem Walked.nil (k : Kernel) (uaddr : UInt64) : Walked k k uaddr [] [] [] :=
  ⟨fun _ => by simp, fun _ _ => rfl, List.Sublist.refl _, fun _ hw => absurd hw not_mem_nil,
    fun _ hf => .inl hf⟩

section Walk

variable {kept ids : List Nat} {v : Nat}

theorem Walked.keep (h : Walked k k' uaddr ws kept ids) (w : Nat) :
    Walked k k' uaddr (w :: ws) (w :: kept) ids := by
  refine ⟨h.state, h.queues, h.sublist.cons_cons w, fun v hv hb => ?_, fun v hf => ?_⟩
  · rcases mem_cons.mp hv with rfl | hv
    · exact mem_cons_self
    · exact mem_cons_of_mem w (h.keeps v hv hb)
  · rcases h.freed v hf with hf | ⟨hv, hrest⟩
    · exact .inl hf
    · exact .inr ⟨mem_cons_of_mem w hv, hrest⟩

theorem freed_futexFree (h : (k.futexFree w).freed v = true) : v = w ∨ k.freed v = true := by
  by_cases hvw : v = w
  · exact .inl hvw
  · right
    rw [← h]
    exact (update_of_ne hvw _ _).symm

/-- The entry of a process that is not BLOCKED is freed on the way. -/
theorem Walked.reap (h : Walked (k.futexFree w) k' uaddr ws kept ids)
    (haddr : (k.waiters w).uaddr = uaddr) (hb : (k.procs (k.waiters w).proc).state ≠ .blocked) :
    Walked k k' uaddr (w :: ws) kept ids := by
  have hb' : (k'.procs (k.waiters w).proc).state ≠ .blocked := by
    rw [h.state]
    split
    · exact nofun
    · exact hb
  refine ⟨h.state, h.queues, h.sublist.cons w, fun v hv hvb => ?_, fun v hf => ?_⟩
  · rcases mem_cons.mp hv with rfl | hv
    · exact absurd hvb hb'
    · exact h.keeps v hv hvb
  rcases h.freed v hf with hf | ⟨hv, hrest⟩
  · rcases freed_futexFree hf with rfl | hf
    · exact .inr ⟨mem_cons_self, haddr, hb'⟩
    · exact .inl hf
  · exact .inr ⟨mem_cons_of_mem w hv, hrest⟩

def takeOff (k : Kernel) (w : Nat) : Kernel := (k.waitWakeStatus (.futex w) 0).futexFree w

theorem isCurrent_parkedOn (h : k.isCurrent uaddr w = true) :
    k.parkedOn (k.waiters w).proc = some (.futex w) := (isCurrent_iff.mp h).2

theorem takeOff_state (hhead : (k.queues (.futex w)).head = some p)
    (hb : (k.procs p).state = .blocked) (i : Slot) :
    ((k.takeOff w).procs i).state = if i = p then .ready else (k.procs i).state := by
  rw [takeOff, waitWakeStatus_head hhead hb]
  show (((k.wqPop _ p).wakeLocked p .complete 0).procs i).state = _
  rw [procs_wakeLocked]
  split
  · rfl
  · exact (wqPop_relinkedBy k _ p).state i

theorem takeOff_waiters (k : Kernel) (w : Nat) : (k.takeOff w).waiters = k.waiters :=
  (waitWakeStatus_stirredBy k (.futex w) 0).waiters

theorem takeOff_queues (hhead : (k.queues (.futex w)).head = some p)
    (hb : (k.procs p).state = .blocked) (hv : v ≠ w) :
    (k.takeOff w).queues (.futex v) = k.queues (.futex v) := by
  rw [takeOff, waitWakeStatus_head hhead hb]
  exact queues_wqPop_of_ne fun e => hv (QueueId.futex.inj e)

theorem takeOff_freed (h : (k.takeOff w).freed v = true) : v = w ∨ k.freed v = true := by
  have hf := freed_futexFree h
  rwa [(waitWakeStatus_stirredBy k (.futex w) 0).freed] at hf

theorem Walked.wake (h : Walked (k.takeOff w) k' uaddr ws kept ids)
    (haddr : (k.waiters w).uaddr = uaddr)
    (hhead : (k.queues (.futex w)).head = some (k.waiters w).proc)
    (hb : (k.procs (k.waiters w).proc).state = .blocked) :
    Walked k k' uaddr (w :: ws) kept (w :: ids) := by
  have hstate : ∀ i, (k'.procs i).state =
      if i ∈ (w :: ids).map (fun v => (k.waiters v).proc) then .ready else (k.procs i).state := by
    intro i
    rw [h.state, takeOff_waiters, takeOff_state hhead hb]
    by_cases hi : i = (k.waiters w).proc
    · simp [hi]
    · simp [hi]
  have hready : (k'.procs (k.waiters w).proc).state ≠ .blocked := by
    rw [hstate, if_pos (by simp)]
    exact nofun
  have hqueues := h.queues
  have hkeeps := h.keeps
  have hfreed := h.freed
  rw [takeOff_waiters] at hqueues hkeeps hfreed
  refine ⟨hstate, fun v hv => ?_, h.sublist.cons w, fun v hv hvb => ?_, fun v hf => ?_⟩
  · have hvw : v ≠ w := by
      rintro rfl
      exact hready hv
    rw [hqueues v hv, takeOff_queues hhead hb hvw]
  · rcases mem_cons.mp hv with rfl | hv
    · exact absurd hvb hready
    · exact hkeeps v hv hvb
  · rcases hfreed v hf with hf | ⟨hv, hrest⟩
    · rcases takeOff_freed hf with rfl | hf
      · exact .inr ⟨mem_cons_self, haddr, hready⟩
      · exact .inl hf
    · exact .inr ⟨mem_cons_of_mem w hv, hrest⟩

/-- A BLOCKED process at the front of the walk sits in the front entry: had it
another one, that would be newer and come before. -/
theorem WalkOk.head_current (h : WalkOk k uaddr (w :: ws)) (haddr : (k.waiters w).uaddr = uaddr)
    (hb : (k.procs (k.waiters w).proc).state = .blocked) : k.isCurrent uaddr w = true := by
  obtain ⟨g, hg, hcur, -, hle⟩ := h.known w mem_cons_self haddr hb
  rcases mem_cons.mp hg with rfl | hg
  · exact hcur
  · have hlt := (pairwise_cons.mp h.sorted).1 g hg
    omega

theorem WalkOk.tail (h : WalkOk k uaddr (w :: ws)) (hcur : k.isCurrent uaddr w = false) :
    WalkOk k uaddr ws := by
  refine ⟨(pairwise_cons.mp h.sorted).2, fun v hv haddr hb => ?_,
    fun v hv => h.queue v (mem_cons_of_mem w hv)⟩
  obtain ⟨g, hg, hgcur, hproc, hle⟩ := h.known v (mem_cons_of_mem w hv) haddr hb
  rcases mem_cons.mp hg with rfl | hg
  · rw [hcur] at hgcur
    cases hgcur
  · exact ⟨g, hg, hgcur, hproc, hle⟩

/-- Waking one waiter leaves the others where they are. -/
theorem takeOff_isCurrent (hw : k.isCurrent uaddr w = true)
    (hhead : (k.queues (.futex w)).head = some (k.waiters w).proc) (hv : v ≠ w) :
    (k.takeOff w).isCurrent uaddr v = k.isCurrent uaddr v := by
  have hon := isCurrent_parkedOn hw
  have hb := blocked_of_parkedOn hon
  have hparked : (k.takeOff w).parkedOn (k.waiters v).proc = some (.futex v) ↔
      k.parkedOn (k.waiters v).proc = some (.futex v) := by
    by_cases hp : (k.waiters v).proc = (k.waiters w).proc
    · have hnone : (k.takeOff w).parkedOn (k.waiters w).proc = none := by
        apply parkedOn_of_not_blocked
        rw [takeOff_state hhead hb, if_pos rfl]
        exact nofun
      rw [hp, hnone, hon]
      constructor
      · intro h
        cases h
      · intro h
        exact absurd (QueueId.futex.inj (Option.some.inj h)).symm hv
    · have hstate := takeOff_state hhead hb (k.waiters v).proc
      rw [if_neg hp] at hstate
      rw [parkedOn_congr hstate ((waitWakeStatus_stirredBy k (.futex w) 0).procs _).park]
  rw [Bool.eq_iff_iff, isCurrent_iff, isCurrent_iff, takeOff_waiters, hparked]

theorem WalkOk.takeOff (h : WalkOk k uaddr (w :: ws)) (hw : k.isCurrent uaddr w = true) :
    WalkOk (k.takeOff w) uaddr ws := by
  have hhead := h.queue w mem_cons_self hw
  have hb := blocked_of_parkedOn (isCurrent_parkedOn hw)
  obtain ⟨hlt, hsorted⟩ := pairwise_cons.mp h.sorted
  have hne : ∀ v ∈ ws, v ≠ w := fun v hv => Nat.ne_of_lt (hlt v hv)
  refine ⟨hsorted, fun v hv haddr hvb => ?_, fun v hv hcur => ?_⟩
  · rw [takeOff_waiters] at haddr hvb ⊢
    rw [takeOff_state hhead hb] at hvb
    have hp : (k.waiters v).proc ≠ (k.waiters w).proc := by
      intro e
      rw [if_pos e] at hvb
      cases hvb
    rw [if_neg hp] at hvb
    obtain ⟨g, hg, hgcur, hproc, hle⟩ := h.known v (mem_cons_of_mem w hv) haddr hvb
    rcases mem_cons.mp hg with rfl | hg
    · exact absurd hproc.symm hp
    · refine ⟨g, hg, ?_, hproc, hle⟩
      rw [takeOff_isCurrent hw hhead (hne g hg)]
      exact hgcur
  · rw [takeOff_isCurrent hw hhead (hne v hv)] at hcur
    rw [takeOff_waiters, takeOff_queues hhead hb (hne v hv)]
    exact h.queue v (mem_cons_of_mem w hv) hcur

end Walk

/-- The walk of a wake: it takes the first waiters that are still waiting, as many
as it may, and frees their entries and those of processes that have gone. -/
theorem futexWakeLoop_walked (h : (0 ≤ n ∧ n ≤ woken) ∨ WalkOk k uaddr ws) :
    Walked k (futexWakeLoop uaddr n ws woken k).1 uaddr ws (futexWakeLoop uaddr n ws woken k).2.1
        (upTo n woken (ws.filter (k.isCurrent uaddr))) ∧
      (futexWakeLoop uaddr n ws woken k).2.2 =
        woken + (upTo n woken (ws.filter (k.isCurrent uaddr))).length := by
  induction ws generalizing woken k with
  | nil =>
    have hnil : upTo n woken [] = [] := by
      unfold upTo
      split
      · exact take_nil
      · rfl
    rw [filter_nil, hnil]
    exact ⟨.nil k uaddr, rfl⟩
  | cons w ws ih =>
    rw [futexWakeLoop]
    by_cases haddr : (k.waiters w).uaddr = uaddr
    · rw [if_neg (not_not.mpr haddr)]
      by_cases hb : (k.procs (k.waiters w).proc).state = .blocked
      · rw [if_pos hb]
        by_cases hlim : 0 ≤ n ∧ n ≤ woken
        · obtain ⟨hwalk, hcount⟩ := ih (.inl hlim)
          rw [upTo_reached hlim] at hwalk hcount
          rw [if_pos hlim, upTo_reached hlim]
          exact ⟨hwalk.keep w, hcount⟩
        have hok := h.resolve_left hlim
        have hcur := hok.head_current haddr hb
        have hhead := hok.queue w mem_cons_self hcur
        have hfilter : ws.filter ((k.takeOff w).isCurrent uaddr) =
            ws.filter (k.isCurrent uaddr) := by
          apply filter_congr
          intro v hv
          exact takeOff_isCurrent hcur hhead (Nat.ne_of_lt ((pairwise_cons.mp hok.sorted).1 v hv))
        have hnext : (0 ≤ n ∧ n ≤ (woken + 1 : Nat)) ∨ WalkOk (k.takeOff w) uaddr ws :=
          .inr (hok.takeOff hcur)
        obtain ⟨hwalk, hcount⟩ := ih hnext
        rw [hfilter] at hwalk hcount
        rw [if_neg hlim, filter_cons_of_pos hcur, upTo_cons hlim, length_cons]
        refine ⟨hwalk.wake haddr hhead hb, hcount.trans ?_⟩
        omega
      · have hcur : k.isCurrent uaddr w = false := by
          rw [Bool.eq_false_iff]
          intro hc
          exact hb (blocked_of_parkedOn (isCurrent_parkedOn hc))
        have hnext : (0 ≤ n ∧ n ≤ woken) ∨ WalkOk (k.futexFree w) uaddr ws :=
          h.imp_right fun hok =>
            ⟨(hok.tail hcur).sorted, (hok.tail hcur).known, (hok.tail hcur).queue⟩
        obtain ⟨hwalk, hcount⟩ := ih hnext
        rw [if_neg hb, filter_cons_of_neg (by rw [hcur]; exact Bool.false_ne_true)]
        exact ⟨hwalk.reap haddr hb, hcount⟩
    · have hcur : k.isCurrent uaddr w = false := by
        rw [Bool.eq_false_iff]
        intro hc
        exact haddr (isCurrent_iff.mp hc).1
      obtain ⟨hwalk, hcount⟩ := ih (h.imp_right fun hok => hok.tail hcur)
      rw [if_pos haddr, filter_cons_of_neg (by rw [hcur]; exact Bool.false_ne_true)]
      exact ⟨hwalk.keep w, hcount⟩

/-! ## One call -/

theorem FutexInv.walkOk (h : k.FutexInv) (hs : k.CallSafe uaddr n) :
    WalkOk k uaddr (k.futexTab (futexHash uaddr)) := by
  refine ⟨h.sorted _, fun w hw haddr hb => ?_, fun w hw hcur => ?_⟩
  · obtain ⟨g, hon, hg⟩ := waitsFor_iff.mp (hs.own w hw haddr hb).1
    have hpark := h.parked _ g hon
    refine ⟨g, ?_, ?_, hpark.proc, hpark.latest _ w hw rfl⟩
    · have hmem := hpark.mem
      rwa [hg] at hmem
    · rw [isCurrent_iff, hpark.proc]
      exact ⟨hg, hon⟩
  · rw [(h.parked _ w (isCurrent_parkedOn hcur)).queue]

theorem upTo_sublist (n : Int) (woken : Nat) (ws : List Nat) : (upTo n woken ws).Sublist ws := by
  unfold upTo
  split
  · exact take_sublist _ _
  · exact List.Sublist.refl _

theorem toWake_current {g : Nat} (hg : g ∈ k.toWake uaddr n) : k.isCurrent uaddr g = true :=
  (mem_filter.mp ((upTo_sublist n 0 _).subset hg)).2

/-- What a wake does, in terms of the waiters it is for. -/
theorem FutexInv.futexWakeUser_walked (h : k.FutexInv) (hs : k.CallSafe uaddr n) :
    ∃ kept, (k.futexWakeUser uaddr n).1.futexTab = update k.futexTab (futexHash uaddr) kept ∧
      Walked k (k.futexWakeUser uaddr n).1 uaddr (k.futexTab (futexHash uaddr)) kept
        (k.toWake uaddr n) ∧
      (k.futexWakeUser uaddr n).2 = (k.toWake uaddr n).length := by
  obtain ⟨hwalk, hcount⟩ := futexWakeLoop_walked (.inr (h.walkOk hs))
  refine ⟨_, ?_, { hwalk with },
    hcount.trans (Nat.zero_add _)⟩
  have htab := futexWakeLoop_futexTab uaddr n (k.futexTab (futexHash uaddr)) 0 k
  show update _ _ _ = _
  rw [htab]

/-- A waiter that processes sit in belongs to one process. -/
theorem proc_injOn_current {ws : List Nat} (h : ∀ w ∈ ws, k.isCurrent uaddr w = true)
    (hnd : ws.Nodup) : (ws.map fun w => (k.waiters w).proc).Nodup := by
  refine hnd.map_on fun v hv w hw e => ?_
  have hvon := isCurrent_parkedOn (h v hv)
  rw [e, isCurrent_parkedOn (h w hw)] at hvon
  exact (QueueId.futex.inj (Option.some.inj hvon)).symm

theorem FutexInv.nodup (h : k.FutexInv) (b : Fin futHash) : (k.futexTab b).Nodup :=
  (h.sorted b).imp fun hlt => Nat.ne_of_gt hlt

theorem FutexInv.waiting_eq (h : k.FutexInv) (hs : k.CallSafe uaddr n) :
    k.waiting uaddr = (((k.futexTab (futexHash uaddr)).filter (k.isCurrent uaddr)).map
      fun w => (k.waiters w).proc).toFinset := by
  ext p
  simp only [waiting, Finset.mem_filter, Finset.mem_univ, true_and, mem_toFinset,
    mem_map, mem_filter]
  constructor
  · rintro ⟨hwait, -⟩
    obtain ⟨w, hon, hw⟩ := waitsFor_iff.mp hwait
    have hpark := h.parked p w hon
    have hmem := hpark.mem
    rw [hw] at hmem
    refine ⟨w, ⟨hmem, isCurrent_iff.mpr ⟨hw, ?_⟩⟩, hpark.proc⟩
    rw [hpark.proc]
    exact hon
  · rintro ⟨w, ⟨hw, hcur⟩, rfl⟩
    obtain ⟨haddr, hon⟩ := isCurrent_iff.mp hcur
    exact hs.own w hw haddr (blocked_of_parkedOn hon)

/-- A wake under the condition wakes as many as it may of the processes it is
for. -/
theorem FutexInv.wakeExact (h : k.FutexInv) (hs : k.CallSafe uaddr n) (hn : 0 ≤ n) :
    k.WakeExact uaddr n := by
  obtain ⟨kept, -, hwalk, hcount⟩ := h.futexWakeUser_walked hs
  have hcurrent := (h.nodup (futexHash uaddr)).filter (k.isCurrent uaddr)
  have hchanged : changed k (k.futexWakeUser uaddr n).1 =
      ((k.toWake uaddr n).map fun w => (k.waiters w).proc).toFinset := by
    ext p
    simp only [changed, Finset.mem_filter, Finset.mem_univ, true_and, mem_toFinset]
    rw [hwalk.state]
    constructor
    · intro hne
      by_contra hp
      rw [if_neg hp] at hne
      exact hne rfl
    · intro hp
      obtain ⟨w, hw, rfl⟩ := mem_map.mp hp
      rw [if_pos hp, blocked_of_parkedOn (isCurrent_parkedOn (toWake_current hw))]
      exact nofun
  have hwaiting : (k.waiting uaddr).card =
      ((k.futexTab (futexHash uaddr)).filter (k.isCurrent uaddr)).length := by
    rw [h.waiting_eq hs, toFinset_card_of_nodup, length_map]
    exact proc_injOn_current (fun w hw => (mem_filter.mp hw).2) hcurrent
  have hlen : (k.toWake uaddr n).length = min n.toNat (k.waiting uaddr).card := by
    simp [hwaiting, toWake, upTo, hn]
  refine ⟨hcount.trans hlen, ?_, fun p hp => ?_⟩
  · rw [hchanged, toFinset_card_of_nodup, length_map, hcount]
    exact proc_injOn_current (fun w hw => toWake_current hw) (hcurrent.sublist (upTo_sublist n 0 _))
  rw [hchanged, mem_toFinset] at hp
  rw [hwalk.state, if_pos hp]
  refine ⟨?_, rfl⟩
  obtain ⟨w, hw, rfl⟩ := mem_map.mp hp
  rw [h.waiting_eq hs, mem_toFinset]
  exact mem_map.mpr ⟨w, (upTo_sublist n 0 _).subset hw, rfl⟩

theorem timerLive_of_futex (h : k.timerLive i = true)
    (hq : (k.timers i).wq = .futex w) : k.freed w = false := by
  unfold timerLive at h
  rw [hq] at h
  simpa using h

theorem timerLive_of
    (h : ∀ w, (k.timers i).wq = .futex w → k.freed w ≠ true) : k.timerLive i = true := by
  unfold timerLive
  split
  · next w hq => simpa using h w hq
  · rfl

theorem FutexInv.futexWakeUser (h : k.FutexInv) (hs : k.CallSafe uaddr n) :
    (k.futexWakeUser uaddr n).1.FutexInv := by
  obtain ⟨kept, htab, hwalk, -⟩ := h.futexWakeUser_walked hs
  have hstir := futexWakeUser_stirred k uaddr n
  generalize (k.futexWakeUser uaddr n).1 = k' at htab hwalk hstir ⊢
  have hsub : ∀ b, (k'.futexTab b).Sublist (k.futexTab b) := by
    rw [htab]
    exact (forall_update_iff k.futexTab fun b ws => ws.Sublist (k.futexTab b)).mpr
      ⟨hwalk.sublist, fun _ _ => List.Sublist.refl _⟩
  constructor
  · intro p w hon
    have hb := blocked_of_parkedOn hon
    have hpark := h.parked p w (parkedOn_of_stirred (hstir.procs p) hon)
    have hbw : (k'.procs (k.waiters w).proc).state = .blocked := by
      rw [hpark.proc]
      exact hb
    refine ⟨?_, ?_, (hwalk.queues w hbw).trans hpark.queue, fun b v hv => ?_⟩
    · rw [hstir.waiters]
      exact hpark.proc
    · rw [hstir.waiters, htab]
      by_cases hh : futexHash (k.waiters w).uaddr = futexHash uaddr
      · rw [hh, update_self]
        refine hwalk.keeps w ?_ hbw
        rw [← hh]
        exact hpark.mem
      · rw [update_of_ne hh]
        exact hpark.mem
    · rw [hstir.waiters]
      exact hpark.latest b v ((hsub b).subset hv)
  · exact fun b => (h.sorted b).sublist (hsub b)
  · intro b w hw
    rw [hstir.nextWaiter]
    exact h.entry_lt b w ((hsub b).subset hw)
  · intro i hu
    rw [hstir.timers] at hu
    refine timerLive_of fun w hq hf => ?_
    rw [hstir.timers] at hq
    rcases hwalk.freed w hf with hf | ⟨hw, haddr, hgone⟩
    · rw [timerLive_of_futex (h.live i hu) hq] at hf
      cases hf
    obtain ⟨hb, hnot⟩ := hs.unarmed i hu w hw hq haddr
    apply hgone
    rw [hwalk.state, if_neg, hb]
    intro hp
    obtain ⟨g, hg, hproc⟩ := mem_map.mp hp
    exact hnot g hg hproc
  · rw [hstir.timers, hstir.nextWaiter]
    exact h.timer_lt
  · intro w hf
    rw [hstir.nextWaiter]
    rcases hwalk.freed w hf with hf | ⟨hw, -⟩
    · exact h.freed_lt w hf
    · exact h.entry_lt _ w hw

end Kil0yOS.Core.Kernel
