/-
Runs of system calls of any number of processes.

Every call keeps the counts apart from the references it loses, and the calls that
can lose one are named by conditions on the state before the call.
-/
import Kil0yOS.Lib.Run
import Kil0yOS.Files.MessageCalls

namespace Kil0yOS.Files

open Lib State List

variable {s s' : State} {hand loose dying : List Nat} {f k c p t pid : Nat}
  {u u' v : UnixSock} {fd : Int}

variable {a : Action} {child parent : Nat} {t : State} {β : Type}

/-! ## Sockets of descriptors -/

def State.sockFd (s : State) (pid : Nat) (fd : Int) : Option Nat :=
  (s.fileAt pid fd).bind fun f => (s.files f).bind fun file =>
    match file.kind with
    | .sockUnix k => some k
    | _ => none

theorem sockFdGet_bind (h : Good s hand loose dying) {g : Option Nat → M β} {R : β → State → Prop} :
    Returns (sockFdGet pid fd >>= g) s R ↔ Returns (g (s.sockFd pid fd)) s R := by
  rw [sockFdGet, bind_assoc, fdGetFile_bind h, sockFd]
  cases hf : s.fileAt pid fd with
  | none => rfl
  | some f =>
    have hheld := held_pos_of_fileAt h hf
    obtain ⟨file, hfile⟩ := h.files.exists_of_held (f := f) (by omega)
    simp only [bind_assoc, Option.bind_some]
    rw [returns_get_bind, hfile]
    simp only [Option.bind_some]
    cases file.kind <;> rfl

theorem Good.sock_of_fd (h : Good s hand loose dying) (hk : s.sockFd pid fd = some k) :
    (∃ u, s.socks k = some u) ∧ k ∉ s.backlogs dying := by
  rw [sockFd, Option.bind_eq_some_iff] at hk
  obtain ⟨f, _, hk⟩ := hk
  rw [Option.bind_eq_some_iff] at hk
  obtain ⟨file, hfile, hk⟩ := hk
  cases hkind : file.kind with
  | sockUnix k' =>
    rw [hkind] at hk
    cases hk
    exact h.toCounted.sock_of_file hfile hkind
  | _ =>
    rw [hkind] at hk
    cases hk

theorem onSock_returns (h : Good s hand loose []) {call : Nat → M Int}
    {Q : Int → State → Prop} (hnone : ∀ r, Q r s)
    (hcall : ∀ k u, s.sockFd pid fd = some k → s.socks k = some u → k ∉ s.backlogs [] →
      Returns (call k) s Q) : Returns (onSock pid fd call) s Q := by
  rw [onSock, sockFdGet_bind h]
  cases hk : s.sockFd pid fd with
  | none =>
    rw [returns_pure]
    exact hnone _
  | some k =>
    obtain ⟨⟨u, hu⟩, hb⟩ := h.sock_of_fd hk
    exact hcall k u hk hu hb

/-! ## Conditions -/

def State.sockState (s : State) (pid : Nat) (fd : Int) : Option UnixSock :=
  (s.sockFd pid fd).bind s.socks

/-- A message without references, or one that goes to a stream socket that is in no
backlog. -/
def SendOk (s : State) (pid : Nat) (fd : Int) (cmsgs : List Cmsg) : Prop :=
  rightsFds cmsgs = [] ∨
    ∀ u ∈ s.sockState pid fd, ∀ p ∈ u.peer, ∀ v ∈ s.socks p, v.type = .stream ∧ p ∉ s.backlogs []
deriving Decidable

/-- The messages with references that a receive begins to hand out fit one array. -/
def RecvFits (s : State) (pid : Nat) (fd : Int) (lens : List Nat) : Prop :=
  ∀ u ∈ s.sockState pid fd, u.type = .stream → u.finishable lens ≤ unixScmMax
deriving Decidable

/-- They find a free slot each. -/
def RecvRoom (s : State) (pid : Nat) (fd : Int) (lens : List Nat) : Prop :=
  ∀ u ∈ s.sockState pid fd, u.type = .stream → u.finishable lens ≤ s.freeSlots pid
deriving Decidable

/-- The references of messages stay accounted for. -/
def Carried (s : State) : Call → Prop
  | .sendmsg pid fd _ cmsgs => SendOk s pid fd cmsgs
  | .recvmsg pid fd lens _ => RecvFits s pid fd lens
  | _ => True

/-- No reference is lost: `dup` has a slot for the copy, the process that forks has a
table, and messages fit. -/
def Kept (s : State) : Call → Prop
  | .fork parent _ => s.procs parent ≠ none
  | .dup pid fd => s.fileAt pid fd = none ∨ 0 < s.freeSlots pid
  | .sendmsg pid fd _ cmsgs => SendOk s pid fd cmsgs
  | .recvmsg pid fd lens _ => RecvFits s pid fd lens ∧ RecvRoom s pid fd lens
  | _ => True

theorem Kept.carried {call : Call} (h : Kept s call) : Carried s call := by
  cases call with
  | sendmsg pid fd iov cmsgs => exact h
  | recvmsg pid fd lens control => exact h.1
  | _ => trivial

theorem mem_sockState (hk : s.sockFd pid fd = some k) (hu : s.socks k = some u) :
    u ∈ s.sockState pid fd := by
  rw [sockState, hk]
  exact hu

/-! ## Messages of a process -/

structure SameSocks (t s : State) : Prop where
  socks : t.socks = s.socks
  backlogs : t.backlogs [] = s.backlogs []

theorem fileRef_sameSocks (f : Nat) (ht : fileRef f s = some ((), t)) : SameSocks t s := by
  rw [fileRef, get_bind_run] at ht
  cases hf : s.files f with
  | none =>
    rw [hf] at ht
    cases ht
  | some file =>
    rw [hf] at ht
    cases ht
    exact ⟨rfl, rfl⟩

theorem SameSocks.trans {s₁ s₂ s₃ : State} (h : SameSocks s₃ s₂) (h' : SameSocks s₂ s₁) :
    SameSocks s₃ s₁ :=
  ⟨h.socks.trans h'.socks, h.backlogs.trans h'.backlogs⟩

/-- A reference for every descriptor of a message, or none at all. -/
theorem gatherFds_returns (fds : List Int) {got : List Nat} (h : Good s (got ++ hand) loose []) :
    Returns (gatherFds pid got fds) s fun r s' =>
      match r with
      | none => Good s' hand loose []
      | some got' => Good s' (got' ++ hand) loose [] ∧ SameSocks s' s ∧
          (fds = [] → got' = got) := by
  induction fds generalizing s got with
  | nil =>
    rw [gatherFds, returns_pure]
    exact ⟨h, ⟨rfl, rfl⟩, fun _ => rfl⟩
  | cons fd fds ih =>
    rw [gatherFds, fdGetFile_bind h]
    cases hf : s.fileAt pid fd with
    | none =>
      exact (fileCloses_returns got h).last fun _ _ h₁ => h₁.1
    | some f =>
      have hheld := held_pos_of_fileAt h hf
      obtain ⟨a, s₁, hx, hg, _⟩ := fileRef_returns h (f := f) (by omega)
      have hsame := fileRef_sameSocks f hx
      have hstep : Returns (fileRef f) s fun _ t =>
          Good t ((got ++ [f]) ++ hand) loose [] ∧ SameSocks t s := by
        refine ⟨a, s₁, hx, hg.permHand ?_, hsame⟩
        rw [append_assoc]
        exact perm_middle
      apply hstep.bind
      intro _ s₂ h₂
      apply (ih h₂.1).mono
      intro r s₃ h₃
      cases r with
      | none => exact h₃
      | some got' =>
        refine ⟨h₃.1, h₃.2.1.trans h₂.2, ?_⟩
        intro hnil
        cases hnil

theorem scSendmsg_returns (h : Good s hand loose []) (iov : List (List UInt8))
    (cmsgs : List Cmsg) (hok : SendOk s pid fd cmsgs) :
    Returns (scSendmsg pid fd iov cmsgs) s fun _ s' => Good s' hand loose [] := by
  apply onSock_returns h (fun _ => h)
  intro k u hk hu hb
  refine returns_guard (fun _ => h) fun hlen => ?_
  refine (gatherFds_returns (rightsFds cmsgs) h).option (fun _ h₁ => .pure h₁) fun fds s₁ h₁ => ?_
  obtain ⟨hg, hsame, hnil⟩ := h₁
  have hto : fds = [] ∨ CarriesTo s₁ u := by
    rcases hok with hno | hok
    · exact .inl (hnil hno)
    refine .inr ?_
    intro p v hp hv
    rw [hsame.socks] at hv
    rw [hsame.backlogs]
    exact hok u (mem_sockState hk hu) p hp v hv
  apply (unixSendmsg_returns hg (hsame.socks ▸ hu) hto iov).bind
  intro r s₂ h₂
  rcases h₂ with ⟨hneg, hg₂⟩ | ⟨hpos, hg₂⟩
  · rw [if_pos hneg]
    exact (fileCloses_returns fds hg₂).last fun _ _ h₃ => h₃.1
  · rw [if_neg (by omega), returns_pure]
    exact hg₂

/-- Files are installed as long as there are free slots. -/
theorem installFds_returns (fs : List Nat) (h : Good s (fs ++ hand) loose []) :
    Returns (installFds pid fs) s fun _ s' => ∃ lost, Good s' (lost ++ hand) loose [] ∧
      (fs.length ≤ s.freeSlots pid → lost = []) := by
  induction fs generalizing s with
  | nil =>
    rw [installFds, returns_pure]
    exact ⟨[], h, fun _ => rfl⟩
  | cons f fs ih =>
    apply (fdInstall_returns h).bind
    intro fd s₁ h₁
    rcases h₁ with ⟨hneg, he, hfull⟩ | ⟨hpos, hg, hfree⟩
    · rw [if_pos hneg, returns_pure]
      subst he
      refine ⟨f :: fs, h, ?_⟩
      intro hle
      rw [length_cons] at hle
      omega
    rw [if_neg (by omega)]
    refine (ih hg).last fun fds s₂ h₂ => ?_
    obtain ⟨lost, hg₂, hlost⟩ := h₂
    refine ⟨lost, hg₂, ?_⟩
    intro hle
    rw [length_cons] at hle
    exact hlost (by omega)

theorem closeFds_returns (fds : List Int) (h : Good s hand loose []) :
    Returns (closeFds pid fds) s fun _ s' => Good s' hand loose [] := by
  induction fds generalizing s with
  | nil =>
    rw [closeFds, returns_pure]
    exact h
  | cons fd fds ih =>
    apply (fdClose_returns h fd).bind
    intro _ s₁ h₁
    exact ih h₁.1

theorem scRecvmsg_returns (h : Good s hand loose []) (lens : List Nat) (control : Nat)
    (hfits : RecvFits s pid fd lens) :
    Returns (scRecvmsg pid fd lens control) s fun _ s' => ∃ lost,
      Good s' (lost ++ hand) loose [] ∧ (RecvRoom s pid fd lens → lost = []) := by
  apply onSock_returns h (fun _ => ⟨[], h, fun _ => rfl⟩)
  intro k u hk hu hb
  refine returns_guard (fun _ => ⟨[], h, fun _ => rfl⟩) fun hlen => ?_
  have hmem := mem_sockState hk hu
  apply (unixRecvmsg_returns h hu hb lens (hfits u hmem)).bind
  intro r s₁ h₁
  obtain ⟨hsame, hg, hneg, hframed, hcount⟩ := h₁
  by_cases hr : r.1 < 0
  · rw [if_pos hr, returns_pure]
    rw [hneg hr] at hg
    exact ⟨[], hg, fun _ => rfl⟩
  rw [if_neg hr]
  apply (installFds_returns r.2.2 hg).bind
  intro ifds s₂ h₂
  obtain ⟨lost, hg₂, hlost⟩ := h₂
  have hroom : RecvRoom s pid fd lens → lost = [] := by
    intro hroom
    apply hlost
    rw [hsame.freeSlots]
    by_cases htype : u.type = .stream
    · exact Nat.le_trans hcount (hroom u hmem htype)
    · rw [hframed htype]
      exact Nat.zero_le _
  split
  · rw [returns_pure]
    exact ⟨lost, hg₂, hroom⟩
  · exact (closeFds_returns ifds hg₂).last fun _ _ h₃ => ⟨lost, h₃, hroom⟩

/-! ## One call -/

theorem newProcess_returns (h : Good s hand loose []) {fill : M Unit}
    (hfill : child < maxProcesses → s.procs child = none →
      Returns fill s fun _ s' => Good s' hand loose []) :
    Returns (newProcess child fill) s fun _ s' => Good s' hand loose [] := by
  rw [newProcess, returns_get_bind]
  by_cases hfree : freeSlot s child = true
  · rw [if_pos hfree]
    rw [freeSlot, Bool.and_eq_true, decide_eq_true_eq, Option.isNone_iff_eq_none] at hfree
    exact (hfill hfree.1 hfree.2).last fun _ _ h₁ => h₁
  · rw [if_neg hfree, returns_pure]
    exact h

/-- What one call does: it returns, and what it loses is nothing under its
condition. -/
theorem run_returns (call : Call) (h : Good s hand [] []) (hc : Carried s call)
    (hfork : ∀ parent child, call = .fork parent child → s.procs parent ≠ none) :
    Returns call.run s fun _ s' => ∃ lost, Good s' (lost ++ hand) [] [] ∧
      (Kept s call → lost = []) := by
  have hkeep : ∀ {x : M Int}, Returns x s (fun _ s' => Good s' hand [] []) →
      Returns x s fun _ s' => ∃ lost, Good s' (lost ++ hand) [] [] ∧ (Kept s call → lost = []) := by
    intro x hx
    apply hx.mono
    intro _ s' hg
    exact ⟨[], hg, fun _ => rfl⟩
  cases call with
  | spawn pid cleared =>
    apply hkeep
    apply newProcess_returns h
    intro hpid hnone
    apply (fdTableInit_returns h hpid hnone).bind
    intro _ s₁ h₁
    cases cleared with
    | false => exact .pure h₁
    | true =>
      rw [if_pos rfl, returns_modify]
      exact h₁.clearSlot hpid
  | fork parent child =>
    apply hkeep
    exact newProcess_returns h fun hpid hnone =>
      fdTableFork_returns h hpid hnone (hfork parent child rfl)
  | cloneFiles parent child =>
    apply hkeep
    exact newProcess_returns h fun hpid hnone => fdTableShare_returns h hpid hnone
  | exit pid =>
    exact hkeep ((fdTableExit_returns h).last fun _ _ h₁ => h₁)
  | openPath pid entry => exact hkeep (lnxvfsOpen_returns h entry)
  | socket pid domain => exact hkeep (scSocket_returns h domain)
  | socketpair pid type => exact hkeep (scSocketpair_returns h type)
  | bind pid fd addr =>
    exact hkeep (onSock_returns h (fun _ => h) fun _ _ _ hu hb => unixBind_returns h hu hb addr)
  | listen pid fd backlog =>
    exact hkeep (onSock_returns h (fun _ => h) fun _ _ _ hu _ => unixListen_returns h hu backlog)
  | connect pid fd addr =>
    exact hkeep (onSock_returns h (fun _ => h) fun _ _ _ hu _ => unixConnect_returns h hu addr)
  | accept pid fd =>
    apply hkeep
    apply onSock_returns h (fun _ => h)
    intro k u _ hu _
    refine (unixAccept_returns h hu).option (fun s₁ h₁ => ?_)
      fun c _ h₁ => openFile_returns (.sockUnix c) h₁.2
    obtain ⟨⟨u', hu'⟩, hg⟩ := h₁
    rw [sockAt_bind hu', returns_pure]
    exact hg
  | close pid fd =>
    apply hkeep
    apply (fdClose_returns h fd).mono
    intro _ s₁ h₁
    exact h₁.1
  | dup pid fd => exact fdDup_returns h fd
  | dup2 pid fd fd2 => exact hkeep (fdDup2_returns h fd fd2)
  | write pid fd buf =>
    exact hkeep (onSock_returns h (fun _ => h) fun _ _ _ hu _ => unixSend_returns h hu buf)
  | read pid fd len =>
    apply hkeep
    apply onSock_returns h (fun _ => h)
    intro k u _ hu hb
    exact (unixRecv_returns h hu hb len).last fun _ _ h₁ => h₁
  | recvfrom pid fd len =>
    apply hkeep
    apply onSock_returns h (fun _ => h)
    intro k u _ hu hb
    rw [sockAt_bind hu]
    by_cases htype : u.type = .stream
    · rw [if_pos htype]
      exact (unixRecv_returns h hu hb len).last fun _ _ h₁ => h₁
    rw [if_neg htype]
    refine (unixRecvmsg_returns h hu hb [len] fun ht => absurd ht htype).last fun r s₁ h₁ => ?_
    obtain ⟨_, hg, _, hframed, _⟩ := h₁
    rw [hframed htype] at hg
    exact hg
  | sendmsg pid fd iov cmsgs => exact hkeep (scSendmsg_returns h iov cmsgs hc)
  | recvmsg pid fd lens control =>
    apply (scRecvmsg_returns h lens control hc).mono
    intro _ s₁ h₁
    obtain ⟨lost, hg, hlost⟩ := h₁
    exact ⟨lost, hg, fun hkept => hlost hkept.2⟩

theorem kmalloc_bind_run (g : Bool → M β) (s : State) :
    (kmalloc >>= g) s = g (s.mallocs.headD true) { s with mallocs := s.mallocs.tail } := rfl

theorem fdTableFork_fault (hm : s.mallocs.headD true = true)
    (hnone : s.procs parent = none) : fdTableFork parent child s = none := by
  have hpt : procTable parent { s with mallocs := s.mallocs.tail } =
      some (none, { s with mallocs := s.mallocs.tail }) := procTable_of_none hnone
  rw [fdTableFork, kmalloc_bind_run, hm]
  show (procTable parent { s with mallocs := s.mallocs.tail }).bind _ = none
  rw [hpt]
  rfl

/-- A process without a table that is forked: the call has no result, unless it does
nothing. -/
theorem fork_without_table (h : Good s hand [] []) (hnone : s.procs parent = none) {r : Int}
    (ht : Call.run (.fork parent child) s = some (r, t)) : Good t hand [] [] := by
  have hrun : Call.run (.fork parent child) s =
      (if freeSlot s child = true then (do fdTableFork parent child; pure 0) else pure (-1) :
        M Int) s := rfl
  rw [hrun] at ht
  by_cases hfree : freeSlot s child = true
  · rw [if_pos hfree] at ht
    have hbind : (do fdTableFork parent child; pure 0 : M Int) s =
        (fdTableFork parent child s).bind fun q => some ((0 : Int), q.2) := rfl
    rw [hbind] at ht
    by_cases hm : s.mallocs.headD true = true
    · rw [fdTableFork_fault hm hnone] at ht
      cases ht
    · rw [fdTableFork, kmalloc_bind_run, if_neg hm] at ht
      cases ht
      exact h.withMallocs _
  · rw [if_neg hfree] at ht
    cases ht
    exact h

/-! ## Runs -/

def IsRun (ok : State → Action → Prop) : State → Prop :=
  Reach (fun s => s = boot) ok fun s a t => next s a = some t

theorem boot_good : Good boot [] [] [] := by
  refine ⟨⟨⟨fun _ _ => rfl, nofun, fun f _ => ⟨rfl, rfl⟩⟩,
    ⟨fun _ _ => rfl, fun _ _ => rfl, nofun, fun t _ => ?_⟩,
    ⟨fun _ _ => rfl, fun _ => rfl⟩, ⟨nofun, fun n hn i hi => ?_⟩,
    ⟨fun _ => rfl, nofun⟩⟩, ⟨nofun, nofun⟩⟩
  · apply count_eq_zero.mpr
    intro hmem
    obtain ⟨i, _, hi⟩ := mem_gather.mp hmem
    cases hi
  · have hnil := eq_of_mem_replicate hn
    rw [hnil] at hi
    cases hi

theorem next_good (h : Good s hand [] []) (hc : Carried s a.call) (ht : next s a = some t) :
    ∃ lost, Good t (lost ++ hand) [] [] ∧ (Kept s a.call → lost = []) := by
  rw [next, Option.map_eq_some_iff] at ht
  obtain ⟨q, hq, he⟩ := ht
  subst he
  have hm := h.withMallocs a.mallocs
  by_cases hfork : ∀ parent child, a.call = .fork parent child → s.procs parent ≠ none
  · exact (run_returns a.call hm hc hfork).elim hq
  push Not at hfork
  obtain ⟨parent, child, hcall, hnone⟩ := hfork
  rw [hcall] at hq
  exact ⟨[], fork_without_table hm hnone hq, fun _ => rfl⟩

theorem next_isSome (h : Good s hand [] []) (hc : Kept s a.call) : ∃ t, next s a = some t := by
  have hm := h.withMallocs a.mallocs
  obtain ⟨r, t, hq, _⟩ := run_returns a.call hm hc.carried (by
    intro parent child hcall
    rw [hcall] at hc
    exact hc)
  refine ⟨t, ?_⟩
  rw [next, hq]
  rfl

/-- In a run that loses nothing, everything is accounted for and nothing is in
hand. -/
theorem IsRun.good_of_kept (h : IsRun (fun s a => Kept s a.call) s) : Good s [] [] [] := by
  apply Reach.invariant _ _ h
  · intro s hs
    rw [hs]
    exact boot_good
  intro s a t hg hok hst
  obtain ⟨lost, hgood, hlost⟩ := next_good hg hok.carried hst
  rw [hlost hok] at hgood
  exact hgood

/-- In a run whose messages fit, everything is accounted for apart from references
that other calls have lost. -/
theorem IsRun.good_of_carried (h : IsRun (fun s a => Carried s a.call) s) :
    ∃ hand, Good s hand [] [] := by
  apply Reach.invariant _ _ h
  · intro s hs
    rw [hs]
    exact ⟨[], boot_good⟩
  intro s a t hg hok hst
  obtain ⟨hand, hg⟩ := hg
  obtain ⟨lost, hgood, _⟩ := next_good hg hok hst
  exact ⟨_, hgood⟩

end Kil0yOS.Files
