/-
Reference counts of open files over any run of calls.

The counts are exact in every run in which `dup` finds a free slot, a process that
forks has a table, messages with references go to accepted stream sockets, and the
references a receive can finish fit its array and the table of the caller.  A `dup`
on a full table is enough to break them.
-/
import Kil0yOS.Files.Runs

namespace Kil0yOS.Files

/-- The count of every file object is the number of pairs of a table and a slot that
point to it and of its references in messages on their way, and the backend of a
file was closed once when no reference was left, and not before. -/
structure RefCountsExact (s : State) : Prop where
  counts : ∀ f file, s.files f = some file →
    file.refs = ((s.slotRefs.count f + (s.queued.map ScmRef.file).count f : Nat) : Int)
  closed : ∀ f, f < s.nextFile →
    (s.closes.count f = 1 ∧ s.files f = none ∧
        s.slotRefs.count f + (s.queued.map ScmRef.file).count f = 0) ∨
      (s.closes.count f = 0 ∧ (s.files f).isSome ∧
        0 < s.slotRefs.count f + (s.queued.map ScmRef.file).count f)

variable {s : State}

theorem Good.refCountsExact (h : Good s [] [] []) : RefCountsExact s := by
  constructor
  · intro f file hf
    exact (h.files.live f file hf).1
  intro f hlt
  cases hf : s.files f with
  | none =>
    have hdead := h.files.dead f hf
    rw [if_pos hlt] at hdead
    exact .inl ⟨hdead.2, rfl, hdead.1⟩
  | some file =>
    have hlive := h.files.live f file hf
    exact .inr ⟨hlive.2.2, rfl, hlive.2.1⟩

/-- Every run that meets the condition has exact counts in every state it reaches,
and the next call that meets it comes to an end. -/
theorem ref_counts_exact (h : IsRun (fun s a => Kept s a.call) s) :
    RefCountsExact s ∧ ∀ a : Action, Kept s a.call → ∃ t, next s a = some t :=
  ⟨h.good_of_kept.refCountsExact, fun _ hok => next_isSome h.good_of_kept hok⟩

/-! ## Fixed runs -/

def play (acts : List Action) : State := acts.foldl (fun s a => (next s a).getD s) State.boot

theorem isRun_play {ok : State → Action → Prop} (acts : List Action)
    (h : Lib.Along (fun s a => ok s a ∧ (next s a).isSome = true)
      (fun s a => (next s a).getD s) State.boot acts) : IsRun ok (play acts) := by
  have hstart : IsRun ok State.boot := .start rfl
  apply Lib.Reach.foldl _ hstart acts h
  intro s a hstep
  obtain ⟨t, ht⟩ := Option.isSome_iff_exists.mp hstep.2
  refine ⟨hstep.1, ?_⟩
  simp [ht]

instance (s : State) : (call : Call) → Decidable (Carried s call)
  | .sendmsg pid fd _ cmsgs => inferInstanceAs (Decidable (SendOk s pid fd cmsgs))
  | .recvmsg pid fd lens _ => inferInstanceAs (Decidable (RecvFits s pid fd lens))
  | .spawn _ _ | .fork _ _ | .cloneFiles _ _ | .exit _ | .openPath _ _ | .socket _ _
  | .socketpair _ _ | .bind _ _ _ | .listen _ _ _ | .connect _ _ _ | .accept _ _ | .close _ _
  | .dup _ _ | .dup2 _ _ _ | .write _ _ _ | .read _ _ _ | .recvfrom _ _ _ => isTrue trivial

instance (s : State) : (call : Call) → Decidable (Kept s call)
  | .fork parent _ => inferInstanceAs (Decidable (s.procs parent ≠ none))
  | .dup pid fd => inferInstanceAs (Decidable (s.fileAt pid fd = none ∨ 0 < s.freeSlots pid))
  | .sendmsg pid fd _ cmsgs => inferInstanceAs (Decidable (SendOk s pid fd cmsgs))
  | .recvmsg pid fd lens _ =>
    inferInstanceAs (Decidable (RecvFits s pid fd lens ∧ RecvRoom s pid fd lens))
  | .spawn _ _ | .cloneFiles _ _ | .exit _ | .openPath _ _ | .socket _ _
  | .socketpair _ _ | .bind _ _ _ | .listen _ _ _ | .connect _ _ _ | .accept _ _ | .close _ _
  | .dup2 _ _ _ | .write _ _ _ | .read _ _ _ | .recvfrom _ _ _ => isTrue trivial

/-- A file is opened, passed over a pair of sockets to a forked process, and the
first process ends. -/
def passAndExit : List Action :=
  [⟨.spawn 1 false, []⟩, ⟨.socketpair 1 .stream, []⟩, ⟨.openPath 1 (.ok 10), []⟩, ⟨.dup 1 5, []⟩,
    ⟨.fork 1 2, []⟩, ⟨.sendmsg 1 3 [[1, 2]] [⟨1, 1, [5]⟩], []⟩, ⟨.close 2 5, []⟩,
    ⟨.recvmsg 2 4 [2] 100, []⟩, ⟨.exit 1, []⟩]

theorem ref_counts_exact_passAndExit :
    IsRun (fun s a => Kept s a.call) (play passAndExit) ∧ RefCountsExact (play passAndExit) := by
  have hrun : IsRun (fun s a => Kept s a.call) (play passAndExit) :=
    isRun_play passAndExit (by decide +kernel)
  exact ⟨hrun, (ref_counts_exact hrun).1⟩

/-- The slots of a process are filled with copies of its console, and one more copy
is asked for. -/
def dupFull : List Action :=
  ⟨.spawn 1 false, []⟩ :: List.replicate 62 ⟨.dup 1 0, []⟩

/-- The last copy fails, and the count of the file is one too high. -/
theorem dup_full_table_leaks :
    IsRun (fun _ _ => True) (play dupFull) ∧ ¬ RefCountsExact (play dupFull) := by
  constructor
  · exact isRun_play dupFull (by decide +kernel)
  intro h
  have hrefs : ((play dupFull).files 0).map File.refs = some 63 := by decide +kernel
  have hheld : (play dupFull).slotRefs.count 0 +
      ((play dupFull).queued.map ScmRef.file).count 0 = 62 := by decide +kernel
  obtain ⟨file, hfile, hr⟩ := Option.map_eq_some_iff.mp hrefs
  have hcount := h.counts 0 file hfile
  rw [hr, hheld] at hcount
  exact absurd hcount (by decide)

/-! ## Where the references of `SCM_RIGHTS` messages go

In every run in which messages with references go to accepted stream sockets and the
references a receive can finish fit its array, a reference handed to a send is on its
way, was delivered after its message had been read, or was released.  A framed socket
takes a message and forgets its references.
-/

/-- Every reference handed to a send is in one place. -/
structure ScmConserved (s : State) : Prop extends Conserved s where
  /-- With its socket gone, a reference is on its way no more. -/
  settled : ∀ r, s.socks r.sock = none →
    s.handed.count r = (s.delivered.map Prod.fst).count r + s.released.count r

variable {s : State} {hand : List Nat}

/-- What is on its way is queued on the socket it was sent to. -/
theorem queued_sock {r : ScmRef} (h : r ∈ s.queued) : s.socks r.sock ≠ none := by
  obtain ⟨k, _, hk⟩ := Lib.mem_gather.mp h
  rw [State.tokensOf] at hk
  cases hu : s.socks k with
  | none =>
    rw [hu] at hk
    cases hk
  | some u =>
    rw [hu] at hk
    obtain ⟨rec, _, hrec⟩ := List.mem_flatMap.mp hk
    obtain ⟨f, _, he⟩ := List.mem_map.mp hrec
    rw [← he]
    intro hnone
    rw [hu] at hnone
    cases hnone

theorem Good.scmConserved (h : Good s hand [] []) : ScmConserved s := by
  refine ⟨h.scm, ?_⟩
  intro r hr
  have hzero : s.queued.count r = 0 := by
    apply List.count_eq_zero.mpr
    intro hmem
    exact queued_sock hmem hr
  simp [h.scm.balance r, hzero]

/-- In every run that meets the condition, no reference of a message is lost. -/
theorem scm_conserved (h : IsRun (fun s a => Carried s a.call) s) : ScmConserved s := by
  obtain ⟨hand, hg⟩ := h.good_of_carried
  exact hg.scmConserved

def sendTwice : List Action :=
  [⟨.spawn 1 false, []⟩, ⟨.socketpair 1 .stream, []⟩, ⟨.sendmsg 1 3 [[1, 2]] [⟨1, 1, [0]⟩], []⟩,
    ⟨.sendmsg 1 3 [[3]] [⟨1, 1, [1]⟩], []⟩, ⟨.recvmsg 1 4 [2] 100, []⟩]

theorem scm_conserved_sendTwice :
    IsRun (fun s a => Carried s a.call) (play sendTwice) ∧ ScmConserved (play sendTwice) := by
  have hrun : IsRun (fun s a => Carried s a.call) (play sendTwice) :=
    isRun_play sendTwice (by decide +kernel)
  exact ⟨hrun, scm_conserved hrun⟩

def sendFramed : List Action :=
  [⟨.spawn 1 false, []⟩, ⟨.socketpair 1 .dgram, []⟩, ⟨.sendmsg 1 3 [[1, 2]] [⟨1, 1, [0]⟩], []⟩]

/-- The send succeeds, and the reference is nowhere. -/
theorem framed_send_loses_reference :
    IsRun (fun _ _ => True) (play sendFramed) ∧ ¬ ScmConserved (play sendFramed) := by
  constructor
  · exact isRun_play sendFramed (by decide +kernel)
  intro h
  have hb := h.balance { sock := 1, off := 18, file := 0 }
  revert hb
  decide +kernel

end Kil0yOS.Files
