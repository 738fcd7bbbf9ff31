/-
What messages with file references do to the counts.

A send keeps the counts when the message carries no references or goes to a stream
socket that has been accepted, and a receive when the references of the messages it
finishes fit the caller's array and its table.
-/
import Kil0yOS.Files.SockCalls

namespace Kil0yOS.Files

open Lib List Unix

variable {s s' : State} {hand hand' loose : List Nat} {f k c p : Nat}
  {u v : UnixSock}

/-! ## Records -/

def scmTokens (k : Nat) (q : List Scm) : List ScmRef :=
  q.flatMap fun r => r.files.map fun f => { sock := k, off := r.off, file := f }

theorem scmTokens_append (k : Nat) (q q' : List Scm) :
    scmTokens k (q ++ q') = scmTokens k q ++ scmTokens k q' := flatMap_append

theorem scmTokens_file (k : Nat) (q : List Scm) :
    (scmTokens k q).map ScmRef.file = q.flatMap Scm.files :=
  UnixSock.tokens_file { type := .stream, scm := q } k

/-- How many places a receive needs that comes to `pos` when `n` of them are taken.  It begins
no record once all are taken. -/
def filled (pos : Nat) : Nat → List Scm → Nat
  | n, [] => n
  | n, r :: q =>
    if n ≥ unixScmMax ∨ r.off > pos then n else filled pos (n + r.files.length) q

theorem le_filled (pos n : Nat) (q : List Scm) : n ≤ filled pos n q := by
  induction q generalizing n with
  | nil => exact Nat.le_refl n
  | cons r q ih =>
    rw [filled]
    split
    · exact Nat.le_refl n
    · exact Nat.le_trans (Nat.le_add_right ..) (ih _)

theorem filled_mono {pos pos' : Nat} (h : pos ≤ pos') (n : Nat) (q : List Scm) :
    filled pos n q ≤ filled pos' n q := by
  induction q generalizing n with
  | nil => exact Nat.le_refl n
  | cons r q ih =>
    rw [filled]
    split
    · exact le_filled pos' n (r :: q)
    next hgo =>
      rw [filled, if_neg (by omega)]
      exact ih _

/-- What the loop of a receive hands out and leaves: nothing is lost as long as the records it
begins fit. -/
theorem deliver_append (pos k : Nat) (out : List ScmRef) (q : List Scm)
    (hfits : filled pos out.length q ≤ unixScmMax) :
    (deliver pos out k q).1 ++ scmTokens k (deliver pos out k q).2 = out ++ scmTokens k q ∧
      (deliver pos out k q).1.length = filled pos out.length q := by
  induction q generalizing out with
  | nil => exact ⟨rfl, rfl⟩
  | cons r q ih =>
    rw [filled] at hfits ⊢
    rw [deliver]
    split
    next hfull => exact ⟨rfl, (if_pos (.inl hfull)).symm⟩
    next hfull =>
    split
    next hoff => exact ⟨rfl, (if_pos (.inr hoff)).symm⟩
    next hoff =>
    rw [if_neg (by omega)] at hfits ⊢
    have hroom := Nat.le_trans (le_filled ..) hfits
    rw [take_of_length_le (show r.files.length ≤ unixScmMax - out.length by omega)]
    have h := ih (out ++ r.files.map fun f => { sock := k, off := r.off, file := f })
    rw [length_append, length_map] at h
    obtain ⟨happ, hlen⟩ := h hfits
    exact ⟨happ.trans (append_assoc ..), hlen⟩

/-- References are handed out only when their message has been read. -/
theorem deliver_off (pos k : Nat) (out : List ScmRef) (q : List Scm)
    (hout : ∀ r ∈ out, r.off ≤ pos) : ∀ r ∈ (deliver pos out k q).1, r.off ≤ pos := by
  induction q generalizing out with
  | nil => exact hout
  | cons r q ih =>
    rw [deliver]
    split
    · exact hout
    split
    · exact hout
    rename_i hoff
    apply ih
    intro r' hr'
    rcases mem_append.mp hr' with hr' | hr'
    · exact hout r' hr'
    · obtain ⟨f, _, he⟩ := mem_map.mp hr'
      rw [← he]
      exact Nat.le_of_not_lt hoff

section

variable (h : Good s hand loose [])
include h

theorem Good.setRecords {handed released : List ScmRef} {delivered : List (ScmRef × Nat)}
    (hu : s.socks k = some u) (hb : k ∉ s.backlogs []) (rx : Rx) (q : List Scm)
    (hbal : ∀ f, (q.flatMap Scm.files).count f + hand'.count f =
      (u.scm.flatMap Scm.files).count f + hand.count f)
    (hrec : ∀ r, handed.count r + (scmTokens k u.scm).count r +
      (s.delivered.map Prod.fst).count r + s.released.count r = s.handed.count r +
        (scmTokens k q).count r + (delivered.map Prod.fst).count r + released.count r)
    (htime : ∀ d ∈ delivered, d ∈ s.delivered ∨ d.1.off ≤ d.2) :
    Good { s.putSock k { u with rx := rx, scm := q } with
      handed := handed, delivered := delivered, released := released } hand' loose [] := by
  have hbl : (s.putSock k { u with rx := rx, scm := q }).backlogs [] = s.backlogs [] :=
    backlogs_putSock hu rfl
  have hpeers : Peers (s.putSock k { u with rx := rx, scm := q }) [] :=
    h.peers.setSock hu rfl id
  refine ⟨h.toCounted.setSock hu hbal hrec htime (fun c => by rw [hbl])
    (fun hmem => absurd hmem hb) (fun c hc => .inl hc),
    { hpeers with }⟩

/-! ## Streams -/

theorem unixSend_returns (hk : s.socks k = some u)
    (buf : List UInt8) : Returns (unixSend k buf) s fun _ s' => Good s' hand loose [] := by
  rw [unixSend, sockAt_bind hk]
  refine returns_guard (fun _ => h) fun hstate => ?_
  cases hp : u.peer with
  | none =>
    exact .pure h
  | some p =>
    obtain ⟨_, v, hv, _⟩ := h.peers.pointsBack k u p hk hp not_mem_nil
    rw [sockAt_bind hv]
    refine returns_guard (fun _ => h) fun hspace => ?_
    rw [setSock, returns_modify_bind, returns_pure]
    exact h.putSame hv rfl rfl rfl rfl

theorem unixRecv_returns (hk : s.socks k = some u)
    (hb : k ∉ s.backlogs []) (len : Nat) :
    Returns (unixRecv k len) s fun _ s' => Good s' hand loose [] := by
  rw [unixRecv, sockAt_bind hk]
  refine returns_guard (fun _ => h) fun htype => ?_
  by_cases hused : u.rx.ringUsed = 0
  · rw [if_pos hused]
    split <;> exact .pure h
  rw [if_neg hused]
  generalize u.rx.ringRead (min u.rx.ringUsed (len % 2 ^ 32)) = r
  simp only [setSock]
  rw [returns_modify_bind, returns_modify_bind]
  have hsplit : (splitScm r.2.ring.read u.scm).1 ++ (splitScm r.2.ring.read u.scm).2 = u.scm :=
    takeWhile_append_dropWhile
  generalize splitScm r.2.ring.read u.scm = q at hsplit
  -- the finished records go from the queue into the hand
  have hg : Good { s.putSock k { u with rx := r.2, scm := q.2 } with
      released := scmTokens k q.1 ++ s.released } (q.1.flatMap Scm.files ++ hand) loose [] := by
    refine h.setRecords hk hb _ _ (fun f => ?_) (fun x => ?_) (fun d hd => .inl hd)
    · rw [← hsplit, flatMap_append, count_append, count_append]
      omega
    · rw [← hsplit, scmTokens_append]
      simp only [State.putSock, count_append]
      omega
  exact (fileCloses_returns _ hg).last fun _ _ h₁ => h₁.1

end

/-! ## Messages -/

def CarriesTo (s : State) (u : UnixSock) : Prop :=
  ∀ p v, u.peer = some p → s.socks p = some v → v.type = .stream ∧ p ∉ s.backlogs []

/-- A send takes over the references exactly when it succeeds. -/
theorem unixSendmsg_returns {fds : List Nat} (h : Good s (fds ++ hand) loose [])
    (hk : s.socks k = some u) (hto : fds = [] ∨ CarriesTo s u) (iov : List (List UInt8)) :
    Returns (unixSendmsg k iov fds) s fun r s' =>
      (r < 0 ∧ Good s' (fds ++ hand) loose []) ∨ (0 ≤ r ∧ Good s' hand loose []) := by
  rw [unixSendmsg, sockAt_bind hk]
  refine returns_guard (fun _ => .inl ⟨by decide, h⟩) fun hstate => ?_
  cases hp : u.peer with
  | none =>
    rw [returns_pure]
    exact .inl ⟨by decide, h⟩
  | some p =>
    obtain ⟨_, v, hv, _⟩ := h.peers.pointsBack k u p hk hp not_mem_nil
    rw [sockAt_bind hv]
    simp only [setSock]
    refine returns_guard (fun _ => .inl ⟨by decide, h⟩) fun hbig => ?_
    by_cases htype : v.type = .stream
    · rw [if_pos htype]
      refine returns_guard (fun _ => .inl ⟨by decide, h⟩) fun hspace => ?_
      rw [returns_modify_bind]
      generalize v.rx.ringWrite iov.flatten = rx
      by_cases hnil : fds = []
      · rw [if_pos hnil, returns_modify_bind, returns_pure]
        subst hnil
        exact .inr ⟨Int.natCast_nonneg _, h.putSame hv rfl rfl rfl rfl⟩
      rw [if_neg hnil]
      have hpb := (hto.resolve_left hnil p v hp hv).2
      by_cases hfull : v.scm.length ≥ unixScmQlen
      · rw [if_pos hfull, returns_modify_bind, returns_modify_bind]
        -- a full queue: handed over and released at once
        have hg : Good { s.putSock p { v with rx := rx } with
              handed := (fds.map fun f => ⟨p, rx.ring.written, f⟩) ++ s.handed
              released := (fds.map fun f => ⟨p, rx.ring.written, f⟩) ++ s.released }
            (fds ++ hand) loose [] := by
          refine h.setRecords hv hpb rx v.scm (fun _ => rfl) (fun x => ?_) (fun d hd => .inl hd)
          simp only [State.putSock, count_append]
          omega
        exact (fileCloses_returns fds hg).last fun _ _ h₁ => .inr ⟨Int.natCast_nonneg _, h₁.1⟩
      · rw [if_neg hfull, returns_modify_bind, returns_pure]
        refine .inr ⟨Int.natCast_nonneg _, h.setRecords hv hpb rx _ (fun f => ?_)
          (fun x => ?_) (fun d hd => .inl hd)⟩
        · simp only [flatMap_append, count_append, flatMap_cons, flatMap_nil, append_nil]
          omega
        simp only [scmTokens_append, count_append]
        have hone : scmTokens p [{ off := rx.ring.written, files := fds }] =
            fds.map fun f => ⟨p, rx.ring.written, f⟩ := by
          simp [scmTokens]
        rw [hone]
        omega
    · rw [if_neg htype]
      have hnil : fds = [] := by
        rcases hto with hnil | hto
        · exact hnil
        · exact absurd (hto p v hp hv).1 htype
      subst hnil
      refine returns_guard (fun _ => .inl ⟨by decide, h⟩) fun hbig' => ?_
      refine returns_guard (fun _ => .inl ⟨by decide, h⟩) fun hspace => ?_
      rw [returns_modify_bind, returns_modify_bind, returns_pure]
      exact .inr ⟨Int.natCast_nonneg _, h.putSame hv rfl rfl rfl rfl⟩

/-- The places that a receive into these buffers may need. -/
def UnixSock.finishable (u : UnixSock) (lens : List Nat) : Nat :=
  filled (u.rx.ring.read + min u.rx.ringUsed lens.sum) 0 u.scm

theorem unixRecvmsg_returns (h : Good s hand loose []) (hk : s.socks k = some u)
    (hb : k ∉ s.backlogs []) (lens : List Nat)
    (hfits : u.type = .stream → u.finishable lens ≤ unixScmMax) :
    Returns (unixRecvmsg k lens) s fun r s' => SameTables s' s ∧
      Good s' (r.2.2 ++ hand) loose [] ∧ (r.1 < 0 → r.2.2 = []) ∧
        (u.type ≠ .stream → r.2.2 = []) ∧ r.2.2.length ≤ u.finishable lens := by
  rw [unixRecvmsg, sockAt_bind hk]
  by_cases htype : u.type = .stream
  · rw [if_pos htype]
    by_cases hused : u.rx.ringUsed = 0
    · rw [if_pos hused]
      split <;> exact .pure ⟨.refl s, h, fun _ => rfl, fun _ => rfl, Nat.zero_le _⟩
    rw [if_neg hused]
    have hpos := read_readIov lens u.rx
    generalize u.rx.readIov lens = r at hpos ⊢
    simp only [setSock]
    have hlen : filled r.2.ring.read 0 u.scm ≤ u.finishable lens := filled_mono hpos 0 u.scm
    obtain ⟨hall, hcount⟩ :=
      deliver_append r.2.ring.read k [] u.scm (Nat.le_trans hlen (hfits htype))
    have htime := deliver_off r.2.ring.read k [] u.scm (by simp)
    generalize deliver r.2.ring.read [] k u.scm = d at hall hcount htime ⊢
    rw [nil_append] at hall
    rw [returns_modify_bind, returns_modify_bind, returns_pure]
    have hfiles : d.1.map ScmRef.file ++ d.2.flatMap Scm.files = u.scm.flatMap Scm.files := by
      rw [← scmTokens_file k d.2, ← map_append, hall, scmTokens_file]
    refine ⟨⟨rfl, rfl, rfl⟩, ?_, ?_, fun hn => absurd htype hn, ?_⟩
    · refine h.setRecords hk hb r.2 _ (fun f => ?_) (fun x => ?_) (fun e he => ?_)
      · rw [← hfiles, count_append, count_append]
        simp only
        omega
      · rw [← hall]
        have hfst : ((d.1.map fun ref => (ref, r.2.ring.read)).map Prod.fst) = d.1 := by
          rw [map_map]
          exact map_id _
        simp only [State.putSock, map_append, hfst, count_append]
        omega
      · rcases mem_append.mp he with he | he
        · obtain ⟨ref, hmem, heq⟩ := mem_map.mp he
          rw [← heq]
          exact .inr (htime ref hmem)
        · exact .inl he
    · intro hneg
      exact absurd hneg (Int.not_lt.mpr (Int.natCast_nonneg _))
    · rw [length_map]
      exact hcount.trans_le hlen
  · rw [if_neg htype]
    have hsilent := And.intro (fun _ : u.type ≠ .stream => (rfl : ([] : List Nat) = []))
      (Nat.zero_le (u.finishable lens))
    refine returns_guard (fun _ => ⟨.refl s, h, fun _ => rfl, hsilent⟩) fun _ => ?_
    refine returns_guard (fun _ => ⟨.refl s, h, fun _ => rfl, hsilent⟩) fun _ => ?_
    refine kmalloc_guard (fun m => ⟨⟨rfl, rfl, rfl⟩, h.withMallocs m, fun _ => rfl,
      fun _ => rfl, Nat.zero_le _⟩) fun m => ?_
    have hm := h.withMallocs m
    simp only [setSock]
    rw [returns_modify_bind, returns_pure]
    exact ⟨⟨rfl, rfl, rfl⟩, hm.putSame hk rfl rfl rfl rfl, fun _ => rfl, fun _ => rfl,
      Nat.zero_le _⟩

end Kil0yOS.Files
