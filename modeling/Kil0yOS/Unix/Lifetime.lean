/-
The pointers that `AF_UNIX` sockets keep lead to sockets that are there.

For peers, names and backlogs this is so in every run.  The sender in a queued record is
another matter: closing a socket removes it from the buffer of its peer only.
-/
import Kil0yOS.Unix.Framing

namespace Kil0yOS.Unix.System

/-- Peers point at each other, and the bind table and the backlogs at sockets that are there. -/
structure Linked (s : System) : Prop where
  running : s.faulted = false
  peers : ∀ k u, s.st.socks k = some u → u.peer ≠ 0 → ∃ v, s.st.socks u.peer = some v ∧ v.peer = k
  bound : ∀ addr k, some (addr, k) ∈ s.st.bindTab → ∃ u, s.st.socks k = some u
  queued : ∀ k u, s.st.socks k = some u → ∀ c ∈ u.pend, ∃ v, s.st.socks c = some v

/-- The senders in queued records are there. -/
def SendersThere (s : System) : Prop :=
  ∀ k u, s.st.socks k = some u → ∀ h ∈ u.rx.headers, h.src = 0 ∨ ∃ v, s.st.socks h.src = some v

variable {s : System} {fmt tracked : Prop}

theorem Inv.linked (h : s.Inv fmt tracked) : s.Linked := by
  obtain ⟨Q, hQ⟩ := h.sound
  refine ⟨h.running, fun k u hu hpeer => ?_, fun addr k hmem => ?_, fun k u hu c hc => ?_⟩
  · obtain ⟨v, hv⟩ := hQ.peer hu (hQ.ne_null hu) hpeer
    exact ⟨v, hv, hQ.peer_back hu hv hpeer⟩
  · exact hQ.filed ((Unix.Sane.placed hQ).bound addr k hmem)
  have hpend : u.pend = Q k := (Unix.Sane.fits hQ k u.link (hQ.ne_null hu) (State.links_of_socks hu)).1
  obtain ⟨x, hx⟩ := mem_there.mp ((Unix.Sane.placed hQ).waits k c (hpend ▸ hc)).2.2.1
  obtain ⟨v, hv, -⟩ := State.socks_of_links hx
  exact ⟨v, hv⟩

theorem Inv.sendersThere (h : s.Inv True True) : s.SendersThere := by
  intro k u hu hd hmem
  obtain ⟨hstream, hframed⟩ := h.right trivial k u.box (State.boxes_of_socks hu)
  by_cases ht : u.type = .stream
  · have hcount : u.rx.msgCnt = 0 := (hstream ht).count
    rw [Rx.headers, hcount] at hmem
    cases hmem
  obtain ⟨ms, hms, -, hsrc⟩ := hframed ht
  have hheaders : u.rx.headers = ms.map Msg.hdr := hms.headers
  rw [hheaders] at hmem
  obtain ⟨m, hm, rfl⟩ := List.mem_map.mp hmem
  obtain ⟨Q, hQ⟩ := h.sound
  exact (hsrc trivial m hm).imp_right fun hfile => hQ.filed hfile

/-- Peers, names and backlogs are right in every run.  In a run in which what is sent has the
format of the socket that it goes to, and no socket is closed whose messages wait elsewhere
than at its peer, so are the senders in queued records. -/
theorem pointers_live (s : System) :
    (Lib.Reach Init (fun _ _ => True) (fun s op t => t = s.step op) s → s.Linked) ∧
      (Lib.Reach Init (fun s op => s.Formatted op ∧ s.LeavesNoSender op)
        (fun s op t => t = s.step op) s → s.Linked ∧ s.SendersThere) := by
  constructor
  · intro h
    refine (Lib.Reach.invariant (I := Inv False False) (fun s hs => inv_init hs) ?_ h).linked
    intro s op t hs _ ht
    rw [ht]
    exact hs.step False.elim False.elim
  intro h
  have hinv : s.Inv True True := by
    refine Lib.Reach.invariant (I := Inv True True) (fun s hs => inv_init hs) ?_ h
    intro s op t hs hok ht
    rw [ht]
    exact hs.step (fun _ => hok.1) fun _ => hok.2
  exact ⟨hinv.linked, hinv.sendersThere⟩

/-- A record waits at the peer when its sender is closed. -/
def sendToPeer : List Op :=
  [.socketpair .dgram (some 1) (some 2) true, .sendmsg 1 [[7]], .close 1]

theorem pointers_live_sendToPeer : (sendToPeer.foldl System.step start).Linked ∧
    (sendToPeer.foldl System.step start).SendersThere := by
  apply (pointers_live _).2
  refine .foldl (P := fun s op => s.Formatted op ∧ s.LeavesNoSender op) (fun s op hok => ?_)
    (.start start_init) _ ?_
  · exact ⟨hok, rfl⟩
  refine ⟨⟨trivial, trivial⟩, ⟨trivial, trivial⟩,
    ⟨trivial, fun u hu j v hv hj _ hpeer => ?_⟩, trivial⟩
  cases hu
  rcases j with _ | _ | _ | j
  · cases hv
  · exact absurd rfl hj
  · exact absurd rfl hpeer
  · cases hv

/-- Two datagram sockets; the first sends to the name of the second and is closed. -/
def sendAndClose : List Op :=
  [.socket .dgram (some 1) true, .socket .dgram (some 2) true, .bind 2 ⟨false, [47]⟩,
    .sendto 1 [7] (some ⟨false, [47]⟩), .close 1]

/-- The record in the buffer of the second socket then has a dangling sender. -/
theorem sender_dangles : start.Init ∧ ¬ (sendAndClose.foldl System.step start).SendersThere := by
  refine ⟨start_init, fun h => ?_⟩
  obtain ⟨u, hu⟩ : ∃ u, (sendAndClose.foldl System.step start).st.socks 2 = some u := ⟨_, rfl⟩
  have hsrc : ∃ hd ∈ u.rx.headers, hd.src = 1 := by
    cases hu
    exact ⟨_, List.mem_cons_self, by decide +kernel⟩
  obtain ⟨hd, hmem, hone⟩ := hsrc
  rcases h 2 u hu hd hmem with hzero | ⟨v, hv⟩
  · rw [hone] at hzero
    exact absurd hzero (by decide)
  · rw [hone] at hv
    cases hv

end Kil0yOS.Unix.System
