/-
The invariant of the sending side.

What is behind the last acknowledged byte is either the chunk in the retransmit slot or
the FIN.  A received segment leaves the sender alone, or retires everything sent.
-/
import Kil0yOS.Lib.Serial
import Kil0yOS.Net.TcpSendSystem

namespace Kil0yOS.Net

open List hiding length
open Lib SendSystem

variable {i : Fin tcpMaxSockets}
variable {extra : List SendObservation} {payload : List UInt8} {k : Nat} {r : SendStep}
variable {hd : TcpHeader} {sock : TcpSocket}

/-! ## What a received segment does to the sender -/

/-- The states in which `tcp_receive` looks at acknowledgements. -/
def TcpState.takesAcks : TcpState → Bool
  | .established | .finWait1 | .finWait2 | .closing => true
  | _ => false

/-- The socket's fields that the sender reads are the same, and no acknowledgement is
taken that was not taken before. -/
structure SameSender (sock sock' : TcpSocket) : Prop where
  iss : sock'.iss = sock.iss
  sndUna : sock'.sndUna = sock.sndUna
  sndNxt : sock'.sndNxt = sock.sndNxt
  txLen : sock'.txLen = sock.txLen
  used : sock.used = false → sock'.used = false
  synSent : sock.state ≠ .synSent → sock'.state ≠ .synSent
  takesAcks : sock'.state.takesAcks → sock.state.takesAcks

namespace SameSender

variable {sock sock' sock'' : TcpSocket}

theorem refl (sock : TcpSocket) : SameSender sock sock := ⟨rfl, rfl, rfl, rfl, id, id, id⟩

theorem trans (h : SameSender sock sock') (h' : SameSender sock' sock'') : SameSender sock sock'' :=
  ⟨h'.iss.trans h.iss, h'.sndUna.trans h.sndUna, h'.sndNxt.trans h.sndNxt,
    h'.txLen.trans h.txLen, fun hs => h'.used (h.used hs), fun hs => h'.synSent (h.synSent hs),
    fun hs => h.takesAcks (h'.takesAcks hs)⟩

theorem closed (sock : TcpSocket) : SameSender sock { sock with state := .closed } :=
  ⟨rfl, rfl, rfl, rfl, id, fun _ h => (by cases h), fun h => (by cases h)⟩

theorem inOrderData (sock : TcpSocket) (seq : UInt32) (payload : List UInt8) :
    SameSender sock (tcpInOrderData sock seq payload).1 := by
  unfold tcpInOrderData tcpRxPush
  split
  · split <;> exact ⟨rfl, rfl, rfl, rfl, id, id, id⟩
  · exact refl sock

theorem processFin (sock : TcpSocket) (flags : UInt8) (seq : UInt32) (len : Nat) :
    SameSender sock (tcpProcessFin sock flags seq len).1 := by
  unfold tcpProcessFin
  split
  · refine ⟨rfl, rfl, rfl, rfl, id, ?_, ?_⟩ <;> cases sock.state <;> simp [TcpState.takesAcks]
  · exact refl sock

theorem finAcked (sock : TcpSocket) : SameSender sock (tcpFinAcked sock) := by
  have hmove (sock : TcpSocket) (p : Prop) [Decidable p] (state : TcpState)
      (hstate : state ≠ .synSent) (hacks : p → state.takesAcks → sock.state.takesAcks) :
      SameSender sock (if p then { sock with state := state } else sock) := by
    split
    next hp => exact ⟨rfl, rfl, rfl, rfl, id, fun _ => hstate, hacks hp⟩
    next => exact refl sock
  exact (hmove sock _ .finWait2 (by decide) (fun hp _ => by rw [hp.1]; rfl)).trans
    (hmove _ _ .timeWait (by decide) nofun)

end SameSender

/-- The socket once the acknowledgement of a segment has been looked at. -/
def TcpSocket.afterAck (sock : TcpSocket) (h : TcpHeader) : TcpSocket :=
  if sock.state.takesAcks ∧ h.flags &&& tcpFlagRst = 0 then tcpProcessAck sock h.flags h.ack
  else sock

/-- The rest of a segment does not matter to the sender. -/
theorem tcpSegmentArrives_sender (sock : TcpSocket) (h : TcpHeader) (payload : List UInt8)
    (hsyn : sock.state ≠ .synSent) :
    SameSender (sock.afterAck h) (tcpSegmentArrives sock h payload).1 := by
  by_cases hrst : h.flags &&& tcpFlagRst = 0
  · have hacks (hs : sock.state.takesAcks) :
        SameSender (sock.afterAck h) (tcpFinAcked (tcpProcessFin (tcpInOrderData
          (tcpProcessAck sock h.flags h.ack) h.seq payload).1 h.flags h.seq payload.length).1) := by
      unfold TcpSocket.afterAck
      rw [if_pos ⟨hs, hrst⟩]
      exact ((SameSender.inOrderData _ _ _).trans (.processFin _ _ _ _)).trans (.finAcked _)
    have hno (hs : ¬ sock.state.takesAcks) : sock.afterAck h = sock := if_neg fun h => hs h.1
    unfold tcpSegmentArrives
    rw [if_neg (fun hne => hne hrst)]
    cases hst : sock.state with
    | synSent => exact absurd hst hsyn
    | established | finWait1 | finWait2 | closing => exact hacks (by rw [hst]; rfl)
    | closed | closeWait =>
      rw [hno (by rw [hst]; decide)]
      exact .refl sock
    | lastAck | timeWait =>
      rw [hno (by rw [hst]; decide)]
      dsimp only
      split
      · first | exact .closed sock | exact .refl sock
      · exact .refl sock
  · unfold tcpSegmentArrives TcpSocket.afterAck
    rw [if_pos hrst, if_neg (fun h => hrst h.2)]
    exact .closed sock

theorem of_mem_transmit {seq : UInt32} {flags : UInt8} {seg : TcpSegment}
    (h : seg ∈ tcpTransmitSeg sock seq flags payload) :
    seg.seq = seq ∧ seg.flags = flags ∧ seg.payload = payload := by
  unfold tcpTransmitSeg at h
  split at h
  · cases h
  · rw [mem_singleton.mp h]
    exact ⟨rfl, rfl, rfl⟩

/-- What the receive path transmits carries no byte and no FIN. -/
theorem tcpSegmentArrives_segs (sock : TcpSocket) (h : TcpHeader) (payload : List UInt8) :
    ∀ seg ∈ (tcpSegmentArrives sock h payload).2, seg.flags = tcpFlagAck ∧ seg.payload = [] := by
  have hack {sock : TcpSocket} {seq : UInt32} :
      ∀ seg ∈ tcpTransmitSeg sock seq tcpFlagAck [], seg.flags = tcpFlagAck ∧ seg.payload = [] :=
    fun seg hseg => (of_mem_transmit hseg).2
  have hnone : ∀ seg ∈ ([] : List TcpSegment), seg.flags = tcpFlagAck ∧ seg.payload = [] :=
    nofun
  have hdata (sock : TcpSocket) : ∀ seg ∈ (tcpInOrderData sock h.seq payload).2,
      seg.flags = tcpFlagAck ∧ seg.payload = [] := by
    unfold tcpInOrderData
    split
    · exact hack
    · exact hnone
  have hfin (sock : TcpSocket) : ∀ seg ∈ (tcpProcessFin sock h.flags h.seq payload.length).2,
      seg.flags = tcpFlagAck ∧ seg.payload = [] := by
    unfold tcpProcessFin
    split
    · exact hack
    · exact hnone
  unfold tcpSegmentArrives
  split
  · exact hnone
  cases sock.state with
  | closed | closeWait => exact hnone
  | synSent | timeWait | lastAck =>
    dsimp only
    split
    · first | exact hack | exact hnone
    · exact hnone
  | established | finWait1 | finWait2 | closing =>
    intro seg hseg
    rcases mem_append.mp hseg with hseg | hseg
    · exact hdata _ seg hseg
    · exact hfin _ seg hseg

/-! ## The invariant -/

variable {u : Nat} {s t : SendSystem} {c : SendCall}

/-- The sequence numbers taken up and not yet transmitted. -/
def SendCall.pending : SendCall → Nat
  | .track chunk _ | .transmit chunk _ => chunk.length
  | .finSend _ => 1
  | _ => 0

/-- The FIN is the one sequence number the peer may still have to acknowledge. -/
def SendSystem.FinOpen (s : SendSystem) (i : Fin tcpMaxSockets) (u : Nat) (last : Bool) : Prop :=
  s.fin = true ∧
    if last then u = s.app.length ∧ ¬ (s.sock i).state.takesAcks
    else (s.sock i).txLen ≠ 0 → u = s.app.length

/-- What holds at each point of a call, when the peer has acknowledged `u`. -/
def SendSystem.AtCall (s : SendSystem) (i : Fin tcpMaxSockets) (u : Nat) : SendCall → Prop
  | .idle | .pollTest .application => s.fin = false ∨ (s.sock i).used = false
  | .take _ => s.fin = false ∧ u = s.app.length ∧ (s.sock i).txLen = 0
  | .track chunk _ =>
    s.fin = false ∧ s.app.drop u = chunk ∧ chunk ≠ [] ∧ chunk.length ≤ tcpMss ∧ (s.sock i).txLen = 0
  | .transmit chunk _ =>
    s.fin = false ∧ s.app.drop u = chunk ∧ chunk ≠ [] ∧ (s.sock i).txLen ≠ 0
  | .arm _ | .await _ _ | .pollTest (.send _ _) | .pollSend _ | .polled _ _ | .judge _ =>
    s.fin = false
  | .finSend last => s.FinOpen i u last ∧ u = s.app.length
  | .finResend last _ => s.FinOpen i u last ∧ u = s.app.length
  | .finArm last | .finAwait last _ | .finTest last _ | .finLimit last _ => s.FinOpen i u last
  | .closeDone => s.fin = true

/-- The observation is not of a FIN. -/
def SendObservation.noFin : SendObservation → Prop
  | .segment seg _ => seg.flags &&& tcpFlagFin = 0
  | .success _ _ => True

/-- The sender has been acknowledged up to `u`: its sequence numbers say so, and what is
behind `u` is the chunk in the slot or the FIN. -/
structure SendInv (i : Fin tcpMaxSockets) (u : Nat) (s : SendSystem) : Prop where
  state : (s.sock i).state ≠ .synSent
  una : (s.sock i).sndUna = (s.sock i).iss + 1 + UInt32.ofNat u
  nxt : (s.sock i).sndNxt = (s.sock i).iss + 1 + UInt32.ofNat s.length
  pending : s.sent + s.call.pending = s.length
  near : s.length ≤ u + tcpMss
  una_le : u ≤ s.acked
  acked_le : s.acked ≤ s.sent
  acked : (s.sock i).state.takesAcks → s.acked = u
  flags : s.tx.flags &&& tcpFlagFin ≠ 0 ↔ s.fin = true
  slot : s.fin = false → (s.sock i).txLen ≠ 0 →
    s.app.length = u + (s.sock i).txLen.toNat ∧ s.app.drop u = s.tx.seg.take (s.sock i).txLen.toNat
  drained : s.fin = false → s.call.pending = 0 → (s.sock i).txLen = 0 → u = s.app.length
  call : s.AtCall i u s.call
  noFin : s.fin = false → ∀ ob ∈ s.log, ob.noFin
  log : s.SendOk i

namespace SendInv

theorem length_of_not_fin (hfin : s.fin = false) : s.length = s.app.length := by
  unfold length
  rw [hfin]
  rfl

theorem length_of_fin (hfin : s.fin = true) : s.length = s.app.length + 1 := by
  unfold length
  rw [hfin]
  rfl

theorem at_call (h : SendInv i u s) (hcall : s.call = c) : s.AtCall i u c :=
  hcall ▸ h.call

theorem opened (h : Opened i s) : SendInv i 0 s := by
  have hlen : s.length = 0 := by
    unfold length
    rw [h.app, h.fin]
    rfl
  have hzero : (s.sock i).iss + 1 = (s.sock i).iss + 1 + UInt32.ofNat 0 := by simp
  constructor
  · rw [h.established]
    decide
  · rw [h.sndUna, ← hzero]
  · rw [h.sndNxt, hlen, ← hzero]
  · rw [h.sent, h.idle, hlen]
    rfl
  · omega
  · omega
  · rw [h.acked, h.sent]
  · intro _
    exact h.acked
  · rw [h.flags, h.fin]
    decide
  · intro _ hne
    exact absurd h.txLen hne
  · intro _ _ _
    rw [h.app]
    rfl
  · rw [h.idle]
    exact .inl h.fin
  · intro _ ob hmem
    rw [h.log] at hmem
    cases hmem
  · intro ob hmem
    rw [h.log] at hmem
    cases hmem

/-- The observations so far stay allowed when the stream does not change. -/
theorem sendOk_append (h : s.SendOk i) (hiss : (t.sock i).iss = (s.sock i).iss)
    (happ : t.app = s.app) (hlog : t.log = s.log ++ extra)
    (hextra : ∀ ob ∈ extra, t.Allows i ob) : t.SendOk i := by
  intro ob hmem
  rw [hlog] at hmem
  rcases mem_append.mp hmem with hmem | hmem
  · have hold := h ob hmem
    cases ob with
    | segment seg taken =>
      unfold Allows at hold ⊢
      rw [hiss, happ]
      exact hold
    | success taken acked => exact hold
  · exact hextra ob hmem

theorem noFin_append (h : s.fin = false → ∀ ob ∈ s.log, ob.noFin) (hfin : t.fin = s.fin)
    (hlog : t.log = s.log ++ extra)
    (hextra : t.fin = false → ∀ ob ∈ extra, ob.noFin) : t.fin = false → ∀ ob ∈ t.log, ob.noFin := by
  intro hnot ob hmem
  rw [hlog] at hmem
  rcases mem_append.mp hmem with hmem | hmem
  · exact h (hfin ▸ hnot) ob hmem
  · exact hextra hnot ob hmem

/-- A step that leaves the sender's numbers and its slot alone. -/
theorem congr (h : SendInv i u s) (hsock : SameSender (s.sock i) (t.sock i)) (htx : t.tx = s.tx)
    (happ : t.app = s.app) (hfin : t.fin = s.fin) (hsent : t.sent = s.sent) (hle : u ≤ t.acked)
    (hacked : t.acked ≤ s.sent) (htakes : (t.sock i).state.takesAcks → t.acked = u)
    (hpending : t.call.pending = s.call.pending) (hcall : t.AtCall i u t.call)
    (hlog : t.log = s.log ++ extra) (hextra : ∀ ob ∈ extra, t.Allows i ob)
    (hplain : t.fin = false → ∀ ob ∈ extra, ob.noFin) : SendInv i u t := by
  have hlen : t.length = s.length := by
    unfold length
    rw [happ, hfin]
  constructor
  · exact hsock.synSent h.state
  · rw [hsock.sndUna, hsock.iss]
    exact h.una
  · rw [hsock.sndNxt, hsock.iss, hlen]
    exact h.nxt
  · rw [hsent, hpending, hlen]
    exact h.pending
  · rw [hlen]
    exact h.near
  · exact hle
  · rw [hsent]
    exact hacked
  · exact htakes
  · rw [hfin, htx]
    exact h.flags
  · rw [hfin, hsock.txLen, happ, htx]
    exact h.slot
  · rw [hfin, hpending, hsock.txLen, happ]
    exact h.drained
  · exact hcall
  · exact noFin_append h.noFin hfin hlog hplain
  · exact sendOk_append h.log hsock.iss happ hlog hextra

/-- Another socket is served, or the call goes on elsewhere. -/
theorem quiet (h : SendInv i u s) (ht : t = { s with net := t.net, call := t.call })
    (hsock : SameSender (s.sock i) (t.sock i)) (hpending : t.call.pending = s.call.pending)
    (hcall : t.AtCall i u t.call) : SendInv i u t := by
  have hacked : t.acked = s.acked := by rw [ht]
  have hlog : t.log = s.log ++ [] := by rw [ht, append_nil]
  refine h.congr hsock (by rw [ht]) (by rw [ht]) (by rw [ht]) (by rw [ht]) ?_ ?_ ?_
    hpending hcall hlog nofun nofun
  · rw [hacked]
    exact h.una_le
  · rw [hacked]
    exact h.acked_le
  · rw [hacked]
    exact fun htakes => h.acked (hsock.takesAcks htakes)

theorem finOpen_congr {last : Bool} (hsock : SameSender (s.sock i) (t.sock i))
    (happ : t.app = s.app) (hfin : t.fin = s.fin) (h : s.FinOpen i u last) :
    t.FinOpen i u last := by
  unfold FinOpen at h ⊢
  rw [happ, hfin, hsock.txLen]
  cases last with
  | false => exact h
  | true => exact ⟨h.1, h.2.1, fun htakes => h.2.2 (hsock.takesAcks htakes)⟩

/-- Where the call stands is not changed by what the sender does not read. -/
theorem atCall_congr (hsock : SameSender (s.sock i) (t.sock i)) (happ : t.app = s.app)
    (hfin : t.fin = s.fin) (h : s.AtCall i u c) : t.AtCall i u c := by
  unfold AtCall at h ⊢
  rw [happ, hfin, hsock.txLen]
  split at h
  all_goals first
    | exact h
    | exact h.imp id hsock.used
    | exact ⟨finOpen_congr hsock happ hfin h.1, h.2⟩
    | exact finOpen_congr hsock happ hfin h

/-- An acknowledgement of the first `k` sequence numbers has retired the slot. -/
structure Retired (sock sock' : TcpSocket) (k : Nat) : Prop where
  iss : sock'.iss = sock.iss
  sndUna : sock'.sndUna = sock.iss + 1 + UInt32.ofNat k
  sndNxt : sock'.sndNxt = sock.sndNxt
  txLen : sock'.txLen = 0
  state : sock'.state = sock.state
  used : sock'.used = sock.used

/-- An acknowledgement that names nothing new, or everything sent. -/
theorem afterAck_cases (h : SendInv i u s) (hpeer : hd.flags &&& tcpFlagAck ≠ 0 →
      hd.ack = (s.sock i).iss + 1 + UInt32.ofNat k ∧ k ≤ s.sent)
    (hord : hd.flags &&& tcpFlagAck ≠ 0 → s.sent < k + 2 ^ 31 ∧
      (k ≤ s.acked ∨ k = s.sent ∧ s.call.resendsFin = false)) :
    ((s.sock i).afterAck hd = s.sock i ∧
      ((s.sock i).state.takesAcks → hd.flags &&& tcpFlagRst = 0 →
        hd.flags &&& tcpFlagAck ≠ 0 → k ≤ u)) ∨
    ((s.sock i).state.takesAcks ∧ hd.flags &&& tcpFlagAck ≠ 0 ∧ k = s.sent ∧ u < s.sent ∧
      s.call.resendsFin = false ∧
      Retired (s.sock i) ((s.sock i).afterAck hd) s.sent) := by
  have hpending := h.pending
  have hnear := h.near
  have hacked := h.acked_le
  by_cases hpass : (s.sock i).state.takesAcks ∧ hd.flags &&& tcpFlagRst = 0 ∧
      hd.flags &&& tcpFlagAck ≠ 0
  · obtain ⟨htakes, hrst, hack⟩ := hpass
    obtain ⟨hnum, hk⟩ := hpeer hack
    obtain ⟨hrecent, hwhole⟩ := hord hack
    have hu := h.acked htakes
    have heq : (s.sock i).afterAck hd = tcpProcessAck (s.sock i) hd.flags hd.ack :=
      if_pos ⟨htakes, hrst⟩
    unfold tcpProcessAck at heq
    rw [if_pos hack, hnum, h.una, h.nxt] at heq
    by_cases hnew : k ≤ u
    · rw [if_neg (fun hwin => Serial.not_pos_of_le hnew (by omega) hwin.1)] at heq
      exact .inl ⟨heq, fun _ _ _ => hnew⟩
    obtain ⟨hsent, hcall⟩ := hwhole.resolve_left (by omega)
    rw [if_pos ⟨Serial.pos_of_lt (by omega) (by unfold tcpMss at hnear; omega),
      Serial.nonneg_of_le (by omega) (by unfold tcpMss at hnear; omega)⟩, hsent] at heq
    refine .inr ⟨htakes, hack, hsent, by omega, hcall, ?_⟩
    rw [heq]
    exact ⟨rfl, rfl, h.nxt.symm, rfl, rfl, rfl⟩
  · refine .inl ⟨?_, fun htakes hrst hack => absurd ⟨htakes, hrst, hack⟩ hpass⟩
    unfold TcpSocket.afterAck
    split
    next htakes =>
      exact if_neg fun hack => hpass ⟨htakes.1, htakes.2, hack⟩
    next => rfl

/-- Everything sent has been acknowledged. -/
theorem retire (h : SendInv i u s) {sock' : TcpSocket} (htakes : (s.sock i).state.takesAcks)
    (hu : u < s.sent) (hresend : s.call.resendsFin = false) (hret : Retired (s.sock i) sock' s.sent)
    (hsock : SameSender sock' (t.sock i)) (htx : t.tx = s.tx) (hcall : t.call = s.call)
    (happ : t.app = s.app) (hfin : t.fin = s.fin) (hsent : t.sent = s.sent)
    (hacked : t.acked = s.sent) (hlog : t.log = s.log ++ extra)
    (hextra : ∀ ob ∈ extra, t.Allows i ob) (hplain : t.fin = false → ∀ ob ∈ extra, ob.noFin) :
    SendInv i s.sent t := by
  have hlen : t.length = s.length := by
    unfold length
    rw [happ, hfin]
  have hiss : (t.sock i).iss = (s.sock i).iss := hsock.iss.trans hret.iss
  have htxLen : (t.sock i).txLen = 0 := hsock.txLen.trans hret.txLen
  have hpending := h.pending
  -- At the points where something is taken up and not yet sent, nothing sent is open.
  have hnone : s.call.pending = 0 := by
    by_contra hne
    cases hc : s.call with
    | track chunk rest | transmit chunk rest =>
      have hat := h.at_call hc
      have hlength := length_of_not_fin hat.1
      have hdrop : (s.app.drop u).length = chunk.length := congrArg List.length hat.2.1
      rw [length_drop] at hdrop
      rw [hc] at hpending
      simp only [SendCall.pending] at hpending
      omega
    | finSend last =>
      have hat := h.at_call hc
      have hlength := length_of_fin hat.1.1
      rw [hc] at hpending
      simp only [SendCall.pending] at hpending
      have := hat.2
      omega
    | _ =>
      rw [hc] at hne
      exact hne rfl
  constructor
  · exact hsock.synSent (by rw [hret.state]; exact h.state)
  · rw [hsock.sndUna, hret.sndUna, hiss]
  · rw [hsock.sndNxt, hret.sndNxt, hiss, hlen]
    exact h.nxt
  · rw [hsent, hcall, hlen]
    exact hpending
  · omega
  · omega
  · omega
  · intro _
    exact hacked
  · rw [hfin, htx]
    exact h.flags
  · intro _ hne
    exact absurd htxLen hne
  · intro hnot _ _
    have hlength := length_of_not_fin (hfin.symm.trans hnot)
    rw [happ]
    omega
  · have hused (hno : (s.sock i).used = false) : (t.sock i).used = false :=
      hsock.used (hret.used.trans hno)
    have hopen {last : Bool} (hat : s.FinOpen i u last) : t.FinOpen i s.sent last := by
      cases last with
      | false => exact ⟨hfin.trans hat.1, fun hne => absurd htxLen hne⟩
      | true => exact absurd htakes hat.2.2
    have hat := h.call
    rw [hcall]
    cases hc : s.call with
    | idle =>
      rw [hc] at hat
      exact hat.imp hfin.trans hused
    | take rest =>
      rw [hc] at hat
      have hlength := length_of_not_fin hat.1
      have := hat.2.1
      omega
    | track chunk rest | transmit chunk rest =>
      rw [hc] at hat hnone
      exact absurd (eq_nil_of_length_eq_zero hnone) hat.2.2.1
    | pollTest caller =>
      rw [hc] at hat
      cases caller with
      | application => exact hat.imp hfin.trans hused
      | send rest start => exact hfin.trans hat
    | arm rest | await rest start | pollSend caller | polled rest start | judge rest
    | closeDone =>
      rw [hc] at hat
      exact hfin.trans hat
    | finSend last =>
      rw [hc] at hnone
      cases hnone
    | finResend last start =>
      rw [hc] at hat
      cases last with
      | false =>
        rw [hc] at hresend
        cases hresend
      | true => exact absurd htakes hat.1.2.2
    | finArm last | finAwait last start | finTest last start | finLimit last start =>
      rw [hc] at hat
      exact hopen hat
  · exact noFin_append h.noFin hfin hlog hplain
  · exact sendOk_append h.log hiss happ hlog hextra

/-- Segments without bytes and without FIN are always allowed. -/
theorem allows_ack_only {segs : List TcpSegment}
    (h : ∀ seg ∈ segs, seg.flags = tcpFlagAck ∧ seg.payload = []) (taken : Nat) :
    ∀ ob ∈ segs.map fun seg => .segment seg taken, t.Allows i ob ∧ ob.noFin := by
  intro ob hmem
  obtain ⟨seg, hseg, rfl⟩ := mem_map.mp hmem
  obtain ⟨hflags, hpayload⟩ := h seg hseg
  have hplain : seg.flags &&& tcpFlagFin = 0 := by
    rw [hflags]
    decide
  exact ⟨⟨fun hne => absurd hpayload hne, fun hne => absurd hplain hne⟩, hplain⟩

theorem tcpSegmentArrives_reset
    (h : (tcpSegmentArrives sock hd payload).1.state.takesAcks) : hd.flags &&& tcpFlagRst = 0 := by
  by_contra hrst
  unfold tcpSegmentArrives at h
  rw [if_pos hrst] at h
  cases h

theorem receive (h : SendInv i u s) {srcIp : UInt32} {data : List UInt8}
    (hpeer : FromReceiver i s (.frame k srcIp data)) (hord : s.Orderly i (.frame k srcIp data)) :
    ∃ u', SendInv i u' (s.receive i k srcIp data) := by
  cases hdemux : tcpDemux s.net srcIp data with
  | none =>
    have heq : s.receive i k srcIp data = s := by
      unfold SendSystem.receive
      rw [hdemux]
    rw [heq]
    exact ⟨u, h⟩
  | some found =>
    obtain ⟨j, hd, payload⟩ := found
    by_cases hj : j = i
    · subst hj
      have hp := hpeer _ hdemux rfl
      have ho := hord _ hdemux rfl
      have hsender := tcpSegmentArrives_sender (s.net.sockets j) hd payload h.state
      have hallow := allows_ack_only (i := j) (t := s.receive j k srcIp data)
        (tcpSegmentArrives_segs (s.net.sockets j) hd payload) s.app.length
      have hle := h.una_le
      have hacked := h.acked_le
      -- The fields of the state after the segment.
      generalize ht : s.receive j k srcIp data = t at hallow
      unfold SendSystem.receive at ht
      rw [hdemux] at ht
      dsimp only at ht
      rw [if_pos rfl] at ht
      have hsock : t.sock j = (tcpSegmentArrives (s.net.sockets j) hd payload).1 := by
        rw [← ht]
        exact Function.update_self j _ _
      rw [← hsock] at hsender
      obtain ⟨htx, hcall, happ, hfin, hsent, hack', hlog⟩ : t.tx = s.tx ∧ t.call = s.call ∧
          t.app = s.app ∧ t.fin = s.fin ∧ t.sent = s.sent ∧
          t.acked = (if hd.flags &&& tcpFlagAck ≠ 0 then max s.acked k else s.acked) ∧
          t.log = s.log ++ (tcpSegmentArrives (s.net.sockets j) hd payload).2.map
            fun seg => .segment seg s.app.length := by
        rw [← ht]
        exact ⟨rfl, rfl, rfl, rfl, rfl, rfl, rfl⟩
      obtain ⟨hsame, hold⟩ | ⟨htakes, hack, hk, hu, hresend, hret⟩ := h.afterAck_cases hp ho
      · rw [show (s.net.sockets j).afterAck hd = s.sock j from hsame] at hsender
        have hbound : t.acked ≤ s.sent := by
          rw [hack']
          split
          next hack => exact max_le hacked (hp hack).2
          next => exact hacked
        have hgrows : u ≤ t.acked := by
          rw [hack']
          split
          next => omega
          next => exact hle
        have htakes (htakes : (t.sock j).state.takesAcks) : t.acked = u := by
          have hrst := tcpSegmentArrives_reset (hsock ▸ htakes)
          have hu := h.acked (hsender.takesAcks htakes)
          rw [hack']
          split
          next hack =>
            have := hold (hsender.takesAcks htakes) hrst hack
            omega
          next => exact hu
        exact ⟨u, h.congr hsender htx happ hfin hsent hgrows hbound htakes (by rw [hcall])
          (hcall ▸ atCall_congr hsender happ hfin h.call) hlog (fun ob hob => (hallow ob hob).1)
          fun _ ob hob => (hallow ob hob).2⟩
      · have hacked' : t.acked = s.sent := by
          rw [hack', if_pos hack, hk]
          exact max_eq_right hacked
        exact ⟨s.sent, h.retire htakes hu hresend hret hsender htx hcall happ hfin hsent hacked'
          hlog (fun ob hob => (hallow ob hob).1) fun _ ob hob => (hallow ob hob).2⟩
    · have hsock : (s.receive i k srcIp data).sock i = s.sock i := by
        unfold SendSystem.receive
        rw [hdemux]
        dsimp only
        rw [if_neg hj]
        exact Function.update_of_ne (Ne.symm hj) _ _
      have heq : s.receive i k srcIp data = { s with net := (s.receive i k srcIp data).net } := by
        unfold SendSystem.receive
        rw [hdemux]
        dsimp only
        rw [if_neg hj]
      rw [heq] at hsock ⊢
      have hsender : SameSender (s.sock i)
          (sock i { s with net := (s.receive i k srcIp data).net }) := by
        rw [hsock]
        exact .refl _
      exact ⟨u, h.quiet rfl hsender rfl (atCall_congr hsender rfl rfl h.call)⟩

theorem apply_sock (r : SendStep) : (s.apply i r).sock i = r.sock := Function.update_self i _ _

theorem apply_app (htaken : r.taken = []) : (s.apply i r).app = s.app := by
  show s.app ++ r.taken = s.app
  simp [htaken]

theorem apply_length (htaken : r.taken = []) : (s.apply i r).length = s.length := by
  unfold length
  rw [apply_app htaken]
  rfl

theorem apply_sender (h : SameSender (s.sock i) r.sock) :
    SameSender (s.sock i) ((s.apply i r).sock i) := by
  rw [apply_sock]
  exact h

/-- A step of the call that changes neither the numbers nor the slot. -/
theorem apply_congr (h : SendInv i u s) (hsock : SameSender (s.sock i) r.sock) (htx : r.tx = s.tx)
    (htaken : r.taken = []) (hsent : (s.apply i r).sent = s.sent)
    (hpending : r.call.pending = s.call.pending) (hcall : (s.apply i r).AtCall i u r.call)
    (hsegs : ∀ seg ∈ r.segs, (s.apply i r).Allows i (.segment seg s.app.length) ∧
      (s.fin = false → seg.flags &&& tcpFlagFin = 0))
    (hresult : r.result = some true → s.app.length ≤ s.acked) : SendInv i u (s.apply i r) := by
  have happ := apply_app (i := i) (s := s) htaken
  have hsender := apply_sender hsock
  have hlog : (s.apply i r).log = s.log ++ (r.segs.map (fun seg => .segment seg s.app.length) ++
        if r.result = some true then [.success s.app.length s.acked] else []) := by
    rw [← append_assoc, ← happ]
    rfl
  have hextra : ∀ ob ∈ r.segs.map (fun seg => .segment seg s.app.length) ++
      (if r.result = some true then [.success s.app.length s.acked] else []),
      (s.apply i r).Allows i ob ∧ (s.fin = false → ob.noFin) := by
    intro ob hob
    rcases mem_append.mp hob with hob | hob
    · obtain ⟨seg, hseg, rfl⟩ := mem_map.mp hob
      exact hsegs seg hseg
    split at hob
    next hok =>
      rw [mem_singleton.mp hob]
      exact ⟨hresult hok, fun _ => trivial⟩
    next => cases hob
  exact h.congr hsender htx happ rfl hsent h.una_le h.acked_le
    (fun htakes => h.acked (hsender.takesAcks htakes)) hpending hcall hlog
    (fun ob hob => (hextra ob hob).1) (fun hfin ob hob => (hextra ob hob).2 hfin)

theorem apply_silent (h : SendInv i u s) (hsock : SameSender (s.sock i) r.sock) (htx : r.tx = s.tx)
    (htaken : r.taken = []) (hsegs : r.segs = []) (hresult : r.result ≠ some true)
    (hpending : r.call.pending = s.call.pending)
    (hcall : s.AtCall i u r.call) : SendInv i u (s.apply i r) := by
  refine h.apply_congr hsock htx htaken ?_ hpending ?_ ?_ (fun hok => absurd hok hresult)
  · show r.segs.foldl _ s.sent = s.sent
    rw [hsegs]
    rfl
  · exact atCall_congr (apply_sender hsock) (apply_app htaken) rfl hcall
  · intro seg hseg
    rw [hsegs] at hseg
    cases hseg

end SendInv

end Kil0yOS.Net
