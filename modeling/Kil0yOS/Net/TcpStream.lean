/-
The byte stream a TCP connection delivers.

One connection of the socket table receives the segments of a peer, in any order
and any number of times, while the application runs `tcp_recv` on it.  The state
records the bytes copied to the application and what an outside observer saw:
the acknowledgement numbers that were sent, with what the receiver held at that
moment, and the ends of stream reported.
-/
import Kil0yOS.Lib.Run
import Kil0yOS.Lib.Serial
import Kil0yOS.Net.Tcp

namespace Kil0yOS.Net

open Lib List Function UInt32

/-! ## The connection and its peer -/

/-- What the peer has to say: a byte stream, its first byte at sequence number
`first`, and then a FIN. -/
structure Peer where
  stream : List UInt8
  first : UInt32

/-- A segment the peer may send for the bytes at offset `o`.  Segments without
data and FIN are free. -/
def Peer.Sends (p : Peer) (o : Nat) (h : TcpHeader) (payload : List UInt8) : Prop :=
  h.flags &&& tcpFlagRst = 0 ∧
    (payload ≠ [] ∨ h.flags &&& tcpFlagFin ≠ 0 →
      payload <+: p.stream.drop o ∧ h.seq = p.first + UInt32.ofNat o ∧
        (h.flags &&& tcpFlagFin ≠ 0 → o + payload.length = p.stream.length))
deriving Decidable

inductive Observation
  /-- A segment acknowledged `num` when `returned` bytes had reached the
  application and `ring` bytes waited in the ring. -/
  | ack (num : UInt32) (returned ring : Nat)
  | eof (returned : List UInt8)
  deriving DecidableEq, Repr

structure RecvSystem where
  net : NetState
  call : RecvCall
  returned : List UInt8
  log : List Observation

inductive RecvAction
  /-- A frame reaches `tcp_receive`.  If it is for this connection, it carries the
  peer's bytes from offset `o` on. -/
  | frame (o : Nat) (srcIp : UInt32) (data : List UInt8)
  | start (maxlen : Nat)
  | advance (giveUp : Bool)
  /-- Anything happens to the other sockets. -/
  | others (sockets : Fin tcpMaxSockets → TcpSocket)

def observeAcks (segs : List TcpSegment) (returned ring : Nat) : List Observation :=
  segs.map fun seg => .ack seg.ack returned ring

variable (i : Fin tcpMaxSockets)

def RecvSystem.sock (s : RecvSystem) : TcpSocket := s.net.sockets i

def RecvSystem.receive (s : RecvSystem) (srcIp : UInt32) (data : List UInt8) : RecvSystem :=
  let r := tcpReceive s.net srcIp data
  let seen :=
    match r.2 with
    | some (j, segs) =>
      if j = i then observeAcks segs s.returned.length (r.1.sockets i).ring.length else []
    | none => []
  { s with net := r.1, log := s.log ++ seen }

def RecvEvent.bytes : RecvEvent → List UInt8
  | .byte b => [b]
  | _ => []

def RecvEvent.seen (returned : List UInt8) (ring : Nat) : RecvEvent → List Observation
  | .sent segs => observeAcks segs returned.length ring
  | .eof => [.eof returned]
  | _ => []

def RecvSystem.advance (s : RecvSystem) (giveUp : Bool) : RecvSystem :=
  let r := tcpRecvStep (s.sock i) giveUp s.call
  { net := { s.net with sockets := update s.net.sockets i r.1 }
    call := r.2.1
    returned := s.returned ++ r.2.2.bytes
    log := s.log ++ r.2.2.seen s.returned r.1.ring.length }

def RecvSystem.step (s : RecvSystem) : RecvAction → RecvSystem
  | .frame _ srcIp data => s.receive i srcIp data
  | .start maxlen =>
    if (s.sock i).used ∧ s.call = .idle then { s with call := .polled maxlen } else s
  | .advance giveUp => s.advance i giveUp
  | .others sockets =>
    { s with
      net := { s.net with sockets := fun j => if j = i then s.net.sockets i else sockets j } }

/-- The environment: every frame that reaches the connection is one of the
peer's. -/
def FromPeer (p : Peer) (s : RecvSystem) : RecvAction → Prop
  | .frame o srcIp data =>
    ∀ seg ∈ tcpDemux s.net srcIp data, seg.1 = i → p.Sends o seg.2.1 seg.2.2
  | _ => True

def RecvSystem.Step (p : Peer) (s : RecvSystem) (a : RecvAction) (t : RecvSystem) : Prop :=
  FromPeer i p s a ∧ t = s.step i a

/-- An established connection on which nothing has been received yet. -/
structure Connected (p : Peer) (s : RecvSystem) : Prop where
  used : (s.sock i).used = true
  established : (s.sock i).state = .established
  rcvNxt : (s.sock i).rcvNxt = p.first
  head_lt : (s.sock i).rx.head < tcpRxBufsz
  empty : (s.sock i).rx.tail = (s.sock i).rx.head
  rxFin : (s.sock i).rxFin = false
  idle : s.call = .idle
  returned : s.returned = []
  log : s.log = []

/-! ## What the stream should be -/

/-- The stream offset up to which `num` acknowledges, seen from a receiver that
has passed on `returned` bytes. -/
def Peer.acked (p : Peer) (num : UInt32) (returned : Nat) : Nat :=
  returned + (num - p.first - UInt32.ofNat returned).toNat

def Peer.Allows (p : Peer) : Observation → Prop
  | .ack num returned ring =>
    ∀ o, o < p.stream.length → o < p.acked num returned → o < returned + ring
  | .eof returned => returned = p.stream

/-- The receive side keeps its promise: the application has a front of the
peer's stream, no acknowledgement covered a byte that was not held, and an end
of stream came after the last byte. -/
def RecvSystem.StreamOk (p : Peer) (s : RecvSystem) : Prop :=
  s.returned <+: p.stream ∧ ∀ ob ∈ s.log, p.Allows ob

/-! ## When the handler is not led astray -/

/-- Data that is next in order fits into the ring, a FIN comes with the next byte
in order or right behind the last one accepted, and the segment is less than
`2 ^ 32` bytes away from the next byte. -/
structure SegmentInOrder (sock : TcpSocket) (accepted o : Nat) (h : TcpHeader)
    (payload : List UInt8) : Prop where
  fits : h.seq = sock.rcvNxt → payload.length ≤ sock.rx.free tcpRxBufsz
  fin : h.flags &&& tcpFlagFin ≠ 0 →
    h.seq = sock.rcvNxt ∨ h.seq + UInt32.ofNat payload.length = sock.rcvNxt
  near : accepted < o + 2 ^ 32 ∧ o + payload.length < accepted + 2 ^ 32

def RecvCall.atFin : RecvCall → Bool
  | .testFin _ => true
  | _ => false

/-- The guard on the steps of a run: segments are taken in order while the
connection is established, and nothing arrives between the test for an empty
ring and the test of `rx_fin`. -/
def RecvSystem.InOrder (s : RecvSystem) : RecvAction → Prop
  | .frame o srcIp data =>
    ∀ seg ∈ tcpDemux s.net srcIp data, seg.1 = i → (s.sock i).state = .established →
      SegmentInOrder (s.sock i) (s.returned.length + (s.sock i).ring.length) o seg.2.1 seg.2.2
  | .advance _ =>
    s.call.atFin = true → (s.sock i).rxFin = true → (s.sock i).rx.tail = (s.sock i).rx.head
  | _ => True

/-! ## Acknowledgement numbers -/

variable {i}
variable {p : Peer} {s : RecvSystem} {sock sock' : TcpSocket} {returned payload : List UInt8}
  {hd : TcpHeader} {flags : UInt8} {o : Nat} {call : RecvCall} {ev : RecvEvent}

theorem ack_of_mem_transmit {seq : UInt32} {seg : TcpSegment}
    (h : seg ∈ tcpTransmitSeg sock seq flags payload) : seg.ack = sock.rcvNxt := by
  unfold tcpTransmitSeg at h
  split at h
  · cases h
  · rw [mem_singleton.mp h]

/-! ## The socket's half of the invariant -/

/-- The connection is open and holds a front of the stream. -/
structure Receiving (p : Peer) (returned : List UInt8) (sock : TcpSocket) : Prop where
  wf : sock.rx.WellFormed tcpRxBufsz
  established : sock.state = .established
  rxFin : sock.rxFin = false
  held : returned ++ sock.ring <+: p.stream
  rcvNxt : sock.rcvNxt = p.first + UInt32.ofNat (returned.length + sock.ring.length)

/-- The FIN has been taken, after all of the stream. -/
structure Finished (p : Peer) (returned : List UInt8) (sock : TcpSocket) : Prop where
  wf : sock.rx.WellFormed tcpRxBufsz
  closeWait : sock.state = .closeWait
  held : returned ++ sock.ring = p.stream

def SockInv (p : Peer) (returned : List UInt8) (sock : TcpSocket) : Prop :=
  Receiving p returned sock ∨ Finished p returned sock

def AcksHeld (p : Peer) (returned : List UInt8) (sock : TcpSocket) (segs : List TcpSegment) :
    Prop :=
  ∀ seg ∈ segs, p.Allows (.ack seg.ack returned.length sock.ring.length)

theorem Receiving.acksHeld (h : Receiving p returned sock) (seq : UInt32) (flags : UInt8)
    (payload : List UInt8) : AcksHeld p returned sock (tcpTransmitSeg sock seq flags payload) := by
  intro seg hseg o _ ho
  rw [ack_of_mem_transmit hseg, h.rcvNxt, Peer.acked, sub_sub,
    Serial.toNat_sub (Nat.le_add_right ..)] at ho
  omega

theorem Finished.acksHeld (h : Finished p returned sock) (segs : List TcpSegment) :
    AcksHeld p returned sock segs := by
  intro seg _ o hlen _
  rw [← h.held, length_append] at hlen
  omega

section

variable (h : SockInv p returned sock)
include h

theorem SockInv.acksHeld (seq : UInt32) (flags : UInt8)
    (payload : List UInt8) : AcksHeld p returned sock (tcpTransmitSeg sock seq flags payload) := by
  rcases h with h | h
  · exact h.acksHeld seq flags payload
  · exact h.acksHeld _

theorem SockInv.wf : sock.rx.WellFormed tcpRxBufsz := by
  rcases h with h | h
  · exact h.wf
  · exact h.wf

theorem SockInv.held : returned ++ sock.ring <+: p.stream := by
  rcases h with h | h
  · exact h.held
  · rw [h.held]

end

/-! ### One segment -/

theorem Receiving.processAck (h : Receiving p returned sock) (flags : UInt8) (ack : UInt32) :
    Receiving p returned (tcpProcessAck sock flags ack) := by
  unfold tcpProcessAck
  split_ifs <;> exact { h with }

/-- Data that is next in order and fits lengthens the bytes held by itself. -/
theorem ring_push (h : sock.rx.WellFormed tcpRxBufsz)
    (hfit : payload.length ≤ sock.rx.free tcpRxBufsz) :
    (sock.rx.pushAll tcpRxBufsz payload).items tcpRxBufsz = sock.ring ++ payload := by
  rw [Lib.Ring.items_pushAll h, take_of_length_le hfit]
  rfl

theorem append_of_drop {a b c : List UInt8} (ha : a <+: c) (hb : b <+: c.drop a.length) :
    a ++ b <+: c := by
  obtain ⟨t, rfl⟩ := ha
  rw [drop_left] at hb
  exact (prefix_append_right_inj a).mpr hb

/-- The data block keeps an open connection open, and when the segment carries a
FIN the whole stream is held afterwards. -/
theorem Receiving.inOrderData (h : Receiving p returned sock) (hs : p.Sends o hd payload)
    (hio : SegmentInOrder sock (returned.length + sock.ring.length) o hd payload) :
    Receiving p returned (tcpInOrderData sock hd.seq payload).1 ∧
      AcksHeld p returned (tcpInOrderData sock hd.seq payload).1
        (tcpInOrderData sock hd.seq payload).2 ∧
      (hd.flags &&& tcpFlagFin ≠ 0 →
        p.stream.length = returned.length + (tcpInOrderData sock hd.seq payload).1.ring.length) := by
  obtain ⟨hnear1, hnear2⟩ := hio.near
  -- a FIN right behind the bytes held comes when all of them are
  have hbehind : hd.flags &&& tcpFlagFin ≠ 0 → hd.seq + UInt32.ofNat payload.length = sock.rcvNxt →
        p.stream.length = returned.length + sock.ring.length := by
    intro hfin hseq
    obtain ⟨-, hoff, hend⟩ := hs.2 (.inr hfin)
    rw [hoff, add_assoc, ← ofNat_add, h.rcvNxt] at hseq
    have heq := Serial.eq_of_seq_eq hseq (by omega) (by omega)
    rw [← hend hfin, heq]
  unfold tcpInOrderData
  by_cases hlen : 0 < payload.length
  · obtain ⟨hpre, hoff, hend⟩ := hs.2 (.inl (length_pos_iff.mp hlen))
    rw [if_pos hlen]
    by_cases hseq : hd.seq = sock.rcvNxt
    · rw [if_pos hseq]
      have ho : o = returned.length + sock.ring.length := by
        rw [hoff, h.rcvNxt] at hseq
        exact Serial.eq_of_seq_eq hseq (by omega) (by omega)
      have hring := ring_push h.wf (hio.fits hseq)
      have hrecv : Receiving p returned { tcpRxPush sock payload with
            rcvNxt := sock.rcvNxt + UInt32.ofNat payload.length } := by
        constructor
        · exact Lib.Ring.pushAll_wellFormed h.wf payload
        · exact h.established
        · exact h.rxFin
        · show returned ++ (sock.rx.pushAll tcpRxBufsz payload).items tcpRxBufsz <+: p.stream
          rw [hring, ← append_assoc]
          apply append_of_drop h.held
          rwa [length_append, ← ho]
        · show sock.rcvNxt + UInt32.ofNat payload.length = p.first + UInt32.ofNat
            (returned.length + ((sock.rx.pushAll tcpRxBufsz payload).items tcpRxBufsz).length)
          simp [hring, h.rcvNxt, add_assoc]
      refine ⟨hrecv, hrecv.acksHeld sock.sndNxt tcpFlagAck [], fun hfin => ?_⟩
      show p.stream.length =
        returned.length + ((sock.rx.pushAll tcpRxBufsz payload).items tcpRxBufsz).length
      simp [hring, ← hend hfin, ho, Nat.add_assoc]
    · rw [if_neg hseq]
      exact ⟨h, h.acksHeld sock.sndNxt tcpFlagAck [],
        fun hfin => hbehind hfin ((hio.fin hfin).resolve_left hseq)⟩
  · rw [if_neg hlen]
    have hzero : payload.length = 0 := by omega
    refine ⟨h, nofun, fun hfin => hbehind hfin ?_⟩
    rcases hio.fin hfin with hseq | hseq
    · rw [hzero, hseq]
      exact add_zero _
    · exact hseq

/-- The FIN block closes the connection once the stream is held. -/
theorem Receiving.processFin (h : Receiving p returned sock) (seq : UInt32) (len : Nat)
    (hall : flags &&& tcpFlagFin ≠ 0 → p.stream.length = returned.length + sock.ring.length) :
    (tcpProcessFin sock flags seq len).1.ring = sock.ring ∧
      SockInv p returned (tcpProcessFin sock flags seq len).1 ∧
      AcksHeld p returned (tcpProcessFin sock flags seq len).1
        (tcpProcessFin sock flags seq len).2 := by
  unfold tcpProcessFin
  by_cases hfin : flags &&& tcpFlagFin ≠ 0
  · rw [if_pos hfin]
    have hheld : returned ++ sock.ring = p.stream := by
      apply h.held.eq_of_length
      simp [hall hfin]
    have hdone : Finished p returned { sock with
          rcvNxt := if sock.rcvNxt < seq + UInt32.ofNat len + 1 then seq + UInt32.ofNat len + 1
            else sock.rcvNxt
          rxFin := true
          state := .closeWait } := ⟨h.wf, rfl, hheld⟩
    simp only [h.established]
    exact ⟨rfl, .inr hdone, hdone.acksHeld _⟩
  · rw [if_neg hfin]
    exact ⟨rfl, .inl h, nofun⟩

section

variable (h : SockInv p returned sock)
include h

theorem SockInv.finAcked : tcpFinAcked sock = sock := by
  unfold tcpFinAcked
  rcases h with h | h
  · simp [h.established]
  · simp [h.closeWait]

/-- A segment of the peer that is in order keeps the invariant, and what is sent
in answer acknowledges only bytes held. -/
theorem SockInv.segmentArrives (hs : p.Sends o hd payload)
    (hio : sock.state = .established →
      SegmentInOrder sock (returned.length + sock.ring.length) o hd payload) :
    SockInv p returned (tcpSegmentArrives sock hd payload).1 ∧
      AcksHeld p returned (tcpSegmentArrives sock hd payload).1
        (tcpSegmentArrives sock hd payload).2 := by
  have hrst : ¬ hd.flags &&& tcpFlagRst ≠ 0 := not_not.mpr hs.1
  unfold tcpSegmentArrives
  rw [if_neg hrst]
  rcases h with h | h
  · have hio := hio h.established
    have hack := h.processAck hd.flags hd.ack
    have hio' : SegmentInOrder (tcpProcessAck sock hd.flags hd.ack)
        (returned.length + (tcpProcessAck sock hd.flags hd.ack).ring.length) o hd payload := by
      unfold tcpProcessAck
      split_ifs <;> exact { hio with }
    obtain ⟨hdata, hdataAcks, hall⟩ := hack.inOrderData hs hio'
    obtain ⟨hring, hfin, hfinAcks⟩ := hdata.processFin hd.seq payload.length hall
    simp only [h.established]
    rw [hfin.finAcked]
    refine ⟨hfin, fun seg hseg => ?_⟩
    rcases mem_append.mp hseg with hseg | hseg
    · rw [hring]
      exact hdataAcks seg hseg
    · exact hfinAcks seg hseg
  · simp only [h.closeWait]
    exact ⟨.inr h, h.acksHeld _⟩

/-! ### One step of `tcp_recv` -/

/-- Copying one byte moves it from the ring to the application. -/
theorem SockInv.pop (hne : sock.rx.tail ≠ sock.rx.head) :
    SockInv p (returned ++ [sock.rx.buf sock.rx.tail])
      { sock with rx := sock.rx.pop tcpRxBufsz } := by
  have hitems : sock.ring = sock.rx.buf sock.rx.tail :: (sock.rx.pop tcpRxBufsz).items tcpRxBufsz :=
    Lib.Ring.items_pop h.wf hne
  have hwf := Lib.Ring.pop_wellFormed h.wf
  have happ : returned ++ [sock.rx.buf sock.rx.tail] ++
      (sock.rx.pop tcpRxBufsz).items tcpRxBufsz = returned ++ sock.ring := by
    simp [hitems]
  rcases h with h | h
  · refine .inl ⟨hwf, h.established, h.rxFin, ?_, ?_⟩
    · exact happ ▸ h.held
    have hlen : (returned ++ [sock.rx.buf sock.rx.tail]).length +
        ((sock.rx.pop tcpRxBufsz).items tcpRxBufsz).length =
        returned.length + sock.ring.length := by
      rw [← length_append, happ, length_append]
    show sock.rcvNxt = p.first + UInt32.ofNat ((returned ++ [sock.rx.buf sock.rx.tail]).length +
      ((sock.rx.pop tcpRxBufsz).items tcpRxBufsz).length)
    rw [hlen]
    exact h.rcvNxt
  · exact .inr ⟨hwf, h.closeWait, happ ▸ h.held⟩

end

/-- What a step of `tcp_recv` does to the socket and shows. -/
inductive RecvStepped (sock : TcpSocket) (call : RecvCall) : TcpSocket → RecvEvent → Prop
  | silent : RecvStepped sock call sock .silent
  | error : RecvStepped sock call sock .error
  | byte : sock.rx.tail ≠ sock.rx.head →
      RecvStepped sock call { sock with rx := sock.rx.pop tcpRxBufsz }
        (.byte (sock.rx.buf sock.rx.tail))
  | sent : RecvStepped sock call sock (.sent (tcpTransmitSeg sock sock.sndNxt tcpFlagAck []))
  | eof : call.atFin = true → sock.rxFin = true → RecvStepped sock call sock .eof

theorem tcpRecvStep_stepped (sock : TcpSocket) (giveUp : Bool) (call : RecvCall) :
    RecvStepped sock call (tcpRecvStep sock giveUp call).1 (tcpRecvStep sock giveUp call).2.2 := by
  cases call with
  | idle => exact .silent
  | polled maxlen =>
    rw [tcpRecvStep]
    split
    · exact .error
    · exact .silent
  | testRing maxlen =>
    rw [tcpRecvStep]
    split
    all_goals exact .silent
  | drain left =>
    rw [tcpRecvStep]
    split
    · next h => exact .byte h.2
    · exact .silent
  | windowUpdate => exact .sent
  | testFin maxlen =>
    rw [tcpRecvStep]
    split
    · next h => exact .eof rfl h
    · exact .silent
  | waiting maxlen =>
    rw [tcpRecvStep]
    split
    · exact .error
    · exact .silent

/-! ## Runs -/

/-- What holds in every state of a run whose steps are in order. -/
structure StreamInv (i : Fin tcpMaxSockets) (p : Peer) (s : RecvSystem) : Prop where
  sock : SockInv p s.returned (s.sock i)
  log : ∀ ob ∈ s.log, p.Allows ob

theorem Connected.streamInv (h : Connected i p s) : StreamInv i p s := by
  have hwf : (s.sock i).rx.WellFormed tcpRxBufsz := ⟨h.head_lt, h.empty ▸ h.head_lt⟩
  have hring : (s.sock i).ring = [] := (Lib.Ring.items_eq_nil_iff hwf).mpr h.empty
  constructor
  · refine .inl ⟨hwf, h.established, h.rxFin, ?_, ?_⟩
    · rw [h.returned, hring]
      exact nil_prefix
    · rw [h.rcvNxt, h.returned, hring]
      exact (add_zero _).symm
  · rw [h.log]
    exact nofun

theorem allows_observeAcks {segs : List TcpSegment} (h : AcksHeld p returned sock segs) :
    ∀ ob ∈ observeAcks segs returned.length sock.ring.length, p.Allows ob := by
  intro ob hob
  obtain ⟨seg, hseg, rfl⟩ := mem_map.mp hob
  exact h seg hseg

theorem StreamInv.receive {srcIp : UInt32} {data : List UInt8} (h : StreamInv i p s)
    (hpeer : FromPeer i p s (.frame o srcIp data)) (hio : s.InOrder i (.frame o srcIp data)) :
    StreamInv i p (s.receive i srcIp data) := by
  unfold RecvSystem.receive tcpReceive
  cases hdemux : tcpDemux s.net srcIp data with
  | none => exact ⟨h.sock, by simpa using h.log⟩
  | some found =>
    obtain ⟨j, hd, payload⟩ := found
    by_cases hj : j = i
    · subst hj
      obtain ⟨hsock, hacks⟩ :=
        h.sock.segmentArrives (hpeer _ hdemux rfl) (hio _ hdemux rfl)
      have hupd : update s.net.sockets j (tcpSegmentArrives (s.net.sockets j) hd payload).1 j =
          (tcpSegmentArrives (s.sock j) hd payload).1 := update_self _ _ _
      constructor
      · show SockInv p s.returned (update s.net.sockets j _ j)
        rw [hupd]
        exact hsock
      · refine forall_mem_append.mpr ⟨h.log, ?_⟩
        simp only [if_true, hupd]
        exact allows_observeAcks hacks
    · constructor
      · show SockInv p s.returned (update s.net.sockets j _ i)
        rw [update_of_ne (Ne.symm hj)]
        exact h.sock
      · simpa [if_neg hj] using h.log

theorem RecvStepped.sockInv (hstep : RecvStepped sock call sock' ev) (h : SockInv p returned sock) :
    SockInv p (returned ++ ev.bytes) sock' := by
  cases hstep with
  | byte hne => exact h.pop hne
  | silent | error | sent | eof =>
    show SockInv p (returned ++ []) sock
    rw [append_nil]
    exact h

/-- What a step of `tcp_recv` shows is allowed, provided the ring is still empty
when `rx_fin` is found set. -/
theorem RecvStepped.allows (hstep : RecvStepped sock call sock' ev) (h : SockInv p returned sock)
    (hempty : call.atFin = true → sock.rxFin = true → sock.rx.tail = sock.rx.head) :
    ∀ ob ∈ ev.seen returned sock'.ring.length, p.Allows ob := by
  cases hstep with
  | silent | error | byte => exact nofun
  | sent => exact allows_observeAcks (h.acksHeld sock.sndNxt tcpFlagAck [])
  | eof hcall hfin =>
    intro ob hob
    rw [mem_singleton.mp hob]
    rcases h with hopen | hdone
    · rw [hopen.rxFin] at hfin
      cases hfin
    have hnil := (Lib.Ring.items_eq_nil_iff hdone.wf).mpr (hempty hcall hfin)
    have hheld := hdone.held
    rw [TcpSocket.ring, hnil, append_nil] at hheld
    exact hheld

theorem StreamInv.advance {giveUp : Bool} (h : StreamInv i p s)
    (hio : s.InOrder i (.advance giveUp)) : StreamInv i p (s.advance i giveUp) := by
  have hstep := tcpRecvStep_stepped (s.sock i) giveUp s.call
  constructor
  · show SockInv p _ (update s.net.sockets i _ i)
    rw [update_self]
    exact hstep.sockInv h.sock
  · exact forall_mem_append.mpr ⟨h.log, hstep.allows h.sock hio⟩

theorem StreamInv.step {a : RecvAction} {t : RecvSystem} (h : StreamInv i p s)
    (hio : s.InOrder i a) (hst : s.Step i p a t) : StreamInv i p t := by
  obtain ⟨hpeer, rfl⟩ := hst
  cases a with
  | frame o srcIp data => exact h.receive hpeer hio
  | start maxlen =>
    rw [RecvSystem.step]
    split
    · exact { h with }
    · exact h
  | advance giveUp => exact h.advance hio
  | others sockets =>
    refine ⟨?_, h.log⟩
    show SockInv p s.returned (if i = i then s.net.sockets i else sockets i)
    rw [if_pos rfl]
    exact h.sock

/-- In every run of an established connection whose segments are taken in order,
the application has received a front of the peer's stream, no acknowledgement
has covered a byte that was not held, and the end of stream was reported only
behind the last byte. -/
theorem recv_stream_ok (i : Fin tcpMaxSockets) (p : Peer) {s : RecvSystem}
    (h : Reach (Connected i p) (RecvSystem.InOrder i) (RecvSystem.Step i p) s) : s.StreamOk p := by
  have hinv : StreamInv i p s :=
    h.invariant (fun _ hs => hs.streamInv) (fun _ _ _ hs hio hst => hs.step hio hst)
  exact ⟨(prefix_append _ _).trans hinv.sock.held, hinv.log⟩

/-! ## A connection that carries one byte -/

instance (a : RecvAction) : Decidable (FromPeer i p s a) :=
  match a with
  | .frame _ _ _ => inferInstanceAs (Decidable (∀ seg ∈ tcpDemux _ _ _, _))
  | .start _ | .advance _ | .others _ => isTrue trivial

instance {accepted o : Nat} {h : TcpHeader} {payload : List UInt8} :
    Decidable (SegmentInOrder sock accepted o h payload) :=
  decidable_of_iff (_ ∧ _ ∧ _) ⟨fun h => ⟨h.1, h.2.1, h.2.2⟩, fun h => ⟨h.fits, h.fin, h.near⟩⟩

instance (a : RecvAction) : Decidable (s.InOrder i a) :=
  match a with
  | .frame _ _ _ => inferInstanceAs (Decidable (∀ seg ∈ tcpDemux _ _ _, _))
  | .advance _ => inferInstanceAs (Decidable (_ → _ → _))
  | .start _ | .others _ => isTrue trivial

def onePeer : Peer := { stream := [7], first := 1000 }

def oneSystem : RecvSystem :=
  { net := { ip := 0x0A00020F, sockets := fun _ => quietSocket 1000 }
    call := .idle
    returned := []
    log := [] }

theorem oneSystem_connected : Connected 0 onePeer oneSystem where
  used := rfl
  established := rfl
  rcvNxt := rfl
  head_lt := by decide
  empty := rfl
  rxFin := rfl
  idle := rfl
  returned := rfl
  log := rfl

theorem oneSystem_reach {ok : RecvSystem → RecvAction → Prop} (acts : List RecvAction)
    (h : Along (fun s a => ok s a ∧ FromPeer 0 onePeer s a) (RecvSystem.step 0) oneSystem acts) :
    Reach (Connected 0 onePeer) ok (RecvSystem.Step 0 onePeer)
      (acts.foldl (RecvSystem.step 0) oneSystem) :=
  .foldl (fun _ _ h => ⟨h.1, h.2, rfl⟩) (.start oneSystem_connected) acts h

def oneDataFrame : List UInt8 :=
  [0, 80, 192, 0, 0, 0, 3, 232, 0, 0, 0, 1, 80, 16, 0, 0, 204, 137, 0, 0, 7]

def oneFinFrame : List UInt8 :=
  [0, 80, 192, 0, 0, 0, 3, 233, 0, 0, 0, 1, 80, 17, 0, 0, 211, 136, 0, 0]

/-- The data arrives twice, then the FIN, and the application reads to the end. -/
def inTurn : List RecvAction :=
  [.frame 0 0x0A000202 oneDataFrame, .frame 0 0x0A000202 oneDataFrame,
    .frame 1 0x0A000202 oneFinFrame, .start 16, .advance false, .advance false, .advance false,
    .advance false, .advance false, .start 16, .advance false, .advance false, .advance false]

theorem recv_stream_ok_inTurn : let s := inTurn.foldl (RecvSystem.step 0) oneSystem
    s.StreamOk onePeer ∧ s.returned = [7] ∧
      s.log = [.ack 1001 0 1, .ack 1001 0 1, .ack 1002 0 1, .ack 1002 1 0, .eof [7]] := by
  refine ⟨recv_stream_ok 0 onePeer (oneSystem_reach inTurn (by decide +kernel)), ?_⟩
  decide +kernel

/-- The FIN arrives, the data segment before it does not, and the application
reads. -/
def finFirst : List RecvAction :=
  [.frame 1 0x0A000202 oneFinFrame, .start 16, .advance false, .advance false, .advance false]

/-- Without the condition the promise is broken: a FIN that overtakes the data is
acknowledged and reported as the end of the stream. -/
theorem recv_stream_fin_overtakes :
    ¬ ∀ s, Reach (Connected 0 onePeer) (fun _ _ => True) (RecvSystem.Step 0 onePeer) s →
      s.StreamOk onePeer := by
  intro hall
  have heof := (hall _ (oneSystem_reach finFirst (by decide +kernel))).2 (.eof [])
  have hnil : ([] : List UInt8) = [7] := heof (by decide)
  cases hnil

end Kil0yOS.Net
