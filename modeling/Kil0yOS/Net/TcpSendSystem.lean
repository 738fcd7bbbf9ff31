/-
The byte stream a TCP connection sends.

The application calls `tcp_send`, `tcp_poll` and `tcp_close` on an established
connection while the peer's segments arrive.  The state records the bytes taken into
the stream, how far the peer was sent to and has acknowledged, every segment
transmitted and every result of `tcp_send`.
-/
import Mathlib.Data.UInt
import Kil0yOS.Net.TcpSend

namespace Kil0yOS.Net

open Lib

/-! ## The connection and its peer -/

inductive SendObservation
  /-- A segment was transmitted when `taken` bytes were in the stream. -/
  | segment (seg : TcpSegment) (taken : Nat)
  /-- `tcp_send` succeeded when `taken` bytes were in the stream and the peer had
  acknowledged `acked`. -/
  | success (taken acked : Nat)

/-- The offset behind the last byte, or the FIN, of a segment, when `length` sequence
numbers have been taken up and `sndNxt` is the next. -/
def segEnd (length : Nat) (sndNxt : UInt32) (seg : TcpSegment) : Nat :=
  length - (sndNxt - seg.seq).toNat + seg.payload.length +
    (if seg.flags &&& tcpFlagFin ≠ 0 then 1 else 0)

structure SendSystem where
  net : NetState
  tx : TxSlot
  call : SendCall
  /-- The application's bytes in the order in which `tcp_send` took them. -/
  app : List UInt8
  /-- `tcp_close` has taken up the sequence number of the FIN. -/
  fin : Bool
  /-- The end of what was transmitted: an offset in the stream, the FIN behind its bytes. -/
  sent : Nat
  /-- The highest offset an acknowledgement of the peer has named. -/
  acked : Nat
  log : List SendObservation

inductive SendAction
  /-- A frame reaches `tcp_receive`.  If it acknowledges anything on this connection,
  it acknowledges the stream up to offset `k`. -/
  | frame (k : Nat) (srcIp : UInt32) (data : List UInt8)
  | send (data : List UInt8)
  | poll
  | close
  | advance (now : UInt64)
  /-- Anything happens to the other sockets. -/
  | others (sockets : Fin tcpMaxSockets → TcpSocket)

variable (i : Fin tcpMaxSockets)

namespace SendSystem

variable (s : SendSystem)

def sock : TcpSocket := s.net.sockets i

def length : Nat := s.app.length + s.fin.toNat

def receive (k : Nat) (srcIp : UInt32) (data : List UInt8) : SendSystem :=
  match tcpDemux s.net srcIp data with
  | none => s
  | some (j, h, payload) =>
    let r := tcpSegmentArrives (s.net.sockets j) h payload
    let s' := { s with net := { s.net with sockets := Function.update s.net.sockets j r.1 } }
    if j = i then
      { s' with
        acked := if h.flags &&& tcpFlagAck ≠ 0 then max s.acked k else s.acked
        log := s.log ++ r.2.map fun seg => .segment seg s.app.length }
    else s'

def apply (r : SendStep) : SendSystem :=
  let app := s.app ++ r.taken
  let reach := segEnd (app.length + s.fin.toNat) r.sock.sndNxt
  { s with
    net := { s.net with sockets := Function.update s.net.sockets i r.sock }
    tx := r.tx
    call := r.call
    app := app
    sent := r.segs.foldl (fun sent seg => max sent (reach seg)) s.sent
    log := s.log ++ r.segs.map (fun seg => .segment seg app.length) ++
      if r.result = some true then [.success app.length s.acked] else [] }

def step : SendAction → SendSystem
  | .frame k srcIp data => s.receive i k srcIp data
  | .send data =>
    if s.call = .idle ∧ (s.sock i).used ∧ (s.sock i).state = .established then
      { s with call := .take data }
    else s
  | .poll => if s.call = .idle then { s with call := .pollTest .application } else s
  | .close =>
    if s.call = .idle then
      let r := tcpCloseStart (s.sock i) s.tx
      { s.apply i r with fin := s.fin || r.call != .idle }
    else s
  | .advance now => s.apply i (sendAdvance (s.sock i) s.tx now s.call)
  | .others sockets =>
    { s with
      net := { s.net with sockets := fun j => if j = i then s.net.sockets i else sockets j } }

end SendSystem

variable (s : SendSystem)

/-- The environment: an acknowledgement names an offset up to which the connection was
sent, and a call of `tcp_send` has a 16-bit length. -/
def FromReceiver : SendAction → Prop
  | .frame k srcIp data =>
    ∀ seg ∈ tcpDemux s.net srcIp data, seg.1 = i → seg.2.1.flags &&& tcpFlagAck ≠ 0 →
      seg.2.1.ack = (s.sock i).iss + 1 + UInt32.ofNat k ∧ k ≤ s.sent
  | .send data => data.length < 2 ^ 16
  | _ => True

def SendSystem.Step (a : SendAction) (t : SendSystem) : Prop :=
  FromReceiver i s a ∧ t = s.step i a

/-- An established connection on which nothing has been sent yet. -/
structure Opened (s : SendSystem) : Prop where
  established : (s.sock i).state = .established
  sndUna : (s.sock i).sndUna = (s.sock i).iss + 1
  sndNxt : (s.sock i).sndNxt = (s.sock i).iss + 1
  txLen : (s.sock i).txLen = 0
  flags : s.tx.flags = tcpFlagSyn
  idle : s.call = .idle
  app : s.app = []
  fin : s.fin = false
  sent : s.sent = 0
  acked : s.acked = 0
  log : s.log = []

/-! ## What the stream should be -/

/-- How far the sequence number `seq` lies before the end of a stream of `taken`
bytes. -/
def backFrom (iss seq : UInt32) (taken : Nat) : Nat :=
  (iss + 1 + UInt32.ofNat taken - seq).toNat

/-- A segment carries the bytes of the stream at its sequence number, a FIN stands
behind the last byte, and `tcp_send` succeeds when the peer has acknowledged every byte
taken. -/
def SendSystem.Allows : SendObservation → Prop
  | .segment seg taken =>
    (seg.payload ≠ [] →
      backFrom (s.sock i).iss seg.seq taken ≤ taken ∧
        seg.payload <+: s.app.drop (taken - backFrom (s.sock i).iss seg.seq taken)) ∧
    (seg.flags &&& tcpFlagFin ≠ 0 → seg.seq = (s.sock i).iss + 1 + UInt32.ofNat s.app.length)
  | .success taken acked => taken ≤ acked

def SendSystem.SendOk : Prop := ∀ ob ∈ s.log, s.Allows i ob

/-! ## When the slot is not lost -/

/-- Is `tcp_close` about to send its FIN again? -/
def SendCall.resendsFin : SendCall → Bool
  | .finResend false _ => true
  | _ => false

/-- An acknowledgement covers either everything sent or nothing new, it is not older
than half the sequence space, and it does not overtake a FIN that is about to be sent
again.  A new chunk or a FIN is sent only when everything before it is acknowledged. -/
def SendSystem.Orderly : SendAction → Prop
  | .frame k srcIp data =>
    ∀ seg ∈ tcpDemux s.net srcIp data, seg.1 = i → seg.2.1.flags &&& tcpFlagAck ≠ 0 →
      s.sent < k + 2 ^ 31 ∧ (k ≤ s.acked ∨ k = s.sent ∧ s.call.resendsFin = false)
  | .send _ | .close => (s.sock i).sndUna = (s.sock i).sndNxt
  | _ => True

end Kil0yOS.Net
