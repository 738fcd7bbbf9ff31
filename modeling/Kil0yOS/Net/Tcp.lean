/-
The TCP client of `kernel/net/tcp.c`: sockets, the receive state machine and the
passes of `tcp_recv`.

A socket keeps the fields of `tcp_socket_t`; its receive ring `rx_buf`,
`rx_head`, `rx_tail` is a `Ring` of `tcpRxBufsz` cells.  A segment handed to
`ipv4_transmit` is returned as data.  Waking the waiters of the network queue is
left to the scheduler's model.
-/
import Mathlib.Algebra.Group.Nat.Defs
import Kil0yOS.Lib.Ring

namespace Kil0yOS.Net

open Lib

/-! ## Data -/

abbrev tcpMaxSockets : Nat := 8
def tcpRxBufsz : Nat := 64 * 1024
def netMaxPacket : Nat := 2048

def tcpFlagFin : UInt8 := 0x01
def tcpFlagSyn : UInt8 := 0x02
def tcpFlagRst : UInt8 := 0x04
def tcpFlagAck : UInt8 := 0x10

inductive TcpState
  | closed
  | synSent
  | established
  | finWait1
  | finWait2
  | timeWait
  | closeWait
  | lastAck
  | closing
  deriving DecidableEq, Repr

structure TcpSocket where
  used : Bool
  state : TcpState
  remoteIp : UInt32
  remotePort : UInt16
  localPort : UInt16
  iss : UInt32
  sndUna : UInt32
  sndNxt : UInt32
  txLen : UInt16
  txTimeUs : UInt64
  txRetries : Nat
  finQueued : Bool
  rcvNxt : UInt32
  rx : Lib.Ring UInt8
  rxFin : Bool

structure TcpHeader where
  srcPort : UInt16
  dstPort : UInt16
  seq : UInt32
  ack : UInt32
  dataOff : UInt8
  flags : UInt8
  deriving DecidableEq, Repr

structure TcpSegment where
  dstIp : UInt32
  srcPort : UInt16
  dstPort : UInt16
  seq : UInt32
  ack : UInt32
  flags : UInt8
  window : Nat
  payload : List UInt8
  deriving DecidableEq, Repr

/-- The socket table together with the interface address. -/
structure NetState where
  ip : UInt32
  sockets : Fin tcpMaxSockets → TcpSocket

variable (sock : TcpSocket)

def TcpSocket.ring : List UInt8 := sock.rx.items tcpRxBufsz

/-! ## Wire helpers -/

def be16 (data : List UInt8) (k : Nat) : UInt16 :=
  (data.getD k 0).toUInt16 <<< 8 ||| (data.getD (k + 1) 0).toUInt16

def be32 (data : List UInt8) (k : Nat) : UInt32 :=
  (be16 data k).toUInt32 <<< 16 ||| (be16 data (k + 2)).toUInt32

def tcpHeader (data : List UInt8) : TcpHeader :=
  { srcPort := be16 data 0
    dstPort := be16 data 2
    seq := be32 data 4
    ack := be32 data 8
    dataOff := data.getD 12 0
    flags := data.getD 13 0 }

/-- The sum of the little-endian words of a byte string, an odd last byte
counting as a word. -/
def wordSum : List UInt8 → Nat
  | [] => 0
  | [a] => a.toNat
  | a :: b :: rest => a.toNat + 256 * b.toNat + wordSum rest

/-- The loop that adds the carries back in, at most `fuel` times. -/
def foldCarry : Nat → Nat → Nat
  | 0, sum => sum
  | fuel + 1, sum => if sum / 65536 = 0 then sum else foldCarry fuel (sum % 65536 + sum / 65536)

def ipBytes (ip : UInt32) : List UInt8 :=
  [(ip >>> 24).toUInt8, (ip >>> 16).toUInt8, (ip >>> 8).toUInt8, ip.toUInt8]

def tcpChecksum (srcIp dstIp : UInt32) (seg : List UInt8) : UInt16 :=
  let segLen := UInt16.ofNat seg.length
  let ph : List UInt8 :=
    ipBytes srcIp ++ ipBytes dstIp ++ [(0 : UInt8), 6, (segLen >>> 8).toUInt8, segLen.toUInt8]
  ~~~ UInt16.ofNat (foldCarry 3 (wordSum ph + wordSum seg))

/-- `tcp_transmit_seg`: the segment carries the receiver's current `rcv_nxt` and
the free ring space.  A segment too long for a packet is not sent. -/
def tcpTransmitSeg (seq : UInt32) (flags : UInt8) (payload : List UInt8) : List TcpSegment :=
  if 24 + payload.length > netMaxPacket - 20 then []
  else
    [{ dstIp := sock.remoteIp
       srcPort := sock.localPort
       dstPort := sock.remotePort
       seq := seq
       ack := sock.rcvNxt
       flags := flags
       window := tcpRxBufsz - 1 - sock.rx.used tcpRxBufsz
       payload := payload }]

/-- `tcp_rx_push`: bytes that do not fit into the ring are dropped. -/
def tcpRxPush (data : List UInt8) : TcpSocket :=
  { sock with rx := sock.rx.pushAll tcpRxBufsz data }

/-! ## Receive state machine -/

/-- The block of `tcp_receive` that retires the retransmit slot. -/
def tcpProcessAck (flags : UInt8) (ack : UInt32) : TcpSocket :=
  if flags &&& tcpFlagAck ≠ 0 then
    if 0 < (ack - sock.sndUna).toInt32 ∧ 0 ≤ (sock.sndNxt - ack).toInt32 then
      { sock with sndUna := ack, txLen := 0, txTimeUs := 0, finQueued := false, txRetries := 0 }
    else sock
  else sock

/-- The block of `tcp_receive` that takes in-order data.  `rcv_nxt` moves by the
whole payload, whatever the ring kept of it. -/
def tcpInOrderData (seq : UInt32) (payload : List UInt8) : TcpSocket × List TcpSegment :=
  if 0 < payload.length then
    let sock :=
      if seq = sock.rcvNxt then
        { tcpRxPush sock payload with rcvNxt := sock.rcvNxt + UInt32.ofNat payload.length }
      else sock
    (sock, tcpTransmitSeg sock sock.sndNxt tcpFlagAck [])
  else (sock, [])

/-- The block of `tcp_receive` that takes a FIN. -/
def tcpProcessFin (flags : UInt8) (seq : UInt32) (payloadLen : Nat) : TcpSocket × List TcpSegment :=
  if flags &&& tcpFlagFin ≠ 0 then
    let finEnd := seq + UInt32.ofNat payloadLen + 1
    let sock :=
      { sock with
        rcvNxt := if sock.rcvNxt < finEnd then finEnd else sock.rcvNxt
        rxFin := true }
    let state :=
      match sock.state with
      | .established => .closeWait
      | .finWait1 => .closing
      | .finWait2 => .timeWait
      | s => s
    ({ sock with state := state }, tcpTransmitSeg sock sock.sndNxt tcpFlagAck [])
  else (sock, [])

/-- The transitions driven by the acknowledgement of our own FIN. -/
def tcpFinAcked : TcpSocket :=
  let sock :=
    if sock.state = .finWait1 ∧ sock.txLen = 0 ∧ sock.finQueued = false then
      { sock with state := .finWait2 }
    else sock
  if sock.state = .closing ∧ sock.txLen = 0 then { sock with state := .timeWait } else sock

/-- What `tcp_receive` does with a segment that found its socket and passed the
checksum. -/
def tcpSegmentArrives (h : TcpHeader) (payload : List UInt8) : TcpSocket × List TcpSegment :=
  if h.flags &&& tcpFlagRst ≠ 0 then ({ sock with state := .closed }, [])
  else
    match sock.state with
    | .synSent =>
      if h.flags &&& tcpFlagSyn ≠ 0 ∧ h.flags &&& tcpFlagAck ≠ 0 ∧ h.ack = sock.iss + 1 then
        let sock :=
          { sock with
            rcvNxt := h.seq + 1 + UInt32.ofNat payload.length
            sndUna := h.ack
            state := .established
            txTimeUs := 0
            txRetries := 0 }
        let sock := tcpRxPush sock payload
        (sock, tcpTransmitSeg sock sock.sndNxt tcpFlagAck [])
      else (sock, [])
    | .established | .finWait1 | .finWait2 | .closing =>
      let acked := tcpProcessAck sock h.flags h.ack
      let data := tcpInOrderData acked h.seq payload
      let fin := tcpProcessFin data.1 h.flags h.seq payload.length
      (tcpFinAcked fin.1, data.2 ++ fin.2)
    | .lastAck =>
      if h.flags &&& tcpFlagAck ≠ 0 ∧ h.ack = sock.sndNxt then
        ({ sock with state := .closed }, [])
      else (sock, [])
    | .timeWait =>
      if h.flags &&& tcpFlagFin ≠ 0 then (sock, tcpTransmitSeg sock sock.sndNxt tcpFlagAck [])
      else (sock, [])
    | .closed | .closeWait => (sock, [])

/-- Does a segment from `srcIp` belong to this socket? -/
def TcpSocket.accepts (srcIp : UInt32) (h : TcpHeader) : Bool :=
  sock.used && sock.localPort == h.dstPort && sock.remotePort == h.srcPort &&
    sock.state != .closed && sock.remoteIp == srcIp

/-- The front of `tcp_receive`: header length checks, socket lookup and
checksum. -/
def tcpDemux (net : NetState) (srcIp : UInt32) (data : List UInt8) :
    Option (Fin tcpMaxSockets × TcpHeader × List UInt8) :=
  if data.length < 20 then none
  else
    let h := tcpHeader data
    let off := (h.dataOff >>> 4).toNat * 4
    if off < 20 ∨ data.length < off then none
    else
      match (List.finRange tcpMaxSockets).find? fun i => (net.sockets i).accepts srcIp h with
      | none => none
      | some i =>
        if tcpChecksum srcIp net.ip data ≠ 0 then none else some (i, h, data.drop off)

/-- `tcp_receive`, with the socket that took the segment and what it sent. -/
def tcpReceive (net : NetState) (srcIp : UInt32) (data : List UInt8) :
    NetState × Option (Fin tcpMaxSockets × List TcpSegment) :=
  match tcpDemux net srcIp data with
  | none => (net, none)
  | some (i, h, payload) =>
    let r := tcpSegmentArrives (net.sockets i) h payload
    ({ net with sockets := Function.update net.sockets i r.1 }, some (i, r.2))

/-! ## `tcp_recv` -/

/-- Where a running `tcp_recv` call stands.  A frame can be received between any
two of these points: `netif_poll` runs at the top of each pass and the network
card interrupts everywhere else. -/
inductive RecvCall
  | idle
  /-- After `netif_poll`, before the test for a closed connection. -/
  | polled (maxlen : Nat)
  /-- Before the test whether the ring holds data. -/
  | testRing (maxlen : Nat)
  /-- In the copy loop, with `left` bytes of the caller's buffer free. -/
  | drain (left : Nat)
  /-- Before the window update that follows the copy loop. -/
  | windowUpdate
  /-- Before the test of `rx_fin`. -/
  | testFin (maxlen : Nat)
  /-- Before the test of the timeout. -/
  | waiting (maxlen : Nat)
  deriving DecidableEq, Repr

inductive RecvEvent
  | silent
  /-- One byte was copied into the caller's buffer. -/
  | byte (b : UInt8)
  /-- The call sent a segment and returned the number of bytes copied. -/
  | sent (segs : List TcpSegment)
  /-- The call returned 0 for end of stream. -/
  | eof
  /-- The call returned -1. -/
  | error
  deriving DecidableEq, Repr

/-- One step of a running `tcp_recv` call.  `giveUp` says whether the timeout has
run out. -/
def tcpRecvStep (giveUp : Bool) : RecvCall → TcpSocket × RecvCall × RecvEvent
  | .idle => (sock, .idle, .silent)
  | .polled m =>
    if sock.state = .closed ∧ sock.rx.head = sock.rx.tail then (sock, .idle, .error)
    else (sock, .testRing m, .silent)
  | .testRing m =>
    if sock.rx.head ≠ sock.rx.tail then (sock, .drain m, .silent) else (sock, .testFin m, .silent)
  | .drain left =>
    if 0 < left ∧ sock.rx.tail ≠ sock.rx.head then
      ({ sock with rx := sock.rx.pop tcpRxBufsz }, .drain (left - 1),
        .byte (sock.rx.buf sock.rx.tail))
    else (sock, .windowUpdate, .silent)
  | .windowUpdate => (sock, .idle, .sent (tcpTransmitSeg sock sock.sndNxt tcpFlagAck []))
  | .testFin m => if sock.rxFin then (sock, .idle, .eof) else (sock, .waiting m, .silent)
  | .waiting m => if giveUp then (sock, .idle, .error) else (sock, .polled m, .silent)

/-- An established connection on which nothing was sent and nothing received yet. -/
def quietSocket (rcvNxt : UInt32) : TcpSocket :=
  { used := true, state := .established, remoteIp := 0x0A000202, remotePort := 80,
    localPort := 49152, iss := 0, sndUna := 1, sndNxt := 1, txLen := 0, txTimeUs := 0,
    txRetries := 0, finQueued := false, rcvNxt := rcvNxt,
    rx := { buf := fun _ => 0, head := 0, tail := 0 }, rxFin := false }

end Kil0yOS.Net
