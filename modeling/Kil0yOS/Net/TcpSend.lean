/-
The sending side of `kernel/net/tcp.c`: `tcp_send`, `tcp_poll` and `tcp_close` on one
connection of the socket table.

The network card interrupts between any two statements, so each call is cut into
steps at the points where a received segment can change what the call sends next.
The bytes and flags of the retransmit slot, `tx_seg` and `tx_flags`, are kept beside
the socket: the receive path never reads them.
-/
import Kil0yOS.Net.Tcp

namespace Kil0yOS.Net

open Lib

def tcpMss : Nat := 1400
def tcpRetries : Nat := 8
def tcpRtoUs : UInt64 := 300 * 1000

def tcpFlagPsh : UInt8 := 0x08

structure TxSlot where
  seg : List UInt8
  flags : UInt8
  deriving DecidableEq, Repr

variable (sock : TcpSocket)

def fillSlot (tx : TxSlot) (flags : UInt8) (chunk : List UInt8) : TcpSocket × TxSlot :=
  ({ sock with
      txLen := UInt16.ofNat chunk.length
      finQueued := flags &&& tcpFlagFin != 0
      txRetries := 0 },
    { seg := chunk ++ tx.seg.drop chunk.length, flags := flags ||| tcpFlagAck })

def TcpSocket.expired (now : UInt64) : Bool :=
  sock.txTimeUs != 0 && tcpRtoUs < now - sock.txTimeUs

def TcpSocket.resent (now : UInt64) : TcpSocket :=
  { sock with txTimeUs := now, txRetries := sock.txRetries + 1 }

/-- Who called `tcp_poll`: the application's own loop, or `tcp_send` with the bytes
not yet taken and the time its wait began. -/
inductive Poller
  | application
  | send (rest : List UInt8) (start : UInt64)
  deriving DecidableEq, Repr

/-- Where the application stands in a call. -/
inductive SendCall
  | idle
  /-- `tcp_send`, at the test for bytes left. -/
  | take (rest : List UInt8)
  /-- `snd_nxt` has been advanced over the chunk. -/
  | track (chunk rest : List UInt8)
  /-- The slot is filled. -/
  | transmit (chunk rest : List UInt8)
  /-- The chunk was transmitted; the timer is not armed. -/
  | arm (rest : List UInt8)
  /-- At the test of the waiting loop. -/
  | await (rest : List UInt8) (start : UInt64)
  /-- In `tcp_poll`, before its tests. -/
  | pollTest (caller : Poller)
  /-- In `tcp_poll`, before the transmission. -/
  | pollSend (caller : Poller)
  /-- In the waiting loop, behind `tcp_poll`. -/
  | polled (rest : List UInt8) (start : UInt64)
  /-- Behind the waiting loop. -/
  | judge (rest : List UInt8)
  /-- `tcp_close`, before the FIN; `last` says that the peer's FIN came first. -/
  | finSend (last : Bool)
  | finArm (last : Bool)
  /-- At the test of the waiting loop. -/
  | finAwait (last : Bool) (start : UInt64)
  /-- Before the test whether to send the FIN again. -/
  | finTest (last : Bool) (start : UInt64)
  /-- Before the FIN is sent again. -/
  | finResend (last : Bool) (start : UInt64)
  /-- Before the test of the time limit. -/
  | finLimit (last : Bool) (start : UInt64)
  | closeDone
  deriving DecidableEq, Repr

structure SendStep where
  sock : TcpSocket
  tx : TxSlot
  call : SendCall
  segs : List TcpSegment := []
  /-- The bytes taken into the stream. -/
  taken : List UInt8 := []
  /-- `tcp_send` returns: did it succeed? -/
  result : Option Bool := none

def Poller.back : Poller → SendCall
  | .application => .idle
  | .send rest start => .polled rest start

def closeLimit (last : Bool) : UInt64 := if last then 3000000 else 8000000

def closeWaits (last : Bool) (state : TcpState) : Bool :=
  if last then state == .lastAck else state != .closed && state != .timeWait

/-- One step of the running call; `now` is what `pit_uptime_us` answers. -/
def sendAdvance (tx : TxSlot) (now : UInt64) : SendCall → SendStep
  | .idle => { sock, tx, call := .idle }
  | .take rest =>
    if rest = [] then { sock, tx, call := .idle, result := some true }
    else
      let chunk := rest.take tcpMss
      { sock := { sock with sndNxt := sock.sndNxt + UInt32.ofNat chunk.length }
        tx, call := .track chunk (rest.drop tcpMss), taken := chunk }
  | .track chunk rest =>
    let filled := fillSlot sock tx (tcpFlagAck ||| tcpFlagPsh) chunk
    { sock := filled.1, tx := filled.2, call := .transmit chunk rest }
  | .transmit chunk rest =>
    { sock, tx, call := .arm rest, segs := tcpTransmitSeg sock sock.sndUna tx.flags chunk }
  | .arm rest => { sock := { sock with txTimeUs := now }, tx, call := .await rest now }
  | .await rest start =>
    if sock.txLen ≠ 0 ∧ sock.state = .established then
      { sock, tx, call := .pollTest (.send rest start) }
    else { sock, tx, call := .judge rest }
  | .pollTest caller =>
    if ! sock.used ∨ sock.txLen = 0 ∨ sock.txTimeUs = 0 then { sock, tx, call := caller.back }
    else if now - sock.txTimeUs < tcpRtoUs then { sock, tx, call := caller.back }
    else if tcpRetries ≤ sock.txRetries then
      { sock := { sock with state := .closed, txTimeUs := 0 }, tx, call := caller.back }
    else { sock, tx, call := .pollSend caller }
  | .pollSend caller =>
    { sock := sock.resent now, tx, call := caller.back
      segs := tcpTransmitSeg sock sock.sndUna tx.flags (tx.seg.take sock.txLen.toNat) }
  | .polled rest start =>
    if sock.txLen = 0 ∨ sock.state ≠ .established then { sock, tx, call := .judge rest }
    else if 15000000 < now - start then { sock, tx, call := .idle, result := some false }
    else { sock, tx, call := .await rest start }
  | .judge rest =>
    if sock.txLen ≠ 0 then { sock, tx, call := .idle, result := some false }
    else { sock, tx, call := .take rest }
  | .finSend last =>
    { sock, tx, call := .finArm last
      segs := tcpTransmitSeg sock (sock.sndNxt - 1) tx.flags [] }
  | .finArm last => { sock := { sock with txTimeUs := now }, tx, call := .finAwait last now }
  | .finAwait last start =>
    if closeWaits last sock.state then { sock, tx, call := .finTest last start }
    else { sock, tx, call := .closeDone }
  | .finTest last start =>
    if (last ∨ sock.txLen ≠ 0) ∧ sock.expired now then
      if tcpRetries ≤ sock.txRetries then { sock, tx, call := .closeDone }
      else { sock, tx, call := .finResend last start }
    else { sock, tx, call := .finLimit last start }
  | .finResend last start =>
    { sock := sock.resent now, tx, call := .finLimit last start
      segs := tcpTransmitSeg sock sock.sndUna tx.flags [] }
  | .finLimit last start =>
    if closeLimit last < now - start then { sock, tx, call := .closeDone }
    else { sock, tx, call := .finAwait last start }
  | .closeDone => { sock := { sock with state := .closed, used := false }, tx, call := .idle }

/-- `tcp_close` up to its first transmission. -/
def tcpCloseStart (tx : TxSlot) : SendStep :=
  if ! sock.used then { sock, tx, call := .idle }
  else
    match sock.state with
    | .closeWait =>
      { sock :=
          { sock with state := .lastAck, txRetries := 0, sndNxt := sock.sndNxt + 1 }
        tx := { tx with flags := tcpFlagAck ||| tcpFlagFin }
        call := .finSend true }
    | .established =>
      { sock :=
          { sock with
            txLen := 1
            finQueued := true
            txRetries := 0
            state := .finWait1
            sndNxt := sock.sndNxt + 1 }
        tx := { tx with flags := tcpFlagAck ||| tcpFlagFin }
        call := .finSend false }
    | _ => { sock := { sock with state := .closed, used := false }, tx, call := .idle }

end Kil0yOS.Net
