/-
`AF_UNIX` sockets, `net/unix_sock.c`: names, connections, and messages with file
references.

Positions in a stream count the bytes since the socket was made.  The queues of
connections and of references are lists with the bounds of the source.  The sender
in the header of a framed message is always 0 here: nothing reads it.  The
credentials of the peer are left out, and `unix_sendto_dgram`, which carries no
references.
-/
import Kil0yOS.Files.Table

namespace Kil0yOS.Files

open Function Unix

def unixScmMax : Nat := 8
def unixScmQlen : Nat := 8

variable (k : Nat)

def setSock (u : UnixSock) : M Unit :=
  modify fun s => s.putSock k u

def sockAt : M UnixSock := do
  let s ← get
  match s.socks k with
  | none => fault
  | some u => pure u

/-! ## Names and connections -/

def unixSocketCreate (type : SockType) : M (Option Nat) := do
  if ← kmalloc then
    if ← kmalloc then
      modifyGet fun s =>
        (some s.nextSock,
          { s with
            socks := update s.socks s.nextSock (some { type := type })
            nextSock := s.nextSock + 1 })
    else pure none
  else pure none

def unixBind (addr : UnixAddr) : M Int := do
  let u ← sockAt k
  let s ← get
  match u.bindSlot s.bindTab addr with
  | .error r => pure r
  | .ok i => do
    modify fun s => { s with bindTab := s.bindTab.set i (some (addr, k)) }
    setSock k { u with name := some addr }
    pure 0

def unixListen (backlog : Int) : M Int := do
  let u ← sockAt k
  match u.listen backlog with
  | .error r => pure r
  | .ok v => do
    setSock k { u with toSockCore := v }
    pure 0

/-- The connection of the client `k` with a new socket, which waits in the backlog
of the listener `l`. -/
def unixLink (k l child : Nat) : M Unit := do
  let lsn ← sockAt l
  let c ← sockAt child
  setSock child { c with state := .connected, peer := some k, name := lsn.name }
  let u ← sockAt k
  setSock k { u with peer := some child, state := .connected }
  let lsn ← sockAt l
  setSock l { lsn with pend := lsn.pend ++ [child] }

def unixConnect (addr : UnixAddr) : M Int := do
  let u ← sockAt k
  if u.state = .connected then pure (-eISCONN)
  else if addr.path.length = 0 ∨ addr.path.length > unixPathMax then pure (-eINVAL)
  else do
    let s ← get
    match bindFind s.bindTab addr with
    | none => pure (-eCONNREFUSED)
    | some l => do
      let lsn ← sockAt l
      if lsn.state ≠ .listening then pure (-eCONNREFUSED)
      else if (lsn.pend.length : Int) ≥ lsn.backlog then pure (-eAGAIN)
      else
        match ← unixSocketCreate lsn.type with
        | none => pure (-eNOMEM)
        | some child => do
          unixLink k l child
          pure 0

def unixAccept : M (Option Nat) := do
  let u ← sockAt k
  if u.state ≠ .listening then pure none
  else
    match u.pend with
    | [] => pure none
    | c :: cs => do
      setSock k { u with pend := cs }
      pure (some c)

def unixSocketpair (a b : Nat) : M Unit := do
  let ua ← sockAt a
  setSock a { ua with peer := some b, state := .connected }
  let ub ← sockAt b
  setSock b { ub with peer := some a, state := .connected }

/-! ## Streams -/

def unixSend (buf : List UInt8) : M Int := do
  let u ← sockAt k
  if u.state ≠ .connected then pure (-eNOTCONN)
  else
    match u.peer with
    | none => pure (-ePIPE)
    | some p => do
      let v ← sockAt p
      if v.rx.ringSpace < buf.length then pure (-eAGAIN)
      else do
        setSock p { v with rx := v.rx.ringWrite buf }
        pure buf.length

/-- The records whose message ends at `pos` or before, and the others. -/
def splitScm (pos : Nat) (scm : List Scm) : List Scm × List Scm :=
  (scm.takeWhile fun r => r.off ≤ pos, scm.dropWhile fun r => r.off ≤ pos)

/-- A read without a control buffer.  The references of the messages read to their
end are released. -/
def unixRecv (k len : Nat) : M (Int × List UInt8) := do
  let u ← sockAt k
  if u.type ≠ .stream then pure (-eINVAL, [])
  else if u.rx.ringUsed = 0 then
    if u.peer.isNone then pure (0, []) else pure (-eAGAIN, [])
  else do
    let r := u.rx.ringRead (min u.rx.ringUsed (len % 2 ^ 32))
    let q := splitScm r.2.ring.read u.scm
    let done := { u with scm := q.1 }
    setSock k { u with rx := r.2, scm := q.2 }
    modify fun s => { s with released := done.tokens k ++ s.released }
    fileCloses done.scmFiles
    pure (r.1.length, r.1)

/-! ## Messages with references -/

/-- `unix_sendmsg`.  The references in `fds` are the caller's, and a send that
succeeds takes them over; a queue that is full releases them, and a framed socket
does not look at them. -/
def unixSendmsg (iov : List (List UInt8)) (fds : List Nat) : M Int := do
  let u ← sockAt k
  if u.state ≠ .connected then pure (-eNOTCONN)
  else
    match u.peer with
    | none => pure (-ePIPE)
    | some p => do
      let v ← sockAt p
      let data := iov.flatten
      if data.length > unixRxbufSz - 16 then pure (-eMSGSIZE)
      else if v.type = .stream then
        if v.rx.ringSpace < data.length then pure (-eAGAIN)
        else do
          let v := { v with rx := v.rx.ringWrite data }
          let refs := fds.map fun f => { sock := p, off := v.rx.ring.written, file := f }
          modify fun s => { s with handed := refs ++ s.handed }
          if fds = [] then do
            setSock p v
            pure data.length
          else if v.scm.length ≥ unixScmQlen then do
            setSock p v
            modify fun s => { s with released := refs ++ s.released }
            fileCloses fds
            pure data.length
          else do
            setSock p { v with scm := v.scm ++ [{ off := v.rx.ring.written, files := fds }] }
            pure data.length
      else if data.length + recHdrSz > unixRxbufSz then pure (-eMSGSIZE)
      else if v.rx.ringSpace < data.length + recHdrSz then pure (-eAGAIN)
      else do
        let v := { v with rx := v.rx.putRecord 0 data }
        let refs := fds.map fun f => { sock := p, off := v.rx.ring.written, file := f }
        modify fun s => { s with handed := refs ++ s.handed }
        setSock p v
        pure data.length

/-- The loop that hands out references: `out` has been handed out so far.  A record
that does not fit leaves the queue all the same. -/
def deliver (absTail : Nat) : List ScmRef → Nat → List Scm → List ScmRef × List Scm
  | out, _, [] => (out, [])
  | out, k, r :: q =>
    if out.length ≥ unixScmMax then (out, r :: q)
    else if r.off > absTail then (out, r :: q)
    else
      deliver absTail
        (out ++ (r.files.take (unixScmMax - out.length)).map fun f =>
          { sock := k, off := r.off, file := f }) k q

/-- `unix_recvmsg`: the result, the bytes and the files handed to the caller. -/
def unixRecvmsg (lens : List Nat) : M (Int × List UInt8 × List Nat) := do
  let u ← sockAt k
  if u.type = .stream then
    if u.rx.ringUsed = 0 then
      if u.peer.isNone then pure (0, [], []) else pure (-eAGAIN, [], [])
    else do
      let r := u.rx.readIov lens
      let d := deliver r.2.ring.read [] k u.scm
      setSock k { u with rx := r.2, scm := d.2 }
      modify fun s =>
        { s with delivered := (d.1.map fun ref => (ref, r.2.ring.read)) ++ s.delivered }
      pure (r.1.length, r.1, d.1.map ScmRef.file)
  else if u.rx.msgCnt = 0 then pure (-eAGAIN, [], [])
  else if lens.sum = 0 then pure (-eMSGSIZE, [], [])
  else if ← kmalloc then do
    let r := u.rx.framedPop lens.sum
    setSock k { u with rx := r.2 }
    pure (r.1.length, r.1, [])
  else pure (-eNOMEM, [], [])

end Kil0yOS.Files
