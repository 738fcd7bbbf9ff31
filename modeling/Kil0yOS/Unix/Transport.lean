/-
The transport of `AF_UNIX` sockets, `net/unix_sock.c`, with the pointers it keeps: peers,
bind table, backlogs, and the senders in the headers of framed messages.

Sockets are known by their addresses.  What is freed is removed from the heap, and its
address can be given out again; a function that goes through a pointer to something freed
has no result.  Every call of the source that allocates takes what `kmalloc` answers.  The
references to files that travel with messages are left to the model of open files: when one
of them is the last of a socket, that socket is closed by a step of its own.
-/
import Kil0yOS.Unix.Socket

namespace Kil0yOS.Unix

open Function

structure Sock extends SockCore Ptr where
  peer : Ptr := 0

structure State where
  socks : Ptr → Option Sock
  bindTab : List (Option (UnixAddr × Ptr))

abbrev M := StateT State Option

variable (k : Ptr)

def sockAt : M Sock := fun s =>
  match s.socks k with
  | none => none
  | some u => some (u, s)

def setSock (u : Sock) : M Unit :=
  modify fun s => { s with socks := update s.socks k (some u) }

def kfree : M Unit :=
  modify fun s => { s with socks := update s.socks k none }

/-! ## Lifecycle -/

def scrubRingSrc (u : Sock) (dying : Ptr) : Sock :=
  if u.type = .stream ∨ u.rx.msgCnt = 0 then u
  else { u with rx := Rx.scrubLoop dying u.rx.msgCnt 0 u.rx }

/-- `mem` is the memory that `kmalloc` gives, if it gives any; it is in use for nothing
else. -/
def unixSocketCreate (type : SockType) (mem : Option Ptr) : M Ptr := do
  let s ← get
  match mem with
  | none => pure 0
  | some a =>
    if a = 0 ∨ (s.socks a).isSome then pure 0
    else do
      setSock a { type := type }
      pure a

/-- The peer of a socket that goes away sees the end of its stream. -/
def orphan (p : Ptr) (f : Sock → Sock) : M Unit := do
  if p ≠ 0 then do
    let v ← sockAt p
    setSock p (f { v with peer := 0 })
  else pure ()

def refuse : List Ptr → M Unit
  | [] => pure ()
  | c :: cs => do
    if c ≠ 0 then do
      let v ← sockAt c
      orphan v.peer id
      kfree c
    else pure ()
    refuse cs

def unixSockClose : M Unit := do
  let u ← sockAt k
  modify fun s =>
    { s with bindTab := s.bindTab.map fun n => n.filter fun b => b.2 ≠ k }
  orphan u.peer fun v => scrubRingSrc v k
  refuse u.pend
  kfree k

/-! ## Names and connections -/

def unixBind (addr : UnixAddr) : M Int := do
  let u ← sockAt k
  let s ← get
  match u.bindSlot s.bindTab addr with
  | .error r => pure r
  | .ok i => do
    modify fun s => { s with bindTab := s.bindTab.set i (some (addr, k)) }
    setSock k { u with name := some addr }
    pure 0

def unixUnlinkPath (path : List UInt8) : M Int := do
  let s ← get
  if path.length = 0 ∨ path.length > unixPathMax then pure (-eINVAL)
  else
    match s.bindTab.findIdx? fun n => n.any fun b => b.1 = ⟨false, path⟩ with
    | none => pure (-2)
    | some i => do
      modify fun s => { s with bindTab := s.bindTab.set i none }
      pure 0

def unixListen (backlog : Int) : M Int := do
  let u ← sockAt k
  match u.listen backlog with
  | .error r => pure r
  | .ok v => do
    setSock k { u with toSockCore := v }
    pure 0

/-- The connection of the client `k` with the new socket `child`, which waits in the backlog
of the listener `l`. -/
def unixLink (k l child : Ptr) : M Unit := do
  let lsn ← sockAt l
  let c ← sockAt child
  setSock child { c with state := .connected, peer := k, name := lsn.name }
  let u ← sockAt k
  setSock k { u with peer := child, state := .connected }
  let lsn ← sockAt l
  setSock l { lsn with pend := lsn.pend ++ [child] }

def unixConnect (addr : UnixAddr) (mem : Option Ptr) : M Int := do
  let u ← sockAt k
  if u.state = .connected then pure (-eISCONN)
  else if addr.path.length = 0 ∨ addr.path.length > unixPathMax then pure (-eINVAL)
  else do
    let s ← get
    match bindFind s.bindTab addr with
    | none => pure (-eCONNREFUSED)
    | some l => do
      let lsn ← sockAt l
      if lsn.state ≠ .listening then pure (-eCONNREFUSED)
      else if (lsn.pend.length : Int) ≥ lsn.backlog then pure (-eAGAIN)
      else do
        let child ← unixSocketCreate lsn.type mem
        if child = 0 then pure (-eNOMEM)
        else do
          unixLink k l child
          pure 0

def unixAccept : M Ptr := do
  let u ← sockAt k
  if u.state ≠ .listening then pure 0
  else
    match u.pend with
    | [] => pure 0
    | c :: cs => do
      setSock k { u with pend := cs }
      pure c

def unixSocketpair (a b : Ptr) : M Unit := do
  let ua ← sockAt a
  setSock a { ua with peer := b, state := .connected }
  let ub ← sockAt b
  setSock b { ub with peer := a, state := .connected }

/-! ## Data -/

/-- The bytes that are left of a buffer when its length is made an `int`. -/
def cut (buf : List UInt8) : List UInt8 := buf.take (buf.length % 2 ^ 32)

/-- A length below 2^32 as an `int`. -/
def asInt (len : Nat) : Int := if len < 2 ^ 31 then len else len - 2 ^ 32

def setRx (u : Sock) (rx : Rx) : M Unit := setSock k { u with rx := rx }

def unixSend (data : List UInt8) : M Int := do
  let u ← sockAt k
  if u.state ≠ .connected then pure (-eNOTCONN)
  else if u.peer = 0 then pure (-ePIPE)
  else do
    let v ← sockAt u.peer
    if v.rx.ringSpace < data.length then pure (-eAGAIN)
    else do
      setRx u.peer v (v.rx.ringWrite data)
      pure (asInt data.length)

def unixRecv (len : Nat) : M Int := do
  let u ← sockAt k
  if u.type ≠ .stream then pure (-eINVAL)
  else if u.rx.ringUsed = 0 then
    if u.peer = 0 then pure 0 else pure (-eAGAIN)
  else do
    let n := min u.rx.ringUsed (len % 2 ^ 32)
    setRx k u (u.rx.ringRead n).2
    pure n

/-- Where `unix_sendto_dgram` sends to: the peer, or else the socket bound to the address.
An address in the abstract name space has a negative length there and counts as none. -/
def dgramTarget (s : State) (u : Sock) (dst : Option UnixAddr) : Except Int Ptr :=
  if u.peer ≠ 0 then .ok u.peer
  else
    match dst with
    | none => .error (-eNOTCONN)
    | some addr =>
      if addr.isAbstract then .error (-eNOTCONN)
      else
        match bindFind s.bindTab addr with
        | none => .error (-eCONNREFUSED)
        | some p => .ok p

def unixSendtoDgram (data : List UInt8) (dst : Option UnixAddr) : M Int := do
  let u ← sockAt k
  if u.type = .stream then pure (-eINVAL)
  else do
    let s ← get
    match dgramTarget s u dst with
    | .error r => pure r
    | .ok p => do
      let v ← sockAt p
      let need := (data.length + recHdrSz) % 2 ^ 32
      if need > unixRxbufSz then pure (-eMSGSIZE)
      else if v.rx.ringSpace < need then pure (-eAGAIN)
      else do
        setRx p v (v.rx.putRecord k data)
        pure (asInt data.length)

def unixSendmsg (iov : List (List UInt8)) : M Int := do
  let u ← sockAt k
  if u.state ≠ .connected then pure (-eNOTCONN)
  else if u.peer = 0 then pure (-ePIPE)
  else do
    let v ← sockAt u.peer
    let data := iov.flatten
    if data.length > unixRxbufSz - 16 then pure (-eMSGSIZE)
    else if v.type = .stream then
      if v.rx.ringSpace < data.length then pure (-eAGAIN)
      else do
        setRx u.peer v (v.rx.ringWrite data)
        pure data.length
    else if data.length + recHdrSz > unixRxbufSz then pure (-eMSGSIZE)
    else if v.rx.ringSpace < data.length + recHdrSz then pure (-eAGAIN)
    else do
      setRx u.peer v (v.rx.putRecord k data)
      pure data.length

/-- `mem` says whether there is memory for the staging buffer. -/
def unixRecvmsg (lens : List Nat) (mem : Bool) : M Int := do
  let u ← sockAt k
  if u.type = .stream then
    if u.rx.ringUsed = 0 then
      if u.peer = 0 then pure 0 else pure (-eAGAIN)
    else do
      let r := u.rx.readIov lens
      setRx k u r.2
      pure r.1.length
  else if u.rx.msgCnt = 0 then pure (-eAGAIN)
  else if lens.sum = 0 then pure (-eMSGSIZE)
  else if mem then do
    let r := u.rx.framedPop lens.sum
    setRx k u r.2
    pure r.1.length
  else pure (-eNOMEM)

/-! ## System calls -/

/-- `file` says whether there is a file object and a descriptor for the new socket. -/
def scSocket (type : SockType) (mem : Option Ptr) (file : Bool) : M Ptr := do
  let k ← unixSocketCreate type mem
  if k = 0 then pure 0
  else if file then pure k
  else do
    unixSockClose k
    pure 0

def scSocketpair (type : SockType) (mem mem' : Option Ptr) (files : Bool) :
    M (Option (Ptr × Ptr)) := do
  let a ← unixSocketCreate type mem
  if a = 0 then pure none
  else do
    let b ← unixSocketCreate type mem'
    if b = 0 then do
      unixSockClose a
      pure none
    else do
      unixSocketpair a b
      if files then pure (some (a, b))
      else do
        unixSockClose a
        unixSockClose b
        pure none

def scAccept4 (file : Bool) : M Ptr := do
  let c ← unixAccept k
  if c = 0 then pure 0
  else if file then pure c
  else do
    unixSockClose c
    pure 0

def scWrite (buf : List UInt8) : M Int :=
  if buf = [] then pure 0 else unixSend k (buf.take 0x7FFFFFFF)

def scSendto (buf : List UInt8) (dst : Option UnixAddr) : M Int := do
  if buf = [] then pure 0
  else do
    let u ← sockAt k
    if u.type = .stream then
      if dst.isSome then pure (-eINVAL) else unixSend k (cut buf)
    else unixSendtoDgram k (cut buf) dst

def scRecvfrom (len : Nat) (mem : Bool) : M Int := do
  if len = 0 then pure 0
  else do
    let u ← sockAt k
    if u.type = .stream then unixRecv k len else unixRecvmsg k [len] mem

/-! ## Runs -/

/-- The sockets, those of them that have a file, and beside them what was sent to a socket
and has not been received: messages, and for a stream the bytes of its peer. -/
structure System where
  st : State
  fds : List Ptr
  msgs : Ptr → List (List UInt8)
  bytes : Ptr → List UInt8
  /-- A pointer to something freed was used. -/
  faulted : Bool

inductive Op
  | socket (type : SockType) (mem : Option Ptr) (file : Bool)
  | socketpair (type : SockType) (mem mem' : Option Ptr) (files : Bool)
  | bind (k : Ptr) (addr : UnixAddr)
  | listen (k : Ptr) (backlog : Int)
  | connect (k : Ptr) (addr : UnixAddr) (mem : Option Ptr)
  | accept (k : Ptr) (file : Bool)
  | write (k : Ptr) (buf : List UInt8)
  | sendto (k : Ptr) (buf : List UInt8) (dst : Option UnixAddr)
  | sendmsg (k : Ptr) (iov : List (List UInt8))
  | read (k : Ptr) (len : Nat)
  | recvfrom (k : Ptr) (len : Nat) (mem : Bool)
  | recvmsg (k : Ptr) (lens : List Nat) (mem : Bool)
  | close (k : Ptr)
  | unlink (path : List UInt8)

namespace System

variable (s : System)

/-- The socket that a message of `k` goes to. -/
def target (k : Ptr) (dst : Option UnixAddr) : Ptr :=
  match s.st.socks k with
  | none => 0
  | some u =>
    match dgramTarget s.st u dst with
    | .error _ => 0
    | .ok p => p

def sent (k p : Ptr) (data : List UInt8) : System :=
  match s.st.socks p with
  | none => s
  | some v =>
    if v.type = .stream then
      if v.peer = k then { s with bytes := update s.bytes p (s.bytes p ++ data) } else s
    else { s with msgs := update s.msgs p (s.msgs p ++ [data]) }

def received (k : Ptr) (n : Nat) : System :=
  match s.st.socks k with
  | none => s
  | some u =>
    if u.type = .stream then { s with bytes := update s.bytes k ((s.bytes k).drop n) }
    else { s with msgs := update s.msgs k (s.msgs k).tail }

def opened (k : Ptr) : System :=
  { s with msgs := update s.msgs k [], bytes := update s.bytes k [] }

def filed (k : Ptr) : System := { s.opened k with fds := k :: s.fds }

/-- A call: what it leaves, and what is noted of its result. -/
def call {α : Type} (x : M α) (note : α → System) : System :=
  match x s.st with
  | none => { s with faulted := true }
  | some (a, t) => { note a with st := t }

def callOn {α : Type} (k : Ptr) (x : M α) (note : α → System) : System :=
  if k ∈ s.fds then s.call x note else s

def step : Op → System
  | .socket type mem file =>
    s.call (scSocket type mem file) fun k => if k = 0 then s else s.filed k
  | .socketpair type mem mem' files =>
    s.call (scSocketpair type mem mem' files) fun r =>
      match r with
      | none => s
      | some (a, b) => (s.filed a).filed b
  | .bind k addr => s.callOn k (unixBind k addr) fun _ => s
  | .listen k backlog => s.callOn k (unixListen k backlog) fun _ => s
  | .connect k addr mem =>
    s.callOn k (unixConnect k addr mem) fun r =>
      if r = 0 then s.opened (mem.getD 0) else s
  | .accept k file =>
    s.callOn k (scAccept4 k file) fun c => if c = 0 then s else { s with fds := c :: s.fds }
  | .write k buf =>
    s.callOn k (scWrite k buf) fun r =>
      if 0 < r then s.sent k (s.target k none) (buf.take 0x7FFFFFFF) else s
  | .sendto k buf dst =>
    s.callOn k (scSendto k buf dst) fun r =>
      if 0 ≤ r ∧ buf ≠ [] then s.sent k (s.target k dst) (cut buf) else s
  | .sendmsg k iov =>
    s.callOn k (unixSendmsg k iov) fun r =>
      if 0 ≤ r then s.sent k (s.target k none) iov.flatten else s
  | .read k len =>
    s.callOn k (unixRecv k (min len 0x7FFFFFFF)) fun r => if 0 < r then s.received k r.toNat else s
  | .recvfrom k len mem =>
    s.callOn k (scRecvfrom k len mem) fun r =>
      if 0 ≤ r ∧ len ≠ 0 then s.received k r.toNat else s
  | .recvmsg k lens mem =>
    s.callOn k (unixRecvmsg k lens mem) fun r => if 0 ≤ r then s.received k r.toNat else s
  | .close k =>
    s.callOn k (unixSockClose k) fun _ => { s with fds := s.fds.erase k }
  | .unlink path => s.call (unixUnlinkPath path) fun _ => s

def Init (s : System) : Prop :=
  (∀ k, s.st.socks k = none) ∧ s.st.bindTab = List.replicate unixBindMax none ∧ s.fds = [] ∧
    s.faulted = false

end System

end Kil0yOS.Unix
