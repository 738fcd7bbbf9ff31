/-
What an `AF_UNIX` socket holds, `net/unix_sock.c`: its receive buffer with the headers of
framed messages, and what `unix_bind` and `unix_listen` look at.

Two models are made from it, one of the pointers between sockets and the senders in the
headers, and one of the references to files that travel with messages.  Sockets are known by
addresses in the one and by numbers in the other.
-/
import Kil0yOS.Lib.Spool

namespace Kil0yOS.Unix

open Function

def eAGAIN : Int := 11
def eINVAL : Int := 22
def eNOMEM : Int := 12
def eMSGSIZE : Int := 90
def ePIPE : Int := 32
def eCONNREFUSED : Int := 111
def eADDRINUSE : Int := 98
def eISCONN : Int := 106
def eNOTCONN : Int := 107

def unixPathMax : Nat := 108
def unixRxbufSz : Nat := 65536
def unixBacklog : Nat := 16
def unixBindMax : Nat := 32

def recHdrSz : Nat := 16

abbrev Ptr := UInt64

/-- The receive buffer, and how many whole records it holds. -/
structure Rx where
  ring : Lib.Spool UInt8 := .empty 0
  msgCnt : Nat := 0

/-! ## The ring -/

namespace Rx

variable (b : Rx)

def ringUsed : Nat := (b.ring.written + (2 ^ 32 - b.ring.read % 2 ^ 32)) % 2 ^ 32

def ringSpace : Nat := (unixRxbufSz + (2 ^ 32 - b.ringUsed)) % 2 ^ 32

def ringWrite (data : List UInt8) : Rx := { b with ring := b.ring.write unixRxbufSz data }

def ringRead (len : Nat) : List UInt8 × Rx :=
  let r := b.ring.take unixRxbufSz len
  (r.1, { b with ring := r.2 })

/-- The bytes at an offset from the oldest one. -/
def ringPeek (off len : Nat) : List UInt8 := b.ring.peek unixRxbufSz off len

end Rx

structure RecHdr where
  len : Nat
  src : Ptr

def RecHdr.bytes (h : RecHdr) : List UInt8 :=
  Lib.leBytes 4 h.len ++ (Lib.leBytes 4 0 ++ Lib.leBytes 8 h.src.toNat)

def readHdr (bytes : List UInt8) : RecHdr where
  len := Lib.leNat (bytes.take 4)
  src := UInt64.ofNat (Lib.leNat ((bytes.drop 8).take 8))

namespace Rx

def headerLoop (b : Rx) : Nat → Nat → List RecHdr
  | 0, _ => []
  | m + 1, off =>
    let h := readHdr (b.ringPeek off recHdrSz)
    h :: headerLoop b m (off + recHdrSz + h.len)

def headers (b : Rx) : List RecHdr := b.headerLoop b.msgCnt 0

def scrubLoop (dying : Ptr) : Nat → Nat → Rx → Rx
  | 0, _, b => b
  | m + 1, off, b =>
    let h := readHdr (b.ringPeek off recHdrSz)
    scrubLoop dying m (off + recHdrSz + h.len)
      (if h.src = dying then
        { b with ring := b.ring.poke unixRxbufSz (off + 8) (List.replicate 8 0) }
      else b)

/-- `framed_pop`: one whole message leaves the buffer, and as much of it is returned as the
caller has room for. -/
def framedPop (b : Rx) (len : Nat) : List UInt8 × Rx :=
  let r := b.ringRead recHdrSz
  let h := readHdr r.1
  let n := min h.len (len % 2 ^ 32)
  let d := { r.2 with msgCnt := r.2.msgCnt - 1 }.ringRead n
  (d.1, (d.2.ringRead (h.len - n)).2)

/-- Fills the buffers of a scattered read, up to the first for which there is nothing. -/
def readIov (b : Rx) : List Nat → List UInt8 × Rx
  | [] => ([], b)
  | len :: lens =>
    let want := min b.ringUsed len
    if want = 0 then ([], b)
    else
      let r := b.ringRead want
      let r' := readIov r.2 lens
      (r.1 ++ r'.1, r'.2)

end Rx

def Rx.putRecord (b : Rx) (src : Ptr) (data : List UInt8) : Rx :=
  let b := (b.ringWrite (RecHdr.bytes ⟨data.length, src⟩)).ringWrite data
  { b with msgCnt := b.msgCnt + 1 }

/-! ## Sockets -/

inductive SockType
  | stream
  | dgram
  | seqpacket
deriving DecidableEq, Repr

/-- The states of a socket.  `US_CLOSED` is left out: a socket that enters it is
freed by the same call. -/
inductive SockState
  | idle
  | listening
  | connected
deriving DecidableEq, Repr

/-- An address: a path or, in the abstract name space, any bytes. -/
structure UnixAddr where
  isAbstract : Bool
  path : List UInt8
deriving DecidableEq, Repr

structure SockCore (ι : Type) where
  type : SockType
  state : SockState := .idle
  rx : Rx := {}
  pend : List ι := []
  backlog : Int := 0
  name : Option UnixAddr := none

variable {ι : Type} {u v : SockCore ι} {bindTab : List (Option (UnixAddr × ι))} {addr : UnixAddr}

def bindFind (bindTab : List (Option (UnixAddr × ι))) (addr : UnixAddr) : Option ι :=
  bindTab.findSome? fun n => (n.filter fun b => b.1 = addr).map Prod.snd

theorem bindFind_mem {k : ι} (h : bindFind bindTab addr = some k) : some (addr, k) ∈ bindTab := by
  obtain ⟨n, hn, hname⟩ := List.exists_of_findSome?_eq_some h
  obtain ⟨⟨addr', k'⟩, hfilter, rfl⟩ := Option.map_eq_some_iff.mp hname
  obtain ⟨rfl, heq⟩ := Option.filter_eq_some_iff.mp hfilter
  rwa [← of_decide_eq_true heq]

/-- The checks of `unix_bind`, and the entry of the bind table that it takes. -/
def SockCore.bindSlot (u : SockCore ι) (bindTab : List (Option (UnixAddr × ι)))
    (addr : UnixAddr) : Except Int Nat :=
  if u.name.isSome then .error (-eINVAL)
  else if addr.path.length = 0 then .error (-eINVAL)
  else if addr.path.length > unixPathMax then .error (-eINVAL)
  else if (bindFind bindTab addr).isSome then .error (-eADDRINUSE)
  else
    match bindTab.findIdx? Option.isNone with
    | none => .error (-eADDRINUSE)
    | some i => .ok i

def SockCore.listen (u : SockCore ι) (backlog : Int) : Except Int (SockCore ι) :=
  if u.type = .dgram then .error (-eINVAL)
  else if u.name.isNone then .error (-eINVAL)
  else if u.state ≠ .idle then .error (-eISCONN)
  else
    let b := if backlog > 0 then backlog else 1
    .ok { u with
      backlog := if b > unixBacklog then (unixBacklog : Int) else b
      state := .listening }

theorem SockCore.listen_eq_ok {backlog : Int} (h : u.listen backlog = .ok v) :
    u.state = .idle ∧ ∃ b, v = { u with backlog := b, state := .listening } := by
  unfold listen at h
  split at h
  · cases h
  split at h
  · cases h
  split at h
  · cases h
  next hidle =>
    cases h
    exact ⟨not_not.mp hidle, _, rfl⟩

end Kil0yOS.Unix
