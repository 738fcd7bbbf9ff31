/-
The system calls that make, pass and drop references to open files, and the kernel
as a transition system over them.

A call is one call of one process, together with the outcomes of the allocations in
it.  What user memory holds is part of the call: buffers that fail their check never
get this far.  A call that would wait has left the state as it was, and is made
again later.
-/
import Kil0yOS.Files.UnixSock

namespace Kil0yOS.Files

open Unix

def eBADF : Int := 9
def eNOTSOCK : Int := 88

/-! ## New files -/

variable (pid : Nat)

/-- A file object for what `kind` says, in a descriptor of the process.  A failure
closes what the file object would have owned. -/
def openFile (kind : FileKind) : M Int := do
  match ← fileNew kind with
  | none => do
    match kind with
    | .sockUnix k => unixSockDrop k
    | _ => pure ()
    pure (-eNOMEM)
  | some f => do
    let fd ← fdInstall pid f
    if fd < 0 then do
      fileClose f
      pure (-eNOMEM)
    else pure fd

/-- `lnxvfs_open`: the path leads to an error or to an entry with a size. -/
def lnxvfsOpen (entry : Except Int Nat) : M Int := do
  match entry with
  | .error e => pure e
  | .ok size =>
    if ← kmalloc then
      if size > 0 then
        if ← kmalloc then openFile pid .vfs else pure (-eNOMEM)
      else openFile pid .vfs
    else pure (-eNOMEM)

inductive Domain
  | unix (type : SockType)
  | inetStream
  | inetDgram
deriving DecidableEq, Repr

def scSocket (domain : Domain) : M Int := do
  match domain with
  | .unix type =>
    match ← unixSocketCreate type with
    | none => pure (-eNOMEM)
    | some k => openFile pid (.sockUnix k)
  | .inetStream => if ← kmalloc then openFile pid .sockTcp else pure (-eNOMEM)
  | .inetDgram => if ← kmalloc then openFile pid .sockUdp else pure (-eNOMEM)

/-- The last part of `sc_socketpair`: both ends go into descriptors. -/
def installPair (pid fa fb : Nat) : M Int := do
  let fda ← fdInstall pid fa
  if fda < 0 then do
    fileClose fa
    fileClose fb
    pure (-eNOMEM)
  else do
    let fdb ← fdInstall pid fb
    if fdb < 0 then do
      let _ ← fdClose pid fda
      fileClose fb
      pure (-eNOMEM)
    else pure 0

def scSocketpair (type : SockType) : M Int := do
  match ← unixSocketCreate type with
  | none => pure (-eNOMEM)
  | some a => do
    match ← unixSocketCreate type with
    | none => do
      unixSockDrop a
      pure (-eNOMEM)
    | some b => do
      unixSocketpair a b
      match ← fileNew (.sockUnix a) with
      | none => do
        unixSockDrop a
        unixSockDrop b
        pure (-eNOMEM)
      | some fa => do
        match ← fileNew (.sockUnix b) with
        | none => do
          fileClose fa
          unixSockDrop b
          pure (-eNOMEM)
        | some fb => installPair pid fa fb

/-! ## Calls on a socket -/

/-- The `AF_UNIX` socket of a descriptor.  The other kinds of socket have calls of
their own, which pass no references. -/
def sockFdGet (fd : Int) : M (Option Nat) := do
  match ← fdGetFile pid fd with
  | none => pure none
  | some f => do
    let s ← get
    match s.files f with
    | none => fault
    | some file =>
      match file.kind with
      | .sockUnix k => pure (some k)
      | _ => pure none

/-- A call on the socket of a descriptor. -/
def onSock (fd : Int) (call : Nat → M Int) : M Int := do
  match ← sockFdGet pid fd with
  | none => pure (-eNOTSOCK)
  | some k => call k

def scAccept4 (fd : Int) : M Int :=
  onSock pid fd fun k => do
    match ← unixAccept k with
    | some c => openFile pid (.sockUnix c)
    | none => do
      let u ← sockAt k
      pure (if u.state ≠ .listening then -eINVAL else -eAGAIN)

def scRead (fd : Int) (len : Nat) : M Int :=
  onSock pid fd fun k => do
    let r ← unixRecv k len
    pure r.1

def scRecvfrom (fd : Int) (len : Nat) : M Int :=
  onSock pid fd fun k => do
    let u ← sockAt k
    if u.type = .stream then do
      let r ← unixRecv k len
      pure r.1
    else do
      let r ← unixRecvmsg k [len]
      pure r.1

structure Cmsg where
  level : Int
  type : Int
  fds : List Int
deriving DecidableEq, Repr

def lnxSolSocket : Int := 1
def lnxScmRights : Int := 1

def rightsFds (cmsgs : List Cmsg) : List Int :=
  ((cmsgs.filter fun c => c.level = lnxSolSocket ∧ c.type = lnxScmRights).flatMap
    Cmsg.fds).take unixScmMax

/-- Takes a reference for every descriptor.  `none` when one of them is not open;
the references taken until then are dropped again. -/
def gatherFds (pid : Nat) : List Nat → List Int → M (Option (List Nat))
  | got, [] => pure (some got)
  | got, fd :: fds => do
    match ← fdGetFile pid fd with
    | none => do
      fileCloses got
      pure none
    | some f => do
      fileRef f
      gatherFds pid (got ++ [f]) fds

def scSendmsg (fd : Int) (iov : List (List UInt8)) (cmsgs : List Cmsg) : M Int :=
  onSock pid fd fun k =>
    if iov.length = 0 ∨ iov.length > 64 then pure (-eMSGSIZE)
    else do
      match ← gatherFds pid [] (rightsFds cmsgs) with
      | none => pure (-eBADF)
      | some fds => do
        let r ← unixSendmsg k iov fds
        if r < 0 then do
          fileCloses fds
          pure r
        else pure r

/-- Installs files one after the other, up to the first for which no slot is
free. -/
def installFds (pid : Nat) : List Nat → M (List Int)
  | [] => pure []
  | f :: fs => do
    let fd ← fdInstall pid f
    if fd < 0 then pure []
    else do
      let fds ← installFds pid fs
      pure (fd :: fds)

def closeFds (pid : Nat) : List Int → M Unit
  | [] => pure ()
  | fd :: fds => do
    let _ ← fdClose pid fd
    closeFds pid fds

def cmsgHdrSz : Nat := 16

/-- `sc_recvmsg`, where `control` bytes of the control buffer can be written. -/
def scRecvmsg (fd : Int) (lens : List Nat) (control : Nat) : M Int :=
  onSock pid fd fun k =>
    if lens.length = 0 ∨ lens.length > 64 then pure (-eMSGSIZE)
    else do
      let r ← unixRecvmsg k lens
      if r.1 < 0 then pure r.1
      else do
        let ifds ← installFds pid r.2.2
        if ifds.length > 0 ∧ control ≥ cmsgHdrSz + ifds.length * 4 then pure r.1
        else do
          closeFds pid ifds
          pure r.1

/-! ## The transition system -/

inductive Call
  | spawn (pid : Nat) (cleared : Bool)
  | fork (parent child : Nat)
  | cloneFiles (parent child : Nat)
  | exit (pid : Nat)
  | openPath (pid : Nat) (entry : Except Int Nat)
  | socket (pid : Nat) (domain : Domain)
  | socketpair (pid : Nat) (type : SockType)
  | bind (pid : Nat) (fd : Int) (addr : UnixAddr)
  | listen (pid : Nat) (fd : Int) (backlog : Int)
  | connect (pid : Nat) (fd : Int) (addr : UnixAddr)
  | accept (pid : Nat) (fd : Int)
  | close (pid : Nat) (fd : Int)
  | dup (pid : Nat) (fd : Int)
  | dup2 (pid : Nat) (fd fd2 : Int)
  | write (pid : Nat) (fd : Int) (buf : List UInt8)
  | read (pid : Nat) (fd : Int) (len : Nat)
  | recvfrom (pid : Nat) (fd : Int) (len : Nat)
  | sendmsg (pid : Nat) (fd : Int) (iov : List (List UInt8)) (cmsgs : List Cmsg)
  | recvmsg (pid : Nat) (fd : Int) (lens : List Nat) (control : Nat)

/-- A process slot that is in no use takes part in nothing. -/
def freeSlot (s : State) (pid : Nat) : Bool := pid < maxProcesses && (s.procs pid).isNone

/-- A new process in the slot `child`, if that slot is free. -/
def newProcess (child : Nat) (fill : M Unit) : M Int := do
  let s ← get
  if freeSlot s child then do
    fill
    pure 0
  else pure (-1)

def Call.run : Call → M Int
  | .spawn pid cleared => newProcess pid (execLoadProgram pid cleared)
  | .fork parent child => newProcess child (fdTableFork parent child)
  | .cloneFiles parent child => newProcess child (fdTableShare parent child)
  | .exit pid => do
    fdTableExit pid
    pure 0
  | .openPath pid entry => lnxvfsOpen pid entry
  | .socket pid domain => scSocket pid domain
  | .socketpair pid type => scSocketpair pid type
  | .bind pid fd addr => onSock pid fd fun k => unixBind k addr
  | .listen pid fd backlog => onSock pid fd fun k => unixListen k backlog
  | .connect pid fd addr => onSock pid fd fun k => unixConnect k addr
  | .accept pid fd => scAccept4 pid fd
  | .close pid fd => fdClose pid fd
  | .dup pid fd => fdDup pid fd
  | .dup2 pid fd fd2 => fdDup2 pid fd fd2
  | .write pid fd buf => onSock pid fd fun k => unixSend k buf
  | .read pid fd len => scRead pid fd len
  | .recvfrom pid fd len => scRecvfrom pid fd len
  | .sendmsg pid fd iov cmsgs => scSendmsg pid fd iov cmsgs
  | .recvmsg pid fd lens control => scRecvmsg pid fd lens control

def State.boot : State where
  files := fun _ => none
  nextFile := 0
  tables := fun _ => none
  nextTable := 0
  procs := fun _ => none
  socks := fun _ => none
  nextSock := 0
  bindTab := List.replicate unixBindMax none
  mallocs := []
  closes := []
  handed := []
  delivered := []
  released := []

structure Action where
  call : Call
  mallocs : List Bool := []

/-- One call; `none` when it goes through a pointer to something freed. -/
def next (s : State) (a : Action) : Option State :=
  (a.call.run { s with mallocs := a.mallocs }).map Prod.snd

end Kil0yOS.Files
