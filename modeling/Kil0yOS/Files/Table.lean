/-
Open files, descriptor tables and the end of an `AF_UNIX` socket: `core/file.c`
and `unix_sock_close` of `net/unix_sock.c`.

File objects, descriptor tables and sockets are kept in heaps of their own, under
numbers that are never given out twice.  What is freed is removed from its heap,
and a function that goes through a pointer to something freed has no result.

Closing a file and closing a socket call each other: the last reference to a socket
drops the references queued on it, and one of those may be the last reference to
another socket.  Here both only say which references have to be dropped next, and
`fileCloses` drops them in the order of the calls of the source.
-/
import Kil0yOS.Lib.Gather
import Kil0yOS.Unix.Socket

namespace Kil0yOS.Files

open Function Unix

/-! ## State -/

/-- `enum file_kind` with the part of `priv` that matters for the references: a
socket of the family `AF_UNIX`. -/
inductive FileKind
  | tty
  | vfs
  | sockTcp
  | sockUdp
  | sockUnix (sock : Nat)
deriving DecidableEq, Repr

def FileKind.socks : FileKind → List Nat
  | .sockUnix k => [k]
  | _ => []

structure File where
  kind : FileKind
  refs : Int
deriving DecidableEq, Repr

/-- `files_t`, with the file object of every slot. -/
structure FdTable where
  refs : Int
  fds : List (Option Nat)
deriving DecidableEq, Repr

/-- `unix_scm_t`: the references that travel with one message, and the position in
the stream after that message. -/
structure Scm where
  off : Nat
  files : List Nat
deriving DecidableEq, Repr

structure UnixSock extends SockCore Nat where
  peer : Option Nat := none
  scm : List Scm := []

/-- A reference handed to a send: the socket it is queued on, the end of its
message in the stream of that socket, and the file. -/
structure ScmRef where
  sock : Nat
  off : Nat
  file : Nat
deriving DecidableEq, Repr

structure State where
  files : Nat → Option File
  nextFile : Nat
  tables : Nat → Option FdTable
  nextTable : Nat
  /-- `process->files` of every process slot. -/
  procs : Nat → Option Nat
  socks : Nat → Option UnixSock
  nextSock : Nat
  bindTab : List (Option (UnixAddr × Nat))
  /-- The outcomes of the coming calls of `kmalloc`. -/
  mallocs : List Bool
  -- A record of what was done, which no function reads: the files whose backend was
  -- closed, and the references handed to a send, delivered (with the number of bytes
  -- taken from the socket by then) and released.
  closes : List Nat
  handed : List ScmRef
  delivered : List (ScmRef × Nat)
  released : List ScmRef

abbrev M := StateT State Option

def fault {α : Type} : M α := fun _ => none

def maxProcesses : Nat := 128
def lnxMaxFds : Nat := 64

def kmalloc : M Bool :=
  modifyGet fun s => (s.mallocs.headD true, { s with mallocs := s.mallocs.tail })

def State.putSock (s : State) (k : Nat) (u : UnixSock) : State :=
  { s with socks := update s.socks k (some u) }

def State.putTable (s : State) (t : Nat) (tb : FdTable) : State :=
  { s with tables := update s.tables t (some tb) }

/-! ## What is referred to -/

namespace UnixSock

def tokens (k : Nat) (u : UnixSock) : List ScmRef :=
  u.scm.flatMap fun r => r.files.map fun f => { sock := k, off := r.off, file := f }

def scmFiles (u : UnixSock) : List Nat := u.scm.flatMap Scm.files

end UnixSock

namespace State

def slotsOf (s : State) (t : Nat) : List Nat :=
  match s.tables t with
  | some tb => tb.fds.filterMap id
  | none => []

def tokensOf (s : State) (k : Nat) : List ScmRef :=
  match s.socks k with
  | some u => u.tokens k
  | none => []

def slotRefs (s : State) : List Nat := Lib.gather s.nextTable s.slotsOf

def queued (s : State) : List ScmRef := Lib.gather s.nextSock s.tokensOf

def tableRefs (s : State) : List Nat := Lib.gather maxProcesses fun p => (s.procs p).toList

end State

/-! ## Sockets that end -/

def clearPeer (p : Nat) : M Unit := do
  let s ← get
  match s.socks p with
  | none => fault
  | some u => modify fun s => s.putSock p { u with peer := none }

variable (k : Nat)

def orphanPeer : M Unit := do
  let s ← get
  match s.socks k with
  | none => fault
  | some u =>
    match u.peer with
    | none => pure ()
    | some p => clearPeer p

def freeSock : M Unit :=
  modify fun s => { s with socks := update s.socks k none }

/-- The pending connections of a listening socket are refused.  What is queued on
them is not looked at. -/
def refusePending : List Nat → M Unit
  | [] => pure ()
  | c :: cs => do
    orphanPeer c
    freeSock c
    refusePending cs

def removeName (tab : List (Option (UnixAddr × Nat))) : List (Option (UnixAddr × Nat)) :=
  tab.map fun n => if n.map Prod.snd = some k then none else n

def unbind : M Unit :=
  modify fun s => { s with bindTab := removeName k s.bindTab }

/-- `unix_sock_close`, up to the calls of `file_close` for the references still
queued, which are the result.  The socket is freed before them: by then no pointer
to it is left. -/
def unixSockClose : M (List Nat) := do
  let s ← get
  match s.socks k with
  | none => fault
  | some u => do
    unbind k
    orphanPeer k
    refusePending u.pend
    modify fun s => { s with released := u.tokens k ++ s.released }
    freeSock k
    pure u.scmFiles

/-! ## File objects -/

def fileNew (kind : FileKind) : M (Option Nat) := do
  if ← kmalloc then
    modifyGet fun s =>
      (some s.nextFile,
        { s with
          files := update s.files s.nextFile (some { kind := kind, refs := 1 })
          nextFile := s.nextFile + 1 })
  else
    pure none

def setRefs (f : Nat) (file : File) (refs : Int) : M Unit :=
  modify fun s => { s with files := update s.files f (some { file with refs := refs }) }

def fileRef (f : Nat) : M Unit := do
  let s ← get
  match s.files f with
  | none => fault
  | some file => setRefs f file (file.refs + 1)

/-- The action `ops->close` of a file object and its end. -/
def backendClose (f : Nat) (kind : FileKind) : M (List Nat) := do
  modify fun s => { s with files := update s.files f none, closes := f :: s.closes }
  match kind with
  | .sockUnix k => unixSockClose k
  | _ => pure []

/-- `file_close` up to the calls of `file_close` it leads to, which are the
result. -/
def dropRef (f : Nat) : M (List Nat) := do
  let s ← get
  match s.files f with
  | none => fault
  | some file =>
    if file.refs - 1 = 0 then
      backendClose f file.kind
    else do
      setRefs f file (file.refs - 1)
      pure []

/-- Drops references and those that follow from it, at most `fuel` of them. -/
def dropRefs : Nat → List Nat → M Unit
  | _, [] => pure ()
  | 0, _ :: _ => fault
  | fuel + 1, f :: fs => do
    let more ← dropRef f
    dropRefs fuel (more ++ fs)

/-- `file_close` for one file after the other.  A reference that is dropped was
either given or queued on a socket, which bounds the number of calls. -/
def fileCloses (fs : List Nat) : M Unit := do
  let s ← get
  dropRefs (fs.length + s.queued.length) fs

def fileClose (f : Nat) : M Unit := fileCloses [f]

def unixSockDrop : M Unit := do
  let fs ← unixSockClose k
  fileCloses fs

/-! ## Descriptors of the calling process -/

variable (pid : Nat)

/-- `proc->files` and the table it points to; `none` for a null pointer. -/
def procTable : M (Option (Nat × FdTable)) := do
  let s ← get
  match s.procs pid with
  | none => pure none
  | some t =>
    match s.tables t with
    | none => fault
    | some tb => pure (some (t, tb))

def setSlot (t : Nat) (tb : FdTable) (fd : Nat) (f : Option Nat) : M Unit :=
  modify fun s => s.putTable t { tb with fds := tb.fds.set fd f }

def fdInstall (pid f : Nat) : M Int := do
  match ← procTable pid with
  | none => pure (-1)
  | some (t, tb) =>
    match tb.fds.findIdx? Option.isNone with
    | none => pure (-1)
    | some fd => do
      setSlot t tb fd (some f)
      pure fd

def FdTable.get (tb : FdTable) (fd : Int) : Option Nat :=
  if fd < 0 ∨ fd ≥ lnxMaxFds then none else (tb.fds[fd.toNat]?).join

def fdGetFile (fd : Int) : M (Option Nat) := do
  match ← procTable pid with
  | none => pure none
  | some (_, tb) => pure (tb.get fd)

def fdClose (fd : Int) : M Int := do
  match ← procTable pid with
  | none => pure (-9)
  | some (t, tb) =>
    match tb.get fd with
    | none => pure (-9)
    | some f => do
      setSlot t tb fd.toNat none
      fileClose f
      pure 0

/-- A descriptor for the same file.  When no slot is free the new reference has no
place, and nothing takes it back. -/
def fdDup (fd : Int) : M Int := do
  match ← fdGetFile pid fd with
  | none => pure (-9)
  | some f => do
    fileRef f
    fdInstall pid f

def fdDup2 (fd fd2 : Int) : M Int := do
  if fd = fd2 then pure fd2
  else
    match ← fdGetFile pid fd with
    | none => pure (-9)
    | some f =>
      if fd2 < 0 ∨ fd2 ≥ lnxMaxFds then pure (-9)
      else do
        let _ ← fdClose pid fd2
        match ← procTable pid with
        | none => pure (-9)
        | some (t, tb) => do
          fileRef f
          setSlot t tb fd2.toNat (some f)
          pure fd2

/-! ## Descriptor tables -/

def installTtys (pid : Nat) : Nat → Nat → M Unit
  | _, 0 => pure ()
  | i, n + 1 => do
    match ← fileNew .tty with
    | none => pure ()
    | some f => do
      match ← procTable pid with
      | none => fault
      | some (t, tb) => do
        setSlot t tb i (some f)
        installTtys pid (i + 1) n

def fdTableInit : M Unit := do
  if ← kmalloc then do
    modify fun s =>
      { s with
        procs := update s.procs pid (some s.nextTable)
        tables := update s.tables s.nextTable
          (some { refs := 1, fds := List.replicate lnxMaxFds none })
        nextTable := s.nextTable + 1 }
    installTtys pid 0 3
  else
    pure ()

def refSlots : List (Option Nat) → M Unit
  | [] => pure ()
  | none :: fds => refSlots fds
  | some f :: fds => do
    fileRef f
    refSlots fds

/-- The child's own copy of the table.  The parent's table is read without a look
at whether it has one. -/
def fdTableFork (parent child : Nat) : M Unit := do
  if ← kmalloc then
    match ← procTable parent with
    | none => fault
    | some (_, tb) => do
      refSlots tb.fds
      modify fun s =>
        { s with
          procs := update s.procs child (some s.nextTable)
          tables := update s.tables s.nextTable (some { refs := 1, fds := tb.fds })
          nextTable := s.nextTable + 1 }
  else
    pure ()

def fdTableShare (parent child : Nat) : M Unit := do
  match ← procTable parent with
  | none => pure ()
  | some (t, tb) =>
    modify fun s =>
      { s with
        procs := update s.procs child (some t)
        tables := update s.tables t (some { tb with refs := tb.refs + 1 }) }

/-- The last user of a table closes what is in it. -/
def fdTableExit : M Unit := do
  match ← procTable pid with
  | none => pure ()
  | some (t, tb) =>
    if tb.refs - 1 > 0 then
      modify fun s =>
        { s with
          procs := update s.procs pid none
          tables := update s.tables t (some { tb with refs := tb.refs - 1 }) }
    else do
      modify fun s =>
        { s with procs := update s.procs pid none, tables := update s.tables t none }
      fileCloses (tb.fds.filterMap id)

/-- `exec_load_program`, as far as it concerns the table.  When the interpreter cannot be loaded,
the slot is cleared and the table is left behind. -/
def execLoadProgram (cleared : Bool) : M Unit := do
  fdTableInit pid
  if cleared then modify fun s => { s with procs := update s.procs pid none }
  else pure ()

end Kil0yOS.Files
