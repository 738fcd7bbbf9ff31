/-
Open files of the Linux personality (kernel/core/lnxvfs.c).

An open file holds the whole content of its file in a buffer of its own and writes it back
when its last descriptor is closed.  The descriptor table is not part of this model: a call
names the lnx_file_t that its descriptor leads to, and whether file_new and fd_install
succeed is given with the call.  The checks of user addresses are left out, and sizes and
positions are natural numbers.
-/
import Kil0yOS.Vfs.Mounts

namespace Kil0yOS.Vfs

def lEnoent : Nat := 2
def lEnomem : Nat := 12
def lEexist : Nat := 17
def lEnotdir : Nat := 20
def lEisdir : Nat := 21
def lEinval : Nat := 22
def lEnotempty : Nat := 39

def lOCreat : Nat := 0x40
def lOTrunc : Nat := 0x200
def lODirectory : Nat := 0x10000

/-- What a call returns: a value, or an error number (negated in the source). -/
abbrev Outcome (α : Type) := Except Nat α

variable (p : Nat)

def fileAt : V LnxFile := fun s =>
  match s.heap.block p with
  | some (.lnxFile f) => some (f, s)
  | _ => none

def setFile (f : LnxFile) : V Unit := modify fun s =>
  { s with heap := s.heap.store p (.lnxFile f) }

def fsSetCurrent (dir : Nat) : V Unit := modify fun s => { s with current := dir }

/-- The end of fs_create_at: the new entry is made with `parent` as current directory. -/
def createUnder (parent : Nat) (base : CString) (makeDir : Bool) : V (Option Nat) := do
  let n ← nodeAt parent
  if n.type ≠ .directory then pure none
  else
    let s ← get
    fsSetCurrent parent
    let f ← if makeDir then fsCreateDir base else fsCreateFile base
    fsSetCurrent s.current
    pure f

variable (path : CString)

def fsCreateAt (makeDir : Bool) : V (Option Nat) := do
  let s ← get
  let parentPath := path.take (maxPathLength - 1)
  match splitLast parentPath with
  | none => createUnder s.current parentPath makeDir
  | some (dirPath, base) =>
    if dirPath = [] then
      if base = [] then pure none else createUnder s.root base makeDir
    else
      match ← fsResolvePath dirPath with
      | none => pure none
      | some parent => createUnder parent base makeDir

def fdFlush : V Unit := do
  let f ← fileAt p
  if f.dirty then
    let n ← nodeAt f.entry
    if n.type ≠ .file then pure ()
    else
      match f.cache with
      | none =>
        let _ ← fsWriteFile f.entry none
        setFile p { f with dirty := false }
      | some c =>
        let bytes ← dataAt c
        let _ ← fsWriteFile f.entry (some (bytes.take f.size))
        setFile p { f with dirty := false }

def vfsFClose : V Unit := do
  fdFlush p
  let f ← fileAt p
  kfreeIf f.cache
  kfree p

/-- A buffer that grows to `size` bytes, the new ones being what `fill` says. -/
def grown (bytes : List UInt8) (size : Nat) (fill : Nat → UInt8) : List UInt8 :=
  bytes ++ (List.range (size - bytes.length)).map fill

/-- The part of lnxvfs_open that reads the file into the buffer of the open file at `f`;
false if there is no memory for it. -/
def loadCache (f e : Nat) (n : Node) (flags : Nat) (fill : Nat → UInt8) : V Bool := do
  if n.type ≠ .file then pure true
  else
    let trunc := flags &&& lOTrunc ≠ 0
    let size := if trunc then 0 else n.size
    if n.size = 0 then
      setFile f { dirty := trunc, entry := e, cache := none, size := size, pos := 0 }
      pure true
    else
      let fresh := grown [] n.size fill
      match ← kmalloc (.data fresh) with
      | none => pure false
      | some c =>
        let bytes ← fsReadFile e fresh n.size
        modify fun s => { s with heap := s.heap.store c (.data bytes) }
        setFile f { dirty := trunc, entry := e, cache := some c, size := size, pos := 0 }
        pure true

def openEntry (e flags : Nat) (fill : Nat → UInt8) (fileNew fdInstall : Bool) :
    V (Outcome Nat) := do
  match ← kmalloc (.lnxFile { dirty := false, entry := e, cache := none, size := 0, pos := 0 }) with
  | none => pure (.error lEnomem)
  | some f =>
    let n ← nodeAt e
    if ! (← loadCache f e n flags fill) then
      kfree f
      pure (.error lEnomem)
    else if ! fileNew then
      let file ← fileAt f
      kfreeIf file.cache
      kfree f
      pure (.error lEnomem)
    else if ! fdInstall then
      vfsFClose f
      pure (.error lEnomem)
    else pure (.ok f)

def lnxvfsOpen (flags : Nat) (fill : Nat → UInt8) (fileNew fdInstall : Bool) : V (Outcome Nat) := do
  if path = [] then pure (.error lEnoent)
  else
    match ← fsResolvePath path with
    | none =>
      if flags &&& lOCreat = 0 then pure (.error lEnoent)
      else
        match ← fsCreateAt path false with
        | none => pure (.error lEnoent)
        | some e => openEntry e flags fill fileNew fdInstall
    | some e =>
      let n ← nodeAt e
      if flags &&& lODirectory ≠ 0 ∧ n.type ≠ .directory then pure (.error lEnotdir)
      else openEntry e flags fill fileNew fdInstall

/-! ## Reading and writing -/

/-- krealloc; a block that was made larger than asked for may have the room already. -/
def krealloc (ptr : Option Nat) (size : Nat) (inPlace : Bool) (fill : Nat → UInt8) :
    V (Option Nat) := do
  match ptr with
  | none => kmalloc (.data (grown [] size fill))
  | some p =>
    let bytes ← dataAt p
    if size ≤ bytes.length ∨ inPlace then
      modify fun s => { s with heap := s.heap.store p (.data (grown bytes size fill)) }
      pure (some p)
    else
      match ← kmalloc (.data (grown bytes size fill)) with
      | none => pure none
      | some q =>
        kfree p
        pure (some q)

def overwrite (bytes : List UInt8) (pos : Nat) (buf : List UInt8) : List UInt8 :=
  bytes.take pos ++ buf ++ bytes.drop (pos + buf.length)

/-- The end of lnxvfs_write, in a buffer that is large enough. -/
def writeAtPos (buf : List UInt8) : V (Outcome Nat) := do
  let f ← fileAt p
  match f.cache with
  | none =>
    if buf ≠ [] then fault
    else
      setFile p { f with dirty := true }
      pure (.ok 0)
  | some c =>
    let bytes ← dataAt c
    modify fun s => { s with heap := s.heap.store c (.data (overwrite bytes f.pos buf)) }
    setFile p { f with pos := f.pos + buf.length, dirty := true }
    pure (.ok buf.length)

def lnxvfsWrite (buf : List UInt8) (inPlace : Bool) (fill : Nat → UInt8) : V (Outcome Nat) := do
  let f ← fileAt p
  let n ← nodeAt f.entry
  if n.type = .directory then pure (.error lEisdir)
  else if f.size < f.pos + buf.length then
    match ← krealloc f.cache (f.pos + buf.length) inPlace fill with
    | none => pure (.error lEnomem)
    | some c =>
      setFile p { f with cache := some c, size := f.pos + buf.length }
      writeAtPos p buf
  else writeAtPos p buf

def lnxvfsRead (p count : Nat) : V (Outcome (List UInt8)) := do
  let f ← fileAt p
  let n ← nodeAt f.entry
  if n.type = .directory then pure (.error lEisdir)
  else if f.size ≤ f.pos then pure (.ok [])
  else
    match f.cache with
    | none => fault
    | some c =>
      let bytes ← dataAt c
      let k := min (f.size - f.pos) count
      setFile p { f with pos := f.pos + k }
      pure (.ok ((bytes.drop f.pos).take k))

def lnxvfsPread (p count : Nat) (off : Int) : V (Outcome (List UInt8)) := do
  let f ← fileAt p
  let n ← nodeAt f.entry
  if n.type ≠ .file then pure (.error lEisdir)
  else if off < 0 then pure (.error lEinval)
  else if f.size ≤ off.toNat ∨ count = 0 then pure (.ok [])
  else
    match f.cache with
    | none => fault
    | some c =>
      let bytes ← dataAt c
      pure (.ok ((bytes.drop off.toNat).take (min (f.size - off.toNat) count)))

def lSeekSet : Nat := 0
def lSeekCur : Nat := 1
def lSeekEnd : Nat := 2

def seekBase (f : LnxFile) (whence : Nat) : Option Int :=
  if whence = lSeekSet then some 0
  else if whence = lSeekCur then some f.pos
  else if whence = lSeekEnd then some f.size
  else none

def lnxvfsLseek (p whence : Nat) (off : Int) : V (Outcome Nat) := do
  let f ← fileAt p
  match seekBase f whence with
  | none => pure (.error lEinval)
  | some base =>
    if base + off < 0 then pure (.error lEinval)
    else
      -- Only a seek from the end may leave the file.
      let np := if whence ≠ lSeekEnd then min (base + off).toNat f.size else (base + off).toNat
      let n ← nodeAt f.entry
      if n.type = .directory then pure (.error lEinval)
      else
        setFile p { f with pos := np }
        pure (.ok np)

def lSIfdir : Nat := 0x4000
def lSIfreg : Nat := 0x8000
def lnxVfsDev : Nat := 0xFE01

/-- The fields of a struct lnx_stat that are not zero. -/
structure LnxStat where
  stDev : Nat
  stIno : Nat
  stNlink : Nat
  stMode : Nat
  stSize : Nat
  stBlksize : Nat
  stBlocks : Nat

/-- The inode number is the address of the entry. -/
def statFill (e : Nat) (n : Node) : LnxStat :=
  { stDev := lnxVfsDev
    stIno := e
    stNlink := 1
    stMode := (if n.type = .directory then lSIfdir else lSIfreg) ||| 0x1ED
    stSize := if n.type = .directory then 0 else n.size
    stBlksize := 512
    stBlocks := if n.type = .directory then 0 else (n.size + 511) / 512 }

def lnxvfsFstat : V LnxStat := do
  let f ← fileAt p
  let n ← nodeAt f.entry
  pure (statFill f.entry n)

/-! ## The name space -/

def lnxvfsMkdir : V (Outcome Unit) := do
  if path = [] then pure (.error lEinval)
  else
    match ← fsResolvePath path with
    | some _ => pure (.error lEexist)
    | none =>
      match ← fsCreateAt path true with
      | none => pure (.error lEnoent)
      | some _ => pure (.ok ())

def lnxvfsRmdir (depth : Nat) (path : CString) : V (Outcome Unit) := do
  if path = [] then pure (.error lEinval)
  else
    match ← fsResolvePath path with
    | none => pure (.error lEnoent)
    | some e =>
      let n ← nodeAt e
      if n.type ≠ .directory then pure (.error lEnotdir)
      else
        let slots ← slotsAt n.children
        if (List.range maxDirEntries).any fun i => (slots i).isSome then
          pure (.error lEnotempty)
        else
          let s ← get
          if e = s.root then pure (.error lEinval)
          else
            fsDeleteEntryRecursive depth e
            pure (.ok ())

def lnxvfsUnlink (depth : Nat) (path : CString) : V (Outcome Unit) := do
  if path = [] then pure (.error lEinval)
  else
    match ← fsResolvePath path with
    | none => pure (.error lEnoent)
    | some e =>
      let n ← nodeAt e
      if n.type ≠ .file then pure (.error lEisdir)
      else
        fsDeleteEntryRecursive depth e
        pure (.ok ())

def lnxvfsChdir : V (Outcome Unit) := do
  if path = [] then pure (.error lEnoent)
  else
    match ← fsResolvePath path with
    | none => pure (.error lEnoent)
    | some e =>
      let n ← nodeAt e
      if n.type ≠ .directory then pure (.error lEnotdir)
      else
        fsSetCurrent e
        pure (.ok ())

end Kil0yOS.Vfs
