/-
The package database and the two operations on it (kernel/pkg/dpkg.c).

The database is text in files of the tree: the status file with one paragraph for each
package, and a list of paths for each package.  force_deps is off.  What goes to the
terminal and the log is left out, except that an installation that succeeds returns what
it then reports.
-/
import Kil0yOS.Pkg.Archive

namespace Kil0yOS.Pkg

def dpkgDir : CString :=
  text ['/', 'v', 'a', 'r', '/', 'l', 'i', 'b', '/', 'd', 'p', 'k', 'g']
def dpkgInfo : CString := dpkgDir ++ text ['/', 'i', 'n', 'f', 'o']
def dpkgStatus : CString := dpkgDir ++ text ['/', 's', 't', 'a', 't', 'u', 's']

/-! ## Whole files -/

/-- The contents of a file.  An empty one comes back as NULL. -/
def fsReadAll (path : CString) : P (Option (List UInt8)) := do
  match ← fsResolvePath path with
  | none => pure none
  | some f =>
    let s ← get
    match s.tree.entry f with
    | some (.file bytes) =>
      if bytes = [] then pure (some [])
      else if ← refused (.load f) then pure none
      else pure (some bytes)
    | _ => pure none

def fsMkdirParent (path : CString) : P Bool :=
  if 260 ≤ path.length then pure false else mkdirParent path

def fsWriteAll (path : CString) (data : List UInt8) : P Bool := do
  if ← fsMkdirParent path then
    match ← fileFor path with
    | none => pure false
    | some f => fsWriteFile f data
  else pure false

/-! ## Status text -/

/-- The search for two newlines: the text up to and with them, and the text behind. -/
def blankLine (p : CString) : Option (CString × CString) := Lib.cutParagraph newline p

/-- The text from the start of paragraph `i` on. -/
def statusParagraph (buf : CString) : Nat → Option CString
  | 0 => if buf = [] then none else some buf
  | i + 1 =>
    if buf = [] then none
    else
      match blankLine buf with
      | none => none
      | some (_, rest) => statusParagraph rest i

/-- The value on a line, cut to a buffer of `outsz` bytes, if the line is the field's. -/
def lineField (field : CString) (outsz : Nat) (row : CString) : Option CString :=
  if field.length < row.length ∧ field <+: row ∧ row[field.length]? = some 0x3A then
    some (((row.drop (field.length + 1)).dropWhile blank).take (outsz - 1))
  else none

/-- para_field: the first line from the start of the paragraph on that is the field's.
The search does not stop at the end of the paragraph. -/
def paraField (para field : CString) (outsz : Nat) : Option CString :=
  (para.splitOn newline).findSome? (lineField field outsz)

def withoutLoop (package : CString) : Nat → CString → CString
  | 0, _ => []
  | fuel + 1, p =>
    if p = [] then []
    else
      match blankLine p with
      | none => if paraField p packageKey 64 = some package then [] else p
      | some (para, rest) =>
        (if paraField p packageKey 64 = some package then [] else para) ++
          withoutLoop package fuel rest

def installedText : CString := text ['i', 'n', 's', 't', 'a', 'l', 'l', 'e', 'd']

def installedLoop (buf package : CString) : Nat → Nat → Bool
  | 0, _ => false
  | fuel + 1, i =>
    match statusParagraph buf i with
    | none => false
    | some p =>
      if paraField p packageKey 64 = some package then
        match paraField p statusKey 64 with
        | some st => decide (installedText <:+: st)
        | none => false
      else installedLoop buf package fuel (i + 1)

def statusLine (key value : CString) : CString := key ++ text [':', ' '] ++ value

def installOkText : CString :=
  text ['i', 'n', 's', 't', 'a', 'l', 'l', ' ', 'o', 'k', ' '] ++ installedText

def statusLines (c : DebControl) : List CString :=
  [statusLine packageKey c.package,
   statusLine statusKey installOkText,
   statusLine versionKey c.version,
   statusLine architectureKey c.architecture,
   statusLine dependsKey c.depends]

def statusText (c : DebControl) : CString := Lib.paragraph newline (statusLines c)

/-- A part of a format: text as it stands, or a `%s` with its string. -/
inductive Piece where
  | lit (s : CString)
  | str (s : CString)

/-- ksprintf with `room` bytes before the terminating zero.  Text that does not fit is cut
off.  Out of a string that does not fit there is no way: the loop over it steps on only with
the byte it stores. -/
def ksprintf (room : Nat) : List Piece → Option CString
  | [] => some []
  | .lit s :: rest => (ksprintf (room - s.length) rest).map (s.take room ++ ·)
  | .str s :: rest =>
    if s.length ≤ room then (ksprintf (room - s.length) rest).map (s ++ ·) else none

def statusFormat (c : DebControl) : List Piece :=
  [.lit (statusLine packageKey []), .str c.package,
   .lit (newline :: statusLine statusKey installOkText ++ newline :: statusLine versionKey []),
   .str c.version, .lit (newline :: statusLine architectureKey []), .str c.architecture,
   .lit (newline :: statusLine dependsKey []), .str c.depends, .lit [newline, newline]]

/-! ## Status file -/

def statusLoad : P CString := do
  return cstr ((← fsReadAll dpkgStatus).getD [])

variable (package : CString)

/-- status_without: no text where the file has no contents or there is no buffer. -/
def statusWithout : P (Option CString) := do
  match ← fsReadAll dpkgStatus with
  | none => pure none
  | some raw =>
    if raw = [] then pure none
    else if ← refused .without then pure none
    else pure (some (withoutLoop package (cstr raw).length (cstr raw)))

def dpkgIsInstalled : P Bool := do
  let buf ← statusLoad
  return installedLoop buf package (buf.length + 1) 0

def depsLoop : List CString → P Bool
  | [] => pure true
  | item :: rest =>
    if depName item = [] then depsLoop rest
    -- strtok keeps its place in one static variable.  Reading the status file splits a
    -- path with strtok, to its end, so that after a package that is installed there is
    -- no next item.
    else dpkgIsInstalled (depName item)

def dpkgCheckDeps (depends : CString) : P Bool := depsLoop (tokens 0x2C (depends.take 255))

/-! ## Path lists -/

/-- A name that is installed has at most 63 bytes, and fits. -/
def infoListPath : CString :=
  (dpkgInfo ++ slash :: package ++ text ['.', 'l', 'i', 's', 't']).take 95

def infoWriteList (deb : DebResult) : P Bool := do
  if ← refused .buffer then pure false
  else
    fsWriteAll (infoListPath deb.control.package) (Lib.joinLines newline deb.files)

def infoReadList : P (Option (List UInt8)) := fsReadAll (infoListPath package)

def infoDeleteList : P Unit := do
  let _ ← fsDeleteEntry (infoListPath package)

def listLines (list : CString) : List CString :=
  if (list.splitOn newline).getLast? = some [] then (list.splitOn newline).dropLast
  else list.splitOn newline

def fileNames (t : Tree) (dir : Path) : List CString :=
  t.paths.filterMap fun p =>
    match p.getLast?, t.entry p with
    | some name, some (.file _) => if p.dropLast = dir then some name else none
    | _, _ => none

def listSuffix : CString := text ['.', 'l', 'i', 's', 't']

def ownedLoop (package file : CString) : List CString → P Bool
  | [] => pure false
  | name :: rest =>
    if name.length < 6 ∨ ¬ listSuffix <:+ name then ownedLoop package file rest
    -- The name is cut off inside a buffer of 64 bytes, wherever its end is.
    else if 64 ≤ name.length - 5 then failure
    else if name.take (name.length - 5) = package then ownedLoop package file rest
    else do
      match ← infoReadList (name.take (name.length - 5)) with
      | none => ownedLoop package file rest
      | some buf =>
        if file ∈ listLines (cstr buf) then pure true else ownedLoop package file rest

def fileOwnedByOther (package file : CString) : P Bool := do
  match ← fsResolvePath dpkgInfo with
  | none => pure false
  | some dir =>
    let s ← get
    if s.tree.entry dir = some .dir then ownedLoop package file (fileNames s.tree dir)
    else pure false

/-! ## Installing and removing -/

section
variable (inflate : List UInt8 → Option (List UInt8))

def unpackFile (debPath : CString) : P (Option DebResult) := do
  match ← fsReadAll debPath with
  | none => pure none
  | some deb =>
    if deb.length < 64 then pure none
    else if ← refused .buffer then pure none
    else debUnpack inflate deb

/-- The rewriting of the status file: the old paragraph is dropped, the new one appended.
It gets 320 bytes, one of them for the terminating zero. -/
def writeStatus (c : DebControl) : P Bool := do
  let without ← statusWithout c.package
  if ← refused .buffer then pure false
  else
    match ksprintf 319 (statusFormat c) with
    | none => failure
    | some para => fsWriteAll dpkgStatus (without.getD [] ++ para)

def register (deb : DebResult) : P Bool := do
  let satisfied ← dpkgCheckDeps deb.control.depends
  if satisfied ∨ (← get).world.forceDeps then
    if ← infoWriteList deb then writeStatus deb.control else pure false
  else pure false

/-- -1, or what was installed. -/
def dpkgInstallFile (debPath : CString) : P (Option DebResult) := do
  match ← unpackFile inflate debPath with
  | none => pure none
  | some deb => if ← register deb then pure (some deb) else pure none

end

def removeLoop (package : CString) : List CString → P Unit
  | [] => pure ()
  | file :: rest => do
    if file.length < 260 then
      if ← fileOwnedByOther package file then removeLoop package rest
      else
        let _ ← fsDeleteEntry file
        removeLoop package rest
    else removeLoop package rest

def removeFiles : P Unit := do
  match ← infoReadList package with
  | none => pure ()
  | some list => removeLoop package (listLines (cstr list))
  infoDeleteList package

def dropStatus : P Unit := do
  match ← statusWithout package with
  | some without =>
    let _ ← fsWriteAll dpkgStatus without
    pure ()
  | none =>
    let _ ← fsDeleteEntry dpkgStatus
    pure ()

/-- Whether the package was removed: false stands for -1. -/
def dpkgRemove : P Bool := do
  if ← dpkgIsInstalled package then
    removeFiles package
    dropStatus package
    pure true
  else pure false

end Kil0yOS.Pkg
