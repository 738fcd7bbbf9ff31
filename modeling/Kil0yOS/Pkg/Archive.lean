/-
Package archives: the tar reader and the .deb unpacker (kernel/pkg/tar.c, kernel/pkg/deb.c).

Both scanners are given as what they find: tar_iterate as the entries it hands to its
callback, ar_next_member as the members it is called for.  Neither depends on what is done
with an entry before the next one is read.  Extraction works on the file tree while the
archive is read.  The inflate decoder of gzip members is a parameter.
-/
import Kil0yOS.Pkg.FileTree

namespace Kil0yOS.Pkg

def text (chars : List Char) : CString := chars.map fun c => UInt8.ofNat c.toNat

def cstr (bytes : List UInt8) : CString := bytes.takeWhile (· ≠ 0)

def blank (c : UInt8) : Bool := c == 0x20 || c == 0x09

/-! ## tar -/

def tarBlock : Nat := 512

/-- The loop of tar_octal, with the value so far and whether a digit was seen. -/
def octalLoop : List UInt8 → Nat → Bool → Nat
  | [], v, _ => v
  | c :: cs, v, seen =>
    if c = 0 ∨ c = 0x20 then
      if seen then v else octalLoop cs v seen
    else if c < 0x30 ∨ 0x37 < c then v
    else octalLoop cs (v * 8 + (c.toNat - 0x30)) true

def tarOctal (field : List UInt8) : Nat := octalLoop field 0 false

def stripDotSlash : CString → CString
  | 0x2E :: 0x2F :: rest => stripDotSlash rest
  | name => name

def tarNormalizeName (name : CString) : Option CString :=
  let p := (stripDotSlash name).dropWhile (· = slash)
  let clean := p.rdropWhile (· = slash)
  if clean = [] ∨ 256 ≤ clean.length then none else some clean

structure TarEntry where
  clean : CString
  typeflag : UInt8
  body : List UInt8
deriving DecidableEq, Repr

def tarFullName (hdr : List UInt8) : CString :=
  if hdr.getD 345 0 ≠ 0 then
    let pre := (cstr (hdr.drop 345)).take 255
    if pre.length < 255 then pre ++ slash :: (cstr hdr).take (254 - pre.length) else pre
  else (cstr hdr).take 255

/-- The loop of tar_iterate, from the block at the start of `rest` on: the entries and
whether it ends without an error. -/
def tarLoop : Nat → List UInt8 → Option CString → List TarEntry × Bool
  | 0, _, _ => ([], true)
  | fuel + 1, rest, longname =>
    if rest.length < tarBlock then ([], true)
    else if rest.getD 0 0 = 0 then
      if (rest.take tarBlock).all (· = 0) then ([], true)
      else tarLoop fuel (rest.drop tarBlock) longname
    else
      let size := tarOctal ((rest.drop 124).take 12)
      let typeflag := rest.getD 156 0
      let dataLen := (size + (tarBlock - 1)) / tarBlock * tarBlock
      if rest.length < tarBlock + dataLen then ([], false)
      else
        let body := (rest.drop tarBlock).take size
        let next := rest.drop (tarBlock + dataLen)
        if typeflag = 0x4C then tarLoop fuel next (some (cstr (body.take 255)))
        else
          match tarNormalizeName (longname.getD (tarFullName rest)) with
          | none => tarLoop fuel next none
          | some clean =>
            let more := tarLoop fuel next none
            (⟨clean, typeflag, body⟩ :: more.1, more.2)

def tarIterate (data : List UInt8) : List TarEntry × Bool := tarLoop data.length data none

def regular (typeflag : UInt8) : Bool := typeflag == 0x30 || typeflag == 0

def tarFindFile (data : List UInt8) (want : CString) : Option (List UInt8) :=
  ((tarIterate data).1.find? fun e => regular e.typeflag && e.clean == want).map TarEntry.body

def TarEntry.path (e : TarEntry) : CString := slash :: e.clean

def TarEntry.isDir (e : TarEntry) : Bool :=
  e.typeflag == 0x35 || (regular e.typeflag && e.clean.getLast? == some slash)

/-- Make the directory that a path is in. -/
def mkdirParent (path : CString) : P Bool :=
  match splitLast path with
  | none => pure true
  | some (dirp, _) => if dirp = [] then pure true else fsMkdirP dirp

/-- extract_cb: an error, or the path of a file written, if it was one. -/
def extractCb (e : TarEntry) : P (Option (Option CString)) := do
  if e.isDir then
    if ← fsMkdirP (if e.path.getLast? = some slash then e.path.dropLast else e.path) then
      pure (some none)
    else pure none
  else if regular e.typeflag then
    if ← mkdirParent e.path then
      match ← fileFor e.path with
      | none => pure none
      | some f =>
        if ← fsWriteFile f e.body then pure (some (some e.path)) else pure none
    else pure none
  else pure (some none)

def extractAll : List TarEntry → P (Option (List CString))
  | [] => pure (some [])
  | e :: es => do
    match ← extractCb e with
    | none => pure none
    | some f =>
      match ← extractAll es with
      | none => pure none
      | some fs => pure (some (f.toList ++ fs))

def tarExtract (data : List UInt8) : P (Option (List CString)) := do
  let (entries, ok) := tarIterate data
  match ← extractAll entries with
  | none => pure none
  | some fs => pure (if ok then some fs else none)

/-! ## ar -/

structure ArMember where
  name : CString
  size : Nat
  data : List UInt8

def arMagic : List UInt8 := text ['!', '<', 'a', 'r', 'c', 'h', '>'] ++ [newline]

def arSize (field : List UInt8) : Nat :=
  (field.takeWhile fun c => decide (0x30 ≤ c ∧ c ≤ 0x39)).foldl
    (fun sz c => sz * 10 + (c.toNat - 0x30)) 0

/-- ar_next_member behind the magic number: the member whose header is at `pos`, and the
place of the next one. -/
def arNextMember (buf : List UInt8) (pos : Nat) : Option (ArMember × Nat) :=
  let h := buf.drop pos
  if buf.length < pos + 60 then none
  else if h.getD 58 0 ≠ 0x60 ∨ h.getD 59 0 ≠ newline then none
  else
    let name := (h.take 16).takeWhile fun c => c ≠ slash ∧ c ≠ 0x20 ∧ c ≠ 0
    let size := arSize ((h.drop 48).take 10)
    if buf.length < pos + 60 + size then none
    else some (⟨name, size, h.drop 60⟩, pos + (60 + size + (60 + size) % 2))

def arLoop (buf : List UInt8) : Nat → Nat → List ArMember
  | 0, _ => []
  | fuel + 1, pos =>
    match arNextMember buf pos with
    | none => []
    | some (m, next) => m :: arLoop buf fuel next

def arMembers (buf : List UInt8) : List ArMember :=
  if arMagic <+: buf then arLoop buf buf.length 8 else []

/-! ## .deb -/

def debMaxFiles : Nat := 256

structure DebControl where
  package : CString
  version : CString
  architecture : CString
  depends : CString
deriving DecidableEq, Repr

def DebControl.zero : DebControl := ⟨[], [], [], []⟩

def packageKey : CString := text ['P', 'a', 'c', 'k', 'a', 'g', 'e']
def statusKey : CString := text ['S', 't', 'a', 't', 'u', 's']
def versionKey : CString := text ['V', 'e', 'r', 's', 'i', 'o', 'n']
def architectureKey : CString :=
  text ['A', 'r', 'c', 'h', 'i', 't', 'e', 'c', 't', 'u', 'r', 'e']
def dependsKey : CString := text ['D', 'e', 'p', 'e', 'n', 'd', 's']

/-- One line of a control file.  Each field is cut to its size. -/
def controlLine (c : DebControl) (line : CString) : DebControl :=
  if 0x3A ∈ line then
    let key := line.takeWhile (· ≠ 0x3A)
    let val := ((line.dropWhile (· ≠ 0x3A)).drop 1).dropWhile blank
    if key = packageKey then { c with package := val.take 63 }
    else if key = versionKey then { c with version := val.take 63 }
    else if key = architectureKey then { c with architecture := val.take 31 }
    else if key = dependsKey then { c with depends := val.take 255 }
    else c
  else c

def debParseControl (body : List UInt8) : DebControl :=
  (tokens newline (cstr body)).foldl controlLine .zero

/-- filelist_cb over the files written: the slots hold so many paths of such a length. -/
def fileList (files : List CString) : List CString :=
  (files.filter fun path => path.length < 128).take debMaxFiles

structure Unpack where
  sawDebianBinary : Bool
  haveControl : Bool
  haveData : Bool
  control : DebControl
  files : List CString
deriving DecidableEq, Repr

def Unpack.start : Unpack := ⟨false, false, false, .zero, []⟩

structure DebResult where
  control : DebControl
  files : List CString
deriving DecidableEq, Repr

def debianBinary : CString :=
  text ['d', 'e', 'b', 'i', 'a', 'n', '-', 'b', 'i', 'n', 'a', 'r', 'y']
def controlTar : CString := text ['c', 'o', 'n', 't', 'r', 'o', 'l', '.', 't', 'a', 'r']
def dataTar : CString := text ['d', 'a', 't', 'a', '.', 't', 'a', 'r']
def controlName : CString := text ['c', 'o', 'n', 't', 'r', 'o', 'l']
def extGz : CString := text ['.', 'g', 'z']
def extZst : CString := text ['.', 'z', 's', 't']

section
variable (inflate : List UInt8 → Option (List UInt8))

def gunzipToHeap (m : ArMember) : P (Option (List UInt8)) := do
  if ← refused .buffer then pure none else pure (inflate (m.data.take m.size))

/-- zstd_to_heap.  The decoder may also not come to an end. -/
def zstdToHeap (m : ArMember) : P (Option (List UInt8)) := fun s =>
  match Zstd.zstdDecompressHeap (s.world.zstd s.asked s.tree) (fun i => m.data.getD i 0) m.size with
  | .ok out => some (some out, { s with asked := s.asked + 1 })
  | .fail => some (none, { s with asked := s.asked + 1 })
  | .hang => none

def unpackTar (m : ArMember) (ext : CString) : P (Option (List UInt8)) :=
  if ext = extGz then gunzipToHeap inflate m
  else if ext = extZst then zstdToHeap m
  else pure none

def unpackMember (m : ArMember) (u : Unpack) : P (Option Unpack) := do
  if m.name = debianBinary then pure (some { u with sawDebianBinary := true })
  else if controlTar <+: m.name then
    match ← unpackTar inflate m (m.name.drop controlTar.length) with
    | none => pure none
    | some tar =>
      match tarFindFile tar controlName with
      | none => pure (some u)
      | some body =>
        let c ← if ← refused .buffer then pure .zero else pure (debParseControl body)
        pure (some { u with control := c, haveControl := true })
  else if dataTar <+: m.name then
    match ← unpackTar inflate m (m.name.drop dataTar.length) with
    | none => pure none
    | some tar =>
      match ← tarExtract tar with
      | none => pure none
      | some files => pure (some { u with files := fileList files, haveData := true })
  else pure (some u)

def unpackMembers : List ArMember → Unpack → P (Option Unpack)
  | [], u => pure (some u)
  | m :: ms, u => do
    match ← unpackMember inflate m u with
    | none => pure none
    | some u => unpackMembers ms u

/-- What is checked once all members are read. -/
def Unpack.result (u : Unpack) : Option DebResult :=
  if u.sawDebianBinary ∧ u.haveData ∧ u.haveControl ∧ u.control.package ≠ [] then
    some ⟨u.control, u.files⟩
  else none

def debUnpack (deb : List UInt8) : P (Option DebResult) := do
  match ← unpackMembers inflate (arMembers deb) .start with
  | none => pure none
  | some u => pure u.result

end

end Kil0yOS.Pkg
