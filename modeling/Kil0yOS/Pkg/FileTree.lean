/-
The file tree as the package tools see it (kernel/fs/fs.c).

A node is known by the names that lead to it from the root, and holds bytes or is a
directory.  Addresses, tables of children and backends, which Vfs models, do not show
here.  What memory and disks do is left to the surroundings: they decide about each
request, knowing the tree, the request and how many came before.  Looking into a file as
if it were a directory follows a NULL table, and such a computation has no result.
-/
import Kil0yOS.Pkg.Plan
import Kil0yOS.Vfs.Nodes
import Kil0yOS.Zstd.Stream

namespace Kil0yOS.Pkg

open List Function

export Vfs (slash dot dotdot maxPathLength maxFileSize splitLast)

def newline : UInt8 := 0x0A

abbrev Path := List CString

inductive Entry where
  | dir
  | file (bytes : List UInt8)
deriving DecidableEq, Repr

/-- The nodes of the tree.  `paths` are the nodes below the root in some order. -/
structure Tree where
  entry : Path → Option Entry
  paths : List Path
  root : entry [] = some .dir
  closed : ∀ p c, entry (p ++ [c]) ≠ none → entry p = some .dir
  listed : ∀ p c, entry (p ++ [c]) ≠ none → p ++ [c] ∈ paths

namespace Tree

def bare : Tree where
  entry := update (fun _ => none) [] (some .dir)
  paths := []
  root := update_self ..
  closed := by
    intro p c h
    rw [update_of_ne (by simp)] at h
    exact absurd rfl h
  listed := by
    intro p c h
    rw [update_of_ne (by simp)] at h
    exact absurd rfl h

variable (t : Tree)

def add (p : Path) (c : CString) (e : Entry) (hp : t.entry p = some .dir)
    (hnew : t.entry (p ++ [c]) = none) : Tree where
  entry := update t.entry (p ++ [c]) (some e)
  paths := t.paths ++ [p ++ [c]]
  root := by
    rw [update_of_ne (by simp)]
    exact t.root
  closed := by
    intro q d h
    have hne : ∀ q d, t.entry (q ++ [d]) ≠ none → q ≠ p ++ [c] := by
      intro q d hq he
      have hdir := t.closed q d hq
      rw [he, hnew] at hdir
      cases hdir
    by_cases hqd : q ++ [d] = p ++ [c]
    · obtain ⟨hq, -⟩ := append_inj' hqd rfl
      rw [hq, update_of_ne (by simp)]
      exact hp
    · rw [update_of_ne hqd] at h
      rw [update_of_ne (hne q d h)]
      exact t.closed q d h
  listed := by
    intro q d h
    by_cases hqd : q ++ [d] = p ++ [c]
    · rw [hqd]
      exact mem_append_right _ (mem_singleton.mpr rfl)
    · rw [update_of_ne hqd] at h
      exact mem_append_left _ (t.listed q d h)

def put (p : Path) (old bytes : List UInt8) (hp : t.entry p = some (.file old)) : Tree where
  entry := update t.entry p (some (.file bytes))
  paths := t.paths
  root := by
    have hne : ([] : Path) ≠ p := by
      intro he
      rw [← he, t.root] at hp
      cases hp
    rw [update_of_ne hne]
    exact t.root
  closed := by
    intro q d h
    have hq : t.entry (q ++ [d]) ≠ none := by
      by_cases hqd : q ++ [d] = p
      · rw [hqd, hp]
        exact Option.some_ne_none _
      · rwa [update_of_ne hqd] at h
    have hne : q ≠ p := by
      intro he
      have hdir := t.closed q d hq
      rw [he, hp] at hdir
      cases hdir
    rw [update_of_ne hne]
    exact t.closed q d hq
  listed := by
    intro q d h
    by_cases hqd : q ++ [d] = p
    · apply t.listed
      rw [hqd, hp]
      exact Option.some_ne_none _
    · rw [update_of_ne hqd] at h
      exact t.listed q d h

def cut (p : Path) (hp : p ≠ []) : Tree where
  entry := fun q => if p <+: q then none else t.entry q
  paths := t.paths.filter fun q => ! decide (p <+: q)
  root := by
    rw [if_neg (fun h => hp (prefix_nil.mp h))]
    exact t.root
  closed := by
    intro q d h
    by_cases hpre : p <+: q ++ [d]
    · rw [if_pos hpre] at h
      exact absurd rfl h
    · rw [if_neg hpre] at h
      rw [if_neg fun hq => hpre (hq.trans (prefix_append q [d]))]
      exact t.closed q d h
  listed := by
    intro q d h
    by_cases hpre : p <+: q ++ [d]
    · rw [if_pos hpre] at h
      exact absurd rfl h
    · rw [if_neg hpre] at h
      rw [mem_filter]
      exact ⟨t.listed q d h, by simpa using hpre⟩

end Tree

/-- What is asked of memory and of the disks. -/
inductive Request where
  /-- The copy of a path that fs_resolve_path takes apart. -/
  | copy (path : CString)
  /-- A node, its slot in the directory and its entry on a disk. -/
  | node (path : Path)
  /-- The new contents of a file. -/
  | store (path : Path)
  /-- A buffer with the contents of a file. -/
  | load (path : Path)
  /-- The buffer for the status text without one package. -/
  | without
  /-- Another buffer of the package tools. -/
  | buffer
deriving DecidableEq

structure World where
  /-- Whether a request fails. -/
  fails : Nat → Tree → Request → Bool
  /-- What a failed write of new contents leaves of the old ones. -/
  leaves : List UInt8 → List UInt8 → List UInt8
  /-- The memory that a call of the zstd decoder finds, and what lies behind its tables. -/
  zstd : Nat → Tree → Zstd.Env
  /-- The flag that `dpkg_set_force_deps` sets. -/
  forceDeps : Bool

structure Sys where
  tree : Tree
  /-- The working directory. -/
  current : Path
  /-- How many requests there were. -/
  asked : Nat
  world : World

/-- Computations on the tree.  No result: a NULL table was followed. -/
abbrev P := StateT Sys Option

def refused (r : Request) : P Bool := fun s =>
  some (s.world.fails s.asked s.tree r, { s with asked := s.asked + 1 })

def setTree (t : Tree) : P Unit := modify fun s => { s with tree := t }

/-! ## Paths -/

/-- The loop of fs_resolve_path over the pieces of a path: no node, or the one it ends at.
A file has no table of children to look into. -/
def walk (t : Tree) : Path → List CString → Option (Option Path)
  | cur, [] => some (some cur)
  | cur, tok :: rest =>
    if tok = dot then walk t cur rest
    else if tok = dotdot then walk t cur.dropLast rest
    else
      match t.entry cur with
      | some .dir =>
        if t.entry (cur ++ [tok]) = none then some none else walk t (cur ++ [tok]) rest
      | _ => none

variable (path : CString)

def fsResolvePath : P (Option Path) := do
  let s ← get
  match path with
  | [] => pure (some s.current)
  | c :: rest =>
    let start := if c = slash then [] else s.current
    let path := if c = slash then rest else c :: rest
    if path = [] then pure (some [])
    else if ← refused (.copy (c :: rest)) then pure none
    else fun u => (walk u.tree start (tokens slash path)).map fun r => (r, u)

variable (name : CString)

def resolveParentAndName : P (Option Path × CString) := do
  let s ← get
  match splitLast name with
  | none => pure (some s.current, name)
  | some (dirPath, base) =>
    if 0 < dirPath.length ∧ dirPath.length < maxPathLength - 1 then
      let parent ← fsResolvePath dirPath
      pure (parent, base)
    else if dirPath.length = 0 then pure (some [], base)
    else pure (some s.current, name)

/-! ## Changing the tree -/

def fsCreate (e : Entry) : P (Option Path) := do
  if 256 ≤ name.length then pure none
  else
    match ← resolveParentAndName name with
    | (none, _) => pure none
    | (some dir, base) =>
      if base = [] then pure none
      else
        let s ← get
        if hdir : s.tree.entry dir = some .dir then
          if hnew : s.tree.entry (dir ++ [base]) = none then
            if ← refused (.node (dir ++ [base])) then pure none
            else
              setTree (s.tree.add dir base e hdir hnew)
              pure (some (dir ++ [base]))
          else pure none
        else failure

def fsCreateFile : P (Option Path) := fsCreate name (.file [])
def fsCreateDir : P (Option Path) := fsCreate name .dir

def fileFor : P (Option Path) := do
  match ← fsResolvePath path with
  | some f => pure (some f)
  | none => fsCreateFile path

/-- Whether the write succeeds.  A failed one may have lost the old contents. -/
def fsWriteFile (p : Path) (data : List UInt8) : P Bool := do
  let s ← get
  match h : s.tree.entry p with
  | some (.file old) =>
    if ← refused (.store p) then
      setTree (s.tree.put p old (s.world.leaves old data) h)
      pure false
    else
      setTree (s.tree.put p old (data.take maxFileSize) h)
      pure true
  | _ => pure false

/-- Whether an entry was deleted. -/
def fsDeleteEntry : P Bool := do
  match ← resolveParentAndName name with
  | (none, _) => pure false
  | (some dir, base) =>
    if base = [] then pure false
    else
      let s ← get
      if s.tree.entry dir = some .dir then
        if s.tree.entry (dir ++ [base]) = none then pure false
        else
          setTree (s.tree.cut (dir ++ [base]) (by simp))
          pure true
      else failure

/-- The texts that the loop of fs_mkdir_p cuts a path to: up to each slash behind the
first byte, and all of it. -/
def cuts : List CString :=
  ((range (path.length + 1)).filter fun i =>
    i ≠ 0 ∧ (path[i]? = some slash ∨ i = path.length)).map (path.take ·)

/-- Whether there is a node, after an attempt to make a directory where there is none. -/
def mkdirOne (buf : CString) : P Bool := do
  match ← fsResolvePath buf with
  | some _ => pure true
  | none =>
    match ← fsCreateDir buf with
    | some _ => pure true
    | none => return (← fsResolvePath buf).isSome

def mkdirs : List CString → P Bool
  | [] => pure true
  | buf :: rest => do
    if ← mkdirOne buf then mkdirs rest else pure false

def fsMkdirP : P Bool := do
  if path.head? ≠ some slash then pure false
  else
    match ← fsResolvePath path with
    | some _ => pure true
    | none =>
      if maxPathLength ≤ path.length then pure false
      else if ← mkdirs (cuts path) then return (← fsResolvePath path).isSome
      else pure false

end Kil0yOS.Pkg
