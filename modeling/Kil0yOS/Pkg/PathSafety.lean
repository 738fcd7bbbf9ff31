/-
Paths that lead through files.

A name is looked up in the table of children of the node before it, whatever that node is,
and a file has no such table.
-/
import Kil0yOS.Pkg.StatusDb

namespace Kil0yOS.Pkg

open Lib List

variable {t : Tree} {s : Sys} {cur : Path} {toks : List CString} {path name : CString}

/-- A part of the path that resolves and has a name behind it leads to a directory. -/
def LooksInDirs (t : Tree) (cur : Path) (toks : List CString) : Prop :=
  ∀ front tok rest d, toks = front ++ tok :: rest → tok ≠ dot → tok ≠ dotdot →
    walk t cur front = some (some d) → t.entry d = some .dir

/-- The parts of a longer path, by the part before its first name. -/
theorem looksInDirs_cons {tok : CString} : LooksInDirs t cur (tok :: toks) ↔
    (tok ≠ dot → tok ≠ dotdot → t.entry cur = some .dir) ∧
      ∀ front a rest d, toks = front ++ a :: rest → a ≠ dot → a ≠ dotdot →
        walk t cur (tok :: front) = some (some d) → t.entry d = some .dir := by
  constructor
  · intro h
    exact ⟨fun h₁ h₂ => h [] tok toks cur rfl h₁ h₂ rfl, fun front a rest d hsplit =>
      h (tok :: front) a rest d (congrArg (cons tok) hsplit)⟩
  · rintro ⟨hhead, htail⟩ front a rest d hsplit h₁ h₂ hwalk
    cases front with
    | nil =>
      cases hsplit
      cases hwalk
      exact hhead h₁ h₂
    | cons b front =>
      cases hsplit
      exact htail front a rest d rfl h₁ h₂ hwalk

theorem walk_isSome_iff : (walk t cur toks).isSome = true ↔ LooksInDirs t cur toks := by
  induction toks generalizing cur with
  | nil => exact iff_of_true rfl fun front tok rest d h => by simp at h
  | cons tok toks ih =>
    rw [looksInDirs_cons]
    simp only [walk]
    by_cases hdot : tok = dot
    · simp [hdot, ih, LooksInDirs]
    by_cases hdotdot : tok = dotdot
    · simp [hdotdot, show dotdot ≠ dot by decide, ih, LooksInDirs]
    cases hcur : t.entry cur with
    | none => simp [hdot, hdotdot]
    | some e =>
      cases e with
      | file bytes => simp [hdot, hdotdot]
      | dir =>
        by_cases hnone : t.entry (cur ++ [tok]) = none
        · simp [hdot, hdotdot, hnone]
        · simp [hdot, hdotdot, hnone, ih, LooksInDirs]

/-- The copy of a path is not made, or all its names are looked up in directories, and
`more` only if its end is one. -/
def PathOk (s : Sys) (path : CString) (more : Prop) : Prop :=
  s.world.fails s.asked s.tree (.copy path) = false →
    LooksInDirs s.tree (startOf s.current path) (piecesOf path) ∧
      (more → ∀ d, walk s.tree (startOf s.current path) (piecesOf path) = some (some d) →
        s.tree.entry d = some .dir)

/-- The part of a name before the last slash leads to no file if a name is behind it. -/
def ParentOk (s : Sys) (name : CString) : Prop :=
  ∀ r ∈ splitLast name, r.1.length < maxPathLength - 1 → PathOk s r.1 (r.2 ≠ [])

/-- No table of children is read but a directory's. -/
def PathSafe (s : Sys) (path : CString) : Prop :=
  Returns (fsResolvePath path) s (fun _ _ => True) ∧
    Returns (fsCreateFile path) s (fun _ _ => True) ∧
    Returns (fsCreateDir path) s (fun _ _ => True) ∧
    Returns (fsDeleteEntry path) s (fun _ _ => True)

section

variable (hcur : s.tree.entry s.current = some .dir)
include hcur

theorem returns_fsResolvePath_iff {more : Prop} : Returns (fsResolvePath path) s
    (fun r u => more → ∀ d, r = some d → u.tree.entry d = some .dir) ↔ PathOk s path more := by
  unfold Returns PathOk
  rw [fsResolvePath_eq, ← walk_isSome_iff]
  split
  · rename_i hroot
    have hdir : s.tree.entry (startOf s.current path) = some .dir := by
      rcases hroot with rfl | rfl
      · exact hcur
      · exact s.tree.root
    have hnil : piecesOf path = [] := by
      rcases hroot with rfl | rfl
      all_goals rfl
    simp [hnil, walk, hdir]
  · split
    · rename_i hfails
      simp [hfails]
    · rename_i hfails
      cases hwalk : walk s.tree (startOf s.current path) (piecesOf path) with
      | none => simp [hfails]
      | some r => simp [hfails, Sys.bump]

/-- The parent is found without looking into a file, and is a directory if there is a name
to look up in it. -/
theorem returns_resolveParentAndName_iff : Returns (resolveParentAndName name) s
    (fun r u => r.2 ≠ [] → ∀ d, r.1 = some d → u.tree.entry d = some .dir) ↔ ParentOk s name := by
  unfold resolveParentAndName ParentOk
  rw [returns_get_bind]
  cases hsplit : splitLast name with
  | none => simp [returns_pure, hcur]
  | some r =>
    obtain ⟨dirPath, base⟩ := r
    dsimp only
    simp only [Option.mem_some_iff, forall_eq']
    split
    · rename_i hlen
      rw [returns_bind, imp_iff_right hlen.2, ← returns_fsResolvePath_iff hcur]
      simp only [returns_pure]
    split
    · rename_i hnil
      rw [length_eq_zero_iff.mp hnil]
      simp [returns_pure, s.tree.root, PathOk, ← walk_isSome_iff, walk, piecesOf, startOf, hcur]
    · rename_i hlen hnil
      have hlong : ¬ dirPath.length < maxPathLength - 1 := by omega
      simp [returns_pure, hcur, hlong]

theorem returns_fsDeleteEntry_iff :
    Returns (fsDeleteEntry name) s (fun _ _ => True) ↔ ParentOk s name := by
  rw [← returns_resolveParentAndName_iff hcur, fsDeleteEntry, returns_bind]
  refine exists_congr fun r => exists_congr fun u => and_congr_right fun _ => ?_
  obtain ⟨parent, base⟩ := r
  cases parent with
  | none => simp [returns_pure]
  | some dir =>
    by_cases hbase : base = []
    · simp [hbase, returns_pure]
    simp only [hbase, if_false, returns_get_bind]
    by_cases hdir : u.tree.entry dir = some .dir
    · simp only [hdir, if_true]
      refine iff_of_true ?_ (by simp [hdir])
      exact returns_guard (fun _ => trivial) fun _ => returns_modify_bind.mpr (.pure trivial)
    · refine iff_of_false ?_ (by simp [hdir, hbase])
      rintro ⟨_, _, hrun, -⟩
      rw [if_neg hdir] at hrun
      cases hrun

theorem returns_fsCreate (e : Entry) (h : ParentOk s name) :
    Returns (fsCreate name e) s fun _ _ => True := by
  rw [← returns_resolveParentAndName_iff hcur] at h
  refine returns_guard (fun _ => trivial) fun _ => h.bind fun r u hu => ?_
  obtain ⟨parent, base⟩ := r
  cases parent with
  | none => exact .pure trivial
  | some dir =>
    refine returns_guard (fun _ => trivial) fun hbase => returns_get_bind.mpr ?_
    rw [dif_pos (hu hbase dir rfl)]
    split
    · refine returns_bind_of_some (refused_eq _) (returns_guard (fun _ => trivial) fun _ => ?_)
      exact returns_modify_bind.mpr (.pure trivial)
    · exact .pure trivial

end

theorem path_safe_iff (hcur : s.tree.entry s.current = some .dir) :
    PathSafe s path ↔ PathOk s path False ∧ ParentOk s path := by
  have hresolve : Returns (fsResolvePath path) s (fun _ _ => True) ↔ PathOk s path False := by
    simp [← returns_fsResolvePath_iff hcur]
  rw [PathSafe, hresolve, returns_fsDeleteEntry_iff hcur]
  constructor
  · rintro ⟨hpath, -, -, hparent⟩
    exact ⟨hpath, hparent⟩
  · rintro ⟨hpath, hparent⟩
    exact ⟨hpath, returns_fsCreate hcur _ hparent, returns_fsCreate hcur _ hparent, hparent⟩

/-- A file at the root and a directory beside it. -/
def fileAndDir : Sys :=
  calmCall.sys ((Tree.bare.add [] (text ['f']) (.file []) Tree.bare.root (by decide)).add
    [] (text ['d']) .dir rfl (by decide))

theorem path_safe_iff_dotdot :
    PathSafe fileAndDir (text ['/', 'd', '/', '.', '.', '/', 'd', '/', 'x']) := by
  refine (path_safe_iff rfl).mpr ⟨fun _ => ⟨?_, nofun⟩, fun r hr _ _ => ?_⟩
  · rw [← walk_isSome_iff]
    decide +kernel
  · cases hr
    refine ⟨?_, fun _ d hd => ?_⟩
    · rw [← walk_isSome_iff]
      decide +kernel
    · cases hd
      rfl

theorem looked_up_in_file : ¬ PathSafe fileAndDir (text ['/', 'f', '/', 'x']) := by
  rintro ⟨⟨_, _, hrun, -⟩, -⟩
  cases hrun

end Kil0yOS.Pkg
