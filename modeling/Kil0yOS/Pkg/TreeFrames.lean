/-
What the functions on the file tree can change.

A path is followed name by name, so where it ends is known from its text, if it ends
anywhere.  Each function that changes the tree then has a frame: the nodes it may write,
and that elsewhere it only adds directories.
-/
import Kil0yOS.Lib.Returns
import Kil0yOS.Pkg.FileTree

namespace Kil0yOS.Pkg

open Lib List Function Option

variable {toks : List CString} {cur p q : Path} {s s' : Sys} {t : Tree}

/-! ## Where a path leads -/

/-- The node at the end of a path, if all nodes on the way are there. -/
def lexical : Path → List CString → Path
  | cur, [] => cur
  | cur, tok :: rest =>
    if tok = dot then lexical cur rest
    else if tok = dotdot then lexical cur.dropLast rest
    else lexical (cur ++ [tok]) rest

def startOf (current : Path) : CString → Path
  | [] => current
  | c :: _ => if c = slash then [] else current

def piecesOf : CString → List CString
  | [] => []
  | c :: rest => tokens slash (if c = slash then rest else c :: rest)

def pathOf (current : Path) (path : CString) : Path :=
  lexical (startOf current path) (piecesOf path)

def targetOf (current : Path) (name : CString) : Path :=
  match splitLast name with
  | none => current ++ [name]
  | some (dirPath, base) =>
    if dirPath.length < maxPathLength - 1 then
      (if dirPath = [] then [] else pathOf current dirPath) ++ [base]
    else current ++ [name]

theorem walk_lexical (h : walk t cur toks = some (some q)) : q = lexical cur toks := by
  induction toks generalizing cur with
  | nil => exact (some.inj (some.inj h)).symm
  | cons tok toks ih =>
    rw [walk] at h
    rw [lexical]
    by_cases hdot : tok = dot
    · rw [if_pos hdot] at h ⊢
      exact ih h
    rw [if_neg hdot] at h ⊢
    by_cases hdotdot : tok = dotdot
    · rw [if_pos hdotdot] at h ⊢
      exact ih h
    rw [if_neg hdotdot] at h ⊢
    split at h
    · split at h
      · cases h
      · exact ih h
    · cases h

/-- The names of a path that has no dots. -/
def Plain (toks : List CString) : Prop := ∀ tok ∈ toks, tok ≠ dot ∧ tok ≠ dotdot

theorem lexical_plain (h : Plain toks) (cur : Path) : lexical cur toks = cur ++ toks := by
  induction toks generalizing cur with
  | nil => simp [lexical]
  | cons tok toks ih =>
    obtain ⟨hdot, hdotdot⟩ := h tok mem_cons_self
    rw [lexical, if_neg hdot, if_neg hdotdot, ih fun k hk => h k (mem_cons_of_mem tok hk),
      append_assoc]
    rfl

theorem lexical_append (cur : Path) (toks more : List CString) :
    lexical cur (toks ++ more) = lexical (lexical cur toks) more := by
  induction toks generalizing cur with
  | nil => rfl
  | cons tok toks ih =>
    rw [cons_append, lexical, lexical]
    split
    · exact ih cur
    · split
      all_goals exact ih _

/-- A path leads to the entry that it names, if its last name is one. -/
theorem pathOf_eq_targetOf {name dirPath base : CString} (current : Path)
    (hsplit : splitLast name = some (dirPath, base)) (hlen : dirPath.length < maxPathLength - 1)
    (hne : base ≠ []) (hplain : Plain [base]) : pathOf current name = targetOf current name := by
  obtain ⟨hname, hslash⟩ := splitLast_eq_some hsplit
  rw [targetOf, hsplit]
  dsimp only
  rw [if_pos hlen, hname, pathOf]
  cases dirPath with
  | nil =>
    have hpieces : piecesOf (slash :: base) = [base] := pieces_of_notMem hslash hne
    rw [nil_append, hpieces, lexical_plain hplain]
    rfl
  | cons c rest =>
    have hpieces : piecesOf (c :: rest ++ slash :: base) = piecesOf (c :: rest) ++ [base] := by
      simp only [cons_append, piecesOf]
      split
      · exact pieces_append hslash hne rest
      · exact pieces_append hslash hne (c :: rest)
    rw [hpieces, lexical_append, lexical_plain hplain]
    rfl

/-- Nothing is below a node that is not there. -/
theorem Tree.entry_append_of_none (h : t.entry p = none) (q : Path) : t.entry (p ++ q) = none := by
  induction q using reverseRecOn with
  | nil => simp [h]
  | append_singleton q c ih =>
    by_contra hne
    rw [← append_assoc] at hne
    have hdir := t.closed _ c hne
    rw [ih] at hdir
    cases hdir

/-- The nodes above one that is there are directories. -/
theorem Tree.entry_of_append (h : t.entry (p ++ q) ≠ none) (hq : q ≠ []) :
    t.entry p = some .dir := by
  obtain ⟨c, q, rfl⟩ := exists_cons_of_ne_nil hq
  apply t.closed p c
  intro hnone
  apply h
  have := t.entry_append_of_none hnone q
  rwa [append_assoc] at this

/-- Without dots, the walk finds the node or does not, as it is there or is not. -/
theorem walk_plain {r : Option Path} (h : Plain toks) (hcur : t.entry cur ≠ none)
    (hwalk : walk t cur toks = some r) :
    r = if t.entry (cur ++ toks) = none then none else some (cur ++ toks) := by
  induction toks generalizing cur with
  | nil =>
    rw [append_nil, if_neg hcur]
    exact (some.inj hwalk).symm
  | cons tok toks ih =>
    obtain ⟨hdot, hdotdot⟩ := h tok mem_cons_self
    have happ : cur ++ tok :: toks = cur ++ [tok] ++ toks := by simp
    rw [walk, if_neg hdot, if_neg hdotdot] at hwalk
    split at hwalk
    · split at hwalk
      · rename_i hnone
        rw [happ, if_pos (t.entry_append_of_none hnone toks)]
        exact (some.inj hwalk).symm
      · rename_i hsome
        rw [happ]
        exact ih (fun k hk => h k (mem_cons_of_mem tok hk)) hsome hwalk
    · cases hwalk

theorem walk_of_entry (h : Plain toks)
    (hthere : t.entry (cur ++ toks) ≠ none) : walk t cur toks = some (some (cur ++ toks)) := by
  induction toks generalizing cur with
  | nil => simp [walk]
  | cons tok toks ih =>
    obtain ⟨hdot, hdotdot⟩ := h tok mem_cons_self
    have happ : cur ++ tok :: toks = cur ++ [tok] ++ toks := by simp
    have hdir := t.entry_of_append hthere (cons_ne_nil tok toks)
    rw [happ] at hthere ⊢
    have hnext : t.entry (cur ++ [tok]) ≠ none := fun hnone =>
      hthere (t.entry_append_of_none hnone toks)
    rw [walk, if_neg hdot, if_neg hdotdot, hdir]
    rw [if_neg hnext]
    exact ih (fun k hk => h k (mem_cons_of_mem tok hk)) hthere

theorem walk_root_of_entry (h : Plain toks)
    (hthere : t.entry toks ≠ none) : walk t [] toks = some (some toks) :=
  walk_of_entry h hthere

/-! ## Frames -/

/-- The tree changed as `R` says; the working directory and the surroundings did not. -/
structure Steps (R : Tree → Tree → Prop) (s t : Sys) : Prop where
  tree : R s.tree t.tree
  current : t.current = s.current
  world : t.world = s.world

/-- Files are written at nodes in `Q` only, and elsewhere there are only new directories.
Nothing is taken away. -/
structure Written (Q : Path → Prop) (t u : Tree) : Prop where
  other : ∀ p, ¬ Q p → u.entry p = t.entry p ∨ t.entry p = none ∧ u.entry p = some .dir
  dir : ∀ p, t.entry p = some .dir → u.entry p = some .dir
  kept : ∀ p, t.entry p ≠ none → u.entry p ≠ none

variable {Q : Path → Prop} {t u v : Tree} {e : Entry}

theorem Written.refl (Q : Path → Prop) (t : Tree) : Written Q t t :=
  ⟨fun _ _ => .inl rfl, fun _ h => h, fun _ h => h⟩

theorem Written.trans (h : Written Q t u) (h' : Written Q u v) : Written Q t v where
  other := by
    intro p hp
    rcases h'.other p hp with h2 | ⟨h2, h2'⟩
    · rw [h2]
      exact h.other p hp
    rcases h.other p hp with h1 | ⟨h1, h1'⟩
    · exact .inr ⟨h1 ▸ h2, h2'⟩
    · rw [h1'] at h2
      cases h2
  dir := fun p hp => h'.dir p (h.dir p hp)
  kept := fun p hp => h'.kept p (h.kept p hp)

instance : IsPreorder Tree (Written Q) where
  refl := .refl Q
  trans := fun _ _ _ => Written.trans

section Steps
variable {R : Tree → Tree → Prop} [IsPreorder Tree R]

theorem Steps.refl : Steps R s s := ⟨refl_of R _, rfl, rfl⟩

theorem Steps.trans {s'' : Sys} (h : Steps R s s') (h' : Steps R s' s'') : Steps R s s'' :=
  ⟨trans_of R h.tree h'.tree, h'.current.trans h.current, h'.world.trans h.world⟩

theorem Steps.of_eq (h : Steps Eq s s') : Steps R s s' :=
  ⟨h.tree ▸ refl_of R _, h.current, h.world⟩

end Steps

/-- One node that was no directory is written. -/
theorem written_update (hu : u.entry = update t.entry p (some e)) (hp : t.entry p ≠ some .dir)
    (he : t.entry p = none ∧ e = .dir ∨ Q p) : Written Q t u where
  other := by
    intro q hq
    rw [hu]
    by_cases hqp : q = p
    · subst hqp
      obtain ⟨hnone, rfl⟩ := he.resolve_right hq
      exact .inr ⟨hnone, update_self ..⟩
    · exact .inl (update_of_ne hqp ..)
  dir := by
    intro q hq
    rw [hu, update_of_ne]
    · exact hq
    · rintro rfl
      exact hp hq
  kept := by
    intro q hq
    rw [hu]
    by_cases hqp : q = p
    · rw [hqp, update_self]
      exact some_ne_none _
    · rwa [update_of_ne hqp]

theorem written_add {c : CString} (hp : t.entry p = some .dir) (hnew : t.entry (p ++ [c]) = none)
    (he : e = .dir ∨ Q (p ++ [c])) : Written Q t (t.add p c e hp hnew) :=
  written_update rfl (by simp [hnew]) (he.imp_left fun hdir => ⟨hnew, hdir⟩)

theorem written_put {old bytes : List UInt8} (hp : t.entry p = some (.file old)) (hQ : Q p) :
    Written Q t (t.put p old bytes hp) :=
  written_update rfl (by simp [hp]) (.inr hQ)

/-! ## The functions -/

variable {s : Sys}

def Sys.bump (s : Sys) : Sys := { s with asked := s.asked + 1 }

theorem steps_bump : Steps Eq s s.bump := ⟨rfl, rfl, rfl⟩

theorem refused_eq (r : Request) : refused r s = some (s.world.fails s.asked s.tree r, s.bump) := rfl

theorem after_refused (r : Request) : After (refused r) s fun _ t => Steps Eq s t := by
  intro b t h
  cases h
  exact steps_bump

variable (path : CString)

theorem fsResolvePath_eq :
    fsResolvePath path s =
      if path = [] ∨ path = [slash] then some (some (startOf s.current path), s)
      else if s.world.fails s.asked s.tree (.copy path) then some (none, s.bump)
      else (walk s.tree (startOf s.current path) (piecesOf path)).map fun r => (r, s.bump) := by
  cases path with
  | nil => rfl
  | cons c rest =>
    by_cases hroot : c :: rest = [slash]
    · cases hroot
      rfl
    have hpath : (if c = slash then rest else c :: rest) ≠ [] := by
      split
      · rename_i hc
        intro hrest
        exact hroot (by rw [hc, hrest])
      · exact cons_ne_nil c rest
    rw [if_neg (by simpa using hroot)]
    show (if (if c = slash then rest else c :: rest) = [] then (pure (some []) : P (Option Path))
      else _) s = _
    rw [if_neg hpath]
    show (if s.world.fails s.asked s.tree (.copy (c :: rest)) = true
      then (pure none : P (Option Path)) else _) s.bump = _
    split <;> rfl

theorem after_fsResolvePath :
    After (fsResolvePath path) s fun r t =>
      Steps Eq s t ∧ ∀ q, r = some q → q = pathOf s.current path := by
  intro r t h
  rw [fsResolvePath_eq] at h
  split at h
  · rename_i hroot
    cases h
    refine ⟨.refl, fun q hq => ?_⟩
    cases hq
    rcases hroot with rfl | rfl <;> rfl
  split at h
  · cases h
    exact ⟨steps_bump, nofun⟩
  obtain ⟨w, hw, heq⟩ := map_eq_some_iff.mp h
  cases heq
  refine ⟨steps_bump, fun q hq => ?_⟩
  subst hq
  exact walk_lexical hw

theorem after_resolveParentAndName (name : CString) :
    After (resolveParentAndName name) s fun r t =>
      Steps Eq s t ∧ ∀ dir, r.1 = some dir → dir ++ [r.2] = targetOf s.current name := by
  unfold resolveParentAndName targetOf
  cases splitLast name with
  | none => exact .pure ⟨.refl, fun dir hdir => by cases hdir; rfl⟩
  | some split =>
    obtain ⟨dirPath, base⟩ := split
    dsimp only
    refine .ite (fun hlen => ?_) fun hlen => .ite (fun hnil => ?_) fun hlong => ?_
    · refine (after_fsResolvePath dirPath).bind fun r t hr => .pure ⟨hr.1, ?_⟩
      intro dir hdir
      simp [hlen.2, ne_nil_of_length_pos hlen.1, ← hr.2 dir hdir]
    · refine .pure ⟨.refl, fun dir hdir => ?_⟩
      cases hdir
      rw [if_pos (by rw [hnil]; decide), if_pos (length_eq_zero_iff.mp hnil)]
    · refine .pure ⟨.refl, fun dir hdir => ?_⟩
      cases hdir
      rw [if_neg fun hshort => hlen ⟨Nat.pos_of_ne_zero hlong, hshort⟩]

theorem after_fsCreate (name : CString) (e : Entry) (he : e = .dir ∨ Q (targetOf s.current name)) :
    After (fsCreate name e) s fun r t => Steps (Written Q) s t ∧
      ∀ q, r = some q → q = targetOf s.current name := by
  refine .ite (fun _ => .pure ⟨.refl, nofun⟩) fun _ => ?_
  refine (after_resolveParentAndName name).bind fun r u hr => ?_
  obtain ⟨parent, base⟩ := r
  obtain ⟨hu, htarget⟩ := hr
  have hsu : Steps (Written Q) s u := hu.of_eq
  cases parent with
  | none => exact .pure ⟨hsu, nofun⟩
  | some dir =>
    have htarget : dir ++ [base] = targetOf s.current name := htarget dir rfl
    refine .ite (fun _ => .pure ⟨hsu, nofun⟩) fun _ => ?_
    refine .get_bind ?_
    split
    · rename_i hdir
      split
      · rename_i hnew
        refine .run (refused_eq _) (.ite (fun _ => .pure ⟨hsu.trans ?_, nofun⟩) fun _ => ?_)
        · exact steps_bump.of_eq
        refine .modify_bind (.pure ⟨hsu.trans ?_, ?_⟩)
        · exact ⟨written_add hdir hnew (he.imp_right fun hq => htarget ▸ hq), rfl, rfl⟩
        · intro q hq
          cases hq
          exact htarget
      · exact .pure ⟨hsu, nofun⟩
    · exact after_none rfl

theorem after_fileFor (hQ : Q (targetOf s.current path)) :
    After (fileFor path) s fun r t => Steps (Written Q) s t ∧
      ∀ q, r = some q → q = pathOf s.current path ∨ q = targetOf s.current path := by
  refine (after_fsResolvePath path).option (fun u hu => ?_) fun q _ hu =>
    .pure ⟨hu.1.of_eq, fun p hp => .inl (hu.2 p hp)⟩
  have hcur := hu.1.current
  refine (after_fsCreate path (.file []) (.inr (hcur ▸ hQ))).mono fun r v hv => ?_
  exact ⟨hu.1.of_eq.trans hv.1, fun q hq => .inr (hcur ▸ hv.2 q hq)⟩

theorem after_fsWriteFile (p : Path) (data : List UInt8) (hQ : Q p) :
    After (fsWriteFile p data) s fun ok t => Steps (Written Q) s t ∧
      (ok = true → t.tree.entry p = some (.file (data.take maxFileSize))) := by
  refine .get_bind ?_
  split
  · rename_i old hold
    refine .run (refused_eq _) (.ite (fun _ => ?_) fun _ => ?_)
    · refine .modify_bind (.pure ⟨?_, nofun⟩)
      exact ⟨written_put hold hQ, rfl, rfl⟩
    · refine .modify_bind (.pure ⟨?_, fun _ => ?_⟩)
      · exact ⟨written_put hold hQ, rfl, rfl⟩
      · exact update_self ..
  · exact .pure ⟨.refl, nofun⟩

theorem after_mkdirOne (buf : CString) :
    After (mkdirOne buf) s fun _ t => Steps (Written Q) s t := by
  refine (after_fsResolvePath buf).option (fun u hu => ?_) fun _ _ hu => .pure hu.1.of_eq
  refine (after_fsCreate buf .dir (.inl rfl)).option (fun v hv => ?_)
    fun _ _ hv => .pure (hu.1.of_eq.trans hv.1)
  exact (after_fsResolvePath buf).bind fun r w hw =>
    .pure ((hu.1.of_eq.trans hv.1).trans hw.1.of_eq)

theorem after_mkdirs (bufs : List CString) :
    After (mkdirs bufs) s fun _ t => Steps (Written Q) s t := by
  induction bufs generalizing s with
  | nil => exact .pure .refl
  | cons buf bufs ih =>
    refine (after_mkdirOne (Q := Q) buf).bind fun b u hu => ?_
    refine .ite (fun _ => ?_) fun _ => .pure hu
    exact ih.mono fun _ v hv => hu.trans hv

theorem after_fsMkdirP : After (fsMkdirP path) s fun _ t => Steps (Written Q) s t := by
  refine .ite (fun _ => .pure .refl) fun _ => ?_
  refine (after_fsResolvePath path).option (fun u hu => ?_) fun _ _ hu => .pure hu.1.of_eq
  have hsu : Steps (Written Q) s u := hu.1.of_eq
  refine .ite (fun _ => .pure hsu) fun _ => ?_
  refine (after_mkdirs (Q := Q) (cuts path)).bind fun b v hv => ?_
  refine .ite (fun _ => ?_) fun _ => .pure (hsu.trans hv)
  exact (after_fsResolvePath path).bind fun r w hw => .pure ((hsu.trans hv).trans hw.1.of_eq)

/-- A deletion takes out the entry it names, with all below it, and nothing else. -/
theorem after_fsDeleteEntry (name : CString) :
    After (fsDeleteEntry name) s fun _ t =>
      Steps (fun t u => ∀ q, ¬ targetOf s.current name <+: q → u.entry q = t.entry q) s t := by
  refine (after_resolveParentAndName name).bind fun r u hr => ?_
  obtain ⟨parent, base⟩ := r
  obtain ⟨hu, htarget⟩ := hr
  have hsame : Steps (fun t u => ∀ q, ¬ targetOf s.current name <+: q → u.entry q = t.entry q) s u :=
    ⟨fun q _ => by rw [hu.tree], hu.current, hu.world⟩
  cases parent with
  | none => exact .pure hsame
  | some dir =>
    have htarget : dir ++ [base] = targetOf s.current name := htarget dir rfl
    refine .ite (fun _ => .pure hsame) fun _ => ?_
    refine .get_bind (.ite (fun _ => ?_) fun _ => ?_)
    · refine .ite (fun _ => .pure hsame) fun _ => ?_
      refine .modify_bind (.pure ?_)
      refine ⟨fun q hq => ?_, hu.current, hu.world⟩
      rw [← htarget] at hq
      rw [hu.tree]
      exact if_neg hq
    · exact after_none rfl

end Kil0yOS.Pkg
