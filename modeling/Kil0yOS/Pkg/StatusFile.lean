/-
The status file through one installation or one removal.

Where the file is in the tree, what reading and writing it gives when the requests for it
are met, and that nothing else an installation or a removal does touches it.
-/
import Kil0yOS.Pkg.Unpacking

namespace Kil0yOS.Pkg

open Lib List

variable {name package : CString} {old : List UInt8} {current p : Path} {s : Sys} {t : Tree}

/-! ## The status file in the tree -/

def statusPath : Path :=
  [text ['v', 'a', 'r'], text ['l', 'i', 'b'], text ['d', 'p', 'k', 'g'],
   text ['s', 't', 'a', 't', 'u', 's']]

theorem plain_statusPath : Plain statusPath := by
  unfold Plain
  decide

theorem startOf_dpkgStatus (current : Path) : startOf current dpkgStatus = [] := rfl

theorem piecesOf_dpkgStatus : piecesOf dpkgStatus = statusPath := by decide

theorem pathOf_dpkgStatus (current : Path) : pathOf current dpkgStatus = statusPath := by
  simp [pathOf, startOf_dpkgStatus, piecesOf_dpkgStatus, lexical_plain plain_statusPath]

/-- The requests for reading the status file are met. -/
structure World.ReadsStatus (w : World) : Prop where
  copy : ∀ n t, w.fails n t (.copy dpkgStatus) = false
  load : ∀ n t, w.fails n t (.load statusPath) = false
  without : ∀ n t, w.fails n t .without = false

/-- And so are those for writing it. -/
structure World.WritesStatus (w : World) : Prop extends w.ReadsStatus where
  dir : ∀ n t, w.fails n t (.copy dpkgDir) = false
  store : ∀ n t, w.fails n t (.store statusPath) = false

def statusBytes (t : Tree) : List UInt8 :=
  match t.entry statusPath with
  | some (.file bytes) => bytes
  | _ => []

theorem statusBytes_of_file {bytes : List UInt8}
    (h : t.entry statusPath = some (.file bytes)) : statusBytes t = bytes := by
  rw [statusBytes, h]

theorem statusBytes_of_none (h : t.entry statusPath = none) : statusBytes t = [] := by
  rw [statusBytes, h]

/-- The status text without the paragraphs of a package. -/
def textWithout (t : Tree) (package : CString) : CString :=
  withoutLoop package (cstr (statusBytes t)).length (cstr (statusBytes t))

/-- What dpkg_is_installed answers from it. -/
def answers (t : Tree) (package : CString) : Bool :=
  installedLoop (cstr (statusBytes t)) package ((cstr (statusBytes t)).length + 1) 0

/-- What an installation writes to the status file. -/
def textWith (t : Tree) (c : DebControl) : CString :=
  (textWithout t c.package ++ (statusText c).take 319).take maxFileSize

section Reading
variable {s : Sys} (hw : s.world.ReadsStatus)
include hw

theorem fsResolvePath_status :
    fsResolvePath dpkgStatus s = (walk s.tree [] statusPath).map fun r => (r, s.bump) := by
  rw [fsResolvePath_eq, hw.copy]
  rfl

theorem after_fsReadAll_status :
    After (fsReadAll dpkgStatus) s fun raw t =>
      Steps Eq s t ∧ raw.getD [] = statusBytes s.tree := by
  refine after_bind.mpr ?_
  intro r u hr
  rw [fsResolvePath_status hw] at hr
  obtain ⟨r', hwalk, heq⟩ := Option.map_eq_some_iff.mp hr
  cases heq
  have hfound := walk_plain plain_statusPath (by rw [s.tree.root]; exact Option.some_ne_none _) hwalk
  rw [nil_append] at hfound
  by_cases hnone : s.tree.entry statusPath = none
  · rw [if_pos hnone] at hfound
    rw [hfound]
    exact .pure ⟨steps_bump, (statusBytes_of_none hnone).symm⟩
  rw [if_neg hnone] at hfound
  rw [hfound]
  refine .get_bind ?_
  split
  · rename_i bytes hbytes
    have hbytes : s.tree.entry statusPath = some (.file bytes) := hbytes
    refine .ite (fun hnil => ?_) fun _ => ?_
    · refine .pure ⟨steps_bump, ?_⟩
      rw [statusBytes_of_file hbytes, hnil]
      rfl
    refine .run (refused_eq _) ?_
    rw [show s.bump.world = s.world from rfl, hw.load]
    refine .pure ⟨steps_bump.trans steps_bump, ?_⟩
    rw [statusBytes_of_file hbytes]
    rfl
  · rename_i hother
    refine .pure ⟨steps_bump, ?_⟩
    cases he : s.tree.entry statusPath with
    | none => exact absurd he hnone
    | some e =>
      cases e with
      | dir =>
        rw [statusBytes, he]
        rfl
      | file bytes => exact absurd he (hother bytes)

theorem after_statusWithout (package : CString) :
    After (statusWithout package) s fun r t => Steps Eq s t ∧
      r.getD [] = textWithout s.tree package ∧ (statusBytes s.tree ≠ [] → r ≠ none) := by
  refine (after_fsReadAll_status hw).bind fun raw u hu => ?_
  obtain ⟨hsteps, hraw⟩ := hu
  rw [textWithout, ← hraw]
  cases raw with
  | none => exact .pure ⟨hsteps, rfl, fun h => absurd rfl h⟩
  | some raw =>
    refine .ite (fun hnil => ?_) fun _ => ?_
    · subst hnil
      exact .pure ⟨hsteps, rfl, fun h => absurd rfl h⟩
    refine .run (refused_eq _) ?_
    rw [hsteps.world, hw.without]
    exact .pure ⟨hsteps.trans steps_bump, rfl, fun _ => nofun⟩

theorem after_statusLoad :
    After statusLoad s fun buf t => Steps Eq s t ∧ buf = cstr (statusBytes s.tree) := by
  refine (after_fsReadAll_status hw).bind fun raw u hu => .pure ⟨hu.1, ?_⟩
  rw [hu.2]

theorem after_dpkgIsInstalled (package : CString) :
    After (dpkgIsInstalled package) s fun b t => Steps Eq s t ∧ b = answers s.tree package := by
  refine (after_statusLoad hw).bind fun buf u hu => .pure ⟨hu.1, ?_⟩
  rw [hu.2, answers]

/-- The question is answered where the path to the status file does not lead through a
file. -/
theorem returns_dpkgIsInstalled (package : CString) {r : Option Path}
    (hwalk : walk s.tree [] statusPath = some r) :
    ∃ t, dpkgIsInstalled package s = some (answers s.tree package, t) := by
  have hresolve : fsResolvePath dpkgStatus s = some (r, s.bump) := by
    rw [fsResolvePath_status hw, hwalk]
    rfl
  obtain ⟨raw, u, hread, -⟩ := fsReadAll_of_fsResolvePath hresolve
  have hload : statusLoad s = some (cstr (raw.getD []), u) := by
    show (fsReadAll dpkgStatus s).bind _ = _
    rw [hread]
    rfl
  have hrun : dpkgIsInstalled package s = some (installedLoop (cstr (raw.getD [])) package
      ((cstr (raw.getD [])).length + 1) 0, u) := by
    show (statusLoad s).bind _ = _
    rw [hload]
    rfl
  rw [hrun, (after_fsReadAll_status hw raw u hread).2]
  exact ⟨u, rfl⟩

end Reading

theorem fsWriteAll_status (hw : s.world.WritesStatus)
    (hold : s.tree.entry statusPath = some (.file old)) (data : List UInt8) :
    After (fsWriteAll dpkgStatus data) s fun _ t =>
      t.tree.entry statusPath = some (.file (data.take maxFileSize)) := by
  have hdir : s.tree.entry (piecesOf dpkgDir) = some .dir := by
    have happ : statusPath = piecesOf dpkgDir ++ [text ['s', 't', 'a', 't', 'u', 's']] := by decide
    apply s.tree.entry_of_append
    · rw [← happ, hold]
      exact Option.some_ne_none _
    · exact cons_ne_nil _ _
  have hresolveDir : fsResolvePath dpkgDir s = some (some (piecesOf dpkgDir), s.bump) := by
    rw [fsResolvePath_eq, hw.dir]
    have hwalk : walk s.tree [] (piecesOf dpkgDir) = some (some (piecesOf dpkgDir)) :=
      walk_root_of_entry (by unfold Plain; decide) (by rw [hdir]; exact Option.some_ne_none _)
    rw [show startOf s.current dpkgDir = [] from rfl, hwalk]
    rfl
  have hmkdir : fsMkdirParent dpkgStatus s = some (true, s.bump) := by
    show (fsResolvePath dpkgDir s).bind _ = _
    rw [hresolveDir]
    rfl
  have hfile : fileFor dpkgStatus s.bump = some (some statusPath, s.bump.bump) := by
    have hwalk := walk_root_of_entry plain_statusPath (by rw [hold]; exact Option.some_ne_none _)
    show (fsResolvePath dpkgStatus s.bump).bind _ = _
    rw [fsResolvePath_status (s := s.bump) hw.toReadsStatus]
    rw [show s.bump.tree = s.tree from rfl, hwalk]
    rfl
  have hwrite : After (fsWriteFile statusPath data) s.bump.bump fun ok t => ok = true ∧
      (ok = true → t.tree.entry statusPath = some (.file (data.take maxFileSize))) := by
    refine .and ?_ ((after_fsWriteFile (Q := fun _ => True) statusPath data trivial).mono
      fun _ _ h => h.2)
    refine .get_bind ?_
    split
    · refine .run (refused_eq _) ?_
      rw [show s.bump.bump.world = s.world from rfl, hw.store]
      exact .modify_bind (.pure rfl)
    · rename_i hother
      exact absurd hold (hother old)
  exact .run hmkdir (.run hfile (hwrite.mono fun _ _ h => h.2 h.1))

/-! ## The list of a package -/

theorem listSuffix_of_splitLast {dirPath base : CString} (hname : listSuffix <:+ name)
    (h : splitLast name = some (dirPath, base)) : listSuffix <:+ base := by
  obtain ⟨heq, -⟩ := splitLast_eq_some h
  have hslash : slash ∉ listSuffix := by decide
  have hbase : slash :: base <:+ name := heq ▸ suffix_append dirPath (slash :: base)
  rcases suffix_or_suffix_of_suffix hname hbase with hs | hs
  · rcases suffix_cons_iff.mp hs with heq | hs
    · exact absurd (heq ▸ mem_cons_self) hslash
    · exact hs
  · exact absurd (hs.subset mem_cons_self) hslash

section

variable (h : package.length < 64)
include h

theorem infoListPath_eq :
    infoListPath package = dpkgInfo ++ slash :: package ++ listSuffix := by
  have hlen : (dpkgInfo ++ slash :: package ++ listSuffix).length ≤ 95 := by
    have hinfo : dpkgInfo.length = 18 := by decide
    have hsuffix : listSuffix.length = 5 := by decide
    simp only [length_append, length_cons, hinfo, hsuffix]
    omega
  exact take_of_length_le hlen

section

variable (hp : p = pathOf current (infoListPath package) ∨ p = targetOf current (infoListPath package))
include hp

/-- Neither lookup nor creation of a list ends at a node with another kind of name. -/
theorem listPath_last :
    ∃ dir base, p = dir ++ [base] ∧ listSuffix <:+ base := by
  have hname : listSuffix <:+ infoListPath package := by
    rw [infoListPath_eq h]
    exact suffix_append _ _
  have hlen : (infoListPath package).length ≤ 95 := length_take_le ..
  cases hsplit : splitLast (infoListPath package) with
  | none =>
    have hslash := splitLast_eq_none hsplit
    rw [infoListPath_eq h] at hslash
    exact absurd (by simp) hslash
  | some parts =>
    obtain ⟨dirPath, base⟩ := parts
    have hbase := listSuffix_of_splitLast hname hsplit
    have hdirPath : dirPath.length < maxPathLength - 1 := by
      obtain ⟨heq, -⟩ := splitLast_eq_some hsplit
      rw [heq, length_append] at hlen
      show dirPath.length < 259
      omega
    have hlong : 5 ≤ base.length := hbase.length_le
    have hplain : Plain [base] := by
      intro tok htok
      rw [mem_singleton.mp htok]
      constructor
      all_goals
        rintro rfl
        exact absurd hlong (by decide)
    rw [pathOf_eq_targetOf current hsplit hdirPath (ne_nil_of_length_pos (by omega)) hplain,
      or_self, targetOf, hsplit] at hp
    dsimp only at hp
    rw [if_pos hdirPath] at hp
    exact ⟨_, base, hp, hbase⟩

/-- So it is not the status file, and nothing that is on the way to it. -/
theorem listPath_not_inside :
    ¬ p <+: statusPath := by
  obtain ⟨dir, base, rfl, hbase⟩ := listPath_last h hp
  intro hpre
  have hmem : base ∈ statusPath := hpre.subset (by simp)
  have hnone : ∀ name ∈ statusPath, ¬ listSuffix <:+ name := by decide
  exact hnone base hmem hbase

end

end

/-! ## One installation, one removal -/

/-- All but the status file may be written. -/
def NotStatus (p : Path) : Prop := p ≠ statusPath

theorem statusBytes_of_written {u : Tree} (h : Written NotStatus t u) :
    statusBytes u = statusBytes t := by
  rcases h.other statusPath (fun hne => hne rfl) with heq | ⟨hnone, hdir⟩
  · rw [statusBytes, heq]
    rfl
  · rw [statusBytes_of_none hnone, statusBytes, hdir]

section Install
variable {inflate : List UInt8 → Option (List UInt8)} {s : Sys}

theorem Controls.fields {w : World} {deb : List UInt8} {c : DebControl}
    (h : Controls inflate w deb c) : c.Fields := by
  obtain ⟨m, -, -, tar, -, body, -, rfl⟩ := h
  exact fields_debParseControl body

theorem after_depsLoop (hw : s.world.ReadsStatus) (items : List CString) :
    After (depsLoop items) s fun _ t => Steps Eq s t := by
  induction items with
  | nil => exact .pure .refl
  | cons item items ih =>
    exact .ite (fun _ => ih) fun _ => (after_dpkgIsInstalled hw _).mono fun _ _ h => h.1

theorem after_infoWriteList {deb : DebResult} (h : deb.control.package.length < 64) :
    After (infoWriteList deb) s fun _ t => Steps (Written NotStatus) s t := by
  refine (after_refused .buffer).bind fun b u hu => ?_
  have hsu : Steps (Written NotStatus) s u := hu.of_eq
  refine .ite (fun _ => .pure hsu) fun _ => ?_
  refine (after_fsWriteAll _ _ ?_).mono fun _ v hv => hsu.trans hv.1
  intro p hp heq
  exact listPath_not_inside h hp (heq ▸ prefix_refl _)

theorem after_writeStatus (hw : s.world.ReadsStatus) (c : DebControl) :
    After (writeStatus c) s fun ok t => ok = true →
      t.tree.entry statusPath = some (.file (textWith s.tree c)) := by
  refine (after_statusWithout hw c.package).bind fun r u hu => ?_
  refine .ite (fun _ => .pure nofun) fun _ => ?_
  split
  · exact nofun
  rename_i para hpara
  rw [ksprintf_statusFormat hpara]
  refine (after_fsWriteAll _ _ fun _ _ => trivial).mono fun ok w hw hok => ?_
  obtain ⟨p, hp, hentry⟩ := hw.2 hok
  rw [pathOf_dpkgStatus, show targetOf _ dpkgStatus = _ from pathOf_dpkgStatus _, or_self] at hp
  rw [hp, hu.2.1] at hentry
  exact hentry

section

variable (debPath : CString)
  (hpay : ∀ deb, s.tree.entry (pathOf s.current debPath) = some (.file deb) →
    ¬ Payload inflate s.world s.current deb statusPath)
include hpay

theorem after_unpackFile :
    After (unpackFile inflate debPath) s fun r t => Steps (Written NotStatus) s t ∧
      ∀ res, r = some res → ∃ deb, s.tree.entry (pathOf s.current debPath) = some (.file deb) ∧
        Controls inflate s.world deb res.control := by
  refine (after_fsReadAll debPath).option (fun _ hu => .pure ⟨hu.1.of_eq, nofun⟩) fun deb u hu => ?_
  obtain ⟨hsu, hraw⟩ := hu
  have hdeb := hraw deb rfl
  refine .ite (fun _ => .pure ⟨hsu.of_eq, nofun⟩) fun _ => ?_
  refine (after_refused .buffer).bind fun b v hv => ?_
  have hsv : Steps (Written NotStatus) s v := hsu.of_eq.trans hv.of_eq
  refine .ite (fun _ => .pure ⟨hsv, nofun⟩) fun _ => ?_
  have hQ : ∀ p, Payload inflate v.world v.current deb p → NotStatus p := by
    rw [hsv.world, hsv.current]
    intro p hp heq
    exact hpay deb hdeb (heq ▸ hp)
  refine (after_debUnpack deb hQ).mono fun r w hw => ⟨hsv.trans hw.1, fun res hres => ?_⟩
  exact ⟨deb, hdeb, hsv.world ▸ hw.2 res hres⟩

theorem after_dpkgInstallFile (hw : s.world.ReadsStatus) :
    After (dpkgInstallFile inflate debPath) s fun r t => ∀ res, r = some res →
      (∃ deb, s.tree.entry (pathOf s.current debPath) = some (.file deb) ∧
        Controls inflate s.world deb res.control) ∧
      t.tree.entry statusPath = some (.file (textWith s.tree res.control)) := by
  refine (after_unpackFile debPath hpay).option (fun _ _ => .pure nofun) fun res u hu => ?_
  obtain ⟨hsu, hres⟩ := hu
  obtain ⟨deb, hdeb, hcontrol⟩ := hres res rfl
  have hregister : After (register res) u fun ok t => ok = true →
      t.tree.entry statusPath = some (.file (textWith s.tree res.control)) := by
    refine (after_depsLoop (hsu.world ▸ hw) _).bind fun b v hv => .get_bind ?_
    refine .ite (fun _ => ?_) fun _ => .pure nofun
    refine (after_infoWriteList hcontrol.fields.package.short).bind fun b w hlist => ?_
    refine .ite (fun _ => ?_) fun _ => .pure nofun
    have hsw : Steps (Written NotStatus) s w := (hsu.trans hv.of_eq).trans hlist
    have hwrite := after_writeStatus (hsw.world ▸ hw) res.control
    rw [textWith, textWithout, statusBytes_of_written hsw.tree] at hwrite
    exact hwrite
  refine hregister.bind fun ok t ht => ?_
  refine .ite (fun hok => .pure fun res' hres' => ?_) fun _ => .pure nofun
  cases hres'
  exact ⟨⟨deb, hdeb, hcontrol⟩, ht hok⟩

end

end Install

/-- The status file keeps its contents. -/
def SameStatus (t u : Tree) : Prop := u.entry statusPath = t.entry statusPath

instance : IsPreorder Tree SameStatus where
  refl _ := rfl
  trans _ _ _ h h' := Eq.trans h' h

section Remove
variable {s : Sys}

theorem after_ownedLoop (package file : CString) (names : List CString) :
    After (ownedLoop package file names) s fun _ t => Steps Eq s t := by
  induction names generalizing s with
  | nil => exact .pure .refl
  | cons name names ih =>
    refine .ite (fun _ => ih) fun _ => .ite (fun _ => ?_) fun _ =>
      .ite (fun _ => ih) fun _ => ?_
    · exact after_none rfl
    refine (after_fsReadAll _).bind fun raw u hu => ?_
    have hrest : After (ownedLoop package file names) u fun _ t => Steps Eq s t :=
      ih.mono fun _ v hv => hu.1.trans hv
    cases raw with
    | none => exact hrest
    | some buf => exact .ite (fun _ => .pure hu.1) fun _ => hrest

theorem after_fileOwnedByOther (package file : CString) :
    After (fileOwnedByOther package file) s fun _ t => Steps Eq s t := by
  refine (after_fsResolvePath dpkgInfo).option (fun _ hu => .pure hu.1) fun dir u hu => ?_
  refine .get_bind (.ite (fun _ => ?_) fun _ => .pure hu.1)
  exact (after_ownedLoop package file _).mono fun _ v hv => hu.1.trans hv

theorem textWithout_of_sameStatus {u : Tree} (h : SameStatus t u) (package : CString) :
    textWithout u package = textWithout t package := by
  rw [textWithout, textWithout, statusBytes, statusBytes, h]

theorem after_fsDeleteEntry_status (h : ¬ targetOf s.current name <+: statusPath) :
    After (fsDeleteEntry name) s fun _ t => Steps SameStatus s t :=
  (after_fsDeleteEntry name).mono fun _ _ ht => ⟨ht.tree statusPath h, ht.current, ht.world⟩

theorem after_removeLoop (package : CString) (lines : List CString)
    (h : ∀ line ∈ lines, ¬ targetOf s.current line <+: statusPath) :
    After (removeLoop package lines) s fun _ t => Steps SameStatus s t := by
  induction lines generalizing s with
  | nil => exact .pure .refl
  | cons line lines ih =>
    have hrest : ∀ {u : Sys}, Steps SameStatus s u →
        After (removeLoop package lines) u fun _ t => Steps SameStatus s t := by
      intro u hu
      refine (ih ?_).mono fun _ v hv => hu.trans hv
      rw [hu.current]
      exact fun l hl => h l (mem_cons_of_mem line hl)
    refine .ite (fun _ => ?_) fun _ => hrest .refl
    refine (after_fileOwnedByOther package line).bind fun b u hu => ?_
    refine .ite (fun _ => hrest hu.of_eq) fun _ => ?_
    have hline := h line mem_cons_self
    rw [← hu.current] at hline
    refine (after_fsDeleteEntry_status hline).bind fun _ v hv => ?_
    exact hrest (hu.of_eq.trans hv)

/-- No path in the list of a package leads to the status file or to what it is in. -/
def ListSpares (t : Tree) (current : Path) (package : CString) : Prop :=
  ∀ list, t.entry (pathOf current (infoListPath package)) = some (.file list) →
    ∀ line ∈ listLines (cstr list), ¬ targetOf current line <+: statusPath

theorem after_removeFiles (hp : package.length < 64) (h : ListSpares s.tree s.current package) :
    After (removeFiles package) s fun _ t => Steps SameStatus s t := by
  have hdelete : ∀ {u : Sys}, Steps SameStatus s u →
      After (infoDeleteList package) u fun _ t => Steps SameStatus s t := by
    intro u hu
    refine (after_fsDeleteEntry_status (listPath_not_inside hp (.inr rfl))).bind fun _ v hv => ?_
    exact .pure (hu.trans hv)
  refine (after_fsReadAll _).option (fun _ hu => hdelete hu.1.of_eq) fun list u hu => ?_
  have hlines := h list (hu.2 list rfl)
  rw [← hu.1.current] at hlines
  refine (after_removeLoop package _ hlines).bind fun _ v hv => ?_
  exact hdelete (hu.1.of_eq.trans hv)

theorem after_dropStatus (hw : s.world.WritesStatus) (package : CString)
    (hold : s.tree.entry statusPath = some (.file old)) (hne : old ≠ []) :
    After (dropStatus package) s fun _ t => t.tree.entry statusPath =
      some (.file ((textWithout s.tree package).take maxFileSize)) := by
  refine (after_statusWithout hw.toReadsStatus package).bind fun r u hu => ?_
  obtain ⟨hsu, htext, hsome⟩ := hu
  rw [statusBytes_of_file hold] at hsome
  cases r with
  | none => exact absurd rfl (hsome hne)
  | some without =>
    have hu : u.tree.entry statusPath = some (.file old) := by
      rw [← hsu.tree]
      exact hold
    refine (fsWriteAll_status (hsu.world ▸ hw) hu without).bind fun _ v hv => ?_
    rw [← htext]
    exact .pure hv

end Remove

end Kil0yOS.Pkg
