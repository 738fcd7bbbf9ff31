/-
The status database over runs of installations and removals.

The status file is rewritten by each of them: read as a whole, cut into paragraphs, and
written back with one paragraph less or another one at its end.  As long as each new
paragraph fits its buffer and the file can be read and written, the file is the
paragraphs of what is installed.
-/
import Kil0yOS.Lib.Run
import Kil0yOS.Pkg.StatusFile

namespace Kil0yOS.Pkg

open List Lib

/-! ## Runs -/

/-- The tree, and the control fields of what is installed, in the order of installation. -/
structure Db where
  tree : Tree
  installed : List DebControl

/-- What a call finds apart from the tree. -/
structure Call where
  current : Path
  asked : Nat
  world : World

def Call.sys (call : Call) (t : Tree) : Sys := ⟨t, call.current, call.asked, call.world⟩

inductive Op where
  | install (debPath : CString)
  | remove (package : CString)

def Db.others (d : Db) (package : CString) : List DebControl :=
  d.installed.filter fun c => c.package ≠ package

section Runs
variable (inflate : List UInt8 → Option (List UInt8))

/-- A call that succeeds. -/
def Db.Step (d : Db) (a : Call × Op) (d' : Db) : Prop :=
  match a.2 with
  | .install debPath => ∃ deb t, dpkgInstallFile inflate debPath (a.1.sys d.tree) = some (some deb, t) ∧
      d' = ⟨t.tree, d.others deb.control.package ++ [deb.control]⟩
  | .remove package => ∃ t, dpkgRemove package (a.1.sys d.tree) = some (true, t) ∧
      d' = ⟨t.tree, d.others package⟩

/-- The fields leave room for the fixed part of the paragraph. -/
def DebControl.Fits (c : DebControl) : Prop :=
  c.package.length + c.version.length + c.architecture.length + c.depends.length ≤ 244

/-- The paragraph fits its buffer and the whole text a file, the status file can be read
and, for a removal, written, and neither the payload nor the list of a package names it. -/
def Db.Safe (d : Db) (a : Call × Op) : Prop :=
  match a.2 with
  | .install debPath => a.1.world.ReadsStatus ∧ (statusBytes d.tree).length + 319 ≤ maxFileSize ∧
      ∀ deb, d.tree.entry (pathOf a.1.current debPath) = some (.file deb) →
        (∀ c, Controls inflate a.1.world deb c → c.Fits) ∧
        ¬ Payload inflate a.1.world a.1.current deb statusPath
  | .remove package => a.1.world.WritesStatus ∧ ListSpares d.tree a.1.current package

end Runs

/-- No file is where a directory on the way to the status file should be. -/
def Rooted (t : Tree) : Prop := ∀ p bytes, p <+: statusPath → t.entry p ≠ some (.file bytes)

/-- Nothing is installed, and the status file is empty or not there. -/
structure Db.Init (d : Db) : Prop where
  installed : d.installed = []
  file : d.tree.entry statusPath = some (.file []) ∨ d.tree.entry statusPath = none ∧ Rooted d.tree

/-- One paragraph for each package, in which its fields read as they were given, and the
answers of dpkg_is_installed are those of the database. -/
structure Db.Recorded (d : Db) : Prop where
  one : (d.installed.map DebControl.package).Nodup
  paragraphs : ∀ i, (statusParagraph (cstr (statusBytes d.tree)) i).isSome = true ↔
    i < d.installed.length
  fields : ∀ i para, statusParagraph (cstr (statusBytes d.tree)) i = some para →
    ∃ c, d.installed[i]? = some c ∧ paraField para packageKey 64 = some c.package ∧
      paraField para versionKey 64 = some c.version ∧
      paraField para architectureKey 32 = some c.architecture ∧
      paraField para dependsKey 256 = some c.depends
  answers : ∀ (call : Call) package, call.world.ReadsStatus →
    ∃ t, dpkgIsInstalled package (call.sys d.tree) =
      some (decide (∃ c ∈ d.installed, c.package = package), t)

/-- The status file is the paragraphs of what is installed. -/
structure Db.Holds (d : Db) : Prop where
  file : d.tree.entry statusPath = some (.file (statusFile d.installed)) ∨
    d.installed = [] ∧ d.tree.entry statusPath = none ∧ Rooted d.tree
  size : (statusFile d.installed).length ≤ maxFileSize
  fields : ∀ c ∈ d.installed, c.Fields
  one : (d.installed.map DebControl.package).Nodup

theorem walk_of_rooted {t : Tree} (h : Rooted t) : ∃ r, walk t [] statusPath = some r := by
  have hgen : ∀ toks cur, Plain toks → cur ++ toks = statusPath → t.entry cur ≠ none →
      ∃ r, walk t cur toks = some r := by
    intro toks
    induction toks with
    | nil => exact fun cur _ _ _ => ⟨some cur, rfl⟩
    | cons tok toks ih =>
      intro cur hplain happ hcur
      obtain ⟨hdot, hdotdot⟩ := hplain tok mem_cons_self
      rw [walk, if_neg hdot, if_neg hdotdot]
      cases hentry : t.entry cur with
      | none => exact absurd hentry hcur
      | some e =>
        cases e with
        | file bytes => exact absurd hentry (h cur bytes ⟨_, happ⟩)
        | dir =>
          by_cases hnext : t.entry (cur ++ [tok]) = none
          · rw [if_pos hnext]
            exact ⟨none, rfl⟩
          rw [if_neg hnext]
          apply ih _ (fun k hk => hplain k (mem_cons_of_mem tok hk)) _ hnext
          rw [append_assoc]
          exact happ
  exact hgen statusPath [] plain_statusPath rfl (by rw [t.root]; exact Option.some_ne_none _)

theorem length_statusFile_others (d : Db) (package : CString) :
    (statusFile (d.others package)).length ≤ (statusFile d.installed).length := by
  unfold Db.others
  induction d.installed with
  | nil => exact Nat.le_refl _
  | cons c installed ih =>
    rw [filter_cons]
    split
    · rw [statusFile_cons, statusFile_cons, length_append, length_append]
      omega
    · rw [statusFile_cons, length_append]
      omega

namespace Db.Holds
variable {d : Db} (h : d.Holds)
include h

theorem statusBytes : Pkg.statusBytes d.tree = statusFile d.installed := by
  rcases h.file with hfile | ⟨hnil, hnone, -⟩
  · exact statusBytes_of_file hfile
  · rw [statusBytes_of_none hnone, hnil]
    rfl

theorem cstr_statusBytes : cstr (Pkg.statusBytes d.tree) = statusFile d.installed := by
  rw [h.statusBytes, cstr_statusFile h.fields]

theorem walk : ∃ r, Pkg.walk d.tree [] statusPath = some r := by
  rcases h.file with hfile | ⟨-, -, hroot⟩
  · refine ⟨_, walk_root_of_entry plain_statusPath ?_⟩
    rw [hfile]
    exact Option.some_ne_none _
  · exact walk_of_rooted hroot

theorem answers (package : CString) :
    Pkg.answers d.tree package = decide (∃ c ∈ d.installed, c.package = package) := by
  rw [Pkg.answers, h.cstr_statusBytes, installedLoop_statusFile h.fields package
    (by have := length_le_statusFile d.installed; omega), drop_zero]

theorem recorded : d.Recorded where
  one := h.one
  paragraphs := by
    intro i
    rw [h.cstr_statusBytes, statusParagraph_statusFile h.fields]
    split
    · rename_i hi
      exact ⟨fun _ => hi, fun _ => rfl⟩
    · rename_i hi
      exact ⟨nofun, fun hlt => absurd hlt hi⟩
  fields := by
    intro i para hpara
    rw [h.cstr_statusBytes, statusParagraph_statusFile h.fields] at hpara
    split at hpara
    · rename_i hi
      cases hpara
      have hc := h.fields _ (getElem_mem hi)
      rw [drop_eq_getElem_cons hi]
      exact ⟨_, getElem?_eq_getElem hi, paraField_package hc _, paraField_version hc _,
        paraField_architecture hc _, paraField_depends hc _⟩
    · cases hpara
  answers := by
    intro call package hw
    obtain ⟨r, hwalk⟩ := h.walk
    obtain ⟨t, ht⟩ := returns_dpkgIsInstalled (s := call.sys d.tree) hw package hwalk
    refine ⟨t, ht.trans ?_⟩
    rw [show (call.sys d.tree).tree = d.tree from rfl, h.answers]

theorem without (package : CString) : textWithout d.tree package = statusFile (d.others package) := by
  rw [textWithout, h.cstr_statusBytes,
    withoutLoop_statusFile h.fields package (length_le_statusFile d.installed)]
  rfl

theorem fields_others (package : CString) : ∀ c ∈ d.others package, c.Fields := fun c hc =>
  h.fields c (mem_of_mem_filter hc)

theorem one_others (package : CString) : ((d.others package).map DebControl.package).Nodup :=
  h.one.sublist (filter_sublist.map DebControl.package)

theorem after_dpkgRemove {call : Call} {package : CString}
    (hwrites : call.world.WritesStatus) (hlist : ListSpares d.tree call.current package) :
    After (dpkgRemove package) (call.sys d.tree) fun ok t => ok = true →
      t.tree.entry statusPath = some (.file (statusFile (d.others package))) := by
  refine (after_dpkgIsInstalled hwrites.toReadsStatus package).bind fun b u hu => ?_
  refine .ite (fun hb => ?_) fun _ => .pure fun hfalse => (by cases hfalse)
  obtain ⟨hsu, hb'⟩ := hu
  rw [hb, show (call.sys d.tree).tree = d.tree from rfl, h.answers] at hb'
  -- The package is installed, so there is a status file, and a name short enough.
  obtain ⟨c, hc, hpackage⟩ := of_decide_eq_true hb'.symm
  have hne : statusFile d.installed ≠ [] := by
    obtain ⟨c', rest, hcons⟩ := exists_cons_of_ne_nil (ne_nil_of_mem hc)
    rw [hcons]
    exact statusFile_ne_nil c' rest
  have hfile : d.tree.entry statusPath = some (.file (statusFile d.installed)) := by
    rcases h.file with hfile | ⟨hnil, -⟩
    · exact hfile
    · rw [hnil] at hc
      exact absurd hc not_mem_nil
  have hshort : package.length < 64 := hpackage ▸ (h.fields c hc).package.short
  have hlines : ListSpares u.tree u.current package := by
    rw [← hsu.tree, hsu.current]
    exact hlist
  refine (after_removeFiles hshort hlines).bind fun _ v hv => ?_
  have hkept : v.tree.entry statusPath = some (.file (statusFile d.installed)) := by
    have hsame : v.tree.entry statusPath = u.tree.entry statusPath := hv.tree
    rw [hsame, ← hsu.tree]
    exact hfile
  have hworld : v.world.WritesStatus := by
    rw [hv.world, hsu.world]
    exact hwrites
  refine (after_dropStatus hworld package hkept hne).bind fun _ w hw => ?_
  refine .pure fun _ => hw.trans ?_
  have htree : d.tree = u.tree := hsu.tree
  rw [textWithout_of_sameStatus hv.tree, ← htree, h.without,
    take_of_length_le (Nat.le_trans (length_statusFile_others d package) h.size)]

end Db.Holds

theorem Db.Init.holds {d : Db} (h : d.Init) : d.Holds where
  file := by
    rw [h.installed]
    rcases h.file with hfile | hnone
    · exact .inl hfile
    · exact .inr ⟨rfl, hnone⟩
  size := by
    rw [h.installed]
    exact Nat.zero_le _
  fields := by
    rw [h.installed]
    exact nofun
  one := by
    rw [h.installed]
    exact nodup_nil

variable {inflate : List UInt8 → Option (List UInt8)}

theorem Db.Holds.step {d d' : Db} {a : Call × Op} (h : d.Holds) (hsafe : d.Safe inflate a)
    (hstep : d.Step inflate a d') : d'.Holds := by
  obtain ⟨call, op⟩ := a
  cases op with
  | install debPath =>
    obtain ⟨deb, t, hrun, rfl⟩ := hstep
    obtain ⟨hreads, hroom, hdeb⟩ := hsafe
    have hafter := after_dpkgInstallFile debPath (fun bytes hbytes => (hdeb bytes hbytes).2)
      hreads (some deb) t hrun deb rfl
    obtain ⟨⟨bytes, hbytes, hcontrol⟩, hentry⟩ := hafter
    have hfits : deb.control.Fits := (hdeb bytes hbytes).1 deb.control hcontrol
    have hlen : (statusText deb.control).length ≤ 319 := by
      unfold DebControl.Fits at hfits
      rw [length_statusText]
      omega
    have htext : statusFile (d.others deb.control.package ++ [deb.control]) =
        statusFile (d.others deb.control.package) ++ statusText deb.control :=
      flatMap_append.trans (congrArg _ (append_nil _))
    have hsize : (statusFile (d.others deb.control.package ++ [deb.control])).length ≤
        maxFileSize := by
      have hothers := length_statusFile_others d deb.control.package
      rw [h.statusBytes] at hroom
      rw [htext, length_append]
      omega
    refine ⟨.inl ?_, hsize, ?_, ?_⟩
    · refine hentry.trans ?_
      rw [show (call.sys d.tree).tree = d.tree from rfl, textWith, h.without,
        take_of_length_le hlen, ← htext, take_of_length_le hsize]
    · intro c hc
      rcases mem_append.mp hc with hc | hc
      · exact h.fields_others _ c hc
      · rw [mem_singleton.mp hc]
        exact hcontrol.fields
    · rw [map_append]
      refine List.Nodup.append (h.one_others _) (nodup_singleton _) ?_
      intro x hx hx'
      obtain ⟨c, hc, rfl⟩ := mem_map.mp hx
      have hne := (mem_filter.mp hc).2
      simp only [map_cons, map_nil, mem_singleton] at hx'
      simp [hx'] at hne
  | remove package =>
    obtain ⟨t, hrun, rfl⟩ := hstep
    obtain ⟨hwrites, hlist⟩ := hsafe
    refine ⟨.inl (h.after_dpkgRemove hwrites hlist true t hrun rfl), ?_, h.fields_others package,
      h.one_others package⟩
    exact Nat.le_trans (length_statusFile_others d package) h.size

/-- A block of a zstd frame: bytes as they are, or one byte over and over. -/
inductive ZstBlock where
  | raw (bytes : List UInt8)
  | rle (n : Nat) (b : UInt8)

def zstBlock (last : Nat) : ZstBlock → List UInt8
  | .raw bytes =>
    [UInt8.ofNat (bytes.length * 8 + last), UInt8.ofNat (bytes.length / 32), 0] ++ bytes
  | .rle n b => [UInt8.ofNat (n * 8 + 2 + last), UInt8.ofNat (n / 32), 0, b]

def zstFrame (blocks : List ZstBlock) : List UInt8 :=
  [0x28, 0xB5, 0x2F, 0xFD, 0x20, 0] ++ blocks.flatMap (zstBlock 0) ++ zstBlock 1 (.rle 512 0)

def octalDigits (n : Nat) : List UInt8 :=
  [UInt8.ofNat (0x30 + n / 64 % 8), UInt8.ofNat (0x30 + n / 8 % 8), UInt8.ofNat (0x30 + n % 8)]

def tarBlocks (name : CString) (typeflag : UInt8) (size : Nat) (body : List ZstBlock) :
    List ZstBlock :=
  [.raw name, .rle (124 - name.length) 0, .raw (octalDigits size), .rle 29 0,
    .raw [typeflag], .rle 355 0] ++ body ++ (if size = 0 then [] else [.rle (512 - size) 0])

def decimalDigits (n : Nat) : List UInt8 :=
  [UInt8.ofNat (0x30 + n / 100 % 10), UInt8.ofNat (0x30 + n / 10 % 10), UInt8.ofNat (0x30 + n % 10)]

def arMember (name : CString) (data : List UInt8) : List UInt8 :=
  name ++ replicate (48 - name.length) 0x20 ++ decimalDigits data.length ++
    replicate 7 0x20 ++ [0x60, newline] ++ data ++ replicate (data.length % 2) newline

/-- An archive of a package with one empty file, whose Depends field is so many commas. -/
def sampleDeb (package : CString) (commas : Nat) (file : CString) : List UInt8 :=
  let fields := statusLine packageKey package ++ newline :: statusLine dependsKey []
  arMagic ++ arMember debianBinary [] ++
    arMember (controlTar ++ extZst) (zstFrame (tarBlocks controlName 0x30 (fields.length + commas)
      [.raw fields, .rle commas 0x2C])) ++
    arMember (dataTar ++ extZst) (zstFrame (tarBlocks file 0x30 0 []))

def calm : World where
  fails := fun _ _ _ => false
  leaves := fun old _ => old
  forceDeps := false
  zstd := fun _ _ =>
    { behindOfNorm := fun _ => 0, heap := { ctx := true, buffer := fun _ => true, last := true } }

theorem calm_writes : calm.WritesStatus :=
  ⟨⟨fun _ _ => rfl, fun _ _ => rfl, fun _ _ => rfl⟩, fun _ _ => rfl, fun _ _ => rfl⟩

def calmCall : Call := ⟨[], 0, calm⟩

/-- With memory for all, a member has one contents. -/
theorem yields_calm {m : ArMember} {ext : CString} {tar : List UInt8}
    (h : Yields inflate calm m ext tar) :
    (unpackTar inflate m ext (calmCall.sys .bare)).bind Prod.fst = some tar := by
  obtain ⟨s, t, hworld, hrun⟩ := h
  obtain ⟨tree, current, asked, world⟩ := s
  subst hworld
  unfold unpackTar at hrun ⊢
  split at hrun
  · rename_i hext
    rw [if_pos hext]
    exact congrArg (fun r => r.bind Prod.fst) hrun
  rename_i hext
  rw [if_neg hext]
  split at hrun
  · rename_i hext
    rw [if_pos hext]
    unfold zstdToHeap at hrun ⊢
    dsimp only [calmCall, Call.sys, calm] at hrun ⊢
    split at hrun
    · cases hrun
      rfl
    · cases hrun
    · cases hrun
  · cases hrun

def debPath (package : Char) : CString := text ['/', package, '.', 'd', 'e', 'b']

/-- A package whose Depends field is so many commas: nothing is named in it. -/
def commaDeb (package : Char) (commas : Nat) : List UInt8 :=
  sampleDeb (text [package]) commas (text [package, 'f'])

/-- The paragraph of the first package is one byte longer than its buffer. -/
def threeDebs : Tree :=
  ((Tree.bare.add [] (text ['a', '.', 'd', 'e', 'b']) (.file (commaDeb 'a' 244)) rfl rfl).add []
    (text ['b', '.', 'd', 'e', 'b']) (.file (commaDeb 'b' 0)) rfl rfl).add []
    (text ['c', '.', 'd', 'e', 'b']) (.file (commaDeb 'c' 7)) rfl rfl

def freshDb : Db := ⟨threeDebs, []⟩

theorem init_freshDb : freshDb.Init := by
  refine ⟨rfl, .inr ⟨by decide +kernel, ?_⟩⟩
  intro p bytes hpre
  have hall : ∀ q ∈ statusPath.inits, threeDebs.entry q = some .dir ∨ threeDebs.entry q = none := by
    decide +kernel
  intro hfile
  rcases hall p ((mem_inits p statusPath).mpr hpre) with h | h
  all_goals cases h.symm.trans hfile

namespace Db

/-- A call that has all it asks for. -/
def exec (d : Db) : Op → Option Db
  | .install path => do
    let (some deb, t) ← dpkgInstallFile (fun _ => none) path (calmCall.sys d.tree) | none
    some ⟨t.tree, d.others deb.control.package ++ [deb.control]⟩
  | .remove package => do
    let (true, t) ← dpkgRemove package (calmCall.sys d.tree) | none
    some ⟨t.tree, d.others package⟩

theorem step_exec {d d' : Db} {op : Op} (h : d.exec op = some d') :
    d.Step (fun _ => none) (calmCall, op) d' := by
  cases op with
  | install path =>
    obtain ⟨⟨r, t⟩, hrun, h⟩ := Option.bind_eq_some_iff.mp h
    cases r with
    | none => cases h
    | some deb => exact ⟨deb, t, hrun, (Option.some.inj h).symm⟩
  | remove package =>
    obtain ⟨⟨r, t⟩, hrun, h⟩ := Option.bind_eq_some_iff.mp h
    cases r with
    | false => cases h
    | true => exact ⟨t, hrun, (Option.some.inj h).symm⟩

/-- What every contents of the members with this name passes. -/
def membersPass (deb : List UInt8) (name : CString) (check : List UInt8 → Bool) : Bool :=
  (arMembers deb).all fun m => !decide (name <+: m.name) ||
    ((unpackTar (fun _ => none) m (m.name.drop name.length) (calmCall.sys .bare)).bind
      Prod.fst).all check

theorem of_membersPass {deb tar : List UInt8} {name : CString} {check : List UInt8 → Bool}
    {m : ArMember} (h : membersPass deb name check = true) (hm : m ∈ arMembers deb)
    (hname : name <+: m.name)
    (hyields : Yields (fun _ => none) calm m (m.name.drop name.length) tar) : check tar = true := by
  have hone := all_eq_true.mp h m hm
  rwa [decide_eq_true hname, yields_calm hyields] at hone

/-- A test of `Safe` for such a call. -/
def passes (d : Db) : Op → Bool
  | .install path => decide ((statusBytes d.tree).length + 319 ≤ maxFileSize) &&
    match d.tree.entry (pathOf [] path) with
    | some (.file deb) =>
      (membersPass deb controlTar fun tar => (tarFindFile tar controlName).all fun body =>
        decide ((statusText (debParseControl body)).length ≤ 319)) &&
      membersPass deb dataTar fun tar => (tarIterate tar).1.all fun e =>
        decide (statusPath ≠ pathOf [] e.path ∧ statusPath ≠ targetOf [] e.path)
    | _ => true
  | .remove package =>
    match d.tree.entry (pathOf [] (infoListPath package)) with
    | some (.file list) =>
      (listLines (cstr list)).all fun row => decide (¬ targetOf [] row <+: statusPath)
    | _ => true

theorem safe_of_passes {d : Db} {op : Op} (h : d.passes op = true) :
    d.Safe (fun _ => none) (calmCall, op) := by
  cases op with
  | install path =>
    obtain ⟨hroom, h⟩ := Bool.and_eq_true_iff.mp h
    refine ⟨calm_writes.toReadsStatus, of_decide_eq_true hroom, fun deb hdeb => ?_⟩
    rw [show d.tree.entry (pathOf [] path) = _ from hdeb] at h
    obtain ⟨hcontrol, hdata⟩ := Bool.and_eq_true_iff.mp h
    constructor
    · rintro c ⟨m, hm, hname, tar, hyields, body, hbody, rfl⟩
      have hone := of_membersPass hcontrol hm hname hyields
      simp only [hbody, Option.all_some, decide_eq_true_eq, length_statusText] at hone
      unfold DebControl.Fits
      omega
    · rintro ⟨m, hm, hname, tar, hyields, e, he, -, -, hpath⟩
      have hone := all_eq_true.mp (of_membersPass hdata hm hname hyields) e he
      exact hpath.elim (of_decide_eq_true hone).1 (of_decide_eq_true hone).2
  | remove package =>
    refine ⟨calm_writes, fun list hlist row hrow => ?_⟩
    rw [passes, show d.tree.entry (pathOf [] (infoListPath package)) = _ from hlist] at h
    exact of_decide_eq_true (all_eq_true.mp h row hrow)

def run (d : Db) (op : Op) : Db := (d.exec op).getD d

theorem reach_run {d : Db} (h : Reach Init (Safe fun _ => none) (Step fun _ => none) d)
    (ops : List Op)
    (hall : Along (fun d op => d.passes op = true ∧ (d.exec op).isSome = true) run d ops) :
    Reach Init (Safe fun _ => none) (Step fun _ => none) (ops.foldl run d) := by
  induction ops generalizing d with
  | nil => exact h
  | cons op ops ih =>
    obtain ⟨⟨hpasses, hsome⟩, hall⟩ := hall
    obtain ⟨d', hd'⟩ := Option.isSome_iff_exists.mp hsome
    refine ih (h.next (calmCall, op) (safe_of_passes hpasses) ?_) hall
    rw [run, hd']
    exact step_exec hd'

end Db

end Kil0yOS.Pkg
