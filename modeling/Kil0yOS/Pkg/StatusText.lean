/-
What the status functions make of a well-formed status text.

A well-formed text is the paragraphs of some packages in full, one after the other.  Each
field reads back as it was written, paragraph `i` is that of package `i`, and dropping a
package leaves the paragraphs of the others.
-/
import Kil0yOS.Pkg.Dpkg

namespace Kil0yOS.Pkg

open List

variable {key line v : CString} {c : DebControl} {installed : List DebControl} {fuel size : Nat}

/-- What a field of a deb_control_t of so many bytes can hold after parsing. -/
structure Field (size : Nat) (v : CString) : Prop where
  short : v.length < size
  newline : newline ∉ v
  zero : 0 ∉ v
  trimmed : v.dropWhile blank = v

structure DebControl.Fields (c : DebControl) : Prop where
  package : Field 64 c.package
  version : Field 64 c.version
  architecture : Field 32 c.architecture
  depends : Field 256 c.depends

/-! ## Control files -/

theorem field_nil (h : 0 < size) : Field size [] :=
  ⟨h, not_mem_nil, not_mem_nil, rfl⟩

theorem dropWhile_blank_take (v : CString) (n : Nat) :
    ((v.dropWhile blank).take n).dropWhile blank = (v.dropWhile blank).take n := by
  cases hv : v.dropWhile blank with
  | nil => simp
  | cons a rest =>
    cases n with
    | zero => rfl
    | succ n =>
      have ha : blank a = false := by
        have := head?_dropWhile_not blank v
        rw [hv] at this
        simpa using this
      rw [take_succ_cons, dropWhile_cons_of_neg (by simp [ha])]

theorem field_take (hsize : 0 < size) (hsub : ∀ x ∈ v, x ∈ line) (hnl : newline ∉ line)
    (hzero : 0 ∉ line) : Field size ((v.dropWhile blank).take (size - 1)) := by
  have hmem : ∀ x ∈ (v.dropWhile blank).take (size - 1), x ∈ line := fun x hx =>
    hsub x ((dropWhile_sublist blank).subset (mem_of_mem_take hx))
  refine ⟨?_, fun h => hnl (hmem _ h), fun h => hzero (hmem _ h), dropWhile_blank_take v _⟩
  have := length_take_le (size - 1) (v.dropWhile blank)
  omega

theorem fields_controlLine (hc : c.Fields) (hnl : newline ∉ line)
    (hzero : 0 ∉ line) : (controlLine c line).Fields := by
  have hsub : ∀ x ∈ (line.dropWhile (· ≠ 0x3A)).drop 1, x ∈ line := fun x hx =>
    (dropWhile_sublist _).subset (mem_of_mem_drop hx)
  unfold controlLine
  split
  · dsimp only
    split
    · exact { hc with package := field_take (by decide) hsub hnl hzero }
    split
    · exact { hc with version := field_take (by decide) hsub hnl hzero }
    split
    · exact { hc with architecture := field_take (by decide) hsub hnl hzero }
    · split
      · exact { hc with depends := field_take (by decide) hsub hnl hzero }
      · exact hc
  · exact hc

theorem mem_tokens {delim : UInt8} {tok s : CString} (h : tok ∈ tokens delim s) :
    tok ≠ [] ∧ delim ∉ tok ∧ ∀ x ∈ tok, x ∈ s := by
  obtain ⟨hsplit, hne⟩ := mem_filter.mp h
  exact ⟨by simpa using hne, Lib.mem_splitOn hsplit⟩

theorem fields_debParseControl (body : List UInt8) : (debParseControl body).Fields := by
  unfold debParseControl
  have hzero : DebControl.zero.Fields :=
    ⟨field_nil (by decide), field_nil (by decide), field_nil (by decide), field_nil (by decide)⟩
  have hlines : ∀ line ∈ tokens newline (cstr body), newline ∉ line ∧ 0 ∉ line := by
    intro line hline
    obtain ⟨-, hnl, hmem⟩ := mem_tokens hline
    refine ⟨hnl, fun h => ?_⟩
    have hzero := mem_takeWhile_imp (hmem 0 h)
    simp at hzero
  revert hzero hlines
  generalize tokens newline (cstr body) = lines
  generalize DebControl.zero = c
  intro hc hlines
  induction lines generalizing c with
  | nil => exact hc
  | cons line lines ih =>
    obtain ⟨hnl, hz⟩ := hlines line mem_cons_self
    exact ih _ (fields_controlLine hc hnl hz) fun l hl =>
      hlines l (mem_cons_of_mem line hl)

/-! ## One paragraph -/

theorem lineField_statusLine (hv : Field size v) :
    lineField key size (statusLine key v) = some v := by
  have hdrop : (statusLine key v).drop (key.length + 1) = 0x20 :: v := by
    show (key ++ text [':', ' '] ++ v).drop (key.length + 1) = 0x20 :: v
    simp [text]
  unfold lineField
  rw [if_pos ⟨by simp [statusLine, text], by
      show key <+: key ++ text [':', ' '] ++ v
      rw [append_assoc]
      exact prefix_append _ _, by
      simp [statusLine, text]⟩, hdrop,
    dropWhile_cons_of_pos (by decide), hv.trimmed, take_of_length_le]
  have := hv.short
  omega

/-- The keys of a paragraph differ in their first letters. -/
theorem lineField_other {other : CString} (hkey : key ≠ []) (hother : other ≠ [])
    (hne : key.head? ≠ other.head?) : lineField key size (statusLine other v) = none := by
  unfold lineField
  rw [if_neg]
  intro h
  obtain ⟨rest, hrest⟩ := h.2.1
  obtain ⟨a, key, rfl⟩ := exists_cons_of_ne_nil hkey
  obtain ⟨b, other, rfl⟩ := exists_cons_of_ne_nil hother
  simp only [statusLine, cons_append, List.cons.injEq] at hrest
  exact hne (congrArg some hrest.1)

/-- The lines of a paragraph are not empty and have no newline in them. -/
theorem statusLines_ok (hc : c.Fields) : ∀ line ∈ statusLines c, line ≠ [] ∧ newline ∉ line := by
  have hline : ∀ {key v : CString}, key ≠ [] → newline ∉ key → newline ∉ v →
      statusLine key v ≠ [] ∧ newline ∉ statusLine key v := by
    intro key v hkey hnl hv
    refine ⟨by simp [statusLine, hkey], ?_⟩
    simp only [statusLine, mem_append, not_or]
    exact ⟨⟨hnl, by decide⟩, hv⟩
  simp only [statusLines, mem_cons, not_mem_nil, or_false, forall_eq_or_imp, forall_eq]
  exact ⟨hline (by decide) (by decide) hc.package.newline, hline (by decide) (by decide) (by decide),
    hline (by decide) (by decide) hc.version.newline,
    hline (by decide) (by decide) hc.architecture.newline,
    hline (by decide) (by decide) hc.depends.newline⟩

/-- The search for a field ends inside the paragraph if the field is there. -/
theorem paraField_statusText (hc : c.Fields) {field : CString} {outsz : Nat}
    (h : (statusLines c).findSome? (lineField field outsz) = some v) (rest : CString) :
    paraField (statusText c ++ rest) field outsz = some v := by
  unfold paraField statusText
  rw [Lib.splitOn_paragraph fun line hline => (statusLines_ok hc line hline).2,
    findSome?_append, h]
  rfl

section Fields
variable {c : DebControl} (hc : c.Fields) (rest : CString)
include hc

theorem paraField_package : paraField (statusText c ++ rest) packageKey 64 = some c.package := by
  apply paraField_statusText hc
  simp [statusLines, lineField_statusLine hc.package]

theorem paraField_status :
    ∃ st, paraField (statusText c ++ rest) statusKey 64 = some st ∧ installedText <:+: st := by
  refine ⟨_, paraField_statusText hc (v := installOkText) ?_ rest, (suffix_append _ _).isInfix⟩
  have hst : lineField statusKey 64 (statusLine statusKey installOkText) = _ :=
    lineField_statusLine ⟨by decide, by decide, by decide, by decide⟩
  simp (disch := decide) only [statusLines, findSome?_cons, lineField_other, hst]

theorem paraField_version : paraField (statusText c ++ rest) versionKey 64 = some c.version := by
  apply paraField_statusText hc
  simp (disch := decide) only [statusLines, findSome?_cons, lineField_other,
    lineField_statusLine hc.version]

theorem paraField_architecture :
    paraField (statusText c ++ rest) architectureKey 32 = some c.architecture := by
  apply paraField_statusText hc
  simp (disch := decide) only [statusLines, findSome?_cons, lineField_other,
    lineField_statusLine hc.architecture]

theorem paraField_depends : paraField (statusText c ++ rest) dependsKey 256 = some c.depends := by
  apply paraField_statusText hc
  simp (disch := decide) only [statusLines, findSome?_cons, lineField_other,
    lineField_statusLine hc.depends]

end Fields

theorem length_statusText (c : DebControl) :
    (statusText c).length = c.package.length + c.version.length + c.architecture.length +
      c.depends.length + 75 := by
  simp [statusText, Lib.paragraph, Lib.joinLines, statusLines, statusLine, packageKey, statusKey,
    versionKey, architectureKey, dependsKey, installOkText, installedText, text]
  omega

def Piece.text : Piece → CString
  | lit s => s
  | str s => s

theorem ksprintf_eq {room : Nat} {format : List Piece} {out : CString}
    (h : ksprintf room format = some out) : out = (format.flatMap Piece.text).take room := by
  induction format generalizing room out with
  | nil => simp [← Option.some.inj h]
  | cons piece format ih =>
    rw [flatMap_cons, take_append]
    cases piece with
    | lit s =>
      obtain ⟨rest, hrest, rfl⟩ := Option.map_eq_some_iff.mp h
      rw [ih hrest]
      rfl
    | str s =>
      rw [ksprintf] at h
      split at h
      · next hs =>
        obtain ⟨rest, hrest, rfl⟩ := Option.map_eq_some_iff.mp h
        rw [ih hrest, Piece.text, take_of_length_le hs]
      · cases h

theorem ksprintf_statusFormat {room : Nat} {out : CString}
    (h : ksprintf room (statusFormat c) = some out) : out = (statusText c).take room := by
  rw [ksprintf_eq h]
  simp [statusFormat, Piece.text, statusText, Lib.paragraph, Lib.joinLines, statusLines, statusLine]

theorem zero_notMem_statusText (hc : c.Fields) : 0 ∉ statusText c := by
  have hline : ∀ {key v : CString}, 0 ∉ key → 0 ∉ v → 0 ∉ statusLine key v := by
    intro key v hkey hv
    simp only [statusLine, mem_append, not_or]
    exact ⟨⟨hkey, by decide⟩, hv⟩
  have hlines : ∀ line ∈ statusLines c, 0 ∉ line := by
    simp only [statusLines, mem_cons, not_mem_nil, or_false, forall_eq_or_imp, forall_eq]
    exact ⟨hline (by decide) hc.package.zero, hline (by decide) (by decide),
      hline (by decide) hc.version.zero, hline (by decide) hc.architecture.zero,
      hline (by decide) hc.depends.zero⟩
  intro h
  rcases mem_append.mp h with h | h
  · obtain ⟨line, hmem, h⟩ := mem_flatMap.mp h
    rcases mem_append.mp h with h | h
    · exact hlines line hmem h
    · exact absurd h (by decide)
  · exact absurd h (by decide)

/-! ## Whole texts -/

def statusFile (installed : List DebControl) : CString := installed.flatMap statusText

theorem statusFile_cons (c : DebControl) (installed : List DebControl) :
    statusFile (c :: installed) = statusText c ++ statusFile installed := rfl

theorem statusFile_ne_nil (c : DebControl) (installed : List DebControl) :
    statusFile (c :: installed) ≠ [] := by
  intro h
  have hlen := congrArg length h
  rw [statusFile_cons, length_append, length_statusText, length_nil] at hlen
  omega

theorem length_le_statusFile (installed : List DebControl) :
    installed.length ≤ (statusFile installed).length := by
  induction installed with
  | nil => exact Nat.le_refl 0
  | cons c installed ih =>
    rw [statusFile_cons, length_append, length_statusText, length_cons]
    omega

theorem cstr_statusFile (h : ∀ c ∈ installed, c.Fields) :
    cstr (statusFile installed) = statusFile installed := by
  unfold cstr
  rw [takeWhile_eq_self_iff]
  intro x hx
  obtain ⟨c, hc, hx⟩ := mem_flatMap.mp hx
  have hne : x ≠ 0 := by
    intro hzero
    exact zero_notMem_statusText (h c hc) (hzero ▸ hx)
  simpa using hne

theorem blankLine_statusFile (hc : c.Fields) (installed : List DebControl) :
    blankLine (statusFile (c :: installed)) = some (statusText c, statusFile installed) :=
  Lib.cutParagraph_paragraph (cons_ne_nil _ _) (statusLines_ok hc) _

section

variable (h : ∀ c ∈ installed, c.Fields)
include h

/-- Paragraph `i` starts where the text of package `i` does. -/
theorem statusParagraph_statusFile (i : Nat) :
    statusParagraph (statusFile installed) i =
      if i < installed.length then some (statusFile (installed.drop i)) else none := by
  induction i generalizing installed with
  | zero =>
    cases installed with
    | nil => rfl
    | cons c installed =>
      rfl
  | succ i ih =>
    cases installed with
    | nil => rfl
    | cons c installed =>
      rw [statusParagraph, blankLine_statusFile (h c mem_cons_self)]
      show statusParagraph (statusFile installed) i = _
      rw [ih fun d hd => h d (mem_cons_of_mem c hd)]
      simp

theorem withoutLoop_statusFile (package : CString) (hfuel : installed.length ≤ fuel) :
    withoutLoop package fuel (statusFile installed) =
      statusFile (installed.filter fun c => c.package ≠ package) := by
  induction installed generalizing fuel with
  | nil =>
    cases fuel with
    | zero => rfl
    | succ fuel => rfl
  | cons c installed ih =>
    cases fuel with
    | zero => exact absurd hfuel (Nat.not_succ_le_zero _)
    | succ fuel =>
      have hc := h c mem_cons_self
      have ih := ih (fun d hd => h d (mem_cons_of_mem c hd)) (Nat.le_of_succ_le_succ hfuel)
      rw [withoutLoop, if_neg (statusFile_ne_nil c installed), blankLine_statusFile hc,
        statusFile_cons, paraField_package hc]
      dsimp only
      rw [ih]
      by_cases hp : c.package = package
      · rw [if_pos (congrArg some hp), filter_cons_of_neg (by simpa using hp), nil_append]
      · rw [if_neg fun he => hp (Option.some.inj he), filter_cons_of_pos (by simpa using hp),
          statusFile_cons]

theorem installedLoop_statusFile (package : CString) {i : Nat}
    (hfuel : installed.length < i + fuel) :
    installedLoop (statusFile installed) package fuel i =
      decide (∃ c ∈ installed.drop i, c.package = package) := by
  induction fuel generalizing i with
  | zero =>
    rw [drop_eq_nil_of_le (by omega)]
    simp [installedLoop]
  | succ fuel ih =>
    rw [installedLoop, statusParagraph_statusFile h]
    by_cases hi : i < installed.length
    · obtain ⟨c, hmem, hdrop⟩ :
          ∃ c, c ∈ installed ∧ installed.drop i = c :: installed.drop (i + 1) :=
        ⟨_, getElem_mem hi, drop_eq_getElem_cons hi⟩
      have hc := h c hmem
      rw [if_pos hi, hdrop, statusFile_cons]
      dsimp only
      rw [paraField_package hc]
      by_cases hp : c.package = package
      · obtain ⟨st, hst, hinst⟩ := paraField_status hc (statusFile (installed.drop (i + 1)))
        rw [hst]
        simp [hinst, hp]
      · rw [ih (by omega)]
        simp [hp]
    · rw [if_neg hi, drop_eq_nil_of_le (by omega)]
      simp

end

end Kil0yOS.Pkg
