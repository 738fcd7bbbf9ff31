/-
Cutting a text at a separator: into its pieces, and in two at the last one.
-/
import Mathlib.Data.List.TakeWhile

namespace Kil0yOS.Lib

open List

variable {α : Type} [DecidableEq α]

def pieces (sep : α) (text : List α) : List (List α) := (text.splitOn sep).filter (· ≠ [])

/-- The text before the last separator and the text after it. -/
def splitLast (sep : α) (text : List α) : Option (List α × List α) :=
  if sep ∈ text then
    let last := (text.reverse.takeWhile (· ≠ sep)).reverse
    some (text.take (text.length - last.length - 1), last)
  else none

variable {sep : α} {text front last line : List α} {lines : List (List α)}

/-- A piece of a text has no separator in it, and nothing that is not in the text. -/
theorem mem_splitOn {text : List α} (h : line ∈ text.splitOn sep) :
    sep ∉ line ∧ ∀ x ∈ line, x ∈ text := by
  by_cases hsep : sep ∈ text
  · obtain ⟨front, rest, htext, hfront⟩ := eq_append_cons_of_mem hsep
    rw [htext, splitOn_append_cons_self_of_not_mem hfront] at h
    rw [htext]
    rcases mem_cons.mp h with rfl | h
    · exact ⟨hfront, fun x hx => mem_append_left _ hx⟩
    · obtain ⟨hline, hmem⟩ := mem_splitOn h
      exact ⟨hline, fun x hx => mem_append_right _ (mem_cons_of_mem _ (hmem x hx))⟩
  · rw [splitOn_eq_singleton hsep, mem_singleton] at h
    subst h
    exact ⟨hsep, fun x hx => hx⟩
termination_by text.length
decreasing_by
  simp only [htext, length_append, length_cons]
  omega

theorem pieces_of_notMem (h : sep ∉ last) (hne : last ≠ []) : pieces sep last = [last] := by
  rw [pieces, splitOn_eq_singleton h]
  simp [hne]

theorem pieces_append (h : sep ∉ last) (hne : last ≠ []) (front : List α) :
    pieces sep (front ++ sep :: last) = pieces sep front ++ [last] := by
  have hlast := pieces_of_notMem h hne
  simp only [pieces] at hlast ⊢
  rw [splitOn_append_cons_self, filter_append, hlast]

theorem splitLast_eq_none (h : splitLast sep text = none) : sep ∉ text := by
  simp only [splitLast] at h
  split at h
  next => cases h
  next hmem => exact hmem

/-- The separator that is cut at is the last one. -/
theorem splitLast_eq_some (h : splitLast sep text = some (front, last)) :
    text = front ++ sep :: last ∧ sep ∉ last := by
  simp only [splitLast] at h
  split at h
  next hmem =>
    -- Read from its end, the text starts with the last piece, and a separator follows.
    obtain ⟨piece, rest, hrev, hpiece⟩ := eq_append_cons_of_mem (mem_reverse.mpr hmem)
    have hwhile : text.reverse.takeWhile (· ≠ sep) = piece := by
      have hkeep : ∀ x ∈ piece, decide (x ≠ sep) = true := fun x hx =>
        decide_eq_true fun heq => hpiece (heq ▸ hx)
      rw [hrev, takeWhile_append_of_pos hkeep, takeWhile_cons_of_neg (by simp), append_nil]
    have htext : text = rest.reverse ++ sep :: piece.reverse := by
      rw [← reverse_reverse text, hrev]
      simp
    have htake : text.take (text.length - piece.reverse.length - 1) = rest.reverse := by
      rw [htext]
      apply take_left'
      simp only [length_append, length_cons]
      omega
    rw [hwhile, htake] at h
    cases h
    exact ⟨htext, fun hin => hpiece (mem_reverse.mp hin)⟩
  next => cases h

/-! ## Lines and paragraphs

A line ends with a separator, a paragraph is lines and then an empty one.  A text is cut
at the first two separators in a row, so paragraphs whose lines are not empty come back
one by one, whatever the lines say and whatever follows.
-/

def joinLines (sep : α) (lines : List (List α)) : List α := lines.flatMap (· ++ [sep])

def paragraph (sep : α) (lines : List (List α)) : List α := joinLines sep lines ++ [sep]

/-- The text up to and with the first two separators in a row, and the text behind. -/
def cutParagraph (sep : α) : List α → Option (List α × List α)
  | a :: b :: rest =>
    if a = sep ∧ b = sep then some ([a, b], rest)
    else (cutParagraph sep (b :: rest)).map fun (para, rest) => (a :: para, rest)
  | _ => none

/-- Splitting gives back the lines a text starts with. -/
theorem splitOn_joinLines (hlines : ∀ line ∈ lines, sep ∉ line)
    (rest : List α) : (joinLines sep lines ++ rest).splitOn sep = lines ++ rest.splitOn sep := by
  induction lines with
  | nil => rfl
  | cons line lines ih =>
    have hcons : joinLines sep (line :: lines) ++ rest =
        line ++ sep :: (joinLines sep lines ++ rest) := by
      simp [joinLines]
    rw [hcons, splitOn_append_cons_self_of_not_mem (hlines line mem_cons_self),
      ih fun l hl => hlines l (mem_cons_of_mem line hl)]
    rfl

theorem splitOn_paragraph (hlines : ∀ line ∈ lines, sep ∉ line) (rest : List α) :
    (paragraph sep lines ++ rest).splitOn sep = lines ++ [] :: rest.splitOn sep := by
  have happ : paragraph sep lines ++ rest = joinLines sep lines ++ ([] ++ sep :: rest) := by
    simp [paragraph]
  rw [happ, splitOn_joinLines hlines, splitOn_append_cons_self_of_not_mem not_mem_nil]

theorem cutParagraph_cons {a : α} (ha : a ≠ sep) (text : List α) :
    cutParagraph sep (a :: text) = (cutParagraph sep text).map fun cut => (a :: cut.1, cut.2) := by
  cases text with
  | nil => rfl
  | cons b text => rw [cutParagraph, if_neg fun h => ha h.1]

theorem cutParagraph_append (hline : sep ∉ line) (text : List α) :
    cutParagraph sep (line ++ text) =
      (cutParagraph sep text).map fun cut => (line ++ cut.1, cut.2) := by
  induction line with
  | nil =>
    show cutParagraph sep text = (cutParagraph sep text).map id
    rw [Option.map_id]
    rfl
  | cons a line ih =>
    have ha : a ≠ sep := fun h => hline (h ▸ mem_cons_self)
    rw [cons_append, cutParagraph_cons ha, ih fun h => hline (mem_cons_of_mem a h), Option.map_map]
    rfl

/-- A paragraph at the start of a text is what is cut off. -/
theorem cutParagraph_paragraph (hne : lines ≠ []) (hlines : ∀ line ∈ lines, line ≠ [] ∧ sep ∉ line)
    (rest : List α) :
    cutParagraph sep (paragraph sep lines ++ rest) = some (paragraph sep lines, rest) := by
  induction lines with
  | nil => exact absurd rfl hne
  | cons line lines ih =>
    have hline := (hlines line mem_cons_self).2
    cases lines with
    | nil =>
      have happ : paragraph sep [line] ++ rest = line ++ sep :: sep :: rest := by
        simp [paragraph, joinLines]
      rw [happ, cutParagraph_append hline, cutParagraph]
      simp [paragraph, joinLines]
    | cons next lines =>
      have ih := ih (cons_ne_nil next lines) fun l hl =>
        hlines l (mem_cons_of_mem line hl)
      obtain ⟨hnext, hsep⟩ := hlines next (mem_cons_of_mem line mem_cons_self)
      obtain ⟨x, next, rfl⟩ := exists_cons_of_ne_nil hnext
      have happ : paragraph sep (line :: (x :: next) :: lines) ++ rest =
          line ++ sep :: x :: (next ++ sep :: (paragraph sep lines ++ rest)) := by
        simp [paragraph, joinLines]
      have htail : paragraph sep ((x :: next) :: lines) ++ rest =
          x :: (next ++ sep :: (paragraph sep lines ++ rest)) := by
        simp [paragraph, joinLines]
      have hx : x ≠ sep := fun h => hsep (h ▸ mem_cons_self)
      rw [happ, cutParagraph_append hline, cutParagraph, if_neg fun h => hx h.2, ← htail, ih]
      simp [paragraph, joinLines]

end Kil0yOS.Lib
