/-
Terminal input: `tty_read` of `core/tty.c`.

A call composes a line from the keys that are typed and delivers as much of it as it was
asked for.  The next call composes the next line, so what did not fit is lost.
-/
import Kil0yOS.Lib.Run

namespace Kil0yOS.Tty

open List Lib

/-! ## Keys -/

inductive Key
  | enter | erase | interrupt | eof | ignored | char

/-- The tests of the loop, in their order. -/
def key (c : UInt8) : Key :=
  if c = 13 ∨ c = 10 then .enter
  else if c = 8 ∨ c = 0x7F then .erase
  else if c = 3 then .interrupt
  else if c = 4 then .eof
  else if c < 0x20 ∨ c = 0x80 ∨ (0x80 < c ∧ c < 0xA0) then .ignored
  else .char

def ttyLineMax : Nat := 1024

/-- The composed line and its newline, as `tty_commit` moves it to the ready buffer. -/
def ttyCommit (line : List UInt8) : List UInt8 :=
  if line.length < ttyLineMax then line ++ [10] else line

/-- The loop of `tty_read`: the ready buffer and the keys behind the line, or nothing while
the loop waits for a key. -/
def ttyLoop : List UInt8 → List UInt8 → Option (List UInt8 × List UInt8)
  | _, [] => none
  | line, c :: keys =>
    match key c with
    | .enter => some (ttyCommit line, keys)
    | .erase => ttyLoop line.dropLast keys
    | .interrupt => ttyLoop [] keys
    | .eof => some (if line = [] then [] else ttyCommit line, keys)
    | .ignored => ttyLoop line keys
    | .char => ttyLoop (if ttyLineMax - 1 ≤ line.length then line else line ++ [c]) keys

/-- The keys to come and the line being composed. -/
structure State where
  keys : List UInt8
  line : List UInt8

def ttyRead (count : Nat) (s : State) : Option (List UInt8 × State) :=
  if count = 0 then some ([], s)
  else (ttyLoop s.line s.keys).map fun (ready, keys) => (ready.take count, ⟨keys, []⟩)

/-- What calls with these counts return, up to the one that waits. -/
def ttyReads : List Nat → State → List (List UInt8)
  | [], _ => []
  | count :: counts, s =>
    match ttyRead count s with
    | none => []
    | some (buf, s) => buf :: ttyReads counts s

/-! ## What was typed -/

/-- What a reader is to see: an edited line, or the end of the file. -/
inductive Entry
  | line (text : List UInt8)
  | endOfFile
  deriving DecidableEq

def Entry.bytes : Entry → List UInt8
  | .line text => text ++ [10]
  | .endOfFile => []

/-- The line after one more key. -/
def edit (line : List UInt8) (c : UInt8) : List UInt8 :=
  match key c with
  | .enter | .interrupt | .eof => []
  | .erase => line.dropLast
  | .ignored => line
  | .char => line ++ [c]

/-- What a key commits. -/
def commits (line : List UInt8) (c : UInt8) : List Entry :=
  match key c with
  | .enter => [.line line]
  | .eof => [if line = [] then .endOfFile else .line line]
  | _ => []

def committed : List UInt8 → List UInt8 → List Entry
  | _, [] => []
  | line, c :: keys => commits line c ++ committed (edit line c) keys

/-- No line grows beyond 1023 characters while it is typed. -/
def Short : List UInt8 → List UInt8 → Prop :=
  Along (fun line c => (edit line c).length < ttyLineMax) edit

/-! ## Delivery -/

/-- The loop leaves the first entry committed, with the keys of the others. -/
theorem ttyLoop_committed {line keys : List UInt8} (h : Short line keys)
    (hline : line.length < ttyLineMax) : match ttyLoop line keys with
    | none => committed line keys = []
    | some (ready, rest) =>
      ∃ e : Entry, ready = e.bytes ∧ committed line keys = e :: committed [] rest ∧
        Short [] rest := by
  induction keys generalizing line with
  | nil => rfl
  | cons c keys ih =>
    obtain ⟨hlen, hkeys⟩ := h
    have hcommit : ttyCommit line = (Entry.line line).bytes := if_pos hline
    have hnext := ih hkeys hlen
    rw [ttyLoop, committed, commits]
    rw [edit] at hkeys hnext hlen ⊢
    cases hkey : key c with simp only [hkey] at hkeys hnext hlen ⊢
    | enter => exact ⟨_, hcommit, rfl, hkeys⟩
    | eof =>
      refine ⟨_, ?_, rfl, hkeys⟩
      by_cases hnil : line = []
      · rw [if_pos hnil, if_pos hnil]
        rfl
      · simp [hnil, hcommit]
    | char =>
      rw [length_append, length_singleton] at hlen
      rw [if_neg (by omega)]
      exact hnext
    | erase | interrupt | ignored => exact hnext

/-- Each call delivers the entry that is its turn, up to its count. -/
theorem ttyReads_eq {counts : List Nat} (hpos : ∀ n ∈ counts, 0 < n) {line keys : List UInt8}
    (h : Short line keys) (hline : line.length < ttyLineMax) :
    ttyReads counts ⟨keys, line⟩ =
      zipWith (fun n e => e.bytes.take n) counts (committed line keys) := by
  induction counts generalizing line keys with
  | nil => rfl
  | cons n counts ih =>
    have hn : n ≠ 0 := Nat.ne_of_gt (hpos n mem_cons_self)
    have hloop := ttyLoop_committed h hline
    rw [ttyReads, ttyRead, if_neg hn]
    cases hres : ttyLoop line keys with simp only [hres] at hloop
    | none =>
      rw [hloop]
      rfl
    | some res =>
      obtain ⟨e, hready, hall, hrest⟩ := hloop
      have htail := ih (fun m hm => hpos m (mem_cons_of_mem n hm)) hrest (by decide)
      rw [hall, zipWith_cons_cons, ← hready, ← htail]
      rfl

theorem flatten_takes (counts : List Nat) (es : List Entry)
    (h : ∀ p ∈ (counts.zip es).dropLast, p.2.bytes.length ≤ p.1) :
    (zipWith (fun n e => e.bytes.take n) counts es).flatten <+: (es.map Entry.bytes).flatten := by
  induction es generalizing counts with
  | nil => simp
  | cons e es ih =>
    cases counts with
    | nil => exact nil_prefix
    | cons n counts =>
      rw [zipWith_cons_cons, map_cons, flatten_cons, flatten_cons]
      cases hz : counts.zip es with
      | nil =>
        -- The last entry that is asked for may be cut.
        have hnil : zipWith (fun n e => e.bytes.take n) counts es = [] := by
          rw [← map_uncurry_zip_eq_zipWith, hz, map_nil]
        rw [hnil, flatten_nil, append_nil]
        exact ( take_prefix ..).trans (prefix_append ..)
      | cons p ps =>
        rw [zip_cons_cons, hz] at h
        rw [take_of_length_le (h _ mem_cons_self), prefix_append_right_inj]
        exact ih counts fun q hq => h q (mem_cons_of_mem _ (hz ▸ hq))

/-- Calls of which all but the last ask for at least the line that is their turn deliver
what was committed, without gap or repetition, and report the end of the file only where it
was typed. -/
theorem ttyReads_prefix_committed {counts : List Nat} {keys : List UInt8}
    (hpos : ∀ n ∈ counts, 0 < n) (hshort : Short [] keys)
    (hwhole : ∀ p ∈ (counts.zip (committed [] keys)).dropLast, p.2.bytes.length ≤ p.1) :
    (ttyReads counts ⟨keys, []⟩).flatten <+: ((committed [] keys).map Entry.bytes).flatten ∧
      ∀ i : Nat, (ttyReads counts ⟨keys, []⟩)[i]? = some [] →
        (committed [] keys)[i]? = some .endOfFile := by
  rw [ttyReads_eq hpos hshort (by decide)]
  refine ⟨flatten_takes _ _ hwhole, fun i hi => ?_⟩
  obtain ⟨n, e, hn, he, htake⟩ := getElem?_zipWith_eq_some.mp hi
  have hn := hpos n (mem_of_getElem? hn)
  rw [he]
  cases e with
  | endOfFile => rfl
  | line text => simp [Entry.bytes, Nat.ne_of_gt hn] at htake

theorem ttyReads_prefix_committed_two :
    (ttyReads [3, 1] ⟨[97, 98, 10, 99, 10], []⟩).flatten <+:
      ((committed [] [97, 98, 10, 99, 10]).map Entry.bytes).flatten :=
  (ttyReads_prefix_committed (by decide) (by unfold Short; decide) (by decide)).1

/-- Of the line "ab" a call for one byte delivers the "a", and the next call the line "c". -/
theorem ttyReads_skips :
    ¬ (ttyReads [1, 2] ⟨[97, 98, 10, 99, 10], []⟩).flatten <+:
      ((committed [] [97, 98, 10, 99, 10]).map Entry.bytes).flatten := by
  decide

end Kil0yOS.Tty
