/-
What the functions that only look at the tree and at the heap find there.
-/
import Kil0yOS.Lib.Returns
import Kil0yOS.Vfs.LnxFiles

namespace Kil0yOS.Vfs

open Lib Function

section Found

variable {s : State}

theorem after_nodeAt (p : Nat) :
    After (nodeAt p) s fun n t => t = s ∧ s.heap.block p = some (.node n) := by
  intro n t hrun
  simp only [nodeAt] at hrun
  split at hrun
  next n' hn =>
    cases hrun
    exact ⟨rfl, hn⟩
  · cases hrun

theorem after_mountAt (p : Nat) :
    After (mountAt p) s fun m t => t = s ∧ s.heap.block p = some (.mount m) := by
  intro m t hrun
  simp only [mountAt] at hrun
  split at hrun
  next m' hm =>
    cases hrun
    exact ⟨rfl, hm⟩
  · cases hrun

theorem after_fileAt (p : Nat) :
    After (fileAt p) s fun f t => t = s ∧ s.heap.block p = some (.lnxFile f) := by
  intro f t hrun
  simp only [fileAt] at hrun
  split at hrun
  next f' hf =>
    cases hrun
    exact ⟨rfl, hf⟩
  · cases hrun

theorem after_dataAt (p : Nat) :
    After (dataAt p) s fun d t => t = s ∧ s.heap.block p = some (.data d) := by
  intro d t hrun
  simp only [dataAt] at hrun
  split at hrun
  next d' hd =>
    cases hrun
    exact ⟨rfl, hd⟩
  · cases hrun

theorem after_slotsAt (children : Option Nat) :
    After (slotsAt children) s fun slots t => t = s ∧ ∃ q, children = some q ∧
      s.heap.block q = some (.table slots) := by
  intro slots t hrun
  simp only [slotsAt] at hrun
  split at hrun
  · cases hrun
  next q =>
    split at hrun
    next slots' hs =>
      cases hrun
      exact ⟨rfl, q, rfl, hs⟩
    · cases hrun

theorem slotsAt_bind {α : Type} {children : Option Nat} {f : (Nat → Option Nat) → V α}
    {R : α → State → Prop} (h : ∀ q slots, children = some q → s.heap.block q = some (.table slots) →
      After (f slots) s R) : After (slotsAt children >>= f) s R := by
  refine (after_slotsAt children).reads fun slots hslots => ?_
  obtain ⟨q, hq, hslots⟩ := hslots
  exact h q slots hq hslots

theorem after_setSlot (q i : Nat) (value : Option Nat) :
    After (setSlot (some q) i value) s fun _ t => ∃ slots,
      s.heap.block q = some (.table slots) ∧
        t = { s with heap := s.heap.store q (.table (update slots i value)) } := by
  refine slotsAt_bind fun q' slots hq' hslots => ?_
  cases hq'
  exact .modify ⟨slots, hslots, rfl⟩

/-- The child that a search finds is in the slot it says, and has the name. -/
theorem after_findChild (slots : Nat → Option Nat) (name : CString) (is : List Nat) :
    After (findChild slots name is) s fun r t => t = s ∧ ∀ i c, r = some (i, c) →
      i ∈ is ∧ slots i = some c ∧ ∃ n, s.heap.block c = some (.node n) ∧ n.name = name := by
  induction is with
  | nil => exact .pure ⟨rfl, nofun⟩
  | cons j is ih =>
    have hrest : After (findChild slots name is) s fun r t => t = s ∧ ∀ i c, r = some (i, c) →
        i ∈ j :: is ∧ slots i = some c ∧ ∃ n, s.heap.block c = some (.node n) ∧ n.name = name :=
      ih.mono fun r t hr => ⟨hr.1, fun i c hic =>
        ⟨List.mem_cons_of_mem _ (hr.2 i c hic).1, (hr.2 i c hic).2⟩⟩
    simp only [findChild]
    split
    · exact hrest
    next c hc =>
      refine (after_nodeAt c).reads fun n hn => ?_
      refine .ite (fun hname => .pure ⟨rfl, fun i c' h => ?_⟩) fun _ => hrest
      cases h
      exact ⟨List.mem_cons_self, hc, n, hn, hname⟩

/-- The mount that a search finds is in the table and is what was looked for. -/
theorem after_findMount (p : Mount → Bool) (ms : List Nat) :
    After (findMount p ms) s fun r t => t = s ∧ ∀ m, r = some m → m ∈ ms ∧
      ∃ M, s.heap.block m = some (.mount M) ∧ p M = true := by
  induction ms with
  | nil => exact .pure ⟨rfl, nofun⟩
  | cons m ms ih =>
    refine (after_mountAt m).reads fun M hM => ?_
    refine .ite (fun hp => .pure ⟨rfl, fun m' hm' => ?_⟩) fun _ => ?_
    · cases hm'
      exact ⟨List.mem_cons_self, M, hM, hp⟩
    · exact ih.mono fun r t ht => ⟨ht.1, fun m' hm' =>
        ⟨List.mem_cons_of_mem _ (ht.2 m' hm').1, (ht.2 m' hm').2⟩⟩

theorem after_ext2MountIsWritable (mnt : Option MntPtr) :
    After (ext2MountIsWritable mnt) s fun r t => t = s ∧
      (r = true → ∃ m M, mnt = some (.inst m) ∧ s.heap.block m = some (.mount M) ∧
        M.writable = true) ∧
      ∀ m, mnt = some (.inst m) → ∃ M, s.heap.block m = some (.mount M) ∧ M.writable = r := by
  rcases mnt with _ | _ | m
  · exact .pure ⟨rfl, fun h => (by cases h), fun m h => (by cases h)⟩
  · exact .pure ⟨rfl, fun h => (by cases h), fun m h => (by cases h)⟩
  refine (after_mountAt m).reads fun M hM => ?_
  refine .pure ⟨rfl, fun h => ⟨m, M, rfl, hM, h⟩, fun m' h => ?_⟩
  cases h
  exact ⟨M, hM, rfl⟩

theorem after_writableExt2 (n : Node) :
    After (writableExt2 n) s fun r t => t = s ∧ (r = true → ∃ m M, n.mnt = some (.inst m) ∧
      s.heap.block m = some (.mount M) ∧ M.writable = true) := by
  refine .ite (fun _ => ?_) fun _ => ?_
  · exact (after_ext2MountIsWritable n.mnt).mono fun r t ht => ⟨ht.1, ht.2.1⟩
  exact .pure ⟨rfl, nofun⟩

end Found

def Reads {α : Type} (x : V α) : Prop := ∀ s, After x s fun _ t => t = s

section Reads

variable {α β : Type}

theorem reads_pure (a : α) : Reads (pure a : V α) := fun _ => .pure rfl

theorem reads_fault : Reads (fault : V α) := fun _ => after_none rfl

variable {f : α → V β}

theorem Reads.after {x : V α} {s : State} {R : β → State → Prop} (hx : Reads x)
    (hf : ∀ a, After (f a) s R) : After (x >>= f) s R := by
  refine (hx s).bind fun a t ht => ?_
  rw [ht]
  exact hf a

theorem Reads.bind {x : V α} (hx : Reads x) (hf : ∀ a, Reads (f a)) : Reads (x >>= f) := by
  intro s
  exact hx.after fun a => hf a s

theorem Reads.ite {c : Prop} [Decidable c] {x y : V α} (hx : Reads x) (hy : Reads y) :
    Reads (if c then x else y) := by
  split
  · exact hx
  · exact hy

theorem Reads.of_after {x : V α} {P : State → α → Prop}
    (h : ∀ s, After x s fun a t => t = s ∧ P s a) : Reads x :=
  fun s => (h s).mono fun _ _ ht => ht.1

theorem reads_nodeAt (p : Nat) : Reads (nodeAt p) := .of_after fun _ => after_nodeAt p

theorem reads_mountAt (p : Nat) : Reads (mountAt p) := .of_after fun _ => after_mountAt p

theorem reads_slotsAt (children : Option Nat) : Reads (slotsAt children) :=
  .of_after fun _ => after_slotsAt children

theorem reads_findChild (slots : Nat → Option Nat) (name : CString) (is : List Nat) :
    Reads (findChild slots name is) := .of_after fun _ => after_findChild slots name is

theorem reads_resolveTokens (toks : List CString) : ∀ cur, Reads (resolveTokens cur toks) := by
  induction toks with
  | nil => exact fun cur => reads_pure _
  | cons tok rest ih =>
    intro cur
    refine (ih cur).ite ((reads_nodeAt cur).bind fun n => (ih _).ite ?_)
    refine (reads_slotsAt _).bind fun slots => (reads_findChild _ _ _).bind fun r => ?_
    cases r with
    | none => exact reads_pure _
    | some ic => exact ih ic.2

theorem reads_findMount (p : Mount → Bool) (ms : List Nat) : Reads (findMount p ms) :=
  .of_after fun _ => after_findMount p ms

theorem reads_anyChild {has : Nat → V Bool} (hhas : ∀ c, Reads (has c)) (children : Option Nat)
    (is : List Nat) : Reads (anyChild has children is) := by
  induction is with
  | nil => exact reads_pure _
  | cons i is ih =>
    refine (reads_slotsAt _).bind fun slots => ?_
    cases slots i with
    | none => exact ih
    | some c => exact (hhas c).bind fun b => (reads_pure _).ite ih

theorem reads_subtreeHasBackend (be : Backend) (depth : Nat) :
    ∀ dir, Reads (subtreeHasBackend be depth dir) := by
  induction depth with
  | zero => exact fun dir => reads_fault
  | succ depth ih =>
    intro dir
    exact (reads_nodeAt dir).bind fun d => (reads_pure _).ite (reads_anyChild ih _ _)

theorem reads_subtreeHasNode (node depth : Nat) : ∀ dir, Reads (subtreeHasNode node depth dir) := by
  induction depth with
  | zero => exact fun dir => reads_fault
  | succ depth ih =>
    intro dir
    exact (reads_pure _).ite ((reads_nodeAt dir).bind fun d => reads_anyChild ih _ _)

theorem reads_isAbove (target depth : Nat) : ∀ e, Reads (isAbove target depth e) := by
  induction depth with
  | zero =>
    intro e
    cases e with
    | none => exact reads_pure _
    | some e => exact reads_fault
  | succ depth ih =>
    intro e
    cases e with
    | none => exact reads_pure _
    | some e =>
      exact (reads_pure _).ite ((reads_nodeAt e).bind fun n => ih n.parent)

theorem reads_nestedMount (depth found target : Nat) (ms : List Nat) :
    Reads (nestedMount depth found target ms) := by
  induction ms with
  | nil => exact reads_pure _
  | cons m ms ih =>
    refine ih.ite ((reads_mountAt m).bind fun other => ?_)
    cases other.target with
    | none => exact ih
    | some t => exact (reads_subtreeHasNode _ _ _).bind fun b => (reads_pure _).ite ih

end Reads

/-! ## Runs -/

section Runs

variable {α β : Type} {s t u : State} {p : Nat}

theorem bind_eq_some {x : V α} {b : β} :
    (x >>= f) s = some (b, u) ↔ ∃ a t, x s = some (a, t) ∧ f a t = some (b, u) := by
  show (x s).bind (fun p => f p.1 p.2) = some (b, u) ↔ _
  rw [Option.bind_eq_some_iff]
  constructor
  · rintro ⟨⟨a, t⟩, hx, hf⟩
    exact ⟨a, t, hx, hf⟩
  · rintro ⟨a, t, hx, hf⟩
    exact ⟨(a, t), hx, hf⟩

theorem bind_of_some {x : V α} {a : α} (hx : x s = some (a, t)) : (x >>= f) s = f a t := by
  show (x s).bind (fun p => f p.1 p.2) = _
  rw [hx]
  rfl

theorem nodeAt_of_node {n : Node} (hp : s.heap.block p = some (.node n)) :
    nodeAt p s = some (n, s) := by
  simp only [nodeAt, hp]

theorem slotsAt_of_table {q : Nat} {slots : Nat → Option Nat}
    (hq : s.heap.block q = some (.table slots)) : slotsAt (some q) s = some (slots, s) := by
  simp only [slotsAt, hq]

theorem fileAt_of_file {f : LnxFile} (hp : s.heap.block p = some (.lnxFile f)) :
    fileAt p s = some (f, s) := by
  simp only [fileAt, hp]

theorem dataAt_of_data {bytes : List UInt8} (hp : s.heap.block p = some (.data bytes)) :
    dataAt p s = some (bytes, s) := by
  simp only [dataAt, hp]

theorem mountAt_of_mount {m : Mount} (hp : s.heap.block p = some (.mount m)) :
    mountAt p s = some (m, s) := by
  simp only [mountAt, hp]

end Runs

end Kil0yOS.Vfs
