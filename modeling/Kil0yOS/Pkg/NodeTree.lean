/-
The tree of paths is the tree of nodes seen from outside.  Where a search in the table of a
node finds the children that a tree of paths has, a path leads to the same node in both.
-/
import Kil0yOS.Pkg.TreeFrames
import Kil0yOS.Vfs.TreeGone

namespace Kil0yOS.Pkg

open List Vfs

variable {u : Sys} {t : Tree} {node : Path → Nat} {s : State} {p : Path}

/-- A node of the heap is the one that the names `p` lead to. -/
structure Seen (t : Tree) (node : Path → Nat) (s : State) (p : Path) (n : Node) : Prop where
  parent : n.parent.getD (node p) = node p.dropLast
  file : t.entry p ≠ some .dir → n.children = none
  dir : t.entry p = some .dir → ∃ slots, slotsAt n.children s = some (slots, s) ∧ ∀ c, ∃ r,
    findChild slots c (range maxDirEntries) s = some (r, s) ∧
      r.map Prod.snd = if t.entry (p ++ [c]) = none then none else some (node (p ++ [c]))

/-- The two models are in states that belong together. -/
structure Shown (u : Sys) (node : Path → Nat) (s : State) : Prop where
  root : s.root = node []
  current : s.current = node u.current
  inside : u.tree.entry u.current ≠ none
  seen : ∀ p, u.tree.entry p ≠ none →
    ∃ n, s.heap.block (node p) = some (.node n) ∧ Seen u.tree node s p n

theorem Tree.entry_dropLast (hp : t.entry p ≠ none) : t.entry p.dropLast ≠ none := by
  rcases eq_nil_or_concat' p with rfl | ⟨q, c, rfl⟩
  · exact hp
  · rw [dropLast_concat, t.closed q c hp]
    exact Option.some_ne_none _

namespace Shown

variable (h : Shown u node s)
include h

theorem resolveTokens (toks : List CString) (hp : u.tree.entry p ≠ none) :
    Vfs.resolveTokens (node p) toks s = (walk u.tree p toks).map fun r => (r.map node, s) := by
  induction toks generalizing p with
  | nil => rfl
  | cons tok rest ih =>
    obtain ⟨n, hn, hseen⟩ := h.seen p hp
    rw [Vfs.resolveTokens, walk]
    by_cases hdot : tok = dot
    · rw [if_pos hdot, if_pos hdot]
      exact ih hp
    rw [if_neg hdot, if_neg hdot, bind_of_some (nodeAt_of_node hn)]
    by_cases hdots : tok = dotdot
    · rw [if_pos hdots, if_pos hdots, hseen.parent]
      exact ih (u.tree.entry_dropLast hp)
    rw [if_neg hdots, if_neg hdots]
    split
    next hdir =>
      obtain ⟨slots, hslots, hfind⟩ := hseen.dir hdir
      obtain ⟨r, hr, hchild⟩ := hfind tok
      rw [bind_of_some hslots, bind_of_some hr]
      split at hchild
      next htok =>
        rw [Option.map_eq_none_iff.mp hchild, if_pos htok]
        rfl
      next htok =>
        obtain ⟨⟨i, c⟩, rfl, rfl⟩ := Option.map_eq_some_iff.mp hchild
        rw [if_neg htok]
        exact ih htok
    next hdir =>
      rw [hseen.file hdir]
      rfl

theorem fsResolvePath (c : UInt8) (rest : CString) :
    Lib.After (Vfs.fsResolvePath (c :: rest)) s fun r _ => ∀ d, r = some d → ∃ q, node q = d ∧
      walk u.tree (startOf u.current (c :: rest)) (piecesOf (c :: rest)) = some (some q) := by
  refine (Vfs.after_fsResolvePath c rest).mono fun r _ hr d hd => ?_
  have hstart : start s c = node (startOf u.current (c :: rest)) ∧
      u.tree.entry (startOf u.current (c :: rest)) ≠ none := by
    simp only [start, startOf]
    split
    · exact ⟨h.root, u.tree.root ▸ Option.some_ne_none _⟩
    · exact ⟨h.current, h.inside⟩
  have hrun := hr.2 d hd
  rw [hstart.1, h.resolveTokens _ hstart.2] at hrun
  obtain ⟨found, hwalk, heq⟩ := Option.map_eq_some_iff.mp hrun
  obtain ⟨q, rfl, hq⟩ := Option.map_eq_some_iff.mp (congrArg Prod.fst heq)
  exact ⟨q, hq, hwalk⟩

end Shown

end Kil0yOS.Pkg
