/-
A path whose entry was deleted leads nowhere.

fs_delete_entry takes the path apart into a directory and a name, and fs_resolve_path reads
it piece by piece.  After the deletion the walk goes as before until it comes to the entry.
-/
import Kil0yOS.Vfs.TreeRemove

namespace Kil0yOS.Vfs

open Lib List Function

variable {base name : CString} {c j p q' x : Nat} {sl : Nat → Option Nat} {u' : State}

/-! ## Runs of the functions that look a path up -/

section Runs

variable {s t u : State}

/-- The nodes and the tables of `u` are in `s` as well. -/
structure Shows (u s : State) : Prop where
  node : ∀ p n, u.heap.block p = some (.node n) → s.heap.block p = some (.node n)
  table : ∀ p slots, u.heap.block p = some (.table slots) → s.heap.block p = some (.table slots)

theorem findChild_shows (h : Shows u s) (slots : Nat → Option Nat) (name : CString)
    {r : Option (Nat × Nat)} (is : List Nat) (hrun : findChild slots name is u = some (r, u')) :
    findChild slots name is s = some (r, s) := by
  induction is with
  | nil =>
    cases hrun
    rfl
  | cons i is ih =>
    simp only [findChild] at hrun ⊢
    cases hc : slots i with
    | none =>
      rw [hc] at hrun
      exact ih hrun
    | some c =>
      rw [hc] at hrun
      obtain ⟨n, v, hn, hrest⟩ := bind_eq_some.mp hrun
      obtain ⟨rfl, hnode⟩ := after_nodeAt c n v hn
      dsimp only
      rw [bind_of_some (nodeAt_of_node (h.node c n hnode))]
      split at hrest
      next hname =>
        rw [if_pos hname]
        cases hrest
        rfl
      next hname =>
        rw [if_neg hname]
        exact ih hrest

theorem resolveTokens_shows (h : Shows u s) {r : Option Nat} (toks : List CString) :
    ∀ cur, resolveTokens cur toks u = some (r, u') → resolveTokens cur toks s = some (r, s) := by
  induction toks with
  | nil =>
    intro cur hrun
    cases hrun
    rfl
  | cons tok rest ih =>
    intro cur hrun
    simp only [resolveTokens] at hrun ⊢
    split at hrun
    next hdot =>
      rw [if_pos hdot]
      exact ih cur hrun
    next hdot =>
      rw [if_neg hdot]
      obtain ⟨n, v, hn, hrest⟩ := bind_eq_some.mp hrun
      obtain ⟨rfl, hnode⟩ := after_nodeAt cur n v hn
      rw [bind_of_some (nodeAt_of_node (h.node cur n hnode))]
      split at hrest
      next hdots =>
        rw [if_pos hdots]
        exact ih _ hrest
      next hdots =>
        rw [if_neg hdots]
        obtain ⟨slots, w, hslots, hfind⟩ := bind_eq_some.mp hrest
        obtain ⟨rfl, q, hq, htable⟩ := after_slotsAt _ slots w hslots
        rw [hq, bind_of_some (slotsAt_of_table (h.table q slots htable))]
        obtain ⟨found, x, hfound, hnext⟩ := bind_eq_some.mp hfind
        rw [bind_of_some (findChild_shows h slots tok _ hfound)]
        obtain rfl := reads_findChild _ _ _ _ found x hfound
        cases found with
        | none =>
          cases hnext
          rfl
        | some ic => exact ih ic.2 hnext

end Runs

/-! ## The walk without the entry -/

section Gone

variable {s t : State} {d q i c : Nat} {slots : Nat → Option Nat} {base : CString}

theorem findChild_eq_none (is : List Nat)
    (h : ∀ j x, sl j = some x → ∃ n, t.heap.block x = some (.node n) ∧ n.name ≠ name) :
    findChild sl name is t = some (none, t) := by
  induction is with
  | nil => rfl
  | cons j is ih =>
    simp only [findChild]
    cases hx : sl j with
    | none => exact ih
    | some x =>
      obtain ⟨n, hn, hname⟩ := h j x hx
      dsimp only
      rw [bind_of_some (nodeAt_of_node hn), if_neg hname]
      exact ih

/-- A search finds the same child in a table with fewer children. -/
theorem findChild_eq_some {sl' : Nat → Option Nat} {s' : State}
    (hsub : ∀ k, sl' k = sl k ∨ sl' k = none) (hj : sl' j = some x)
    (hnode : ∀ k y n, sl' k = some y → s.heap.block y = some (.node n) →
      t.heap.block y = some (.node n)) (is : List Nat)
    (hrun : findChild sl name is s = some (some (j, x), s')) :
    findChild sl' name is t = some (some (j, x), t) := by
  induction is with
  | nil => cases hrun
  | cons k is ih =>
    simp only [findChild] at hrun ⊢
    cases hy : sl k with
    | none =>
      rw [hy] at hrun
      have hy' : sl' k = none := by
        rcases hsub k with heq | hnone
        · exact heq.trans hy
        · exact hnone
      rw [hy']
      exact ih hrun
    | some y =>
      rw [hy] at hrun
      obtain ⟨n, v, hn, hrest⟩ := bind_eq_some.mp hrun
      obtain ⟨rfl, hblock⟩ := after_nodeAt y n v hn
      split at hrest
      next hname =>
        cases hrest
        rw [hj]
        dsimp only
        rw [bind_of_some (nodeAt_of_node (hnode j x n hj hblock)), if_pos hname]
        rfl
      next hname =>
        rcases hsub k with heq | hnone
        · rw [heq, hy]
          dsimp only
          rw [bind_of_some (nodeAt_of_node (hnode k y n (heq.trans hy) hblock)), if_neg hname]
          exact ih hrest
        · rw [hnone]
          exact ih hrest

/-- The deletion of the entry `c` with the name `base`, the only one with it in `d`. -/
structure Deleted (s : State) (d q i c : Nat) (slots : Nat → Option Nat) (base : CString)
    (t : State) : Prop where
  before : Inv s ∅ ∅
  dir : Anchored s d
  table : HasTable s d q slots
  slot : slots i = some c
  name : ∃ n, s.heap.block c = some (.node n) ∧ n.name = base
  only : ∀ j x n, slots j = some x → s.heap.block x = some (.node n) → n.name = base → j = i
  pruned : Pruned s d q i c slots t
  after : Inv t ∅ ∅
  anchored : ∀ p, Anchored t p ↔ Anchored s p ∧ ¬ Below (Child s) {c} p

section

variable (h : Deleted s d q i c slots base t)
include h

namespace Deleted

theorem child : Child s d c :=
  ⟨q, slots, i, h.table, h.slot⟩

theorem self : ¬ Below (Child s) {c} d :=
  h.before.not_below h.dir h.child

theorem hasTable (hp : Anchored s p) (hnot : ¬ Below (Child s) {c} p)
    (hsl : HasTable s p q' sl) : HasTable t p q' (if p = d then update slots i none else sl) :=
  h.pruned.hasTable h.before h.dir h.table h.slot hp hnot hsl

theorem fewer (hsl : HasTable s p q' sl) (k : Nat) :
    (if p = d then update slots i none else sl) k = sl k ∨
      (if p = d then update slots i none else sl) k = none := by
  split
  next hpd =>
    subst hpd
    obtain ⟨-, rfl⟩ := h.table.unique hsl
    by_cases hki : k = i
    · exact .inr (by simp [hki])
    · exact .inl (update_of_ne hki _ _)
  · exact .inl rfl

theorem slot_kept (hsl : HasTable s p q' sl) (hj : sl j = some x) (hx : x ≠ c) :
    (if p = d then update slots i none else sl) j = some x := by
  split
  next hpd =>
    subst hpd
    obtain ⟨-, rfl⟩ := h.table.unique hsl
    have hji : j ≠ i := by
      intro heq
      rw [heq, h.slot] at hj
      exact hx (Option.some.inj hj).symm
    rw [update_of_ne hji]
    exact hj
  · exact hj

/-- No child of the directory has the name any more. -/
theorem findChild (is : List Nat) :
    findChild (update slots i none) base is t = some (none, t) := by
  refine findChild_eq_none is fun j x hx => ?_
  by_cases hji : j = i
  · rw [hji, update_self] at hx
    cases hx
  have hx' := hx
  rw [update_of_ne hji] at hx'
  have ht := h.hasTable h.dir h.self h.table
  rw [if_pos rfl] at ht
  have hdt := (h.anchored d).mpr ⟨h.dir, h.self⟩
  obtain ⟨n, hn, -⟩ := h.after.anchored_node (hdt.tail ⟨q, _, j, ht, hx⟩)
  exact ⟨n, hn, fun hname => hji (h.only j x n hx' (h.pruned.block x _ (by simp) hn) hname)⟩

/-- The walk that led to the directory, followed by the name, leads nowhere. -/
theorem resolveTokens (hdot : base ≠ dot) (hdots : base ≠ dotdot)
    (toks : List CString) :
    ∀ cur, Anchored s cur → ¬ Below (Child s) {c} cur → ∀ s',
      resolveTokens cur toks s = some (some d, s') →
      resolveTokens cur (toks ++ [base]) t = some (none, t) := by
  have htd := h.hasTable h.dir h.self h.table
  rw [if_pos rfl] at htd
  obtain ⟨nd, hnd, hndq, htable⟩ := htd
  induction toks with
  | nil =>
    intro cur _ _ s' hrun
    cases hrun
    simp only [nil_append, Vfs.resolveTokens, if_neg hdot]
    rw [bind_of_some (nodeAt_of_node hnd), if_neg hdots, hndq,
      bind_of_some (slotsAt_of_table htable), bind_of_some (h.findChild _)]
    rfl
  | cons tok rest ih =>
    intro cur hcur hnot s' hrun
    rw [cons_append]
    simp only [Vfs.resolveTokens] at hrun ⊢
    split at hrun
    next htok =>
      rw [if_pos htok]
      exact ih cur hcur hnot s' hrun
    next htok =>
      rw [if_neg htok]
      obtain ⟨n, v, hn, hrest⟩ := bind_eq_some.mp hrun
      obtain ⟨rfl, hnode⟩ := after_nodeAt cur n v hn
      have hcurt := (h.anchored cur).mpr ⟨hcur, hnot⟩
      have hnodet := (h.pruned.node h.after hcurt).trans hnode
      rw [bind_of_some (nodeAt_of_node hnodet)]
      split at hrest
      next hup =>
        rw [if_pos hup]
        have hpt := h.after.parent_anchored hcurt hnodet
        obtain ⟨hp, hpnot⟩ := (h.anchored _).mp hpt
        exact ih _ hp hpnot s' hrest
      next hup =>
        rw [if_neg hup]
        obtain ⟨sl, w, hsl, hfind⟩ := bind_eq_some.mp hrest
        obtain ⟨rfl, q', hq', hblock⟩ := after_slotsAt _ sl w hsl
        have hold : HasTable w cur q' sl := ⟨n, hnode, hq', hblock⟩
        have hnew := h.hasTable hcur hnot hold
        obtain ⟨n', hn', hq'', hblock'⟩ := id hnew
        rw [hq', bind_of_some (slotsAt_of_table hblock')]
        obtain ⟨found, y, hfound, hnext⟩ := bind_eq_some.mp hfind
        obtain ⟨rfl, hspec⟩ := after_findChild _ _ _ found y hfound
        cases found with
        | none => cases hnext
        | some jx =>
          obtain ⟨j, x⟩ := jx
          obtain ⟨-, hj, nx, hnx, hname⟩ := hspec j x rfl
          have hcx : Child y cur x := ⟨q', sl, j, hold, hj⟩
          by_cases hxc : x = c
          · -- The walk comes to the entry, so it is at the directory and looks for the name.
            subst hxc
            obtain rfl : cur = d := h.before.tree.isForest.parent _ _ _ hcur.below h.dir.below hcx h.child
            obtain ⟨n₀, hn₀, rfl⟩ := h.name
            rw [hnx] at hn₀
            cases hn₀
            rw [if_pos rfl, ← hname, bind_of_some (h.findChild _)]
            rfl
          have hxnot : ¬ Below (Child y) {c} x := by
            intro hbelow
            rcases hbelow.cases with hmem | ⟨p, hp, hpx⟩
            · exact hxc (Set.mem_singleton_iff.mp hmem)
            have hanch := anchored_of_below h.dir h.child hp
            obtain rfl : p = cur :=
              h.before.tree.isForest.parent p cur x hanch.below hcur.below hpx hcx
            exact hnot hp
          rw [bind_of_some (findChild_eq_some (h.fewer hold) (h.slot_kept hold hj hxc)
            (fun k z m hz hm => ?_) _ hfound)]
          · exact ih x (.tail hcur hcx) hxnot s' hnext
          · have hzt : Anchored t z := .tail hcurt ⟨q', _, k, hnew, hz⟩
            exact (h.pruned.node h.after hzt).trans hm

end Deleted

end

end Gone

/-! ## Looking a path up -/

/-- What a lookup leaves: the copy of the path that it made is freed again. -/
structure Looked (s t : State) : Prop where
  block : t.heap.block = s.heap.block
  next : s.heap.next ≤ t.heap.next
  root : t.root = s.root
  current : t.current = s.current
  mounts : t.mounts = s.mounts

section Lookup

variable {s t : State} {c : UInt8} {rest name : CString}

theorem Looked.refl (s : State) : Looked s s := ⟨rfl, Nat.le_refl _, rfl, rfl, rfl⟩

theorem Looked.shows (h : Looked s t) : Shows s t :=
  ⟨fun _ _ hp => by rw [h.block, hp], fun _ _ hp => by rw [h.block, hp]⟩

theorem shows_alloc (s : State) (bytes : List UInt8) (fails : Nat → Bool) :
    Shows s { s with heapFails := fails, heap := s.heap.alloc (.data bytes) } := by
  have hne : ∀ p b, s.heap.block p = some b → p ≠ s.heap.next := by
    rintro p b hp rfl
    rw [s.heap.above _ (Nat.le_refl _)] at hp
    cases hp
  exact ⟨fun p n hp => (update_of_ne (hne p _ hp) _ _).trans hp,
    fun p slots hp => (update_of_ne (hne p _ hp) _ _).trans hp⟩

theorem alloc_shows (s : State) (bytes : List UInt8) (fails : Nat → Bool) :
    Shows { s with heapFails := fails, heap := s.heap.alloc (.data bytes) } s := by
  have hne : ∀ p b, update s.heap.block s.heap.next (some (.data bytes)) p = some b →
      (∀ d, b ≠ .data d) → s.heap.block p = some b := by
    intro p b hp hb
    rcases update_cases hp with ⟨-, hp⟩ | ⟨-, hp⟩
    · cases hp
      exact absurd rfl (hb bytes)
    · exact hp
  exact ⟨fun p n hp => hne p _ hp (by simp), fun p slots hp => hne p _ hp (by simp)⟩

/-- Where a path starts and the pieces it has. -/
def start (s : State) (c : UInt8) : Nat := if c = slash then s.root else s.current

def pieces (c : UInt8) (rest : CString) : List CString :=
  tokens (if c = slash then rest else c :: rest)

theorem after_fsResolvePath (c : UInt8) (rest : CString) :
    After (fsResolvePath (c :: rest)) s fun r t => Looked s t ∧ ∀ d, r = some d →
      resolveTokens (start s c) (pieces c rest) s = some (some d, s) := by
  refine .ite (fun hpath => ?_) fun _ => ?_
  · refine .pure ⟨.refl s, fun d hd => ?_⟩
    cases hd
    have hc : c = slash := by
      by_contra hne
      rw [if_neg hne] at hpath
      cases hpath
    simp only [start, pieces, if_pos hc] at hpath ⊢
    rw [hpath]
    rfl
  intro r u hrun
  obtain ⟨copy, v, hv, hrun⟩ := bind_eq_some.mp hrun
  simp only [kmalloc] at hv
  split at hv
  · cases hv
    cases hrun
    exact ⟨⟨rfl, Nat.le_refl _, rfl, rfl, rfl⟩, by simp⟩
  cases hv
  obtain ⟨found, w, hw, hfree⟩ := bind_eq_some.mp hrun
  have hreads := reads_resolveTokens _ _ _ found w hw
  subst hreads
  cases hfree
  refine ⟨⟨?_, Nat.le_succ _, rfl, rfl, rfl⟩, fun d hd => ?_⟩
  · show update (update s.heap.block s.heap.next _) s.heap.next none = s.heap.block
    simp [← s.heap.above s.heap.next (Nat.le_refl _)]
  · subst hd
    exact resolveTokens_shows (alloc_shows s _ _) _ _ hw

theorem fsResolvePath_of_none (h : resolveTokens (start s c) (pieces c rest) s = some (none, s)) :
    ∃ u, fsResolvePath (c :: rest) s = some (none, u) := by
  have hpath : (if c = slash then rest else c :: rest) ≠ [] := by
    intro hnil
    rw [pieces, hnil] at h
    cases h
  have hget : (get : V State) s = some (s, s) := rfl
  simp only [fsResolvePath]
  rw [bind_of_some hget]
  simp only [if_neg hpath]
  by_cases hfails : s.heapFails 0 = true
  · rw [bind_of_some (if_pos hfails)]
    exact ⟨_, rfl⟩
  rw [bind_of_some (if_neg hfails)]
  have hwalk := resolveTokens_shows (shows_alloc s (if c = slash then rest else c :: rest)
    fun n => s.heapFails (n + 1)) _ _ h
  simp only [start, pieces] at hwalk
  dsimp only
  rw [bind_of_some hwalk]
  exact ⟨_, rfl⟩

/-- A path is taken apart into a directory and a name: the walk to the directory, and how
the path reads where that walk, followed by the name, finds nothing. -/
def Leads (s : State) (name : CString) (dir : Nat) (base : CString) : Prop :=
  ∃ x toks, (x = s.root ∨ x = s.current) ∧ resolveTokens x toks s = some (some dir, s) ∧
    (base ≠ [] → base.length < 256 → ∀ t, t.root = s.root → t.current = s.current →
      resolveTokens x (toks ++ [base]) t = some (none, t) →
      ∃ u, fsResolvePath name t = some (none, u))

theorem start_eq (c : UInt8) : start s c = s.root ∨ start s c = s.current := by
  simp only [start]
  split
  · exact .inl rfl
  · exact .inr rfl

theorem pieces_append (hslash : slash ∉ base) (hbase : base ≠ []) (c : UInt8)
    (rest : CString) : pieces c (rest ++ slash :: base) = pieces c rest ++ [base] := by
  simp only [pieces]
  split
  · exact Lib.pieces_append hslash hbase rest
  · exact Lib.pieces_append hslash hbase (c :: rest)

theorem leads_here (s : State) (hslash : slash ∉ name) : Leads s name s.current name := by
  refine ⟨s.current, [], .inr rfl, rfl, fun hbase _ t hroot hcurrent hwalk => ?_⟩
  obtain ⟨c, rest, rfl⟩ := exists_cons_of_ne_nil hbase
  have hc : c ≠ slash := fun heq => hslash (heq ▸ mem_cons_self)
  refine fsResolvePath_of_none ?_
  rw [start, if_neg hc, hcurrent, pieces, if_neg hc,
    show tokens (c :: rest) = [c :: rest] from pieces_of_notMem hslash hbase]
  exact hwalk

theorem leads_root (s : State) (hslash : slash ∉ base) : Leads s (slash :: base) s.root base := by
  refine ⟨s.root, [], .inl rfl, rfl, fun hbase _ t hroot hcurrent hwalk => ?_⟩
  refine fsResolvePath_of_none ?_
  rw [start, if_pos rfl, hroot, pieces, if_pos rfl,
    show tokens base = [base] from pieces_of_notMem hslash hbase]
  exact hwalk

theorem leads_path {dir : Nat} (hslash : slash ∉ base)
    (hdir : resolveTokens (start s c) (pieces c rest) s = some (some dir, s)) :
    Leads s (c :: rest ++ slash :: base) dir base := by
  refine ⟨start s c, pieces c rest, start_eq c, hdir, fun hbase _ t hroot hcurrent hwalk => ?_⟩
  rw [cons_append]
  refine fsResolvePath_of_none ?_
  rw [start, hroot, hcurrent, pieces_append hslash hbase]
  exact hwalk

theorem after_resolveParentAndName (name : CString) :
    After (resolveParentAndName name) s fun r t => Looked s t ∧ ∀ dir, r.1 = some dir →
      Leads s name dir r.2 := by
  simp only [resolveParentAndName]
  cases hsplit : splitLast name with
  | none =>
    refine .pure ⟨.refl s, fun dir hdir => ?_⟩
    cases hdir
    exact leads_here s (splitLast_eq_none hsplit)
  | some db =>
    obtain ⟨dirPath, base⟩ := db
    obtain ⟨rfl, hslash⟩ := splitLast_eq_some hsplit
    refine .ite (fun hlen => ?_) fun hlen => .ite (fun hnil => ?_) fun hnil => ?_
    · obtain ⟨c, rest, rfl⟩ := exists_cons_of_length_pos hlen.1
      refine (after_fsResolvePath c rest).bind fun r t ht => ?_
      exact .pure ⟨ht.1, fun dir hdir => leads_path hslash (ht.2 dir hdir)⟩
    · refine .pure ⟨.refl s, fun dir hdir => ?_⟩
      cases hdir
      rw [length_eq_zero_iff.mp hnil]
      exact leads_root s hslash
    · -- No name in the tree is as long as the path.
      refine .pure ⟨.refl s, fun dir hdir => ?_⟩
      cases hdir
      refine ⟨s.current, [], .inr rfl, rfl, fun _ hlong => ?_⟩
      simp only [length_append, length_cons, maxPathLength] at hlong hlen
      omega

end Lookup

/-! ## fs_delete_entry -/

/-- The entry that a path names can be deleted: nothing below it is in use, its name is
neither "." nor "..", and no other entry of its directory has the name. -/
def Deletable (s : State) (name : CString) : Prop :=
  ∀ dir base s', resolveParentAndName name s = some ((some dir, base), s') →
    ∀ q slots i c n, HasTable s dir q slots → slots i = some c →
      s.heap.block c = some (.node n) → n.name = base →
      Clear s c ∧ base ≠ dot ∧ base ≠ dotdot ∧
        ∀ j x m, slots j = some x → s.heap.block x = some (.node m) → m.name = base → j = i

section DeleteEntry

variable {s t : State} {name : CString}

section

variable (h : Looked s t)
include h

theorem Looked.hasTable : HasTable t = HasTable s := by
  funext p q slots
  simp only [HasTable, h.block]

theorem Looked.child : Child t = Child s := by
  funext p c
  simp only [Child, h.hasTable]

theorem Looked.isAnchor : IsAnchor t = IsAnchor s := by
  funext p
  simp only [IsAnchor, h.block, h.current, h.mounts]

theorem Looked.clear (hc : Clear s c) : Clear t c := by
  obtain ⟨hanchors, hbuffers⟩ := hc
  rw [← h.child] at hanchors
  rw [← h.isAnchor] at hanchors
  refine ⟨hanchors, fun p n hp hn r hr => ?_⟩
  rw [h.child] at hp
  rw [h.block] at hn
  obtain ⟨hlt, hdata⟩ := hbuffers p n hp hn r hr
  refine ⟨Nat.lt_of_lt_of_le hlt h.next, ?_⟩
  rw [h.block]
  exact hdata

end

theorem Inv.root_not_below {d : Nat} (h : Inv s ∅ ∅) (hd : Anchored s d) (hc : Child s d c) :
    ¬ Below (Child s) {c} s.root :=
  ((h.tree.isForest.below_unlinked_iff hd.below hc).mp (below_root (.inl rfl))).2

theorem Inv.fsDeleteEntry (h : Inv s ∅ ∅) (depth : Nat) (hsafe : Deletable s name) :
    After (fsDeleteEntry depth name) s fun r t => Inv t ∅ ∅ ∧
      (r = true → ∃ u, Vfs.fsResolvePath name t = some (none, u)) := by
  refine (((h.resolveParentAndName name).and (after_resolveParentAndName name)).and .self).bind
    fun pb u hu => ?_
  obtain ⟨parent, base⟩ := pb
  obtain ⟨⟨⟨hkept, hanch, -⟩, hlook, hleads⟩, hrun⟩ := hu
  cases parent with
  | none => exact .pure ⟨hkept.inv, nofun⟩
  | some dir =>
    have hdir : Anchored u dir := hanch dir rfl
    refine .ite (fun _ => .pure ⟨hkept.inv, nofun⟩) fun hbase => ?_
    refine (after_nodeAt dir).reads fun d hd => ?_
    refine slotsAt_bind fun q slots hq hslots => ?_
    refine (after_findChild slots base _).reads fun found hfound => ?_
    cases found with
    | none => exact .pure ⟨hkept.inv, nofun⟩
    | some ic =>
      obtain ⟨i, c⟩ := ic
      obtain ⟨-, hi, n, hn, hname⟩ := hfound i c rfl
      have ht : HasTable u dir q slots := ⟨d, hd, hq, hslots⟩
      have hdc : Child u dir c := ⟨q, slots, i, ht, hi⟩
      obtain ⟨hclear, hdot, hdots, honly⟩ := hsafe dir base u hrun q slots i c n
        (hlook.hasTable ▸ ht) hi (hlook.block ▸ hn) hname
      have hcleart := hlook.clear hclear
      rw [hq]
      refine (after_bind.mp (hkept.inv.deleteSlot hdir ht hi hcleart.buffers depth)).bind
        fun _ y hy => hy.bind fun _ t hpruned => ?_
      obtain ⟨hinv, hiff⟩ := hkept.inv.pruned hdir ht hi hcleart.anchors hpruned
      refine .pure ⟨hinv, fun _ => ?_⟩
      have hdeleted : Deleted u dir q i c slots base t :=
        ⟨hkept.inv, hdir, ht, hi, ⟨n, hn, hname⟩,
          fun j y m hj hm => honly j y m hj (hlook.block ▸ hm), hpruned, hinv, hiff⟩
      obtain ⟨start, toks, hstart, hwalk, hnone⟩ := hleads dir rfl
      have hlen : base.length < 256 :=
        hname ▸ (hkept.inv.tree.nodeOk (Anchored.below (hdir.tail hdc)) hn).name
      have hfrom : Anchored u start ∧ ¬ Below (Child u) {c} start := by
        rcases hstart with rfl | rfl
        · rw [← hlook.root]
          exact ⟨below_root rfl, hkept.inv.root_not_below hdir hdc⟩
        · rw [← hlook.current]
          exact ⟨hkept.inv.current, hcleart.anchors _ (.inl rfl)⟩
      have hwalk' := resolveTokens_shows hlook.shows toks start hwalk
      exact hnone hbase hlen t (hpruned.root.trans hlook.root)
        (hpruned.current.trans hlook.current)
        (hdeleted.resolveTokens hdot hdots toks start hfrom.1 hfrom.2 u hwalk')

end DeleteEntry

end Kil0yOS.Vfs
