/-
The install planner of kilget (kernel/pkg/kilget.c).

A package index is the list of its records, of which the planner reads the name and the
Depends field.  Which packages are installed is a predicate on names: nothing is installed
while the planner runs.  The messages on the terminal are left out.
-/
import Mathlib.Algebra.GroupWithZero.Nat
import Mathlib.Data.List.DropRight
import Kil0yOS.Lib.Pieces
import Kil0yOS.Lib.Postorder

namespace Kil0yOS.Pkg

open List Lib.Postorder Function Option

variable {kmallocOk : Bool} {idx levels p q : Nat}

/-- A C string: its bytes before the terminating zero. -/
abbrev CString := List UInt8

def kilgetMaxPkgs : Nat := 65536

structure PkgRec where
  name : CString
  depends : CString
deriving DecidableEq, Repr

/-- The record table, which never outgrows its cap. -/
structure Index where
  recs : List PkgRec
  length_le : recs.length ≤ kilgetMaxPkgs

variable (index : Index) {installed : CString → Bool} {r : PkgRec}

def Index.indexFind (package : CString) : Option Nat :=
  index.recs.findIdx? fun r => r.name == package

def Index.depends (idx : Nat) : CString :=
  match index.recs[idx]? with
  | some r => r.depends
  | none => []

def tokens (delim : UInt8) (s : CString) : List CString := Lib.pieces delim s

def cutAt (c : UInt8) (s : CString) : CString := s.takeWhile (· ≠ c)

/-- The name in one item of a Depends list: the first alternative, without its version
constraint and the blanks around it. -/
def depName (item : CString) : CString :=
  let item := cutAt 0x28 (cutAt 0x7C item)
  let item := item.dropWhile fun c => c = 0x20 ∨ c = 0x09
  item.rdropWhile fun c => c = 0x20 ∨ c = 0x09 ∨ c = 0x0A

/-- The names in a Depends list, all of them and each in full. -/
def depNames (depends : CString) : List CString :=
  ((tokens 0x2C depends).map depName).filter (· ≠ [])

/-- plan_dep_names with the buffers of its one caller: of the first 511 bytes the first 16
names, and of each the first 63 bytes. -/
def planDepNames (depends : CString) : List CString :=
  ((depNames (depends.take 511)).take 16).map (take 63)

structure Plan where
  order : List Nat
  cycle : Nat → Mark
  failed : Bool

variable {plan : Plan}

def Plan.enter (plan : Plan) (idx : Nat) : Plan :=
  { plan with cycle := update plan.cycle idx .visiting }

def planDeps (index : Index) (installed : CString → Bool) (visit : Plan → Nat → Plan) :
    List CString → Plan → Plan
  | [], plan => plan
  | tok :: rest, plan =>
    if installed tok then planDeps index installed visit rest plan
    else
      match index.indexFind tok with
      | none => { plan with failed := true }
      | some di =>
        if (visit plan di).failed then visit plan di
        else planDeps index installed visit rest (visit plan di)

/-- plan_visit at depth `17 - levels`. -/
def planVisit (index : Index) (installed : CString → Bool) : Nat → Plan → Nat → Plan
  | 0, plan, _ => { plan with failed := true }
  | levels + 1, plan, idx =>
    if plan.failed then { plan with failed := true }
    else
      match plan.cycle idx with
      | .done => plan
      | .visiting => plan
      | .new =>
        let plan := planDeps index installed (planVisit index installed levels)
          (planDepNames (index.depends idx)) (plan.enter idx)
        if plan.failed then plan
        else
          { plan with
            cycle := update plan.cycle idx .done
            order := plan.order ++ [idx] }

def emptyPlan : Plan := { order := [], cycle := fun _ => .new, failed := false }

/-- The planning part of kilget_install: the order it then installs in, if the target is
not installed yet and the plan does not fail. -/
def kilgetPlan (installed : CString → Bool) (kmallocOk : Bool)
    (package : CString) : Option (List Nat) :=
  if installed package then none
  else
    match index.indexFind package with
    | none => none
    | some idx =>
      if ! kmallocOk then none
      else
        let plan := planVisit index installed 17 emptyPlan idx
        if plan.failed ∨ plan.order.length = 0 then none else some plan.order

/-! ## The planner as a depth-first walk -/

def Plan.walk (plan : Plan) : Walk Nat :=
  { order := plan.order, mark := plan.cycle, failed := plan.failed }

/-- The packages a visit goes on to: those it reads in the Depends field that are not
installed, `none` for one that is not in the index. -/
def planSucc (installed : CString → Bool) (idx : Nat) : List (Option Nat) :=
  ((planDepNames (index.depends idx)).filter fun tok => ! installed tok).map index.indexFind

theorem planDeps_walk {index : Index} {visit : Plan → Nat → Plan}
    {go : Walk Nat → Nat → Walk Nat}
    (hgo : ∀ plan idx, (visit plan idx).walk = go plan.walk idx) :
    ∀ toks plan, (planDeps index installed visit toks plan).walk =
      visitAll go
        ((toks.filter fun tok => ! installed tok).map index.indexFind) plan.walk := by
  intro toks
  induction toks with
  | nil => exact fun plan => rfl
  | cons tok rest ih =>
    intro plan
    cases hin : installed tok with
    | true =>
      simp only [planDeps, hin, if_true]
      rw [ih plan, filter_cons_of_neg (by simp [hin])]
    | false =>
      rw [filter_cons_of_pos (by simp [hin]), map_cons]
      simp only [planDeps, hin, Bool.false_eq_true, if_false]
      cases hfind : index.indexFind tok with
      | none => rfl
      | some di =>
        have hfailed : (go plan.walk di).failed = (visit plan di).failed := by
          rw [← hgo plan di]
          rfl
        simp only [visitAll, hfailed]
        split
        · exact hgo plan di
        · rw [ih, hgo plan di]

theorem planVisit_of_seen {index : Index} (hfail : plan.failed = false)
    (hseen : plan.cycle idx ≠ .new) : planVisit index installed (levels + 1) plan idx = plan := by
  simp only [planVisit, hfail, Bool.false_eq_true, if_false]
  cases hmark : plan.cycle idx with
  | new => exact absurd hmark hseen
  | visiting => rfl
  | done => rfl

theorem planVisit_of_new {index : Index} {left : Plan} (hfail : plan.failed = false)
    (hnew : plan.cycle idx = .new)
    (hleft : planDeps index installed (planVisit index installed levels)
      (planDepNames (index.depends idx)) (plan.enter idx) = left) :
    planVisit index installed (levels + 1) plan idx =
      if left.failed then left
      else
        { left with
          cycle := update left.cycle idx .done
          order := left.order ++ [idx] } := by
  simp only [planVisit, hfail, hnew, Bool.false_eq_true, if_false] at hleft ⊢
  simp only [hleft]

theorem planVisit_walk (installed : CString → Bool) (levels : Nat) :
    ∀ plan idx, (planVisit index installed levels plan idx).walk =
      visit (planSucc index installed) levels plan.walk idx := by
  induction levels with
  | zero => exact fun plan idx => rfl
  | succ levels ih =>
    intro plan idx
    cases hfail : plan.failed with
    | true =>
      simp [planVisit, visit, Plan.walk, hfail]
    | false =>
      have hwalk : plan.walk.failed = false := hfail
      by_cases hmark : plan.cycle idx = .new
      · rw [visit_of_new hwalk hmark]
        generalize hplan : planDeps index installed (planVisit index installed levels)
          (planDepNames (index.depends idx)) (plan.enter idx) = left
        rw [planVisit_of_new hfail hmark hplan]
        have hleft : left.walk = visitAll
            (visit (planSucc index installed) levels)
            (planSucc index installed idx) (plan.walk.enter idx) := by
          rw [← hplan, planDeps_walk ih]
          simp [Plan.walk, Plan.enter, Walk.enter, planSucc]
        rw [← hleft]
        have hfailed : left.walk.failed = left.failed := rfl
        rw [hfailed]
        split <;> rfl
      · rw [planVisit_of_seen hfail hmark, visit_of_seen hmark]

/-! ## What a plan promises -/

section Names

variable {index : Index} {package : CString}

theorem indexFind_eq_some (h : index.indexFind package = some idx) :
    ∃ r, index.recs[idx]? = some r ∧ r.name = package := by
  obtain ⟨hlt, hname, -⟩ := findIdx?_eq_some_iff_getElem.mp h
  exact ⟨_, getElem?_eq_getElem hlt, by simpa using hname⟩

def Index.Found (index : Index) (idx : Nat) (r : PkgRec) : Prop :=
  index.recs[idx]? = some r ∧ index.indexFind r.name = some idx

theorem found_of_indexFind
    (h : index.indexFind package = some idx) : ∃ r, index.Found idx r ∧ r.name = package := by
  obtain ⟨r, hr, hname⟩ := indexFind_eq_some h
  exact ⟨r, ⟨hr, by rw [hname]; exact h⟩, hname⟩

theorem Index.Found.depends (h : index.Found idx r) : index.depends idx = r.depends := by
  simp only [Index.depends, h.1]

end Names

/-- `p` depends on `q`: a name in its Depends field is not installed and stands for `q` in
the index. -/
def Index.Needs (index : Index) (installed : CString → Bool) (p q : Nat) : Prop :=
  ∃ d ∈ depNames (index.depends p), installed d = false ∧ index.indexFind d = some q

/-- The dependencies among the packages of a plan. -/
def Index.NeedsIn (index : Index) (installed : CString → Bool) (order : List Nat)
    (p q : Nat) : Prop :=
  p ∈ order ∧ q ∈ order ∧ index.Needs installed p q

structure PlanOk (index : Index) (installed : CString → Bool) (target : CString)
    (order : List Nat) : Prop where
  nodup : (order.map fun p => index.recs[p]?.map PkgRec.name).Nodup
  last : (order.map fun p => index.recs[p]?.map PkgRec.name).getLast? = some (some target)
  closed : ∀ p ∈ order, ∀ q, index.Needs installed p q → q ∈ order
  sorted : (∀ p, ¬ Relation.TransGen (index.NeedsIn installed order) p p) →
    ∀ before p after, order = before ++ p :: after → ∀ q, index.Needs installed p q → q ∈ before

/-- If the package can be found, each name in its Depends field that the index holds, its own
apart, is among the names the planner reads. -/
def Index.ReadsAll (index : Index) (p : Nat) : Prop :=
  ∀ r, index.Found p r → ∀ d ∈ depNames r.depends, d ≠ r.name →
    (index.indexFind d).isSome → d ∈ planDepNames r.depends

/-- No name the planner reads stands for a package that the Depends field does not name:
a name cut short may do so. -/
def Index.ReadsOnly (index : Index) (p : Nat) : Prop :=
  ∀ r, index.Found p r → ∀ d ∈ planDepNames r.depends,
    (index.indexFind d).isSome → d ∈ depNames r.depends

section Plans

variable {index : Index} {installed : CString → Bool} {target : CString} {order : List Nat}

theorem kilgetPlan_eq_some (h : kilgetPlan index installed kmallocOk target = some order) :
    ∃ idx, index.indexFind target = some idx ∧
      (visit (planSucc index installed) 17 (.start Nat) idx).failed = false ∧
      (visit (planSucc index installed) 17 (.start Nat) idx).order = order := by
  simp only [kilgetPlan] at h
  split at h
  · cases h
  cases hfind : index.indexFind target with
  | none => simp only [hfind, reduceCtorEq] at h
  | some idx =>
    simp only [hfind] at h
    split at h
    · cases h
    split at h
    · cases h
    next hok =>
      have hwalk := planVisit_walk index installed 17 emptyPlan idx
      refine ⟨idx, rfl, ?_, ?_⟩
      · show (visit _ _ emptyPlan.walk idx).failed = false
        rw [← hwalk]
        exact Bool.eq_false_iff.mpr (not_or.mp hok).1
      · show (visit _ _ emptyPlan.walk idx).order = order
        rw [← hwalk]
        exact some.inj h

/-- Where everything is read, a dependency is a successor or the package itself. -/
theorem Index.ReadsAll.needs (h : index.ReadsAll p) (hp : index.Found p r)
    (hneeds : index.Needs installed p q) :
    q = p ∨ Edge (planSucc index installed) p q := by
  obtain ⟨d, hd, hin, hfind⟩ := hneeds
  rw [hp.depends] at hd
  by_cases hself : d = r.name
  · rw [hself, hp.2] at hfind
    exact .inl (some.inj hfind).symm
  · refine .inr (mem_map.mpr ⟨d, mem_filter.mpr ⟨?_, by simp [hin]⟩, hfind⟩)
    rw [hp.depends]
    exact h r hp d hd hself (by rw [hfind]; rfl)

theorem Index.ReadsOnly.needs (h : index.ReadsOnly p) (hp : index.Found p r)
    (hedge : Edge (planSucc index installed) p q) : index.Needs installed p q := by
  obtain ⟨d, hd, hfind⟩ := mem_map.mp hedge
  obtain ⟨hread, hin⟩ := mem_filter.mp hd
  rw [hp.depends] at hread
  refine ⟨d, ?_, by simpa using hin, hfind⟩
  rw [hp.depends]
  exact h r hp d hread (by rw [hfind]; rfl)

/-- Every package of a plan can be found by its name. -/
theorem found_of_mem_plan (levels : Nat) (hidx : ∃ r, index.Found idx r) :
    ∀ p ∈ (visit (planSucc index installed) levels (.start Nat) idx).order,
      ∃ r, index.Found p r := by
  refine visit_forall (fun a _ b hedge => ?_) levels _ idx hidx (fun x hx => ?_)
  · obtain ⟨d, -, hfind⟩ := mem_map.mp hedge
    obtain ⟨r, hr, -⟩ := found_of_indexFind hfind
    exact ⟨r, hr⟩
  · cases hx

/-- A path along the names read from a package of the plan is a path among its packages. -/
theorem needsIn_of_path (hfound : ∀ p ∈ order, ∃ r, index.Found p r)
    (hclosed : ∀ p ∈ order, ∀ q, Edge (planSucc index installed) p q → q ∈ order)
    (honly : ∀ p ∈ order, index.ReadsOnly p) (hp : p ∈ order)
    (hpath : Relation.ReflTransGen (Edge (planSucc index installed)) p q) :
    q ∈ order ∧ Relation.ReflTransGen (index.NeedsIn installed order) p q := by
  induction hpath with
  | refl => exact ⟨hp, .refl⟩
  | tail _ hedge ih =>
    obtain ⟨hmem, hpath⟩ := ih
    obtain ⟨r, hr⟩ := hfound _ hmem
    have hnext := hclosed _ hmem _ hedge
    exact ⟨hnext, hpath.tail ⟨hmem, hnext, (honly _ hmem).needs hr hedge⟩⟩

theorem planOk_of_reads (h : kilgetPlan index installed kmallocOk target = some order)
    (hreads : ∀ p ∈ order, index.ReadsAll p ∧ index.ReadsOnly p) :
    PlanOk index installed target order := by
  obtain ⟨idx, hidx, hok, rfl⟩ := kilgetPlan_eq_some h
  obtain ⟨r, hr, hname⟩ := found_of_indexFind hidx
  have hfound : ∀ p ∈ (visit (planSucc index installed) 17 (.start Nat) idx).order,
      ∃ r, index.Found p r := found_of_mem_plan 17 ⟨r, hr⟩
  obtain ⟨hnodup, hclosed, hsorted⟩ := visit_start hok
  obtain ⟨front, hlast⟩ := visit_start_last hok
  refine ⟨?_, ?_, fun p hp q hneeds => ?_, fun hacyclic before p after hsplit q hneeds => ?_⟩
  · refine hnodup.map_on fun p hp q hq heq => ?_
    obtain ⟨rp, hrp⟩ := hfound p hp
    obtain ⟨rq, hrq⟩ := hfound q hq
    rw [hrp.1, hrq.1] at heq
    have hsame : rp.name = rq.name := some.inj heq
    have hfind := hrp.2
    rw [hsame, hrq.2] at hfind
    exact (some.inj hfind).symm
  · rw [hlast, map_append, map_singleton, hr.1]
    simp [hname]
  · obtain ⟨rp, hrp⟩ := hfound p hp
    rcases (hreads p hp).1.needs hrp hneeds with rfl | hedge
    · exact hp
    · exact hclosed p hp q hedge
  · have hp : p ∈ (visit (planSucc index installed) 17 (.start Nat) idx).order := by
      rw [hsplit]
      exact mem_append_right _ mem_cons_self
    obtain ⟨rp, hrp⟩ := hfound p hp
    rcases (hreads p hp).1.needs hrp hneeds with rfl | hedge
    · exact absurd (.single ⟨hp, hp, hneeds⟩) (hacyclic q)
    rcases hsorted before p after hsplit q hedge with hbefore | hpath
    · exact hbefore
    · have hq := hclosed p hp q hedge
      have hback := (needsIn_of_path hfound hclosed (fun p hp => (hreads p hp).2) hq hpath).2
      exact absurd (Relation.TransGen.head' ⟨hp, hq, hneeds⟩ hback) (hacyclic p)

/-- A package whose names are installed, its own apart, is the whole plan for it. -/
theorem planDeps_of_installed (idx : Nat) (hfail : plan.failed = false)
    (hseen : plan.cycle idx ≠ .new) {toks : List CString}
    (htoks : ∀ tok ∈ toks, installed tok = true ∨ index.indexFind tok = some idx) :
    planDeps index installed (planVisit index installed (levels + 1)) toks plan = plan := by
  induction toks with
  | nil => rfl
  | cons tok rest ih =>
    have hrest := ih fun t ht => htoks t (mem_cons_of_mem _ ht)
    simp only [planDeps]
    split
    · exact hrest
    next hin =>
      have hfind := (htoks tok mem_cons_self).resolve_left hin
      simp only [hfind, planVisit_of_seen hfail hseen, hfail, Bool.false_eq_true, if_false]
      exact hrest

theorem kilgetPlan_alone (hr : index.Found idx r) (hout : installed r.name = false)
    (hnames : ∀ d ∈ planDepNames r.depends, installed d = true ∨ d = r.name) :
    kilgetPlan index installed true r.name = some [idx] := by
  have hdeps : planDeps index installed (planVisit index installed 16)
      (planDepNames (index.depends idx)) (emptyPlan.enter idx) = emptyPlan.enter idx := by
    refine planDeps_of_installed idx rfl ?_ fun tok htok => ?_
    · simp [Plan.enter]
    rw [hr.depends] at htok
    refine (hnames tok htok).imp_right fun heq => ?_
    rw [heq]
    exact hr.2
  have hvisit : planVisit index installed 17 emptyPlan idx =
      { order := [idx]
        cycle := update (emptyPlan.enter idx).cycle idx .done
        failed := false } := by
    rw [planVisit_of_new rfl rfl hdeps]
    rfl
  simp [kilgetPlan, hout, hr.2, hvisit]

/-- With exactly the names installed that the planner reads of one package, a dependency
that it does not read is missing from the plan. -/
theorem readsAll_of_planOk
    (h : ∀ installed target order, kilgetPlan index installed true target = some order →
      PlanOk index installed target order) (idx : Nat) : index.ReadsAll idx := by
  intro r hr d hd hself hin
  by_contra hunread
  obtain ⟨q, hq⟩ := isSome_iff_exists.mp hin
  let installed : CString → Bool := fun n => n ∈ planDepNames r.depends ∧ n ≠ r.name
  have hout : installed r.name = false := by simp [installed]
  have hnames : ∀ n ∈ planDepNames r.depends, installed n = true ∨ n = r.name := by
    intro n hn
    by_cases heq : n = r.name
    · exact .inr heq
    · exact .inl (by simp [installed, hn, heq])
  have hok := h installed r.name [idx] (kilgetPlan_alone hr hout hnames)
  have hmem := hok.closed idx mem_cons_self q
    ⟨d, by rw [hr.depends]; exact hd, by simp [installed, hunread], hq⟩
  rw [mem_singleton.mp hmem] at hq
  obtain ⟨r', hr', hname⟩ := indexFind_eq_some hq
  rw [hr.1] at hr'
  cases hr'
  exact hself hname.symm

end Plans

/-- A plan keeps its promises if, in the Depends fields of its packages, the names read and
the names written agree on the packages of the index; and a name written in any of them that
is not read breaks a promise. -/
theorem plans_ok_when_read (index : Index) :
    (∀ installed kmallocOk target order,
      kilgetPlan index installed kmallocOk target = some order →
        (∀ p ∈ order, index.ReadsAll p ∧ index.ReadsOnly p) →
          PlanOk index installed target order) ∧
    ((∀ installed kmallocOk target order,
      kilgetPlan index installed kmallocOk target = some order →
        PlanOk index installed target order) → ∀ p, index.ReadsAll p) := by
  refine ⟨fun installed kmallocOk target order h hreads => ?_, fun hall => ?_⟩
  · exact planOk_of_reads h hreads
  · exact readsAll_of_planOk fun installed target order h => hall installed true target order h

/-- Package `a` depends on `b`, sixteen times over, and then on `c`; `d` depends on `c`. -/
def seventeenDeps : Index :=
  { recs :=
      [{ name := [0x61], depends := (replicate 16 [0x62, 0x2C]).flatten ++ [0x63] },
        { name := [0x63], depends := [] }, { name := [0x64], depends := [0x63] }]
    length_le := by decide }

theorem plans_ok_when_read_two : PlanOk seventeenDeps (fun _ => false) [0x64] [1, 2] := by
  refine (plans_ok_when_read seventeenDeps).1 _ true _ _ (by decide +kernel) fun p hp => ?_
  rcases List.mem_pair.mp hp with rfl | rfl
  all_goals
    constructor
    all_goals
      rintro r ⟨hr, -⟩
      cases hr
      decide +kernel

/-- With `b` installed the plan for `a` is `a` alone, and `c` is neither installed nor in
the plan. -/
theorem plan_misses_dependency :
    kilgetPlan seventeenDeps (fun n => n = [0x62]) true [0x61] = some [0] ∧
      ¬ PlanOk seventeenDeps (fun n => n = [0x62]) [0x61] [0] := by
  refine ⟨by decide +kernel, fun hok => ?_⟩
  have hneeds : seventeenDeps.Needs (fun n => n = [0x62]) 0 1 :=
    ⟨[0x63], by decide +kernel, by decide, by decide⟩
  exact absurd (hok.closed 0 mem_cons_self 1 hneeds) (by decide)

end Kil0yOS.Pkg
