/-
Integrity of the wait queues.

`Linked` reads a queue as a list of slots and each queue operation is shown to
be the list operation it stands for.  The queues as a whole are sound when each
lists exactly the processes parked on it.
-/
import Mathlib.Data.Fintype.Card
import Kil0yOS.Core.Lifecycle

namespace Kil0yOS.Core.Kernel

open Lib List Option

variable {ret : UInt64} {kind : WaitKind}

/-! ## Queues as lists -/

structure Linked (k : Kernel) (q : QueueId) (l : List Slot) : Prop where
  chain : Chain k.waitNext (k.queues q).head l
  tail : (k.queues q).tail = l.getLast?

variable {k k' : Kernel} {q r : QueueId} {l m s t : List Slot} {p x : Slot}

theorem length_le_maxProcesses (h : l.Nodup) : l.length ≤ maxProcesses := by
  have := List.Nodup.length_le_card h
  rwa [Fintype.card_fin] at this

theorem Linked.congr (h : Linked k q l) (hq : k'.queues q = k.queues q)
    (hnext : ∀ i ∈ l, k'.waitNext i = k.waitNext i) : Linked k' q l := by
  constructor
  · rw [hq]
    exact h.chain.congr hnext
  · rw [hq]
    exact h.tail

theorem Linked.push (h : Linked k q l) (hp : p ∉ l) : Linked (k.wqPush q p) q (l ++ [p]) := by
  unfold wqPush
  rcases eq_nil_or_concat l with rfl | ⟨m, t, rfl⟩
  · rw [h.tail]
    constructor
    · refine ⟨by simp, ?_⟩
      show (k.setNext p none).waitNext p = none
      simp
    · simp
  rw [concat_eq_append] at hp h ⊢
  have hpt : p ≠ t := fun e => hp (by simp [e])
  rw [h.tail, getLast?_concat]
  constructor
  · simp only [queues_setQueue_self, waitNext_setQueue]
    refine h.chain.snoc (fun c hc => ?_) ?_ ?_
    · have hct : c ≠ t := (nodup_append.mp h.chain.nodup).2.2 c hc t (by simp)
      have hcp : c ≠ p := fun e => hp (by simp [← e, hc])
      rw [waitNext_setNext_of_ne hct, waitNext_setNext_of_ne hcp]
    · simp
    · simp [waitNext_setNext_of_ne hpt]
  · simp

theorem Linked.push_other (h : Linked k r m) (hqr : r ≠ q) (hp : p ∉ m)
    (htail : ∀ t, (k.queues q).tail = some t → t ∉ m) : Linked (k.wqPush q p) r m := by
  unfold wqPush
  cases hq : (k.queues q).tail with
  | none =>
    refine h.congr (queues_setQueue_of_ne hqr) fun i hi => ?_
    have hip : i ≠ p := fun e => hp (e ▸ hi)
    simp [waitNext_setNext_of_ne hip]
  | some t =>
    refine h.congr (queues_setQueue_of_ne hqr) fun i hi => ?_
    have hip : i ≠ p := fun e => hp (e ▸ hi)
    have hit : i ≠ t := fun e => htail t hq (e ▸ hi)
    simp [waitNext_setNext_of_ne hit, waitNext_setNext_of_ne hip]

theorem Linked.pop (h : Linked k q (p :: m)) : Linked (k.wqPop q p) q m := by
  have hp : p ∉ m := (nodup_cons.mp h.chain.nodup).1
  have hchain : Chain k.waitNext (k.waitNext p) m := h.chain.2
  unfold wqPop
  constructor
  · simp only [queues_setNext, queues_setQueue_self]
    refine hchain.congr fun i hi => ?_
    have hip : i ≠ p := fun e => hp (e ▸ hi)
    simp [waitNext_setNext_of_ne hip]
  simp only [queues_setNext, queues_setQueue_self]
  split
  · next hnone =>
    rw [hchain.head_eq_none.mp hnone]
    rfl
  next hsome =>
  have hm : m ≠ [] := fun e => hsome (hchain.head_eq_none.mpr e)
  rw [h.tail, getLast?_cons, getLast?_eq_some_getLast hm]
  rfl

theorem Linked.pop_other (h : Linked k r m) (hqr : r ≠ q) (hp : p ∉ m) :
    Linked (k.wqPop q p) r m := by
  unfold wqPop
  refine h.congr ?_ fun i hi => ?_
  · exact queues_setQueue_of_ne hqr
  · have hip : i ≠ p := fun e => hp (e ▸ hi)
    simp [waitNext_setNext_of_ne hip]

/-! ### Unlinking from the middle -/

/-- Whatever led to `p` now leads past it. -/
theorem Linked.bypass (h : Linked k q (s ++ p :: t)) :
    ∃ k', k.wqBypass q p = some k' ∧ Chain k'.waitNext (k'.queues q).head (s ++ t) ∧
      (k'.queues q).tail = (k.queues q).tail ∧ (∀ r, r ≠ q → k'.queues r = k.queues r) ∧
      ∀ i, i ∉ s → k'.waitNext i = k.waitNext i := by
  have hnd := h.chain.nodup
  unfold wqBypass
  rcases eq_nil_or_concat s with rfl | ⟨s, x, rfl⟩
  · have hhead : (k.queues q).head = some p := h.chain.1
    rw [if_pos hhead]
    refine ⟨_, rfl, ?_, ?_, fun r hr => queues_setQueue_of_ne hr, fun i _ => rfl⟩
    · rw [queues_setQueue_self]
      exact h.chain.2
    · simp
  rw [concat_eq_append] at h hnd ⊢
  have hchain := h.chain
  rw [append_assoc, singleton_append] at hchain hnd
  have hlen := length_le_maxProcesses hnd
  have hhead : (k.queues q).head ≠ some p := by
    intro e
    cases s with
    | nil =>
      have hxp : x = p := some.inj (hchain.1.symm.trans e)
      simp [hxp] at hnd
    | cons y s =>
      have hyp : y = p := some.inj (hchain.1.symm.trans e)
      simp [hyp] at hnd
  have hfind := hchain.firstWhere_eq (fun i => decide (k.waitNext i = some p)) hlen
  rw [hchain.find_pred] at hfind
  rw [if_neg hhead, hfind]
  refine ⟨_, rfl, ?_, rfl, fun r _ => rfl, fun i hi => ?_⟩
  · rw [append_assoc]
    refine hchain.skip (fun c hc => ?_) (waitNext_setNext_self _ _ _)
    have hcx : c ≠ x := by
      rintro rfl
      rw [nodup_middle, nodup_cons] at hnd
      exact hnd.1 (by
        rcases mem_append.mp hc with hc | hc
        · exact mem_append_left _ hc
        · exact mem_append_right _ (mem_cons_of_mem p hc))
    exact waitNext_setNext_of_ne hcx
  · have hix : i ≠ x := fun e => hi (by simp [e])
    exact waitNext_setNext_of_ne hix

theorem Linked.retail (hchain : Chain k.waitNext (k.queues q).head (s ++ t))
    (htail : (k.queues q).tail = (s ++ p :: t).getLast?) (hp : p ∉ t) :
    Linked (k.wqRetail q p) q (s ++ t) := by
  unfold wqRetail
  rw [htail]
  rcases eq_nil_or_concat t with rfl | ⟨t, y, rfl⟩
  · rw [append_nil] at hchain ⊢
    rw [getLast?_concat, if_pos rfl]
    have hfind := hchain.firstWhere_eq (fun i => (k.waitNext i).isNone)
      (length_le_maxProcesses hchain.nodup)
    constructor
    · rw [queues_setQueue_self]
      exact hchain
    rw [queues_setQueue_self, hfind]
    rcases eq_nil_or_concat s with rfl | ⟨s, x, rfl⟩
    · rfl
    · rw [concat_eq_append] at hchain ⊢
      simp [hchain.find_last]
  · rw [concat_eq_append] at hp hchain htail ⊢
    rw [← cons_append, ← append_assoc, getLast?_concat] at htail ⊢
    have hyp : ¬ some y = some p := fun e => hp (by simp [some.inj e])
    rw [if_neg hyp]
    refine ⟨hchain, ?_⟩
    simp [htail]

/-- `wq_unlink` takes the slot out of the list. -/
theorem Linked.unlink (h : Linked k q (s ++ p :: t)) : Linked (k.wqUnlink q p) q (s ++ t) := by
  obtain ⟨k', hk', hchain, htail, -, -⟩ := h.bypass
  have hnd := h.chain.nodup
  rw [nodup_middle, nodup_cons] at hnd
  have hpt : p ∉ t := fun hp => hnd.1 (mem_append_right s hp)
  have hlinked := Linked.retail hchain (htail.trans h.tail) hpt
  unfold wqUnlink
  rw [hk']
  refine hlinked.congr rfl fun i hi => ?_
  have hip : i ≠ p := fun e => hnd.1 (e ▸ hi)
  exact waitNext_setNext_of_ne hip

theorem Linked.unlink_other (h : Linked k q (s ++ p :: t)) (hm : Linked k r m) (hqr : r ≠ q)
    (hdisj : ∀ i ∈ s ++ p :: t, i ∉ m) : Linked (k.wqUnlink q p) r m := by
  obtain ⟨k', hk', -, -, hqueues, hnext⟩ := h.bypass
  unfold wqUnlink
  rw [hk']
  refine hm.congr ?_ fun i hi => ?_
  · rw [queues_setNext, ← hqueues r hqr]
    unfold wqRetail
    split
    · exact queues_setQueue_of_ne hqr
    · rfl
  · have hip : i ≠ p := fun e => hdisj p (by simp) (e ▸ hi)
    have his : i ∉ s := fun his => hdisj i (by simp [his]) hi
    rw [waitNext_setNext_of_ne hip, ← hnext i his]
    unfold wqRetail
    split <;> rfl

/-! ## Sound queues -/

/-- The queue lists exactly the processes parked on it, each once. -/
structure Lists (k : Kernel) (q : QueueId) (l : List Slot) : Prop where
  linked : k.Linked q l
  nodup : l.Nodup
  mem_iff : ∀ i, i ∈ l ↔ k.parkedOn i = some q

/-- Every queue is sound: what hangs on it is BLOCKED and parked there, and
nothing parked there is missing. -/
def QueuesSound (k : Kernel) : Prop := ∀ q, ∃ l, k.Lists q l

theorem Lists.congr (h : k.Lists q l) (hq : k'.queues q = k.queues q)
    (hnext : ∀ i ∈ l, k'.waitNext i = k.waitNext i)
    (hpark : ∀ i, k'.parkedOn i = some q ↔ k.parkedOn i = some q) : k'.Lists q l :=
  ⟨h.linked.congr hq hnext, h.nodup, fun i => (h.mem_iff i).trans (hpark i).symm⟩

theorem Lists.disjoint (hl : k.Lists q l) (hm : k.Lists r m) (hqr : r ≠ q) : ∀ i ∈ l, i ∉ m := by
  intro i hi hi'
  have h := ((hm.mem_iff i).mp hi').symm.trans ((hl.mem_iff i).mp hi)
  exact hqr (some.inj h)

/-- A step that leaves the queues alone and touches no parked process keeps the
queues sound. -/
theorem QueuesSound.of_untouched (h : k.QueuesSound) (hqueues : k'.queues = k.queues)
    (hproc : ∀ i, k.parkedOn i ≠ none → k'.procs i = k.procs i)
    (hnot : ∀ i, k.parkedOn i = none → k'.parkedOn i = none) : k'.QueuesSound := by
  intro q
  obtain ⟨l, hl⟩ := h q
  have hpark : ∀ i, k'.parkedOn i = k.parkedOn i := by
    intro i
    by_cases hi : k.parkedOn i = none
    · rw [hi, hnot i hi]
    · exact parkedOn_congr (by rw [hproc i hi]) (by rw [hproc i hi])
  refine ⟨l, hl.congr (by rw [hqueues]) (fun i hi => ?_) fun i => by rw [hpark i]⟩
  have hne : k.parkedOn i ≠ none := by
    rw [(hl.mem_iff i).mp hi]
    exact some_ne_none q
  unfold waitNext
  rw [hproc i hne]

theorem QueuesSound.push {park : Park} (h : k.QueuesSound) (hp : k.parkedOn p = none)
    (hpark : park.queue = q) : ((k.wqPush q p).parkCurrent p park ret).QueuesSound := by
  have hself : ((k.wqPush q p).parkCurrent p park ret).parkedOn p = some q := by
    rw [parkedOn_parkCurrent_self, hpark]
  have hother : ∀ i, i ≠ p → ((k.wqPush q p).parkCurrent p park ret).parkedOn i = k.parkedOn i := by
    intro i hi
    rw [parkedOn_parkCurrent_of_ne hi, (wqPush_relinkedBy k q p).parkedOn i]
  obtain ⟨l, hl⟩ := h q
  have hpl : p ∉ l := fun hmem => by
    rw [(hl.mem_iff p).mp hmem] at hp
    cases hp
  intro r
  by_cases hr : r = q
  · subst hr
    have hlinked : ((k.wqPush r p).parkCurrent p park ret).Linked r (l ++ [p]) :=
      (hl.linked.push hpl).congr rfl fun i _ => waitNext_parkCurrent _ _ _ _ _
    refine ⟨l ++ [p], hlinked, hlinked.chain.nodup, fun i => ?_⟩
    by_cases hi : i = p
    · simp [hi, hself]
    · rw [hother i hi, ← hl.mem_iff i]
      simp [hi]
  obtain ⟨m, hm⟩ := h r
  have hpm : p ∉ m := fun hmem => by
    rw [(hm.mem_iff p).mp hmem] at hp
    cases hp
  have htail : ∀ t, (k.queues q).tail = some t → t ∉ m := by
    intro t ht
    rw [hl.linked.tail] at ht
    exact hl.disjoint hm hr t (mem_of_getLast? ht)
  have hlinked : ((k.wqPush q p).parkCurrent p park ret).Linked r m :=
    (hm.linked.push_other hr hpm htail).congr rfl fun i _ => waitNext_parkCurrent _ _ _ _ _
  refine ⟨m, hlinked, hm.nodup, fun i => ?_⟩
  by_cases hi : i = p
  · rw [hi, hself]
    exact ⟨fun hmem => absurd hmem hpm, fun e => absurd (some.inj e).symm hr⟩
  · rw [hother i hi]
    exact hm.mem_iff i

theorem QueuesSound.wake (h : k.QueuesSound) (hl : k.Lists q l) (hrel : k.RelinkedBy k')
    (hm : k'.Linked q m) (hmem : ∀ i, i ∈ m ↔ i ∈ l ∧ i ≠ p)
    (hother : ∀ r s, r ≠ q → k.Lists r s → k'.Linked r s) (hp : p ∈ l) :
    (k'.wakeLocked p kind ret).QueuesSound := by
  have hself : (k'.wakeLocked p kind ret).parkedOn p = none :=
    parkedOn_of_not_blocked (by rw [state_wakeLocked]; exact nofun)
  have hpark : ∀ i, i ≠ p → (k'.wakeLocked p kind ret).parkedOn i = k.parkedOn i := fun i hi => by
    rw [parkedOn_wakeLocked_of_ne hi, hrel.parkedOn i]
  have hnext : ∀ i, (k'.wakeLocked p kind ret).waitNext i = k'.waitNext i :=
    fun i => waitNext_wakeLocked _ _ _ _ _
  intro r
  by_cases hr : r = q
  · subst hr
    refine ⟨m, hm.congr rfl fun i _ => hnext i, hm.chain.nodup, fun i => ?_⟩
    by_cases hi : i = p
    · rw [hi, hself, hmem]
      simp
    · rw [hmem, hpark i hi, hl.mem_iff]
      simp [hi]
  obtain ⟨s, hs⟩ := h r
  have hps : p ∉ s := hl.disjoint hs hr p hp
  refine ⟨s, (hother r s hr hs).congr rfl fun i _ => hnext i, hs.nodup, fun i => ?_⟩
  by_cases hi : i = p
  · rw [hi, hself]
    simp [hps]
  · rw [hpark i hi]
    exact hs.mem_iff i

theorem Lists.blocked (h : k.Lists q l) (hp : p ∈ l) :
    (k.procs p).state = .blocked ∧ (k.procs p).park ≠ none := by
  have hpark := (h.mem_iff p).mp hp
  unfold parkedOn at hpark
  cases hp' : k.parked p with
  | none =>
    rw [hp'] at hpark
    cases hpark
  | some park =>
    obtain ⟨hstate, heq⟩ := parked_eq_some.mp hp'
    rw [heq]
    exact ⟨hstate, some_ne_none park⟩

theorem Lists.head_mem (h : k.Lists q l) (hhead : (k.queues q).head = some p) :
    ∃ m, l = p :: m := by
  have hchain := h.linked.chain
  rw [hhead] at hchain
  cases l with
  | nil => cases hchain
  | cons a m => exact ⟨m, by rw [some.inj hchain.1]⟩

theorem QueuesSound.popWake (h : k.QueuesSound) (hhead : (k.queues q).head = some p) :
    ((k.wqPop q p).wakeLocked p kind ret).QueuesSound := by
  obtain ⟨l, hl⟩ := h q
  obtain ⟨m, rfl⟩ := hl.head_mem hhead
  have hnd := nodup_cons.mp hl.nodup
  refine h.wake hl (wqPop_relinkedBy k q p) hl.linked.pop (fun i => ?_) (fun r s hr hs => ?_)
    mem_cons_self
  · rw [mem_cons]
    constructor
    · exact fun hi => ⟨.inr hi, fun e => hnd.1 (e ▸ hi)⟩
    · rintro ⟨hi | hi, hne⟩
      · exact absurd hi hne
      · exact hi
  · exact hs.linked.pop_other hr (hl.disjoint hs hr p mem_cons_self)

theorem QueuesSound.unlinkWake (h : k.QueuesSound) (hl : k.Lists q l) (hp : p ∈ l) :
    ((k.wqUnlink q p).wakeLocked p kind ret).QueuesSound := by
  obtain ⟨s, t, rfl⟩ := append_of_mem hp
  have hnd := hl.nodup
  rw [nodup_middle, nodup_cons] at hnd
  refine h.wake hl (wqUnlink_relinkedBy k q p) hl.linked.unlink (fun i => ?_)
    (fun r m hr hm => hl.linked.unlink_other hm.linked hr (hl.disjoint hm hr)) hp
  rw [mem_append, mem_append, mem_cons]
  constructor
  · intro hi
    refine ⟨hi.imp id .inr, fun e => hnd.1 ?_⟩
    rw [← e]
    exact mem_append.mpr hi
  · rintro ⟨hi | hi | hi, hne⟩
    · exact .inl hi
    · exact absurd hi hne
    · exact .inr hi

theorem Lists.firstBlocked_mem (h : k.Lists q l) (hp : k.firstBlocked q = some p) : p ∈ l := by
  have hfind := h.linked.chain.firstWhere_eq (fun i => (k.procs i).state = .blocked)
    (length_le_maxProcesses h.nodup)
  unfold firstBlocked at hp
  rw [hfind] at hp
  exact mem_of_find?_eq_some hp

end Kil0yOS.Core.Kernel
