/-
The pointers between `AF_UNIX` sockets, apart from what the sockets carry.

Whatever is called, peers point at each other, the bind table holds sockets that have a
file, and the backlogs hold sockets that have none, each of them once.
-/
import Kil0yOS.Lib.Tables
import Mathlib.Data.Set.Insert
import Kil0yOS.Unix.Transport

namespace Kil0yOS.Unix

open Lib List Function Option

structure Link where
  peer : Ptr
  pend : List Ptr
  state : SockState

def Sock.link (u : Sock) : Link := ⟨u.peer, u.pend, u.state⟩

abbrev Links := Ptr → Option Link

def State.links (s : State) : Links := fun k => (s.socks k).map Sock.link

abbrev BindTab := List (Option (UnixAddr × Ptr))

def there (L : Links) : Set Ptr := {k | L k ≠ none}

/-- The socket `p`, if it is there, has no peer any more. -/
def forget (L : Links) (p : Ptr) : Links :=
  update L p ((L p).map fun v => { v with peer := 0 })

/-- Where the sockets `A` are.  `Q` are the backlogs; `d` is a socket that is being closed, or
null. -/
structure Placed (d : Ptr) (Q : Ptr → List Ptr) (A : Set Ptr) (tab : BindTab) (fds : List Ptr) :
    Prop where
  null : 0 ∉ A
  apart : Apart Q
  waits : ∀ k c, c ∈ Q k → c ≠ d ∧ c ∉ fds ∧ c ∈ A ∧ Q c = []
  owner : ∀ k, k ∉ A → Q k = []
  bound : ∀ a k, some (a, k) ∈ tab → k ∈ fds
  filed : ∀ k ∈ fds, k ≠ d ∧ k ∈ A
  nodup : fds.Nodup

/-- What a socket says of itself is so. -/
def Fits (Q : Ptr → List Ptr) (k : Ptr) (u : Link) : Prop :=
  u.pend = Q k ∧ (u.state ≠ .connected → u.peer = 0)

def AllFit (d : Ptr) (Q : Ptr → List Ptr) (L : Links) : Prop :=
  ∀ k u, k ≠ d → L k = some u → Fits Q k u

/-- Peers point at each other, and nobody points at a socket that is being closed. -/
def Paired (d : Ptr) (L : Links) : Prop :=
  ∀ k u, k ≠ d → L k = some u → u.peer ≠ 0 → u.peer ≠ d ∧ ∃ v, L u.peer = some v ∧ v.peer = k

/-- The pointers are right, but for those of a socket `d` that is being closed. -/
structure Sane (d : Ptr) (Q : Ptr → List Ptr) (L : Links) (tab : BindTab) (fds : List Ptr) :
    Prop where
  placed : Placed d Q (there L) tab fds
  fits : AllFit d Q L
  paired : Paired d L

/-! ## Places -/

section Places

variable {Q : Ptr → List Ptr} {A : Set Ptr} {tab : BindTab} {fds cs : List Ptr} {k c d : Ptr}

namespace Placed

section

variable (h : Placed d Q A tab fds)
include h

theorem fresh (hc : c ∉ A) : (∀ l, c ∉ Q l) ∧ c ∉ fds := by
  constructor
  · intro l hmem
    exact hc (h.waits l c hmem).2.2.1
  · intro hmem
    exact hc (h.filed c hmem).2

theorem create (hc : c ≠ 0) : Placed d Q (insert c A) tab fds where
  __ := h
  null := fun hmem => hmem.elim (fun h0 => hc h0.symm) h.null
  waits := by
    intro k e he
    obtain ⟨hed, hef, heA, hnil⟩ := h.waits k e he
    exact ⟨hed, hef, .inr heA, hnil⟩
  owner := fun k hk => h.owner k fun hmem => hk (.inr hmem)
  filed := by
    intro k hk
    obtain ⟨hkd, hkA⟩ := h.filed k hk
    exact ⟨hkd, .inr hkA⟩

theorem enqueue (hk : k ∈ A) (hc : c ∈ A) (hfree : ∀ l, c ∉ Q l)
    (hfds : c ∉ fds) (hkfds : k ∈ fds) (hcd : c ≠ d) (hnil : Q c = []) :
    Placed d (update Q k (Q k ++ [c])) A tab fds where
  __ := h
  apart := h.apart.push hfree k
  waits := by
    -- nobody with a backlog waits, for `k` has a file
    have hck : c ≠ k := by
      rintro rfl
      exact hfds hkfds
    intro l e he
    have hold : e ∈ Q l ∨ e = c := by
      by_cases hl : l = k
      · subst hl
        rw [update_self, mem_append, mem_singleton] at he
        exact he
      · rw [update_of_ne hl] at he
        exact .inl he
    rcases hold with hold | rfl
    · obtain ⟨hed, hef, heA, henil⟩ := h.waits l e hold
      have hek : e ≠ k := by
        rintro rfl
        exact hef hkfds
      exact ⟨hed, hef, heA, by rw [update_of_ne hek, henil]⟩
    · exact ⟨hcd, hfds, hc, by rw [update_of_ne hck, hnil]⟩
  owner := by
    intro l hl
    have hlk : l ≠ k := by
      rintro rfl
      exact hl hk
    rw [update_of_ne hlk]
    exact h.owner l hl

theorem dequeue (hk : Q k = c :: cs) :
    Placed d (update Q k cs) A tab fds ∧ (∀ l, c ∉ update Q k cs l) ∧ c ≠ d ∧ c ∉ fds ∧ c ∈ A ∧
      c ≠ k ∧ update Q k cs c = [] := by
  obtain ⟨hapart, hfree⟩ := h.apart.pop hk
  obtain ⟨hcd, hcf, hcA, hnil⟩ := h.waits k c (by simp [hk])
  have hck : c ≠ k := by
    rintro rfl
    rw [hk] at hnil
    cases hnil
  have hne : ∀ l, Q l = [] → update Q k cs l = [] := by
    intro l hl
    by_cases hlk : l = k
    · rw [hlk, hk] at hl
      cases hl
    · rw [update_of_ne hlk, hl]
  refine ⟨⟨h.null, hapart, ?_, fun l hl => hne l (h.owner l hl), h.bound, h.filed, h.nodup⟩,
    hfree, hcd, hcf, hcA, hck, hne c hnil⟩
  intro l e he
  obtain ⟨hed, hef, heA, henil⟩ := h.waits l e (Apart.mem_of_mem_pop hk he)
  exact ⟨hed, hef, heA, hne e henil⟩

theorem free (hfree : ∀ l, c ∉ Q l) (hfds : c ∉ fds) (hnil : Q c = []) :
    Placed d Q (A \ {c}) tab fds where
  __ := h
  null := fun hmem => h.null hmem.1
  waits := by
    intro k e he
    obtain ⟨hed, hef, heA, henil⟩ := h.waits k e he
    exact ⟨hed, hef, ⟨heA, fun hec => hfree k (hec ▸ he)⟩, henil⟩
  owner := by
    intro k hk
    by_cases hkc : k = c
    · rw [hkc, hnil]
    · exact h.owner k fun hmem => hk ⟨hmem, hkc⟩
  filed := by
    intro k hk
    obtain ⟨hkd, hkA⟩ := h.filed k hk
    exact ⟨hkd, hkA, fun hkc => hfds (hkc ▸ hk)⟩

/-- A name is given to a socket with a file, or taken away. -/
theorem setName {n : Option (UnixAddr × Ptr)} (i : Nat)
    (hn : ∀ a k, n = some (a, k) → k ∈ fds) : Placed d Q A (tab.set i n) fds where
  __ := h
  bound := by
    intro a k hmem
    rcases mem_or_eq_of_mem_set hmem with hmem | heq
    · exact h.bound a k hmem
    · exact hn a k heq.symm

theorem closed (hnil : Q d = []) : Placed 0 Q (A \ {d}) tab fds := by
  have hopen : Placed 0 Q A tab fds :=
    { h with
      waits := fun k e he => ⟨fun h0 => h.null (h0 ▸ (h.waits k e he).2.2.1), (h.waits k e he).2⟩
      filed := fun k hk => ⟨fun h0 => h.null (h0 ▸ (h.filed k hk).2), (h.filed k hk).2⟩ }
  exact hopen.free (fun l hl => (h.waits l d hl).1 rfl) (fun hd => (h.filed d hd).1 rfl) hnil

end

theorem file (h : Placed 0 Q A tab fds) (hc : c ∈ A) (hfree : ∀ l, c ∉ Q l) (hfds : c ∉ fds) :
    Placed 0 Q A tab (c :: fds) where
  __ := h
  waits := by
    intro k e he
    obtain ⟨hed, hef, heA, henil⟩ := h.waits k e he
    have hec : e ≠ c := by
      rintro rfl
      exact hfree k he
    exact ⟨hed, fun hmem => (mem_cons.mp hmem).elim hec hef, heA, henil⟩
  bound := fun a k hmem => mem_cons_of_mem c (h.bound a k hmem)
  filed := by
    intro k hk
    rcases mem_cons.mp hk with rfl | hk
    · exact ⟨fun h0 => h.null (h0 ▸ hc), hc⟩
    · exact h.filed k hk
  nodup := nodup_cons.mpr ⟨hfds, h.nodup⟩

/-- A socket that is in no backlog loses its file and its name, to be closed. -/
theorem unfile (h : Placed 0 Q A tab fds) (hfree : ∀ l, c ∉ Q l) :
    Placed c Q A (tab.map fun n => n.filter fun b => b.2 ≠ c) (fds.erase c) where
  __ := h
  waits := by
    intro k e he
    obtain ⟨-, hef, heA, henil⟩ := h.waits k e he
    exact ⟨fun hec => hfree k (hec ▸ he), fun hmem => hef (mem_of_mem_erase hmem), heA, henil⟩
  bound := by
    intro a k hmem
    obtain ⟨n, hn, heq⟩ := mem_map.mp hmem
    obtain ⟨rfl, hkc⟩ := filter_eq_some_iff.mp heq
    exact (mem_erase_of_ne (of_decide_eq_true hkc)).mpr (h.bound a k hn)
  filed := by
    intro k hk
    obtain ⟨hkc, hk⟩ := (h.nodup.mem_erase_iff).mp hk
    exact ⟨hkc, (h.filed k hk).2⟩
  nodup := h.nodup.erase c

end Placed

end Places

/-! ## One socket -/

section Update

variable {L L' : Links} {Q : Ptr → List Ptr} {q : List Ptr} {k l d a b : Ptr} {u v w x : Link}

theorem mem_there : k ∈ there L ↔ ∃ u, L k = some u := Option.ne_none_iff_exists'

theorem links_cases (h : update L k (some v) l = some x) :
    (l = k ∧ x = v) ∨ (l ≠ k ∧ L l = some x) :=
  (update_cases h).imp_left fun hl => ⟨hl.1, (some.inj hl.2).symm⟩

theorem there_update (L : Links) (k : Ptr) (v : Link) :
    there (update L k (some v)) = insert k (there L) := by
  ext l
  by_cases hl : l = k
  all_goals simp [there, hl]

theorem there_update_of_some (hk : L k = some u) (v : Link) :
    there (update L k (some v)) = there L := by
  rw [there_update, Set.insert_eq_of_mem (mem_there.mpr ⟨u, hk⟩)]

theorem there_free (L : Links) (k : Ptr) : there (update L k none) = there L \ {k} := by
  ext l
  by_cases hl : l = k
  all_goals simp [there, hl]

section

variable (h : AllFit d Q L)
include h

theorem AllFit.update (hv : k ≠ d → Fits Q k v) :
    AllFit d Q (update L k (some v)) := by
  intro j x hj hx
  rcases links_cases hx with ⟨rfl, rfl⟩ | ⟨-, hx⟩
  · exact hv hj
  · exact h j x hj hx

theorem AllFit.update_pend (hk : L k = some u) (q : List Ptr) :
    AllFit d (Function.update Q k q) (Function.update L k (some { u with pend := q })) := by
  intro j x hj hx
  rcases links_cases hx with ⟨rfl, rfl⟩ | ⟨hjk, hx⟩
  · exact ⟨(update_self j q Q).symm, (h j u hj hk).2⟩
  · obtain ⟨hpend, hstate⟩ := h j x hj hx
    exact ⟨by rw [update_of_ne hjk, hpend], hstate⟩

theorem AllFit.update_closing (q : List Ptr) :
    AllFit d (Function.update Q d q) L := by
  intro j x hj hx
  obtain ⟨hpend, hstate⟩ := h j x hj hx
  exact ⟨by rw [update_of_ne hj, hpend], hstate⟩

theorem AllFit.free (k : Ptr) : AllFit d Q (Function.update L k none) := by
  intro j x hj hx
  exact h j x hj (update_none_eq_some hx).2

end

theorem Paired.update (h : Paired d L) (hk : L k = some u) (hpeer : v.peer = u.peer) :
    Paired d (update L k (some v)) := by
  have hold : ∀ j x, Function.update L k (some v) j = some x →
      ∃ y, L j = some y ∧ y.peer = x.peer := by
    intro j x hx
    rcases links_cases hx with ⟨rfl, rfl⟩ | ⟨-, hx⟩
    · exact ⟨u, hk, hpeer.symm⟩
    · exact ⟨x, hx, rfl⟩
  intro j x hj hx hne
  obtain ⟨y, hy, hyx⟩ := hold j x hx
  obtain ⟨hd, w, hw, hback⟩ := h j y hj hy (hyx ▸ hne)
  rw [hyx] at hd hw
  refine ⟨hd, ?_⟩
  by_cases hp : x.peer = k
  · rw [hp, hk, some.injEq] at hw
    exact ⟨v, by simp [hp], by rw [hpeer, hw, hback]⟩
  · exact ⟨w, by rw [update_of_ne hp, hw], hback⟩

theorem Paired.create (h : Paired d L) (hk : L k = none) (hv : v.peer = 0) :
    Paired d (Function.update L k (some v)) := by
  intro j x hj hx hne
  rcases links_cases hx with ⟨-, rfl⟩ | ⟨-, hx⟩
  · exact absurd hv hne
  obtain ⟨hd, w, hw, hback⟩ := h j x hj hx hne
  have hp : x.peer ≠ k := by
    intro hp
    rw [hp, hk] at hw
    cases hw
  exact ⟨hd, w, by rw [update_of_ne hp, hw], hback⟩

theorem Paired.join (h : Paired 0 L) (hab : a ≠ b) (ha : L a = some u) (hu : u.peer = 0)
    (hb : L b = some v) (hv : v.peer = 0) (ha0 : a ≠ 0) (hb0 : b ≠ 0) {u' v' : Link}
    (hu' : u'.peer = b) (hv' : v'.peer = a) :
    Paired 0 (Function.update (Function.update L b (some v')) a (some u')) := by
  -- nobody else has one of the two for a peer
  have hnobody : ∀ j x c z, j ≠ 0 → L j = some x → x.peer ≠ 0 → L c = some z → z.peer = 0 →
      x.peer ≠ c := by
    intro j x c z hj hx hne hc hz hxc
    obtain ⟨-, w, hw, hback⟩ := h j x hj hx hne
    rw [hxc, hc, some.injEq] at hw
    rw [← hw, hz] at hback
    exact hj hback.symm
  intro j x hj hx hne
  rcases links_cases hx with ⟨rfl, rfl⟩ | ⟨hja, hx⟩
  · refine ⟨hne, v', ?_, hv'⟩
    simp [hu', update_of_ne hab.symm]
  rcases links_cases hx with ⟨rfl, rfl⟩ | ⟨hjb, hx⟩
  · refine ⟨hne, u', ?_, hu'⟩
    simp [hv']
  obtain ⟨-, w, hw, hback⟩ := h j x hj hx hne
  refine ⟨hne, w, ?_, hback⟩
  rw [update_of_ne (hnobody j x a u hj hx hne ha hu),
    update_of_ne (hnobody j x b v hj hx hne hb hv), hw]

theorem forget_cases (h : forget L k l = some x) :
    (l = k ∧ ∃ v, L k = some v ∧ x = { v with peer := 0 }) ∨ (l ≠ k ∧ L l = some x) := by
  by_cases hl : l = k
  · rw [forget, hl, update_self, map_eq_some_iff] at h
    obtain ⟨v, hv, hx⟩ := h
    exact .inl ⟨hl, v, hv, hx.symm⟩
  · rw [forget, update_of_ne hl] at h
    exact .inr ⟨hl, h⟩

theorem there_forget (L : Links) (p : Ptr) : there (forget L p) = there L := by
  ext l
  by_cases hl : l = p
  all_goals simp [there, forget, hl]

theorem AllFit.forget (h : AllFit d Q L) (p : Ptr) : AllFit d Q (forget L p) := by
  intro j x hj hx
  rcases forget_cases hx with ⟨rfl, v, hv, rfl⟩ | ⟨-, hx⟩
  · exact ⟨(h j v hj hv).1, fun _ => rfl⟩
  · exact h j x hj hx

/-- When the peer of `k` has forgotten it, nobody else points at `k`. -/
theorem Paired.forget (h : Paired d L) (hk : L k = some u) (hkd : k ≠ d) {j : Ptr}
    (hjd : j ≠ d) (hjk : j ≠ k) (hj : forget L u.peer j = some x) (hne : x.peer ≠ 0) :
    x.peer ≠ d ∧ x.peer ≠ k ∧ ∃ w, Unix.forget L u.peer x.peer = some w ∧ w.peer = j := by
  rcases forget_cases hj with ⟨-, v, -, rfl⟩ | ⟨hju, hj⟩
  · exact absurd rfl hne
  obtain ⟨hxd, w, hw, hback⟩ := h j x hjd hj hne
  have hxk : x.peer ≠ k := by
    intro hxk
    rw [hxk, hk, some.injEq] at hw
    exact hju (by rw [hw, hback])
  -- two sockets with one peer would be one socket
  have hxu : x.peer ≠ u.peer := by
    intro hxu
    obtain ⟨-, w', hw', hback'⟩ := h k u hkd hk (hxu ▸ hne)
    rw [← hxu, hw, some.injEq] at hw'
    exact hjk (by rw [← hback, hw', hback'])
  exact ⟨hxd, hxk, w, by rw [Unix.forget, update_of_ne hxu, hw], hback⟩

/-- Sockets of `L` may be gone, and may have lost their peer. -/
def Loosened (L L' : Links) : Prop := ∀ j x, L' j = some x → x.peer = 0 ∨ L j = some x

theorem loosened_forget (L : Links) (p : Ptr) : Loosened L (forget L p) := by
  intro j x hx
  rcases forget_cases hx with ⟨-, v, -, rfl⟩ | ⟨-, hx⟩
  · exact .inl rfl
  · exact .inr hx

theorem Loosened.free (h : Loosened L L') (k : Ptr) : Loosened L (update L' k none) :=
  fun j x hx => h j x (update_none_eq_some hx).2

theorem Loosened.trans {L'' : Links} (h : Loosened L L') (h' : Loosened L' L'') : Loosened L L'' :=
  fun j x hx => (h' j x hx).elim .inl (h j x)

end Update

/-! ## The pointers -/

namespace Sane

variable {L : Links} {Q : Ptr → List Ptr} {tab : BindTab} {fds cs : List Ptr} {k l c d : Ptr}
  {u v w : Link}

section

variable (h : Sane d Q L tab fds)
include h

theorem ne_null (hk : L k = some u) : k ≠ 0 := by
  rintro rfl
  exact h.placed.null (mem_there.mpr ⟨u, hk⟩)

theorem ne_null_of_forget {p : Ptr} (hk : forget L p k = some u) :
    k ≠ 0 := by
  rintro rfl
  have hmem : (0 : Ptr) ∈ there (forget L p) := mem_there.mpr ⟨u, hk⟩
  rw [there_forget] at hmem
  exact h.placed.null hmem

theorem create (hk : L k = none) (hne : k ≠ 0) :
    Sane d Q (update L k (some ⟨0, [], .idle⟩)) tab fds where
  placed := by
    rw [there_update]
    exact h.placed.create hne
  fits := h.fits.update fun _ => ⟨(h.placed.owner k fun hmem => hmem hk).symm, fun _ => rfl⟩
  paired := h.paired.create hk rfl

end

section

variable (h : Sane 0 Q L tab fds)
include h

theorem restate (hk : L k = some u) (hpeer : u.peer = 0)
    (st : SockState) : Sane 0 Q (update L k (some { u with state := st })) tab fds where
  placed := by
    rw [there_update_of_some hk]
    exact h.placed
  fits := h.fits.update fun hk0 => ⟨(h.fits k u hk0 hk).1, fun _ => hpeer⟩
  paired := h.paired.update hk rfl

theorem join (hkl : k ≠ l) (hk : L k = some u) (hu : u.peer = 0)
    (hl : L l = some v) (hv : v.peer = 0) :
    Sane 0 Q (update (update L l (some ⟨k, v.pend, .connected⟩)) k
      (some ⟨l, u.pend, .connected⟩)) tab fds where
  placed := by
    have hk' : update L l (some ⟨k, v.pend, .connected⟩) k = some u := by
      rw [update_of_ne hkl, hk]
    rw [there_update_of_some hk', there_update_of_some hl]
    exact h.placed
  fits := by
    have hfits : AllFit 0 Q (update L l (some ⟨k, v.pend, .connected⟩)) :=
      h.fits.update fun hl0 => ⟨(h.fits l v hl0 hl).1, fun hne => absurd rfl hne⟩
    exact hfits.update fun hk0 => ⟨(h.fits k u hk0 hk).1, fun hne => absurd rfl hne⟩
  paired := h.paired.join hkl hk hu hl hv (h.ne_null hk) (h.ne_null hl) rfl rfl

theorem enqueue (hk : L k = some u) (hkfds : k ∈ fds)
    (hc : L c = some v) (hfree : ∀ l, c ∉ Q l) (hfds : c ∉ fds) (hnil : v.pend = []) :
    ∃ Q', Sane 0 Q' (update L k (some { u with pend := u.pend ++ [c] })) tab fds := by
  have hc0 := h.ne_null hc
  have hcnil : Q c = [] := by rw [← (h.fits c v hc0 hc).1, hnil]
  have hpend : u.pend = Q k := (h.fits k u (h.ne_null hk) hk).1
  refine ⟨update Q k (Q k ++ [c]), ?_, ?_, ?_⟩
  · rw [there_update_of_some hk]
    exact h.placed.enqueue (mem_there.mpr ⟨u, hk⟩) (mem_there.mpr ⟨v, hc⟩) hfree hfds hkfds hc0 hcnil
  · rw [hpend]
    exact h.fits.update_pend hk (Q k ++ [c])
  · exact h.paired.update hk rfl

theorem dequeue (hk : L k = some u) (hpend : u.pend = c :: cs) :
    ∃ Q', Sane 0 Q' (update L k (some { u with pend := cs })) tab fds ∧ (∀ l, c ∉ Q' l) ∧
      c ∉ fds ∧ c ≠ k ∧ ∃ v, L c = some v := by
  have hQ : Q k = c :: cs := by rw [← (h.fits k u (h.ne_null hk) hk).1, hpend]
  obtain ⟨hplaced, hfree, -, hfds, hmem, hck, -⟩ := h.placed.dequeue hQ
  refine ⟨update Q k cs, ⟨?_, h.fits.update_pend hk cs, h.paired.update hk rfl⟩, hfree, hfds, hck,
    mem_there.mp hmem⟩
  rw [there_update_of_some hk]
  exact hplaced

theorem file (hc : L c = some v) (hfree : ∀ l, c ∉ Q l)
    (hfds : c ∉ fds) : Sane 0 Q L tab (c :: fds) :=
  ⟨h.placed.file (mem_there.mpr ⟨v, hc⟩) hfree hfds, h.fits, h.paired⟩

end

theorem setName (h : Sane d Q L tab fds) (i : Nat)
    (hn : ∀ a k, n = some (a, k) → k ∈ fds) : Sane d Q L (tab.set i n) fds :=
  ⟨h.placed.setName i hn, h.fits, h.paired⟩

/-! Closing a socket: its peer forgets it, its backlog is refused, it is freed. -/

theorem unlink (h : Sane 0 Q L tab fds) (hk : L k = some u) (hfree : ∀ l, k ∉ Q l) :
    Sane k Q (forget L u.peer) (tab.map fun n => n.filter fun b => b.2 ≠ k) (fds.erase k) where
  placed := by
    rw [there_forget]
    exact h.placed.unfile hfree
  fits := by
    intro j x _ hx
    have hj : j ≠ 0 := h.ne_null_of_forget hx
    exact h.fits.forget u.peer j x hj hx
  paired := by
    intro j x hjk hx hne
    have hj : j ≠ 0 := h.ne_null_of_forget hx
    obtain ⟨-, hxk, hback⟩ := h.paired.forget hk (h.ne_null hk) hj hjk hx hne
    exact ⟨hxk, hback⟩

theorem refuse (h : Sane d Q L tab fds) (hQ : Q d = c :: cs) :
    ∃ v, L c = some v ∧ c ≠ d ∧
      Sane d (update Q d cs) (update (forget L v.peer) c none) tab fds := by
  obtain ⟨hplaced, hfree, hcd, hfds, hmem, -, hnil⟩ := h.placed.dequeue hQ
  obtain ⟨v, hv⟩ := mem_there.mp hmem
  refine ⟨v, hv, hcd, ?_, ?_, ?_⟩
  · rw [there_free, there_forget]
    exact hplaced.free hfree hfds hnil
  · exact ((h.fits.update_closing cs).forget v.peer).free c
  intro j x hjd hx hne
  obtain ⟨hjc, hx⟩ := update_none_eq_some hx
  obtain ⟨hxd, hxc, w, hw, hback⟩ := h.paired.forget hv hcd hjd hjc hx hne
  exact ⟨hxd, w, by rw [update_of_ne hxc, hw], hback⟩

theorem free (h : Sane d Q L tab fds) (hQ : Q d = []) : Sane 0 Q (update L d none) tab fds where
  placed := by
    rw [there_free]
    exact h.placed.closed hQ
  fits := by
    intro j x _ hx
    obtain ⟨hjd, hx⟩ := update_none_eq_some hx
    exact h.fits j x hjd hx
  paired := by
    intro j x _ hx hne
    obtain ⟨hjd, hx⟩ := update_none_eq_some hx
    obtain ⟨hxd, w, hw, hback⟩ := h.paired j x hjd hx hne
    exact ⟨hne, w, by rw [update_of_ne hxd, hw], hback⟩

end Sane

end Kil0yOS.Unix
