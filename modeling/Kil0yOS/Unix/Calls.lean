/-
The calls on `AF_UNIX` sockets: no one of them goes through a dangling pointer, and what each
leaves of the pointers and of the receive buffers.
-/
import Kil0yOS.Lib.Returns
import Kil0yOS.Unix.Links

namespace Kil0yOS.Unix

open State Option Function Lib List

structure Box where
  type : SockType
  rx : Rx

def Sock.box (u : Sock) : Box := ⟨u.type, u.rx⟩

namespace State

def boxes (s : State) : Ptr → Option Box := fun k => (s.socks k).map Sock.box

def put (s : State) (k : Ptr) (u : Option Sock) : State := { s with socks := update s.socks k u }

/-- The pointers are right, with the backlogs `Q` and files for `fds`. -/
def Sane (s : State) (d : Ptr) (Q : Ptr → List Ptr) (fds : List Ptr) : Prop :=
  Unix.Sane d Q s.links s.bindTab fds

def Sound (s : State) (fds : List Ptr) : Prop := ∃ Q, s.Sane 0 Q fds

variable {s : State} {k : Ptr} {u v : Sock}

theorem links_put (s : State) (k : Ptr) (u : Option Sock) :
    (s.put k u).links = update s.links k (u.map Sock.link) := by
  funext l
  by_cases hl : l = k
  all_goals simp [links, put, hl]

theorem boxes_put (s : State) (k : Ptr) (u : Option Sock) :
    (s.put k u).boxes = update s.boxes k (u.map Sock.box) := by
  funext l
  by_cases hl : l = k
  all_goals simp [boxes, put, hl]

theorem links_put_of_link (hk : s.socks k = some u) (h : v.link = u.link) :
    (s.put k (some v)).links = s.links := by
  rw [links_put, map_some, h, ← map_some, ← hk]
  exact update_eq_self k s.links

theorem boxes_put_of_box (hk : s.socks k = some u) (h : v.box = u.box) :
    (s.put k (some v)).boxes = s.boxes := by
  rw [boxes_put, map_some, h, ← map_some, ← hk]
  exact update_eq_self k s.boxes

theorem socks_put_self (s : State) (k : Ptr) (u : Option Sock) : (s.put k u).socks k = u := by
  simp [put]

theorem socks_put_of_ne {l : Ptr} (h : l ≠ k) (s : State) (u : Option Sock) :
    (s.put k u).socks l = s.socks l := by
  simp [put, h]

theorem links_of_socks (h : s.socks k = some u) : s.links k = some u.link := by
  rw [links, h, map_some]

theorem boxes_of_socks (h : s.socks k = some u) : s.boxes k = some u.box := by
  rw [boxes, h, map_some]

theorem socks_of_links {x : Link} (h : s.links k = some x) : ∃ u, s.socks k = some u ∧ u.link = x :=
  map_eq_some_iff.mp h

theorem socks_of_boxes {x : Box} (h : s.boxes k = some x) : ∃ u, s.socks k = some u ∧ u.box = x :=
  map_eq_some_iff.mp h

end State

section Rules

variable {α : Type} {s : State} {k : Ptr} {u : Sock} {f : Sock → M α} {R : α → State → Prop}

theorem returns_sockAt_bind (hk : s.socks k = some u) :
    Returns (sockAt k >>= f) s R ↔ Returns (f u) s R := by
  have hrun : sockAt k s = some (u, s) := by
    unfold sockAt
    rw [hk]
  constructor
  · intro h
    obtain ⟨a, t, hx, hR⟩ := h
    refine ⟨a, t, ?_, hR⟩
    change (sockAt k s).bind (fun p => f p.1 p.2) = some (a, t) at hx
    rw [hrun] at hx
    exact hx
  · exact fun h => returns_bind_of_some hrun h

theorem returns_setSock_bind {f : PUnit → M α} :
    Returns (setSock k u >>= f) s R ↔ Returns (f ⟨⟩) (s.put k (some u)) R := Iff.rfl

theorem returns_setSock {R : PUnit → State → Prop} :
    Returns (setSock k u) s R ↔ R ⟨⟩ (s.put k (some u)) := returns_modify

theorem returns_kfree {R : PUnit → State → Prop} :
    Returns (kfree k) s R ↔ R ⟨⟩ (s.put k none) := returns_modify

end Rules

/-! ## Creating and closing -/

section Lifecycle

variable {s : State} {Q : Ptr → List Ptr} {fds : List Ptr} {k d : Ptr} {u : Sock}

theorem unixSocketCreate_returns (type : SockType) (mem : Option Ptr) (s : State) :
    Returns (unixSocketCreate type mem) s fun k t =>
      (k = 0 ∧ t = s) ∨
        (k ≠ 0 ∧ mem = some k ∧ s.socks k = none ∧ t = s.put k (some { type := type })) := by
  unfold unixSocketCreate
  rw [returns_get_bind]
  cases mem with
  | none => exact .pure (.inl ⟨rfl, rfl⟩)
  | some a =>
    dsimp only
    split
    · exact .pure (.inl ⟨rfl, rfl⟩)
    rename_i hfree
    rw [not_or, not_isSome_iff_eq_none] at hfree
    exact .pure (.inr ⟨hfree.1, rfl, hfree.2, rfl⟩)

theorem State.Sane.of_put {v : Option Sock}
    (h : Unix.Sane d Q (update s.links k (v.map Sock.link)) s.bindTab fds) :
    (s.put k v).Sane d Q fds := by
  unfold State.Sane
  rw [links_put]
  exact h

theorem State.Sane.create (h : s.Sane 0 Q fds) (hk : s.socks k = none) (hne : k ≠ 0)
    (type : SockType) : (s.put k (some { type := type })).Sane 0 Q fds :=
  .of_put (Unix.Sane.create h (by rw [links, hk, map_none]) hne)

theorem orphan_returns {p : Ptr} {f : Sock → Sock} {g : Box → Box} (hnull : s.socks 0 = none)
    (hp : p ≠ 0 → ∃ v, s.socks p = some v) (hlink : ∀ v, (f v).link = v.link)
    (hbox : ∀ v, (f v).box = g v.box) :
    Returns (orphan p f) s fun _ t =>
      t.links = forget s.links p ∧ t.bindTab = s.bindTab ∧
        t.boxes = update s.boxes p ((s.boxes p).map g) := by
  unfold orphan
  by_cases h0 : p = 0
  · rw [if_neg (not_not.mpr h0), returns_pure]
    have hlinks : s.links p = none := by rw [h0, links, hnull, map_none]
    have hboxes : s.boxes p = none := by rw [h0, boxes, hnull, map_none]
    refine ⟨?_, rfl, ?_⟩
    · rw [forget, hlinks, map_none, ← hlinks, update_eq_self]
    · rw [hboxes, map_none, ← hboxes, update_eq_self]
  obtain ⟨v, hv⟩ := hp h0
  rw [if_pos h0, returns_sockAt_bind hv, returns_setSock]
  refine ⟨?_, rfl, ?_⟩
  · rw [links_put, forget, links_of_socks hv, map_some, hlink]
    rfl
  · rw [boxes_put, boxes_of_socks hv, map_some, hbox]
    rfl

theorem State.Sane.ne_null (h : s.Sane d Q fds) (hk : s.socks k = some u) : k ≠ 0 :=
  Unix.Sane.ne_null h (links_of_socks hk)

theorem State.Sane.null (h : s.Sane d Q fds) : s.socks 0 = none := by
  cases h0 : s.socks 0 with
  | none => rfl
  | some v => exact absurd rfl (h.ne_null h0)

theorem State.Sane.peer (h : s.Sane d Q fds) (hk : s.socks k = some u) (hkd : k ≠ d)
    (hne : u.peer ≠ 0) : ∃ v, s.socks u.peer = some v := by
  obtain ⟨-, x, hx, -⟩ := Unix.Sane.paired h k _ hkd (links_of_socks hk) hne
  obtain ⟨v, hv, -⟩ := socks_of_links hx
  exact ⟨v, hv⟩

theorem refuse_returns {cs : List Ptr} (h : s.Sane d Q fds) (hQ : Q d = cs) :
    Returns (refuse cs) s fun _ t =>
      (∃ Q', t.Sane d Q' fds ∧ Q' d = [] ∧ ∀ l, Q' l ⊆ Q l) ∧ Loosened s.links t.links ∧
        ∀ j, t.boxes j = if j ∈ cs then none else s.boxes j := by
  induction cs generalizing s Q with
  | nil =>
    exact .pure ⟨⟨Q, h, hQ, fun l => List.Subset.refl _⟩, fun _ _ hx => .inr hx, fun j => by simp⟩
  | cons c cs ih =>
    obtain ⟨x, hx, hcd, hsane⟩ := Unix.Sane.refuse h hQ
    obtain ⟨v, hv, rfl⟩ := socks_of_links hx
    have hc0 : c ≠ 0 := Unix.Sane.ne_null h hx
    rw [refuse, if_pos hc0, returns_sockAt_bind hv]
    refine .bind (orphan_returns h.null (h.peer hv hcd) (g := id) (fun _ => rfl)
      fun _ => rfl) fun _ t ht => ?_
    obtain ⟨hlinks, htab, hboxes⟩ := ht
    have hsane' : (t.put c none).Sane d (update Q d cs) fds := by
      unfold State.Sane
      rw [links_put, hlinks]
      show Unix.Sane d (update Q d cs) _ t.bindTab fds
      rw [htab]
      exact hsane
    refine (ih hsane' (update_self d cs Q)).mono fun _ t' ht' => ?_
    obtain ⟨⟨Q', hQ', hnil, hsub⟩, hloose, hrest⟩ := ht'
    rw [links_put, hlinks] at hloose
    refine ⟨⟨Q', hQ', hnil, fun l e he => Lib.Apart.mem_of_mem_pop hQ (hsub l he)⟩,
      ((loosened_forget s.links v.peer).free c).trans hloose, fun j => ?_⟩
    rw [hrest j, boxes_put, hboxes]
    by_cases hjc : j = c
    · simp [hjc]
    · simp [hjc]

/-- What is left of the receive buffers when the socket `k` is closed. -/
def Box.scrub (k : Ptr) (b : Box) : Box :=
  if b.type = .stream ∨ b.rx.msgCnt = 0 then b
  else { b with rx := Rx.scrubLoop k b.rx.msgCnt 0 b.rx }

def closeBoxes (B : Ptr → Option Box) (k : Ptr) (u : Sock) : Ptr → Option Box := fun j =>
  if j = k ∨ j ∈ u.pend then none
  else if j = u.peer then (B j).map (.scrub k)
  else B j

theorem box_scrubRingSrc (v : Sock) (k : Ptr) : (scrubRingSrc v k).box = v.box.scrub k := by
  simp only [scrubRingSrc, Box.scrub, apply_ite Sock.box]
  rfl

theorem link_scrubRingSrc (v : Sock) (k : Ptr) : (scrubRingSrc v k).link = v.link := by
  simp only [scrubRingSrc, apply_ite Sock.link]
  exact ite_self _

theorem unixSockClose_returns (h : s.Sane 0 Q fds) (hk : s.socks k = some u)
    (hfree : ∀ l, k ∉ Q l) :
    Returns (unixSockClose k) s fun _ t =>
      (∃ Q', t.Sane 0 Q' (fds.erase k) ∧ ∀ l, Q' l ⊆ Q l) ∧ Loosened s.links t.links ∧
        t.boxes = closeBoxes s.boxes k u := by
  have hk0 := h.ne_null hk
  have hpend : Q k = u.pend := ((Unix.Sane.fits h) k u.link hk0 (links_of_socks hk)).1.symm
  have hunlink := Unix.Sane.unlink h (links_of_socks hk) hfree
  unfold unixSockClose
  rw [returns_sockAt_bind hk, returns_modify_bind]
  refine .bind (orphan_returns h.null (h.peer hk hk0) (fun v => link_scrubRingSrc v k)
    fun v => box_scrubRingSrc v k) fun _ t ht => ?_
  obtain ⟨hlinks, htab, hboxes⟩ := ht
  have hsane : t.Sane k Q (fds.erase k) := by
    unfold State.Sane
    rw [hlinks, htab]
    exact hunlink
  refine .bind (refuse_returns hsane hpend) fun _ t' ht' => ?_
  obtain ⟨⟨Q', hQ', hnil, hsub⟩, hloose, hrest⟩ := ht'
  rw [returns_kfree]
  refine ⟨⟨Q', .of_put (Unix.Sane.free hQ' hnil), hsub⟩, ?_, ?_⟩
  · rw [hlinks] at hloose
    rw [links_put]
    exact ((loosened_forget s.links u.peer).trans hloose).free k
  funext j
  rw [boxes_put, closeBoxes]
  by_cases hjk : j = k
  · simp [hjk]
  rw [update_of_ne hjk, hrest j, hboxes]
  by_cases hjp : j = u.peer
  · subst hjp
    simp [hjk, boxes]
  · simp [hjk, hjp, boxes]

end Lifecycle

/-! ## Names and connections -/

section Connections

variable {s : State} {Q : Ptr → List Ptr} {fds : List Ptr} {k : Ptr} {u : Sock}

theorem State.Sane.sound (h : s.Sane 0 Q fds) : s.Sound fds := ⟨Q, h⟩

/-- What keeps pointers and receive buffers right. -/
def Keeps (s : State) (fds : List Ptr) (t : State) : Prop := t.Sound fds ∧ t.boxes = s.boxes

section

variable (h : s.Sane 0 Q fds)
include h

theorem keeps_self : Keeps s fds s := ⟨h.sound, rfl⟩

theorem unixBind_returns (hk : s.socks k = some u) (hfds : k ∈ fds) (addr : UnixAddr) :
    Returns (unixBind k addr) s fun _ t => Keeps s fds t := by
  unfold unixBind
  rw [returns_sockAt_bind hk, returns_get_bind]
  cases u.bindSlot s.bindTab addr with
  | error r => exact .pure (keeps_self h)
  | ok i =>
    rw [returns_modify_bind, returns_setSock_bind, returns_pure]
    have hset : Unix.Sane 0 Q s.links (s.bindTab.set i (some (addr, k))) fds := by
      apply Unix.Sane.setName h
      intro a l heq
      cases heq
      exact hfds
    have hk' : socks { s with bindTab := s.bindTab.set i (some (addr, k)) } k = some u := hk
    constructor
    · refine ⟨Q, ?_⟩
      unfold State.Sane
      rw [links_put_of_link (v := { u with name := some addr }) hk' rfl]
      exact hset
    · exact boxes_put_of_box hk' rfl

theorem unixUnlinkPath_returns (path : List UInt8) :
    Returns (unixUnlinkPath path) s fun _ t => Keeps s fds t := by
  unfold unixUnlinkPath
  rw [returns_get_bind]
  split
  · exact .pure (keeps_self h)
  cases hi : s.bindTab.findIdx? fun n => n.any fun b => b.1 = ⟨false, path⟩ with
  | none => exact .pure (keeps_self h)
  | some i =>
    rw [returns_modify_bind, returns_pure]
    exact ⟨⟨Q, Unix.Sane.setName h i fun a k heq => absurd heq (some_ne_none _).symm⟩, rfl⟩

theorem State.Sane.unlinked (hk : s.socks k = some u) (hstate : u.state ≠ .connected) :
    u.peer = 0 :=
  (Unix.Sane.fits h k u.link (h.ne_null hk) (links_of_socks hk)).2 hstate

theorem unixListen_returns (hk : s.socks k = some u) (backlog : Int) :
    Returns (unixListen k backlog) s fun _ t => Keeps s fds t := by
  unfold unixListen
  rw [returns_sockAt_bind hk]
  cases hv : u.listen backlog with
  | error r => exact .pure (keeps_self h)
  | ok v =>
    obtain ⟨hidle, b, rfl⟩ := SockCore.listen_eq_ok hv
    have hpeer : u.peer = 0 := h.unlinked hk (by simp [hidle])
    rw [returns_setSock_bind, returns_pure]
    exact ⟨⟨Q, .of_put (Unix.Sane.restate h (links_of_socks hk) hpeer .listening)⟩,
      boxes_put_of_box hk rfl⟩

theorem State.Sane.bindFind {addr : UnixAddr} {l : Ptr} (hfind : bindFind s.bindTab addr = some l) :
    l ∈ fds :=
  (Unix.Sane.placed h).bound addr l (bindFind_mem hfind)

theorem State.Sane.filed (hk : k ∈ fds) : ∃ u, s.socks k = some u := by
  obtain ⟨x, hx⟩ := mem_there.mp ((Unix.Sane.placed h).filed k hk).2
  obtain ⟨u, hu, -⟩ := socks_of_links hx
  exact ⟨u, hu⟩

/-- A new socket is connected and waits to be accepted. -/
theorem unixLink_returns {l c : Ptr} {type : SockType} (hl : l ∈ fds) (hu : s.socks k = some u)
    (hpeer : u.peer = 0) (hc : s.socks c = none) (hc0 : c ≠ 0) :
    Returns (unixLink k l c) (s.put c (some { type := type })) fun _ t =>
      t.Sound fds ∧ t.boxes = update s.boxes c (some ⟨type, {}⟩) := by
  have hkc : k ≠ c := by
    rintro rfl
    rw [hc] at hu
    cases hu
  obtain ⟨lsn, hlsn⟩ := h.filed hl
  have hlc : l ≠ c := by
    rintro rfl
    rw [hc] at hlsn
    cases hlsn
  have hc' : s.links c = none := by rw [links, hc, map_none]
  obtain ⟨hfree, hcfds⟩ := (Unix.Sane.placed h).fresh fun hmem => hmem hc'
  unfold unixLink
  rw [returns_sockAt_bind (by rw [socks_put_of_ne hlc, hlsn]),
    returns_sockAt_bind (socks_put_self s c _), returns_setSock_bind,
    returns_sockAt_bind (by rw [socks_put_of_ne hkc, socks_put_of_ne hkc, hu]),
    returns_setSock_bind]
  -- client and child are peers
  have hjoin := Unix.Sane.join (Unix.Sane.create h hc' hc0) hkc
    (by rw [update_of_ne hkc]; exact links_of_socks hu) hpeer
    (update_self c _ s.links) rfl
  obtain ⟨t, ht⟩ : ∃ t, t = ((s.put c (some { type := type })).put c
      (some { type := type, state := .connected, peer := k, name := lsn.name })).put k
      (some { u with peer := c, state := .connected }) := ⟨_, rfl⟩
  have hsane : t.Sane 0 Q fds := by
    unfold State.Sane
    rw [ht, links_put, links_put, links_put]
    exact hjoin
  have hboxes : t.boxes = update s.boxes c (some ⟨type, {}⟩) := by
    have hku : ((s.put c (some { type := type })).put c
        (some { type := type, state := .connected, peer := k, name := lsn.name })).socks k =
          some u := by
      simp [socks_put_of_ne hkc, hu]
    rw [ht]
    refine Eq.trans (boxes_put_of_box hku rfl) ?_
    rw [boxes_put, boxes_put, update_idem]
    rfl
  have hchild : t.socks c =
      some { type := type, state := .connected, peer := k, name := lsn.name } := by
    rw [ht, socks_put_of_ne hkc.symm, socks_put_self]
  rw [← ht]
  -- the child is at the end of the backlog
  obtain ⟨lsn', hlsn'⟩ := hsane.filed hl
  rw [returns_sockAt_bind hlsn', returns_setSock]
  obtain ⟨Q', hQ'⟩ := Unix.Sane.enqueue hsane (links_of_socks hlsn') hl
    (links_of_socks hchild) hfree hcfds rfl
  refine ⟨⟨Q', .of_put hQ'⟩, ?_⟩
  rw [← hboxes]
  exact boxes_put_of_box hlsn' rfl

theorem unixConnect_returns (hu : s.socks k = some u) (addr : UnixAddr) (mem : Option Ptr) :
    Returns (unixConnect k addr mem) s fun r t =>
      (r ≠ 0 ∧ t = s) ∨
        (r = 0 ∧ t.Sound fds ∧ ∃ c type, mem = some c ∧ s.socks c = none ∧
          t.boxes = update s.boxes c (some ⟨type, {}⟩)) := by
  unfold unixConnect
  rw [returns_sockAt_bind hu]
  split
  · exact .pure (.inl ⟨by decide, rfl⟩)
  rename_i hidle
  split
  · exact .pure (.inl ⟨by decide, rfl⟩)
  rw [returns_get_bind]
  cases hfind : bindFind s.bindTab addr with
  | none => exact .pure (.inl ⟨by decide, rfl⟩)
  | some l =>
    have hl := h.bindFind hfind
    obtain ⟨lsn, hlsn⟩ := h.filed hl
    rw [returns_sockAt_bind hlsn]
    split
    · exact .pure (.inl ⟨by decide, rfl⟩)
    split
    · exact .pure (.inl ⟨by decide, rfl⟩)
    refine .bind (unixSocketCreate_returns lsn.type mem s) fun c t ht => ?_
    rcases ht with ⟨rfl, rfl⟩ | ⟨hc0, hmem, hfree, rfl⟩
    · exact .pure (.inl ⟨by decide, rfl⟩)
    rw [if_neg hc0]
    refine .bind (unixLink_returns h hl hu (h.unlinked hu hidle) hfree hc0) fun _ t ht => ?_
    exact .pure (.inr ⟨rfl, ht.1, c, lsn.type, hmem, hfree, ht.2⟩)

theorem unixAccept_returns (hu : s.socks k = some u) :
    Returns (unixAccept k) s fun c t =>
      (c = 0 ∧ t = s) ∨
        (c ≠ 0 ∧ t.boxes = s.boxes ∧ c ∉ fds ∧
          ∃ Q' v, t.Sane 0 Q' fds ∧ (∀ l, c ∉ Q' l) ∧ t.socks c = some v) := by
  unfold unixAccept
  rw [returns_sockAt_bind hu]
  split
  · exact .pure (.inl ⟨rfl, rfl⟩)
  cases hpend : u.pend with
  | nil => exact .pure (.inl ⟨rfl, rfl⟩)
  | cons c cs =>
    have hpend' : u.link.pend = c :: cs := hpend
    obtain ⟨Q', hQ', hfree, hfds, hck, x, hx⟩ :=
      Unix.Sane.dequeue h (links_of_socks hu) hpend'
    obtain ⟨v, hv, -⟩ := socks_of_links hx
    rw [returns_setSock_bind, returns_pure]
    refine .inr ⟨Unix.Sane.ne_null h hx, boxes_put_of_box hu rfl, hfds, Q', v, .of_put hQ', hfree, ?_⟩
    rw [socks_put_of_ne hck, hv]

end

end Connections

/-! ## Sockets with files -/

section Files

variable {s : State} {Q : Ptr → List Ptr} {fds : List Ptr} {k : Ptr} {u : Sock} {type : SockType}

theorem closeBoxes_alone {B : Ptr → Option Box} (h0 : B 0 = none) (hpend : u.pend = [])
    (hpeer : u.peer = 0) : closeBoxes B k u = update B k none := by
  funext j
  rw [closeBoxes, hpend, hpeer]
  by_cases hjk : j = k
  · simp [hjk]
  by_cases hj0 : j = 0
  · subst hj0
    simp [hjk, h0]
  · simp [hjk, hj0]

section

variable (h : s.Sane 0 Q fds)
include h

theorem State.Sane.boxes_null : s.boxes 0 = none := by
  rw [boxes, h.null, map_none]

theorem State.Sane.fresh (hk : s.socks k = none) :
    (∀ l, k ∉ Q l) ∧ k ∉ fds ∧ Q k = [] := by
  have hlinks : s.links k = none := by rw [links, hk, map_none]
  obtain ⟨hfree, hfds⟩ := (Unix.Sane.placed h).fresh fun hmem => hmem hlinks
  exact ⟨hfree, hfds, (Unix.Sane.placed h).owner k fun hmem => hmem hlinks⟩

/-- A socket that was just created is closed again. -/
theorem close_created (hk : s.socks k = none) (hk0 : k ≠ 0) :
    Returns (unixSockClose k) (s.put k (some { type := type })) fun _ t => Keeps s fds t := by
  obtain ⟨hfree, hfds, -⟩ := h.fresh hk
  have hsane := h.create hk hk0 type
  refine (unixSockClose_returns hsane (socks_put_self s k _) hfree).mono fun _ t ht => ?_
  obtain ⟨⟨Q', hQ', -⟩, -, hboxes⟩ := ht
  rw [erase_of_not_mem hfds] at hQ'
  refine ⟨hQ'.sound, ?_⟩
  rw [hboxes, closeBoxes_alone hsane.boxes_null rfl rfl, boxes_put, update_idem]
  have hnone : s.boxes k = none := by rw [boxes, hk, map_none]
  simp [← hnone]

theorem scSocket_returns (type : SockType) (mem : Option Ptr) (file : Bool) :
    Returns (scSocket type mem file) s fun k t =>
      (k = 0 ∧ Keeps s fds t) ∨
        (k ≠ 0 ∧ t.Sound (k :: fds) ∧ t.boxes = update s.boxes k (some ⟨type, {}⟩)) := by
  refine .bind (unixSocketCreate_returns type mem s) fun k t ht => ?_
  rcases ht with ⟨rfl, rfl⟩ | ⟨hk0, -, hk, rfl⟩
  · exact .pure (.inl ⟨rfl, keeps_self h⟩)
  rw [if_neg hk0]
  split
  · obtain ⟨hfree, hfds, -⟩ := h.fresh hk
    refine .pure (.inr ⟨hk0, ⟨Q, ?_⟩, boxes_put s k _⟩)
    exact Unix.Sane.file (h.create hk hk0 type) (links_of_socks (socks_put_self s k _)) hfree hfds
  · refine .bind (close_created h hk hk0) fun _ t ht => ?_
    exact .pure (.inl ⟨rfl, ht⟩)

end

def pairState (s : State) (type : SockType) (a b : Ptr) : State :=
  (((s.put a (some { type := type })).put b (some { type := type })).put a
    (some { type := type, state := .connected, peer := b })).put b
    (some { type := type, state := .connected, peer := a })

section Pair

variable {a b : Ptr}

theorem pairState_sane (type : SockType) (h : s.Sane 0 Q fds) (ha : s.socks a = none) (ha0 : a ≠ 0)
    (hb : s.socks b = none) (hb0 : b ≠ 0) (hab : a ≠ b) : (pairState s type a b).Sane 0 Q fds := by
  have ha' := h.create ha ha0 type
  have hb' := ha'.create (by rw [socks_put_of_ne hab.symm, hb]) hb0 type
  have hjoin := Unix.Sane.join hb' hab.symm (links_of_socks (socks_put_self _ b _)) rfl
    (links_of_socks (by rw [socks_put_of_ne hab, socks_put_self])) rfl
  unfold State.Sane pairState
  rw [links_put, links_put]
  exact hjoin

theorem pairState_left (hab : a ≠ b) :
    (pairState s type a b).socks a = some { type := type, state := .connected, peer := b } := by
  rw [pairState, socks_put_of_ne hab, socks_put_self]

theorem pairState_right :
    (pairState s type a b).socks b = some { type := type, state := .connected, peer := a } := by
  rw [pairState, socks_put_self]

theorem pairState_boxes (hab : a ≠ b) : (pairState s type a b).boxes =
      update (update s.boxes a (some ⟨type, {}⟩)) b (some ⟨type, {}⟩) := by
  unfold pairState
  rw [boxes_put, boxes_put, boxes_put, boxes_put]
  funext j
  by_cases hjb : j = b
  · simp [hjb, Sock.box]
  by_cases hja : j = a
  · subst hja
    simp [hab, Sock.box]
  · simp [hjb, hja]

theorem unixSocketpair_returns (hab : a ≠ b) :
    Returns (unixSocketpair a b) ((s.put a (some { type := type })).put b (some { type := type }))
      fun _ t => t = pairState s type a b := by
  unfold unixSocketpair
  rw [returns_sockAt_bind (by rw [socks_put_of_ne hab, socks_put_self]), returns_setSock_bind,
    returns_sockAt_bind (by rw [socks_put_of_ne hab.symm, socks_put_self]),
    returns_setSock]
  rfl

theorem close_pair (h : s.Sane 0 Q fds) (ha : s.socks a = none) (ha0 : a ≠ 0)
    (hb : s.socks b = none) (hb0 : b ≠ 0) (hab : a ≠ b) :
    Returns (unixSockClose a) (pairState s type a b) fun _ t =>
      Returns (unixSockClose b) t fun _ t' => Keeps s fds t' := by
  have hsane := pairState_sane type h ha ha0 hb hb0 hab
  obtain ⟨hafree, hafds, -⟩ := h.fresh ha
  obtain ⟨hbfree, hbfds, hbnil⟩ := h.fresh hb
  refine (unixSockClose_returns hsane (pairState_left hab) hafree).mono fun _ t ht => ?_
  obtain ⟨⟨Q', hQ', hsub⟩, hloose, hboxes⟩ := ht
  rw [erase_of_not_mem hafds] at hQ'
  have hnone : ∀ k, s.socks k = none → s.boxes k = none := by
    intro k hk
    rw [boxes, hk, map_none]
  have hboxes' : t.boxes = update s.boxes b (some ⟨type, {}⟩) := by
    rw [hboxes, pairState_boxes hab]
    funext j
    by_cases hja : j = a
    · subst hja
      simp [closeBoxes, hab, hnone j ha]
    by_cases hjb : j = b
    · subst hjb
      simp [closeBoxes, hja, Box.scrub]
    · simp [closeBoxes, hja, hjb]
  obtain ⟨u', hu', -⟩ := socks_of_boxes (s := t) (k := b) (x := ⟨type, {}⟩) (by simp [hboxes'])
  have hlink' := links_of_socks hu'
  have hpend : u'.pend = [] := by
    have hfits := ((Unix.Sane.fits hQ') b u'.link hb0 hlink').1
    have hnil : Q' b = [] := eq_nil_of_subset_nil (hbnil ▸ hsub b)
    rw [hnil] at hfits
    exact hfits
  have hpeer : u'.peer = 0 := by
    by_contra hne
    obtain ⟨v, hv⟩ := hQ'.peer hu' hb0 hne
    have hold : (pairState s type a b).links b = some u'.link :=
      (hloose b u'.link hlink').resolve_left hne
    rw [links_of_socks pairState_right, some.injEq] at hold
    have hua : u'.peer = a := (congrArg Link.peer hold).symm
    have hgone : t.boxes a = none := by rw [hboxes', update_of_ne hab, hnone a ha]
    rw [boxes_of_socks (hua ▸ hv)] at hgone
    cases hgone
  refine (unixSockClose_returns hQ' hu' fun l hmem => hbfree l (hsub l hmem)).mono
    fun _ t' ht' => ?_
  obtain ⟨⟨Q'', hQ'', -⟩, -, hboxes''⟩ := ht'
  rw [erase_of_not_mem hbfds] at hQ''
  refine ⟨hQ''.sound, ?_⟩
  rw [hboxes'', closeBoxes_alone hQ'.boxes_null hpend hpeer, hboxes', update_idem,
    ← hnone b hb, update_eq_self]

theorem scSocketpair_returns (h : s.Sane 0 Q fds) (type : SockType) (mem mem' : Option Ptr)
    (files : Bool) :
    Returns (scSocketpair type mem mem' files) s fun r t =>
      (r = none ∧ Keeps s fds t) ∨
        ∃ a b, r = some (a, b) ∧ t.Sound (b :: a :: fds) ∧
          t.boxes = update (update s.boxes a (some ⟨type, {}⟩)) b (some ⟨type, {}⟩) := by
  refine .bind (unixSocketCreate_returns type mem s) fun a t ht => ?_
  rcases ht with ⟨rfl, rfl⟩ | ⟨ha0, -, ha, rfl⟩
  · exact .pure (.inl ⟨rfl, keeps_self h⟩)
  rw [if_neg ha0]
  refine .bind (unixSocketCreate_returns type mem' _) fun b t ht => ?_
  rcases ht with ⟨rfl, rfl⟩ | ⟨hb0, -, hb, rfl⟩
  · refine .bind (close_created h ha ha0) fun _ t ht => ?_
    exact .pure (.inl ⟨rfl, ht⟩)
  rw [if_neg hb0]
  have hab : a ≠ b := by
    rintro rfl
    rw [socks_put_self] at hb
    cases hb
  rw [socks_put_of_ne hab.symm] at hb
  refine .bind (unixSocketpair_returns hab) fun _ t ht => ?_
  subst ht
  split
  · have hsane := pairState_sane type h ha ha0 hb hb0 hab
    obtain ⟨hafree, hafds, -⟩ := h.fresh ha
    obtain ⟨hbfree, hbfds, -⟩ := h.fresh hb
    refine .pure (.inr ⟨a, b, rfl, ⟨Q, ?_⟩, pairState_boxes hab⟩)
    refine Unix.Sane.file
      (Unix.Sane.file hsane (links_of_socks (pairState_left hab)) hafree hafds)
      (links_of_socks pairState_right) hbfree fun hmem => ?_
    exact (mem_cons.mp hmem).elim hab.symm hbfds
  · refine .bind (close_pair h ha ha0 hb hb0 hab) fun _ t ht => ?_
    refine .bind ht fun _ t' ht' => ?_
    exact .pure (.inl ⟨rfl, ht'⟩)

end Pair

theorem scAccept4_returns (h : s.Sane 0 Q fds) (hu : s.socks k = some u) (file : Bool) :
    Returns (scAccept4 k file) s fun c t =>
      (c ≠ 0 ∧ t.Sound (c :: fds) ∧ t.boxes = s.boxes) ∨
        (c = 0 ∧ t.Sound fds ∧
          (t.boxes = s.boxes ∨ ∃ e v, e ∉ fds ∧ t.boxes = closeBoxes s.boxes e v)) := by
  refine .bind (unixAccept_returns h hu) fun c t ht => ?_
  rcases ht with ⟨rfl, rfl⟩ | ⟨hc0, hboxes, hfds, Q', v, hQ', hfree, hv⟩
  · exact .pure (.inr ⟨rfl, h.sound, .inl rfl⟩)
  rw [if_neg hc0]
  split
  · refine .pure (.inl ⟨hc0, ⟨Q', ?_⟩, hboxes⟩)
    exact Unix.Sane.file hQ' (links_of_socks hv) hfree hfds
  refine .bind (unixSockClose_returns hQ' hv hfree) fun _ t' ht' => ?_
  obtain ⟨⟨Q'', hQ'', -⟩, -, hboxes'⟩ := ht'
  rw [erase_of_not_mem hfds] at hQ''
  rw [hboxes] at hboxes'
  exact .pure (.inr ⟨rfl, hQ''.sound, .inr ⟨c, v, hfds, hboxes'⟩⟩)

end Files

end Kil0yOS.Unix
