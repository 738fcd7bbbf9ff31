/-
Dropping references: the end of sockets and of file objects.

A reference that is dropped may be the last one to a socket, and the references
queued on that socket are dropped next.  Every round takes one reference out of the
hand or the queues, so the calls come to an end, and no file or socket is used after
its end.
-/
import Kil0yOS.Files.SockRefs

namespace Kil0yOS.Files

open Lib List Function Option Prod State UnixSock

variable {s s' : State} {hand loose dying : List Nat} {f k l c p : Nat}
  {u u' v : UnixSock}

/-- No socket has come or changed its queue or backlog, and no name has come. -/
structure Fewer (s' s : State) : Prop where
  socks : ∀ i w', s'.socks i = some w' → ∃ w, s.socks i = some w ∧ w'.scm = w.scm ∧ w'.pend = w.pend
  bindTab : ∀ n ∈ s'.bindTab, ∀ i, n.map snd = some i → n ∈ s.bindTab
  tables : SameTables s' s

namespace Fewer

theorem refl (s : State) : Fewer s s :=
  ⟨fun _ w hw => ⟨w, hw, rfl, rfl⟩, fun _ hn _ _ => hn, .refl s⟩

theorem trans {s₁ s₂ s₃ : State} (h : Fewer s₃ s₂) (h' : Fewer s₂ s₁) : Fewer s₃ s₁ := by
  constructor
  · intro i w₃ h₃
    obtain ⟨w₂, h₂, hs₂, hp₂⟩ := h.socks i w₃ h₃
    obtain ⟨w₁, h₁, hs₁, hp₁⟩ := h'.socks i w₂ h₂
    exact ⟨w₁, h₁, hs₂.trans hs₁, hp₂.trans hp₁⟩
  · intro n hn i hi
    exact h'.bindTab n (h.bindTab n hn i hi) i hi
  · exact h.tables.trans h'.tables

theorem untouched (h : Fewer s' s) (hc : Untouched s c) : Untouched s' c := by
  constructor
  · intro w' hw'
    obtain ⟨w, hw, hscm, hpend⟩ := h.socks c w' hw'
    rw [hscm, hpend]
    exact hc.1 w hw
  · intro n hn he
    exact hc.2 n (h.bindTab n hn c he) he

end Fewer

/-! ## Peers -/

namespace Peers

theorem orphan (h : Peers s dying) (hk : k ∉ dying) (hu : s.socks k = some u)
    (hp : u.peer = some p) (hv : s.socks p = some v) :
    Peers (s.putSock p { v with peer := none }) (k :: dying) := by
  obtain ⟨_, v', hv', hback⟩ := h.pointsBack k u p hu hp hk
  rw [hv] at hv'
  cases hv'
  constructor
  · intro i w q hi hq hd
    rw [mem_cons, not_or] at hd
    rcases update_cases hi with ⟨-, hw⟩ | ⟨hip, hi⟩
    · cases hw
      cases hq
    obtain ⟨hqd, x, hx, hxi⟩ := h.pointsBack i w q hi hq hd.2
    have hqk : q ≠ k := by
      intro he
      rw [he, hu] at hx
      cases hx
      rw [hp] at hxi
      exact hip (some.inj hxi).symm
    have hqp : q ≠ p := by
      intro he
      rw [he, hv] at hx
      cases hx
      rw [hback] at hxi
      exact hd.1 (some.inj hxi).symm
    exact ⟨not_mem_cons_of_ne_of_not_mem hqk hqd, x, (putSock_of_ne hqp).trans hx, hxi⟩
  · intro i w hi hst
    rcases update_cases hi with ⟨-, hw⟩ | ⟨-, hi⟩
    · cases hw
      rfl
    · exact h.idle i w hi hst

theorem orphan_none (h : Peers s dying) (hu : s.socks k = some u) (hp : u.peer = none) :
    Peers s (k :: dying) := by
  refine ⟨?_, h.idle⟩
  intro i w q hi hq hd
  rw [mem_cons, not_or] at hd
  obtain ⟨hqd, x, hx, hxi⟩ := h.pointsBack i w q hi hq hd.2
  refine ⟨not_mem_cons_of_ne_of_not_mem ?_ hqd, x, hx, hxi⟩
  intro he
  rw [he, hu] at hx
  cases hx
  rw [hp] at hxi
  cases hxi

theorem free {released : List ScmRef} (h : Peers s (k :: dying)) :
    Peers { s with released := released, socks := update s.socks k none } dying := by
  constructor
  · intro i w q hi hq hd
    obtain ⟨hik, hi⟩ := update_none_eq_some hi
    obtain ⟨hqd, x, hx, hxi⟩ := h.pointsBack i w q hi hq (not_mem_cons_of_ne_of_not_mem hik hd)
    rw [mem_cons, not_or] at hqd
    exact ⟨hqd.2, x, (update_of_ne hqd.1 ..).trans hx, hxi⟩
  · intro i w hi hst
    exact h.idle i w (update_none_eq_some hi).2 hst

end Peers

/-! ## Owners -/

namespace Counted

/-- The end of a socket begins: its backlog is given up. -/
theorem retire (h : Counted s hand (k :: loose) dying) (hu : s.socks k = some u)
    (hk : k ∉ dying) : Counted s hand (u.pend ++ k :: loose) (k :: dying) := by
  refine ⟨h.files, h.tables, ⟨h.owners.fresh, ?_⟩, ⟨?_, h.backlogs.bound⟩, h.scm⟩
  · intro i
    have honce := h.owners.once i
    have hswap := gather_count_swap (b := s.pendOf dying) (c := s.pendOf (k :: dying))
      (h.owners.sock_lt hu)
      (fun j hj => by simp [pendOf, hj]) i
    simp only [pendOf, if_neg hk, hu, mem_cons_self, if_true, count_nil] at hswap
    rw [count_append]
    simp only [State.backlogs] at honce ⊢
    omega
  · intro l w c hl hd hc
    rw [mem_cons, not_or] at hd
    exact h.backlogs.untouched l w c hl hd.2 hc

theorem free (h : Counted s hand (k :: loose) (k :: dying)) (hu : s.socks k = some u)
    (hunbound : ∀ n ∈ s.bindTab, n.map snd ≠ some k) :
    Counted { s with released := u.tokens k ++ s.released, socks := update s.socks k none }
      (u.scmFiles ++ hand) loose dying := by
  have hlt := h.owners.sock_lt hu
  have hperm := queued_free hlt hu
  refine ⟨h.files.move rfl rfl rfl fun g => ?_,
    { h.tables with }, ⟨?_, ?_⟩, ⟨?_, ?_⟩,
    ⟨?_, h.scm.onTime⟩⟩
  · have h1 := (hperm.map ScmRef.file).count_eq g
    rw [map_append, count_append, tokens_file] at h1
    show s.slotRefs.count g +
      ((queued { s with socks := update s.socks k none }).map ScmRef.file).count g +
        (u.scmFiles ++ hand).count g =
      s.slotRefs.count g + (s.queued.map ScmRef.file).count g + hand.count g
    rw [count_append]
    omega
  · intro i hi
    exact (update_of_ne (Nat.ne_of_gt (Nat.lt_of_lt_of_le hlt hi)) ..).trans (h.owners.fresh i hi)
  · intro i
    have hbl : State.backlogs { s with socks := update s.socks k none } dying =
        s.backlogs (k :: dying) := by
      refine gather_congr fun j _ => ?_
      by_cases hj : j = k
      all_goals simp [pendOf, hj]
    have honce := h.owners.once i
    rw [← hbl] at honce
    show s.fileSocks.count i +
      (State.backlogs { s with socks := update s.socks k none } dying).count i + loose.count i =
      if (update s.socks k none i).isSome then 1 else 0
    by_cases hi : i = k
    · subst hi
      rw [count_cons_self, hu, isSome_some, if_pos rfl] at honce
      rw [update_self, isSome_none, if_neg Bool.false_ne_true]
      omega
    · rw [count_cons_of_ne (Ne.symm hi)] at honce
      rw [update_of_ne hi]
      exact honce
  · intro l w c hl hd hc
    obtain ⟨hlk, hl⟩ := update_none_eq_some hl
    have hun := h.backlogs.untouched l w c hl (not_mem_cons_of_ne_of_not_mem hlk hd) hc
    exact ⟨fun x hx => hun.1 x (update_none_eq_some hx).2, hun.2⟩
  · intro n hn i hi
    have hik : i ≠ k := fun he => hunbound n hn (he ▸ hi)
    exact (congrArg isSome (update_of_ne hik ..)).trans (h.backlogs.bound n hn i hi)
  · intro r
    have h1 := hperm.count_eq r
    have h2 := h.scm.balance r
    rw [count_append] at h1
    show s.handed.count r = (queued { s with socks := update s.socks k none }).count r +
      (s.delivered.map fst).count r + (u.tokens k ++ s.released).count r
    rw [count_append]
    omega

end Counted

/-! ## The calls -/

/-- A dying socket is cut off from its peer and gives up its backlog. -/
theorem orphanPeer_returns (h : Good s hand (k :: loose) dying) (hk : k ∉ dying)
    (hu : s.socks k = some u) :
    Returns (orphanPeer k) s fun _ s' =>
      Good s' hand (u.pend ++ k :: loose) (k :: dying) ∧ Fewer s' s ∧
        s'.queued.length = s.queued.length ∧ s'.bindTab = s.bindTab := by
  rw [orphanPeer, returns_get_bind, hu]
  have hretire := h.toCounted.retire hu hk
  cases hp : u.peer with
  | none =>
    simp only [hp]
    rw [returns_pure]
    exact ⟨⟨hretire, h.peers.orphan_none hu hp⟩, .refl s, rfl, rfl⟩
  | some p =>
    simp only [hp]
    obtain ⟨_, v, hv, _⟩ := h.peers.pointsBack k u p hu hp hk
    rw [clearPeer, returns_get_bind, hv]
    rw [returns_modify]
    have hlt := hretire.owners.sock_lt hv
    refine ⟨⟨hretire.setQuiet hv rfl rfl, h.peers.orphan hk hu hp hv⟩,
      ⟨?_, fun n hn _ _ => hn, ⟨rfl, rfl, rfl⟩⟩, ?_, rfl⟩
    · intro i w hw
      rcases update_cases hw with ⟨rfl, hx⟩ | ⟨-, hw⟩
      · cases hx
        exact ⟨v, hv, rfl, rfl⟩
      · exact ⟨w, hw, rfl, rfl⟩
    · have hlen := (queued_perm hlt hv (some { v with peer := none })).length_eq
      rw [length_append, length_append] at hlen
      exact Nat.add_right_cancel hlen

theorem freeSock_fewer (s : State) (k : Nat) :
    Fewer { s with socks := update s.socks k none } s := by
  refine ⟨fun i w hw => ?_, fun n hn _ _ => hn, ⟨rfl, rfl, rfl⟩⟩
  exact ⟨w, (update_none_eq_some hw).2, rfl, rfl⟩

theorem refusePending_returns (cs : List Nat) (h : Good s hand (cs ++ loose) dying)
    (hun : ∀ c ∈ cs, Untouched s c) (hd : ∀ c ∈ cs, c ∉ dying) :
    Returns (refusePending cs) s fun _ s' =>
      Good s' hand loose dying ∧ Fewer s' s ∧ s'.queued.length = s.queued.length := by
  induction cs generalizing s with
  | nil =>
    rw [refusePending, returns_pure]
    exact ⟨h, .refl s, rfl⟩
  | cons c cs ih =>
    obtain ⟨u, hu⟩ := h.owners.exists_of_loose mem_cons_self
    have hc := hun c mem_cons_self
    apply (orphanPeer_returns h (hd c mem_cons_self) hu).bind
    intro _ s₁ h₁
    obtain ⟨hgood, hfewer, hlen, _⟩ := h₁
    rw [(hc.1 u hu).2] at hgood
    -- nothing waits in a connection that nobody has accepted
    obtain ⟨u₁, hu₁⟩ := hgood.owners.exists_of_loose mem_cons_self
    have hc₁ := hfewer.untouched hc
    have hscm : u₁.scm = [] := (hc₁.1 u₁ hu₁).1
    have htok : u₁.tokens c = [] := by
      simp [tokens, hscm]
    have hfiles : u₁.scmFiles = [] := by
      simp [scmFiles, hscm]
    have hfree := hgood.toCounted.free hu₁ hc₁.2
    have hperm := queued_free (hgood.owners.sock_lt hu₁) hu₁
    rw [htok, hfiles] at hfree
    rw [htok, append_nil] at hperm
    have hfewer₂ := (freeSock_fewer s₁ c).trans hfewer
    apply (ih ⟨hfree, hgood.peers.free⟩ ?_ ?_).mono
    · intro _ s₃ h₃
      exact ⟨h₃.1, h₃.2.1.trans hfewer₂, h₃.2.2.trans (hperm.length_eq.trans hlen)⟩
    · intro c' hc'
      exact hfewer₂.untouched (hun c' (mem_cons_of_mem _ hc'))
    · intro c' hc'
      exact hd c' (mem_cons_of_mem _ hc')

/-- A socket that nothing owns ends, and the references queued on it are in hand. -/
theorem unixSockClose_returns (h : Good s hand (k :: loose) []) :
    Returns (unixSockClose k) s fun fs s' =>
      Good s' (fs ++ hand) loose [] ∧ SameTables s' s ∧
        fs.length + s'.queued.length = s.queued.length := by
  obtain ⟨u, hu⟩ := h.owners.exists_of_loose mem_cons_self
  rw [unixSockClose, returns_get_bind, hu]
  rw [unbind, returns_modify_bind]
  -- without its name
  have hbound : ∀ n ∈ removeName k s.bindTab, ∀ i, n.map snd = some i →
      n ∈ s.bindTab ∧ i ≠ k := by
    intro n hn i hi
    obtain ⟨m, hm, he⟩ := mem_map.mp hn
    by_cases hmk : m.map snd = some k
    · rw [if_pos hmk] at he
      rw [← he] at hi
      cases hi
    rw [if_neg hmk] at he
    subst he
    refine ⟨hm, ?_⟩
    intro hik
    exact hmk (hik ▸ hi)
  have hg₁ : Good { s with bindTab := removeName k s.bindTab } hand (k :: loose) [] :=
    h.setBind fun n hn i hi => .inl (hbound n hn i hi).1
  apply (orphanPeer_returns hg₁ not_mem_nil hu).bind
  intro _ s₂ h₂
  obtain ⟨hg₂, hfewer₂, hlen₂, hbind₂⟩ := h₂
  -- the connections in its backlog
  have hun : ∀ c ∈ u.pend, Untouched s₂ c := by
    intro c hc
    apply hfewer₂.untouched
    exact hg₁.backlogs.untouched k u c hu not_mem_nil hc
  have hnk : ∀ c ∈ u.pend, c ∉ [k] := by
    intro c hc he
    rw [mem_singleton] at he
    subst he
    have hle := hg₂.owners.count_le_one c
    have hpos := count_pos_iff.mpr hc
    rw [count_append, count_cons_self] at hle
    omega
  apply (refusePending_returns u.pend hg₂ hun hnk).bind
  intro _ s₃ h₃
  obtain ⟨hg₃, hfewer₃, hlen₃⟩ := h₃
  rw [returns_modify_bind, freeSock, returns_modify_bind, returns_pure]
  have hfewer := hfewer₃.trans hfewer₂
  obtain ⟨u₃, hu₃⟩ := hg₃.owners.exists_of_loose mem_cons_self
  obtain ⟨u', hu', hscm, _⟩ := hfewer.socks k u₃ hu₃
  have hu'' : some u = some u' := hu.symm.trans hu'
  cases hu''
  have hunbound : ∀ n ∈ s₃.bindTab, n.map snd ≠ some k := by
    intro n hn he
    exact (hbound n (hfewer.bindTab n hn k he) k he).2 rfl
  have hfree := hg₃.toCounted.free hu₃ hunbound
  rw [tokens_congr hscm, scmFiles_congr hscm] at hfree
  refine ⟨⟨hfree, hg₃.peers.free⟩, ?_, ?_⟩
  · have hsame := hfewer.tables
    exact { hsame with }
  have hl := (queued_free (hg₃.owners.sock_lt hu₃) hu₃).length_eq
  rw [length_append, tokens_congr hscm] at hl
  have hlen : s₃.queued.length = s.queued.length := hlen₃.trans hlen₂
  have hfs : u.scmFiles.length = (u.tokens k).length := by
    simp [← tokens_file u k]
  rw [hfs, Nat.add_comm]
  exact hl.trans hlen

theorem dropRef_returns (h : Good s (f :: hand) loose []) :
    Returns (dropRef f) s fun fs s' =>
      Good s' (fs ++ hand) loose [] ∧ SameTables s' s ∧
        fs.length + s'.queued.length ≤ s.queued.length := by
  obtain ⟨file, hf⟩ := h.files.exists_of_held (by
    rw [count_cons_self]
    omega)
  have hlive := h.files.live f file hf
  rw [count_cons_self] at hlive
  rw [dropRef, returns_get_bind, hf]
  simp only
  by_cases hlast : file.refs - 1 = 0
  · rw [if_pos hlast]
    have hg : Good { s with files := update s.files f none, closes := f :: s.closes } hand
        (file.kind.socks ++ loose) [] :=
      h.freeFile hf hlast
    revert hg
    cases file.kind with
    | sockUnix k =>
      intro hg
      apply (unixSockClose_returns hg).mono
      intro fs s' hs'
      exact ⟨hs'.1, hs'.2.1.trans ⟨rfl, rfl, rfl⟩, Nat.le_of_eq hs'.2.2⟩
    | _ => exact fun hg => .pure ⟨hg, ⟨rfl, rfl, rfl⟩, Nat.le_of_eq (Nat.zero_add _)⟩
  · rw [if_neg hlast, setRefs, returns_modify_bind, returns_pure]
    refine ⟨?_, ⟨rfl, rfl, rfl⟩, by rw [length_nil, Nat.zero_add]; exact Nat.le_refl _⟩
    refine h.setRefs hf ?_ ?_ ?_
    · rw [nil_append]
      omega
    · rw [nil_append]
      omega
    · intro g hg
      simp [count_cons_of_ne (Ne.symm hg)]

theorem dropRefs_returns (fuel : Nat) (fs : List Nat) (h : Good s (fs ++ hand) loose [])
    (hfuel : fs.length + s.queued.length ≤ fuel) :
    Returns (dropRefs fuel fs) s fun _ s' => Good s' hand loose [] ∧ SameTables s' s := by
  induction fuel generalizing s fs with
  | zero =>
    cases fs with
    | nil =>
      rw [dropRefs, returns_pure]
      exact ⟨h, SameTables.refl s⟩
    | cons f fs =>
      rw [length_cons] at hfuel
      omega
  | succ fuel ih =>
    cases fs with
    | nil =>
      rw [dropRefs, returns_pure]
      exact ⟨h, SameTables.refl s⟩
    | cons f fs =>
      apply (dropRef_returns h).bind
      intro more s₁ h₁
      obtain ⟨hg, hsame, hlen⟩ := h₁
      rw [length_cons] at hfuel
      apply (ih (more ++ fs) ?_ ?_).mono
      · intro _ s₂ h₂
        exact ⟨h₂.1, h₂.2.trans hsame⟩
      · rw [append_assoc]
        exact hg
      · rw [length_append]
        omega

/-- References in hand can always be dropped. -/
theorem fileCloses_returns (fs : List Nat) (h : Good s (fs ++ hand) loose []) :
    Returns (fileCloses fs) s fun _ s' => Good s' hand loose [] ∧ SameTables s' s := by
  exact dropRefs_returns _ fs h (Nat.le_refl _)

theorem fileClose_returns (h : Good s (f :: hand) loose []) :
    Returns (fileClose f) s fun _ s' => Good s' hand loose [] ∧ SameTables s' s :=
  fileCloses_returns [f] h

theorem unixSockDrop_returns (h : Good s hand (k :: loose) []) :
    Returns (unixSockDrop k) s fun _ s' => Good s' hand loose [] ∧ SameTables s' s := by
  apply (unixSockClose_returns h).bind
  intro fs s₁ h₁
  apply (fileCloses_returns fs h₁.1).mono
  intro _ s₂ h₂
  exact ⟨h₂.1, h₂.2.trans h₁.2.1⟩

end Kil0yOS.Files
