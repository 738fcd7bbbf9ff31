/-
What the calls that make sockets, name them and connect them do to the references.
-/
import Kil0yOS.Files.TableCalls

namespace Kil0yOS.Files

open Lib State UnixSock List Function Unix

variable {s s' : State} {hand loose dying : List Nat} {f k l c pid : Nat}
  {u u' v : UnixSock} {fd : Int}

/-! ## The receive buffer -/

/-- A read of bytes that are there leaves the others. -/
theorem ringUsed_ringRead {b : Rx} {n : Nat} (hn : n ≤ b.ringUsed) :
    (b.ringRead n).2.ringUsed = b.ringUsed - n := by
  obtain ⟨hread, hwritten⟩ := b.ring.take_counts unixRxbufSz n
  simp only [Rx.ringUsed, Rx.ringRead, hread, hwritten] at hn ⊢
  omega

/-- How far a scattered read can get. -/
theorem read_readIov (lens : List Nat) (b : Rx) :
    (b.readIov lens).2.ring.read ≤ b.ring.read + min b.ringUsed lens.sum := by
  induction lens generalizing b with
  | nil => exact Nat.le_add_right ..
  | cons len lens ih =>
    rw [Rx.readIov, sum_cons]
    split
    · exact Nat.le_add_right ..
    have h := ih (b.ringRead (min b.ringUsed len)).2
    have hread := (b.ring.take_counts unixRxbufSz (min b.ringUsed len)).1
    rw [ringUsed_ringRead (Nat.min_le_left ..)] at h
    simp only [Rx.ringRead, hread] at h ⊢
    omega

/-! ## Small steps -/

theorem sockAt_bind (hu : s.socks k = some u) {β : Type} {g : UnixSock → M β}
    {R : β → State → Prop} : Returns (sockAt k >>= g) s R ↔ Returns (g u) s R := by
  have heq : (sockAt k >>= g) s = g u s := by
    show (sockAt k s).bind (fun q => g q.1 q.2) = _
    rw [sockAt, get_bind_run, hu]
    rfl
  rw [Returns, Returns, heq]

theorem Good.putSame (h : Good s hand loose dying) (hu : s.socks k = some u)
    (hstate : u'.state = u.state) (hpeer : u'.peer = u.peer) (hpend : u'.pend = u.pend)
    (hscm : u'.scm = u.scm) : Good (s.putSock k u') hand loose dying := by
  constructor
  · exact h.toCounted.setQuiet hu hpend hscm
  · exact h.peers.setSock hu hpeer fun hc => hstate.trans hc

/-! ## Connections -/

theorem unixSocketCreate_returns (h : Good s hand loose dying) (type : SockType) :
    Returns (unixSocketCreate type) s fun r s' => SameTables s' s ∧
      match r with
      | none => Good s' hand loose dying ∧ s'.socks = s.socks
      | some k => Good s' hand (k :: loose) dying ∧ s'.socks k = some { type := type } ∧
          Untouched s' k ∧ s'.bindTab = s.bindTab ∧
          ∀ i w, s.socks i = some w → i ≠ k ∧ s'.socks i = some w := by
  refine kmalloc_guard (fun m => ⟨⟨rfl, rfl, rfl⟩, h.withMallocs m, rfl⟩) fun m => ?_
  have hm := h.withMallocs m
  refine kmalloc_guard (fun m' => ⟨⟨rfl, rfl, rfl⟩, hm.withMallocs m', rfl⟩) fun m' => ?_
  have hm' := hm.withMallocs m'
  rw [returns_modifyGet]
  have hdead := h.owners.fresh s.nextSock (Nat.le_refl _)
  have hne : ∀ i w, s.socks i = some w → i ≠ s.nextSock :=
    fun i w hi => Nat.ne_of_lt (h.owners.sock_lt hi)
  refine ⟨⟨rfl, rfl, rfl⟩, ?_, update_self .., ⟨?_, ?_⟩, rfl, ?_⟩
  · exact hm'.newSock type
  · intro w hw
    simp only [update_self, Option.some.injEq] at hw
    subst hw
    exact ⟨rfl, rfl⟩
  · intro n hn he
    have hsome := h.backlogs.bound n hn _ he
    simp only [hdead] at hsome
    cases hsome
  · intro i w hi
    refine ⟨hne i w hi, ?_⟩
    simp only [update_of_ne (hne i w hi)]
    exact hi

theorem Good.pair {a b : Nat} {ua ub ua' ub' : UnixSock} (h : Good s hand loose [])
    (hab : a ≠ b) (ha : s.socks a = some ua) (hb : s.socks b = some ub) (hpa : ua.peer = none)
    (hpb : ub.peer = none) (hpa' : ua'.peer = some b) (hpb' : ub'.peer = some a)
    (hsa : ua'.state = .connected) (hsb : ub'.state = .connected) (hda : ua'.pend = ua.pend)
    (hdb : ub'.pend = ub.pend) (hqa : ua'.scm = ua.scm) (hqb : ub'.scm = ub.scm) :
    Good ((s.putSock a ua').putSock b ub') hand loose [] := by
  have hb₁ : (s.putSock a ua').socks b = some ub := (putSock_of_ne (Ne.symm hab)).trans hb
  exact ⟨(h.toCounted.setQuiet ha hda hqa).setQuiet hb₁ hdb hqb,
    h.peers.pair hab ha hb hpa hpb hpa' hpb' hsa hsb⟩

theorem unixSocketpair_returns {a b : Nat} {ua ub : UnixSock} (h : Good s hand loose [])
    (hab : a ≠ b) (ha : s.socks a = some ua) (hb : s.socks b = some ub) (hpa : ua.peer = none)
    (hpb : ub.peer = none) :
    Returns (unixSocketpair a b) s fun _ s' => Good s' hand loose [] ∧ SameTables s' s := by
  rw [unixSocketpair, sockAt_bind ha, setSock, returns_modify_bind]
  have hb₁ : (s.putSock a { ua with peer := some b, state := .connected }).socks b = some ub :=
    (putSock_of_ne (Ne.symm hab)).trans hb
  rw [sockAt_bind hb₁, setSock, returns_modify]
  exact ⟨h.pair hab ha hb hpa hpb rfl rfl rfl rfl rfl rfl rfl rfl, ⟨rfl, rfl, rfl⟩⟩

theorem Good.not_backlog_of_bound (h : Good s hand loose dying) {n : Option (UnixAddr × Nat)}
    (hn : n ∈ s.bindTab) (hl : n.map Prod.snd = some l) : l ∉ s.backlogs dying := by
  intro hb
  obtain ⟨l', w, hl', hd, hc⟩ := (mem_backlogs h.owners).mp hb
  exact (h.backlogs.untouched l' w l hl' hd hc).2 n hn hl

/-- A connection nobody has accepted waits in the backlog of the listener. -/
theorem Good.enqueue (h : Good s hand (c :: loose) []) (hl : s.socks l = some u)
    (hb : l ∉ s.backlogs []) (hcl : c ≠ l) (hc : Untouched s c) :
    Good (s.putSock l { u with pend := u.pend ++ [c] }) hand loose [] := by
  constructor
  · refine h.toCounted.setSock hl (fun _ => rfl) (fun r => rfl) (fun d hd => .inl hd)
      (fun i => ?_) (fun hmem => absurd hmem hb) (fun i hi => ?_)
    · have hcount := backlogs_count (h.owners.sock_lt hl) hl (not_mem_nil)
        { u with pend := u.pend ++ [c] } i
      simp only [count_append, count_cons, count_nil] at hcount ⊢
      omega
    · rcases mem_append.mp hi with hi | hi
      · exact .inl hi
      · rw [mem_singleton.mp hi]
        exact .inr ⟨hcl, hc⟩
  · exact h.peers.setSock hl rfl id

/-- The client and a new socket are connected, and the new socket waits. -/
theorem unixLink_returns {type : SockType} (h : Good s hand (c :: loose) [])
    (hc : s.socks c = some { type := type }) (huntouched : Untouched s c) (hkc : k ≠ c)
    (hk : s.socks k = some u) (hidle : u.state ≠ .connected) (hlc : l ≠ c)
    (hl : s.socks l = some v) (hlb : l ∉ s.backlogs []) :
    Returns (unixLink k l c) s fun _ s' => Good s' hand loose [] := by
  rw [unixLink, sockAt_bind hl, sockAt_bind hc, setSock, returns_modify_bind]
  obtain ⟨c', hc'⟩ : ∃ c' : UnixSock, c' = { ({ type := type } : UnixSock) with
      state := .connected, peer := some k, name := v.name } := ⟨_, rfl⟩
  rw [← hc']
  have hk₁ : (s.putSock c c').socks k = some u := (putSock_of_ne hkc).trans hk
  rw [sockAt_bind hk₁, setSock, returns_modify_bind]
  obtain ⟨u', hu'⟩ : ∃ u' : UnixSock, u' = { u with peer := some c, state := .connected } :=
    ⟨_, rfl⟩
  rw [← hu']
  have hpair : Good ((s.putSock c c').putSock k u') hand (c :: loose) [] := by
    rw [hc', hu']
    exact h.pair (Ne.symm hkc) hc hk rfl (h.peers.idle k u hk hidle) rfl rfl rfl rfl rfl rfl rfl rfl
  -- the listener may be the client itself
  have hl₂ : ∃ v', ((s.putSock c c').putSock k u').socks l = some v' := by
    by_cases hlk : l = k
    · exact ⟨u', by simp [hlk]⟩
    · exact ⟨v, by rw [putSock_of_ne hlk, putSock_of_ne hlc, hl]⟩
  obtain ⟨v', hv'⟩ := hl₂
  rw [sockAt_bind hv', setSock, returns_modify]
  refine hpair.enqueue hv' ?_ (Ne.symm hlc) ⟨?_, huntouched.2⟩
  · rw [backlogs_putSock hk₁ (by rw [hu']), backlogs_putSock hc (by rw [hc'])]
    exact hlb
  intro w hw
  rw [putSock_of_ne (Ne.symm hkc), putSock_self, Option.some.injEq] at hw
  rw [← hw, hc']
  exact ⟨rfl, rfl⟩

section

variable (h : Good s hand loose [])
include h

section

variable (hk : s.socks k = some u)
include hk

theorem unixConnect_returns (addr : UnixAddr) :
    Returns (unixConnect k addr) s fun _ s' => Good s' hand loose [] := by
  rw [unixConnect, sockAt_bind hk]
  refine returns_guard (fun _ => h) fun hstate => ?_
  refine returns_guard (fun _ => h) fun hlen => ?_
  rw [returns_get_bind]
  cases hfind : bindFind s.bindTab addr with
  | none =>
    exact .pure h
  | some l =>
    have hn := bindFind_mem hfind
    obtain ⟨v, hv⟩ := Option.isSome_iff_exists.mp (h.backlogs.bound _ hn l rfl)
    rw [sockAt_bind hv]
    refine returns_guard (fun _ => h) fun hlisten => ?_
    refine returns_guard (fun _ => h) fun hfull => ?_
    refine (unixSocketCreate_returns h v.type).option (fun _ h₁ => .pure h₁.2.1) fun c s₁ h₁ => ?_
    obtain ⟨_, hg, hc, hun, hbind, hold⟩ := h₁
    obtain ⟨hkc, hk₁⟩ := hold k u hk
    obtain ⟨hlc, hl₁⟩ := hold l v hv
    exact (unixLink_returns hg hc hun hkc hk₁ hstate hlc hl₁
      (hg.not_backlog_of_bound (hbind ▸ hn) rfl)).last fun _ _ h₂ => h₂

theorem unixAccept_returns :
    Returns (unixAccept k) s fun r s' => (∃ u', s'.socks k = some u') ∧
      match r with
      | none => Good s' hand loose []
      | some c => Good s' hand (c :: loose) [] := by
  rw [unixAccept, sockAt_bind hk]
  refine returns_guard (fun _ => ⟨⟨u, hk⟩, h⟩) fun hlisten => ?_
  cases hpend : u.pend with
  | nil =>
    exact .pure ⟨⟨u, hk⟩, h⟩
  | cons c cs =>
    simp only
    rw [setSock, returns_modify_bind, returns_pure]
    refine ⟨⟨_, update_self ..⟩, ?_, ?_⟩
    · refine h.toCounted.setSock hk (fun _ => rfl) (fun r => rfl) (fun d hd => .inl hd)
        (fun i => ?_) (fun _ _ he => ?_) (fun i hi => ?_)
      · have hcount := backlogs_count (h.owners.sock_lt hk) hk (not_mem_nil)
          { u with pend := cs } i
        rw [hpend] at hcount
        simp only [count_cons] at hcount ⊢
        omega
      · rw [hpend] at he
        cases he
      · rw [hpend]
        exact .inl (mem_cons_of_mem _ hi)
    · exact h.peers.setSock hk rfl id

theorem unixBind_returns (hb : k ∉ s.backlogs []) (addr : UnixAddr) :
    Returns (unixBind k addr) s fun _ s' => Good s' hand loose [] := by
  rw [unixBind, sockAt_bind hk, returns_get_bind]
  cases u.bindSlot s.bindTab addr with
  | error r => exact .pure h
  | ok i =>
    rw [returns_modify_bind]
    simp only [setSock]
    rw [returns_modify_bind, returns_pure]
    have hg : Good { s with bindTab := s.bindTab.set i (some (addr, k)) } hand loose [] := by
      refine h.setBind fun n hn j hj => ?_
      rcases mem_or_eq_of_mem_set hn with hold | hnew
      · exact .inl hold
      subst hnew
      cases hj
      rw [hk]
      exact .inr ⟨rfl, hb⟩
    exact hg.putSame hk rfl rfl rfl rfl

theorem unixListen_returns (backlog : Int) :
    Returns (unixListen k backlog) s fun _ s' => Good s' hand loose [] := by
  rw [unixListen, sockAt_bind hk]
  cases hv : u.listen backlog with
  | error r => exact .pure h
  | ok v =>
    obtain ⟨hidle, b, rfl⟩ := SockCore.listen_eq_ok hv
    simp only [setSock]
    rw [returns_modify_bind, returns_pure]
    constructor
    · exact h.toCounted.setQuiet hk rfl rfl
    refine h.peers.setSock hk rfl fun hc => ?_
    rw [hidle] at hc
    cases hc

end

end

/-! ## New descriptors -/

/-- A file object for something loose ends up in a descriptor or is closed. -/
theorem openFile_returns (kind : FileKind) (h : Good s hand (kind.socks ++ loose) []) :
    Returns (openFile pid kind) s fun _ s' => Good s' hand loose [] := by
  refine (fileNew_returns kind h).option (fun s₁ h₁ => ?_) fun f s₁ h₁ => ?_
  · have hg := h₁.2
    revert hg
    cases kind with
    | sockUnix k => exact fun hg => (unixSockDrop_returns hg).last fun _ _ h₂ => h₂.1
    | _ => exact fun hg => ⟨_, _, rfl, hg⟩
  apply (fdInstall_returns h₁.2).bind
  intro fd s₂ h₂
  rcases h₂ with ⟨hneg, he, _⟩ | ⟨hpos, hg, _⟩
  · rw [if_pos hneg]
    subst he
    exact (fileClose_returns h₁.2).last fun _ _ h₃ => h₃.1
  · rw [if_neg (by omega), returns_pure]
    exact hg

theorem lnxvfsOpen_returns (h : Good s hand loose []) (entry : Except Int Nat) :
    Returns (lnxvfsOpen pid entry) s fun _ s' => Good s' hand loose [] := by
  cases entry with
  | error e =>
    rw [lnxvfsOpen, returns_pure]
    exact h
  | ok size =>
    refine kmalloc_guard (fun m => h.withMallocs m) fun m => ?_
    have hm := h.withMallocs m
    by_cases hsize : size > 0
    · rw [if_pos hsize]
      refine kmalloc_guard (fun m' => hm.withMallocs m') fun m' => ?_
      exact openFile_returns .vfs (hm.withMallocs m')
    · rw [if_neg hsize]
      exact openFile_returns .vfs hm

theorem scSocket_returns (h : Good s hand loose []) (domain : Domain) :
    Returns (scSocket pid domain) s fun _ s' => Good s' hand loose [] := by
  cases domain with
  | unix type =>
    exact (unixSocketCreate_returns h type).option (fun _ h₁ => .pure h₁.2.1)
      fun k _ h₁ => openFile_returns (.sockUnix k) h₁.2.1
  | inetStream =>
    refine kmalloc_guard (fun m => h.withMallocs m) fun m => ?_
    exact openFile_returns .sockTcp (h.withMallocs m)
  | inetDgram =>
    refine kmalloc_guard (fun m => h.withMallocs m) fun m => ?_
    exact openFile_returns .sockUdp (h.withMallocs m)

theorem installPair_returns {fa fb : Nat} (h : Good s (fa :: fb :: hand) loose []) :
    Returns (installPair pid fa fb) s fun _ s' => Good s' hand loose [] := by
  apply (fdInstall_returns h).bind
  intro fda s₁ h₁
  rcases h₁ with ⟨hneg, he, _⟩ | ⟨hpos, hg, _⟩
  · rw [if_pos hneg]
    subst he
    apply (fileClose_returns h).bind
    intro _ s₂ h₂
    exact (fileClose_returns h₂.1).last fun _ _ h₃ => h₃.1
  rw [if_neg (by omega)]
  apply (fdInstall_returns hg).bind
  intro fdb s₂ h₂
  rcases h₂ with ⟨hneg, he, _⟩ | ⟨hpos', hg₂, _⟩
  · rw [if_pos hneg]
    subst he
    apply (fdClose_returns hg fda).bind
    intro _ s₃ h₃
    exact (fileClose_returns h₃.1).last fun _ _ h₄ => h₄.1
  · rw [if_neg (by omega), returns_pure]
    exact hg₂

theorem scSocketpair_returns (h : Good s hand loose []) (type : SockType) :
    Returns (scSocketpair pid type) s fun _ s' => Good s' hand loose [] := by
  refine (unixSocketCreate_returns h type).option (fun _ h₁ => .pure h₁.2.1) fun a s₁ h₁ => ?_
  obtain ⟨_, hg₁, ha, _⟩ := h₁
  refine (unixSocketCreate_returns hg₁ type).option
    (fun _ h₂ => (unixSockDrop_returns h₂.2.1).last fun _ _ h₃ => h₃.1) fun b s₂ h₂ => ?_
  obtain ⟨_, hg₂, hb, _, _, hold⟩ := h₂
  obtain ⟨hab, ha₂⟩ := hold a _ ha
  apply (unixSocketpair_returns hg₂ hab ha₂ hb rfl rfl).bind
  intro _ s₃ h₃
  -- the file objects take over the sockets one after the other
  have hg₃ : Good s₃ hand ((FileKind.sockUnix a).socks ++ b :: loose) [] := by
    have hperm : ([a] ++ b :: loose).Perm (b :: a :: loose) := List.Perm.swap ..
    refine ⟨⟨h₃.1.files, h₃.1.tables, ⟨h₃.1.owners.fresh, ?_⟩, h₃.1.backlogs, h₃.1.scm⟩, h₃.1.peers⟩
    intro i
    have := h₃.1.owners.once i
    rw [← hperm.count_eq i] at this
    exact this
  refine (fileNew_returns (.sockUnix a) hg₃).option (fun s₄ h₄ => ?_) fun fa s₄ h₄ => ?_
  · apply (unixSockDrop_returns h₄.2).bind
    intro _ s₅ h₅
    exact (unixSockDrop_returns h₅.1).last fun _ _ h₆ => h₆.1
  refine (fileNew_returns (.sockUnix b) h₄.2).option (fun s₅ h₅ => ?_) fun fb s₅ h₅ => ?_
  · apply (fileClose_returns h₅.2).bind
    intro _ s₆ h₆
    exact (unixSockDrop_returns h₆.1).last fun _ _ h₇ => h₇.1
  · exact installPair_returns (h₅.2.permHand (List.Perm.swap ..))

end Kil0yOS.Files
