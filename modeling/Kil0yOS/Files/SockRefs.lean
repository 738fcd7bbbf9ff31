/-
What the changes of one socket or of a connection do to the references: the queues,
the owners of sockets, peers and backlogs.
-/
import Kil0yOS.Files.Refs

namespace Kil0yOS.Files

open Lib State UnixSock List Function Unix

variable {s : State} {hand hand' loose loose' dying : List Nat} {f k l c : Nat}
  {u u' v : UnixSock}

@[simp] theorem State.putSock_self : (s.putSock k u).socks k = some u := update_self ..

@[simp] theorem State.putSock_of_ne (h : l ≠ k) : (s.putSock k u).socks l = s.socks l :=
  update_of_ne h ..

theorem UnixSock.tokens_file (u : UnixSock) (k : Nat) :
    (u.tokens k).map ScmRef.file = u.scmFiles := by
  simp only [tokens, scmFiles, map_flatMap, map_map]
  congr 1
  funext r
  exact map_id _

theorem UnixSock.tokens_congr (h : u'.scm = u.scm) : u'.tokens k = u.tokens k := by
  rw [tokens, tokens, h]

theorem UnixSock.scmFiles_congr (h : u'.scm = u.scm) : u'.scmFiles = u.scmFiles := by
  rw [scmFiles, scmFiles, h]

theorem Owners.sock_lt (h : Owners s loose dying) (hu : s.socks k = some u) : k < s.nextSock := by
  by_contra hn
  rw [h.fresh k (Nat.le_of_not_lt hn)] at hu
  cases hu

section

variable (hlt : k < s.nextSock)
include hlt

section

variable (hu : s.socks k = some u)
include hu

theorem queued_perm (x : Option UnixSock) :
    (queued { s with socks := update s.socks k x } ++ u.tokens k).Perm
      (s.queued ++ x.elim [] (tokens k)) := by
  have hswap := gather_swap (b := s.tokensOf)
    (c := tokensOf { s with socks := update s.socks k x }) hlt
    fun i hi => by simp only [tokensOf, update_of_ne hi]
  simp only [tokensOf, hu, update_self] at hswap
  cases x <;> exact hswap

theorem queued_free :
    (queued { s with socks := update s.socks k none } ++ u.tokens k).Perm s.queued := by
  have hperm := queued_perm hlt hu none
  rwa [Option.elim_none, append_nil] at hperm

theorem backlogs_count (hk : k ∉ dying)
    (u' : UnixSock) (c : Nat) :
    ((s.putSock k u').backlogs dying).count c + u.pend.count c =
      (s.backlogs dying).count c + u'.pend.count c := by
  have hswap := gather_count_swap (b := s.pendOf dying) (c := (s.putSock k u').pendOf dying) hlt
    (fun i hi => by simp only [pendOf, putSock_of_ne hi]) c
  simp only [pendOf, if_neg hk, hu, putSock_self] at hswap
  exact hswap

end

end

theorem backlogs_putSock (hu : s.socks k = some u) (hpend : u'.pend = u.pend) :
    (s.putSock k u').backlogs dying = s.backlogs dying := by
  refine gather_congr fun i _ => ?_
  by_cases hi : i = k
  · simp [pendOf, hi, hu, hpend]
  · simp only [pendOf, putSock_of_ne hi]

section

variable (h : Owners s loose dying)
include h

theorem mem_backlogs :
    c ∈ s.backlogs dying ↔ ∃ l u, s.socks l = some u ∧ l ∉ dying ∧ c ∈ u.pend := by
  rw [backlogs, mem_gather]
  constructor
  · intro hc
    obtain ⟨l, _, hl⟩ := hc
    rw [pendOf] at hl
    split at hl
    · cases hl
    rename_i hd
    cases hu : s.socks l with
    | none =>
      rw [hu] at hl
      cases hl
    | some u =>
      rw [hu] at hl
      exact ⟨l, u, hu, hd, hl⟩
  · intro hc
    obtain ⟨l, u, hu, hd, hc⟩ := hc
    refine ⟨l, h.sock_lt hu, ?_⟩
    rw [pendOf, if_neg hd, hu]
    exact hc

/-- Exactly the live sockets have an owner. -/
theorem Owners.exists_of_count
    (hpos : 0 < s.fileSocks.count k + (s.backlogs dying).count k + loose.count k) :
    ∃ u, s.socks k = some u := by
  have honce := h.once k
  cases hu : s.socks k with
  | some u => exact ⟨u, rfl⟩
  | none =>
    rw [hu, Option.isSome_none, if_neg Bool.false_ne_true] at honce
    omega

theorem Owners.count_le_one (k : Nat) :
    s.fileSocks.count k + (s.backlogs dying).count k + loose.count k ≤ 1 := by
  rw [h.once k]
  split <;> omega

theorem Owners.exists_of_loose (hk : k ∈ loose) : ∃ u, s.socks k = some u :=
  h.exists_of_count (by have := count_pos_iff.mpr hk; omega)

end

section

variable (h : Counted s hand loose dying)
include h

theorem Counted.sock_of_file {file : File}
    (hf : s.files f = some file) (hkind : file.kind = .sockUnix k) :
    (∃ u, s.socks k = some u) ∧ k ∉ s.backlogs dying := by
  have hle := count_le_gather (b := s.sockOf) (h.files.mem_lt hf) k
  have hs : s.sockOf f = [k] := by
    rw [sockOf, hf]
    simp only [hkind, FileKind.socks]
  rw [hs, count_singleton_self] at hle
  have hpos : 0 < s.fileSocks.count k := hle
  constructor
  · exact h.owners.exists_of_count (by omega)
  intro hb
  have := h.owners.count_le_one k
  have := count_pos_iff.mpr hb
  omega

/-! ## One socket -/

/-- One socket changes.  References move between its queue, the hand and the record
of what became of them, and sockets between its backlog and the loose ones. -/
theorem Counted.setSock {handed released : List ScmRef} {delivered : List (ScmRef × Nat)}
    (hu : s.socks k = some u)
    (hbal : ∀ f, u'.scmFiles.count f + hand'.count f = u.scmFiles.count f + hand.count f)
    (hrec : ∀ r, handed.count r + (u.tokens k).count r + (s.delivered.map Prod.fst).count r +
      s.released.count r = s.handed.count r + (u'.tokens k).count r +
        (delivered.map Prod.fst).count r + released.count r)
    (htime : ∀ d ∈ delivered, d ∈ s.delivered ∨ d.1.off ≤ d.2)
    (hown : ∀ c, ((s.putSock k u').backlogs dying).count c + loose'.count c =
      (s.backlogs dying).count c + loose.count c)
    (hquiet : k ∈ s.backlogs dying → u.scm = [] → u.pend = [] → u'.scm = [] ∧ u'.pend = [])
    (hnew : ∀ c ∈ u'.pend, c ∈ u.pend ∨ c ≠ k ∧ Untouched s c) :
    Counted { s.putSock k u' with handed := handed, delivered := delivered, released := released }
      hand' loose' dying := by
  have hlt := h.owners.sock_lt hu
  have hperm : ((s.putSock k u').queued ++ u.tokens k).Perm (s.queued ++ u'.tokens k) :=
    queued_perm hlt hu (some u')
  refine ⟨h.files.move rfl rfl rfl fun g => ?_,
    { h.tables with }, ⟨?_, ?_⟩, ⟨?_, ?_⟩, ⟨?_, ?_⟩⟩
  · have h1 := (hperm.map ScmRef.file).count_eq g
    have h2 := hbal g
    simp only [map_append, count_append, tokens_file] at h1
    show s.slotRefs.count g + ((s.putSock k u').queued.map ScmRef.file).count g + hand'.count g =
      s.slotRefs.count g + (s.queued.map ScmRef.file).count g + hand.count g
    omega
  · intro i hi
    exact (putSock_of_ne (Nat.ne_of_gt (Nat.lt_of_lt_of_le hlt hi))).trans (h.owners.fresh i hi)
  · intro i
    have h1 := h.owners.once i
    have h2 := hown i
    show s.fileSocks.count i + ((s.putSock k u').backlogs dying).count i + loose'.count i =
      if (update s.socks k (some u') i).isSome then 1 else 0
    rw [isSome_update hu]
    omega
  · intro l w c hl hd hc
    -- what is in a backlog now was untouched before, and is not touched here
    have hold : c ∈ s.backlogs dying ∨ c ≠ k ∧ Untouched s c := by
      rw [mem_backlogs h.owners]
      rcases update_cases hl with ⟨rfl, hw⟩ | ⟨-, hl⟩
      · cases hw
        exact (hnew c hc).imp_left fun hcu => ⟨l, u, hu, hd, hcu⟩
      · exact .inl ⟨l, w, hl, hd, hc⟩
    have hun : Untouched s c := by
      rcases hold with hb | hb
      · obtain ⟨l', w', hl', hd', hc'⟩ := (mem_backlogs h.owners).mp hb
        exact h.backlogs.untouched l' w' c hl' hd' hc'
      · exact hb.2
    refine ⟨fun x hx => ?_, hun.2⟩
    rcases update_cases hx with ⟨rfl, hw⟩ | ⟨-, hx⟩
    · cases hw
      rcases hold with hb | hb
      · exact hquiet hb (hun.1 u hu).1 (hun.1 u hu).2
      · exact absurd rfl hb.1
    · exact hun.1 x hx
  · intro n hn i hi
    exact (isSome_update hu u' i).trans (h.backlogs.bound n hn i hi)
  · intro r
    have h1 := hperm.count_eq r
    have h2 := hrec r
    have h3 := h.scm.balance r
    simp only [count_append] at h1
    show handed.count r = (s.putSock k u').queued.count r + (delivered.map Prod.fst).count r +
      released.count r
    omega
  · intro d hd
    exact (htime d hd).elim (h.scm.onTime d) id

theorem Counted.setQuiet (hu : s.socks k = some u)
    (hpend : u'.pend = u.pend) (hscm : u'.scm = u.scm) :
    Counted (s.putSock k u') hand loose dying := by
  refine h.setSock hu (fun f => ?_) (fun r => ?_) (fun d hd => .inl hd) (fun c => ?_)
    (fun _ h1 h2 => ⟨hscm.trans h1, hpend.trans h2⟩) fun c hc => .inl (hpend ▸ hc)
  · rw [scmFiles_congr hscm]
  · rw [tokens_congr hscm]
  · rw [backlogs_putSock hu hpend]

end

theorem Peers.setSock (h : Peers s dying) (hu : s.socks k = some u) (hpeer : u'.peer = u.peer)
    (hstate : u.state = .connected → u'.state = .connected) : Peers (s.putSock k u') dying := by
  have hold : ∀ i w, (s.putSock k u').socks i = some w →
      ∃ w', s.socks i = some w' ∧ w.peer = w'.peer ∧
        (w'.state = .connected → w.state = .connected) := by
    intro i w hi
    rcases update_cases hi with ⟨rfl, hw⟩ | ⟨-, hi⟩
    · cases hw
      exact ⟨u, hu, hpeer, hstate⟩
    · exact ⟨w, hi, rfl, id⟩
  constructor
  · intro i w q hi hq hd
    obtain ⟨w', hw', heq, _⟩ := hold i w hi
    obtain ⟨hqd, v, hv, hback⟩ := h.pointsBack i w' q hw' (heq ▸ hq) hd
    refine ⟨hqd, ?_⟩
    by_cases hqk : q = k
    · subst hqk
      rw [hu] at hv
      cases hv
      exact ⟨u', putSock_self, hpeer.trans hback⟩
    · exact ⟨v, (putSock_of_ne hqk).trans hv, hback⟩
  · intro i w hi hst
    obtain ⟨w', hw', heq, hstate'⟩ := hold i w hi
    rw [heq]
    exact h.idle i w' hw' fun hc => hst (hstate' hc)

/-- The bind table changes: names go, or the socket `k`, which is in no backlog, gets
one. -/
theorem Good.setBind (h : Good s hand loose dying) {names : List (Option (UnixAddr × Nat))}
    (hb : ∀ n ∈ names, ∀ i, n.map Prod.snd = some i →
      n ∈ s.bindTab ∨ (s.socks i).isSome ∧ i ∉ s.backlogs dying) :
    Good { s with bindTab := names } hand loose dying := by
  refine ⟨⟨{ h.files with },
    { h.tables with },
    { h.owners with }, ⟨?_, ?_⟩, { h.scm with }⟩,
    { h.peers with }⟩
  · intro l w c hl hd hc
    have hun := h.backlogs.untouched l w c hl hd hc
    refine ⟨hun.1, fun n hn he => ?_⟩
    rcases hb n hn c he with hold | hnew
    · exact hun.2 n hold he
    · exact hnew.2 ((mem_backlogs h.owners).mpr ⟨l, w, hl, hd, hc⟩)
  · intro n hn i hi
    rcases hb n hn i hi with hold | hnew
    · exact h.backlogs.bound n hold i hi
    · exact hnew.1

/-! ## New sockets and connections -/

def State.addSock (s : State) (type : SockType) : State :=
  { s with
    socks := update s.socks s.nextSock (some { type := type })
    nextSock := s.nextSock + 1 }

theorem Good.newSock (h : Good s hand loose dying) (type : SockType) :
    Good (s.addSock type) hand (s.nextSock :: loose) dying := by
  have hdead := h.owners.fresh s.nextSock (Nat.le_refl _)
  have hne : ∀ i w, s.socks i = some w → i ≠ s.nextSock :=
    fun i w hi => Nat.ne_of_lt (h.owners.sock_lt hi)
  have hq : (s.addSock type).queued = s.queued := by
    rw [queued, addSock, gather_succ_of_eq]
    · simp only [tokensOf, update_self]
      exact append_nil _
    · intro i hi
      simp only [tokensOf, update_of_ne hi]
  have hbl : (s.addSock type).backlogs dying = s.backlogs dying := by
    rw [backlogs, addSock, gather_succ_of_eq]
    · simp only [pendOf, update_self, ite_self]
      exact append_nil _
    · intro i hi
      simp only [pendOf, update_of_ne hi]
  refine ⟨⟨h.files.move rfl rfl rfl fun g => ?_,
    { h.tables with }, ⟨?_, ?_⟩, ⟨?_, ?_⟩,
    ⟨?_, h.scm.onTime⟩⟩, ⟨?_, ?_⟩⟩
  · rw [held, hq]
    rfl
  · intro i hi
    exact (update_of_ne (Nat.ne_of_gt hi) ..).trans (h.owners.fresh i (Nat.le_of_lt hi))
  · intro i
    have honce := h.owners.once i
    rw [hbl]
    show s.fileSocks.count i + _ + _ =
      if (update s.socks s.nextSock (some { type := type }) i).isSome then 1 else 0
    by_cases hi : i = s.nextSock
    · subst hi
      rw [hdead, Option.isSome_none, if_neg Bool.false_ne_true] at honce
      rw [count_cons_self, update_self, Option.isSome_some, if_pos rfl]
      omega
    · rw [count_cons_of_ne (Ne.symm hi), update_of_ne hi]
      exact honce
  · intro l w c hl hd hc
    rcases update_cases hl with ⟨-, hw⟩ | ⟨-, hl⟩
    · cases hw
      cases hc
    have hun := h.backlogs.untouched l w c hl hd hc
    have hmem := count_pos_iff.mpr ((mem_backlogs h.owners).mpr ⟨l, w, hl, hd, hc⟩)
    obtain ⟨x, hx⟩ : ∃ x, s.socks c = some x := h.owners.exists_of_count (by omega)
    refine ⟨fun y hy => hun.1 y ?_, hun.2⟩
    exact (update_of_ne (hne c x hx) ..).symm.trans hy
  · intro n hn i hi
    obtain ⟨x, hx⟩ := Option.isSome_iff_exists.mp (h.backlogs.bound n hn i hi)
    exact Option.isSome_iff_exists.mpr ⟨x, (update_of_ne (hne i x hx) ..).trans hx⟩
  · rw [hq]
    exact h.scm.balance
  · intro i w q hi hq hd
    rcases update_cases hi with ⟨-, hw⟩ | ⟨-, hi⟩
    · cases hw
      cases hq
    · obtain ⟨hqd, v, hv, hback⟩ := h.peers.pointsBack i w q hi hq hd
      exact ⟨hqd, v, (update_of_ne (hne q v hv) ..).trans hv, hback⟩
  · intro i w hi hst
    rcases update_cases hi with ⟨-, hw⟩ | ⟨-, hi⟩
    · cases hw
      rfl
    · exact h.peers.idle i w hi hst

theorem Peers.pair {a b : Nat} {ua ub ua' ub' : UnixSock} (h : Peers s []) (hab : a ≠ b)
    (ha : s.socks a = some ua) (hb : s.socks b = some ub) (hpa : ua.peer = none)
    (hpb : ub.peer = none) (hpa' : ua'.peer = some b) (hpb' : ub'.peer = some a)
    (hsa : ua'.state = .connected) (hsb : ub'.state = .connected) :
    Peers ((s.putSock a ua').putSock b ub') [] := by
  have hsa' : ((s.putSock a ua').putSock b ub').socks a = some ua' :=
    (putSock_of_ne hab).trans putSock_self
  have hsb' : ((s.putSock a ua').putSock b ub').socks b = some ub' := putSock_self
  have hother : ∀ i, i ≠ a → i ≠ b → ((s.putSock a ua').putSock b ub').socks i = s.socks i :=
    fun i hia hib => (putSock_of_ne hib).trans (putSock_of_ne hia)
  constructor
  · intro i w q hi hq hd
    refine ⟨not_mem_nil, ?_⟩
    by_cases hia : i = a
    · rw [hia, hsa'] at hi
      cases hi
      rw [hpa'] at hq
      cases hq
      exact ⟨ub', hsb', hia ▸ hpb'⟩
    by_cases hib : i = b
    · rw [hib, hsb'] at hi
      cases hi
      rw [hpb'] at hq
      cases hq
      exact ⟨ua', hsa', hib ▸ hpa'⟩
    rw [hother i hia hib] at hi
    obtain ⟨_, v, hv, hback⟩ := h.pointsBack i w q hi hq hd
    -- the peer has a peer, so it is neither of the two
    have hne : ∀ x y, s.socks x = some y → y.peer = none → q ≠ x := by
      rintro x y hx hy rfl
      rw [hx] at hv
      cases hv
      rw [hy] at hback
      cases hback
    exact ⟨v, (hother q (hne a ua ha hpa) (hne b ub hb hpb)).trans hv, hback⟩
  · intro i w hi hst
    by_cases hia : i = a
    · rw [hia, hsa'] at hi
      cases hi
      exact absurd hsa hst
    by_cases hib : i = b
    · rw [hib, hsb'] at hi
      cases hi
      exact absurd hsb hst
    · rw [hother i hia hib] at hi
      exact h.idle i w hi hst

end Kil0yOS.Files
