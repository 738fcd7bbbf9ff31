/-
Sending and receiving on `AF_UNIX` sockets: the pointers stay as they are, and one receive
buffer changes.
-/
import Kil0yOS.Unix.Calls
import Kil0yOS.Unix.Records

namespace Kil0yOS.Unix

open State Lib

variable {s : State} {Q : Ptr → List Ptr} {fds : List Ptr} {k : Ptr} {u : Sock}
variable {dst : Option UnixAddr} {p : Ptr} {v : Sock}

def State.setRx (s : State) (p : Ptr) (v : Sock) (rx : Rx) : State :=
  s.put p (some { v with rx := rx })

theorem State.Sane.setRx (h : s.Sane 0 Q fds) (hp : s.socks p = some v)
    (rx : Rx) : (s.setRx p v rx).Sane 0 Q fds := by
  unfold Sane State.setRx
  rw [links_put_of_link (v := { v with rx := rx }) hp rfl]
  exact h

theorem returns_setRx_bind {α : Type} {rx : Rx} {f : PUnit → M α} {R : α → State → Prop} :
    Returns (setRx p v rx >>= f) s R ↔ Returns (f ⟨⟩) (s.setRx p v rx) R := Iff.rfl

/-! ## Sending -/

theorem State.Sane.peer_back (h : s.Sane 0 Q fds) (hu : s.socks k = some u)
    (hv : s.socks u.peer = some v) (hne : u.peer ≠ 0) : v.peer = k := by
  obtain ⟨-, x, hx, hback⟩ := Unix.Sane.paired h k u.link (h.ne_null hu) (links_of_socks hu) hne
  have hxv : x = v.link := Option.some.inj (hx.symm.trans (links_of_socks hv))
  rw [hxv] at hback
  exact hback

theorem unixSend_returns (h : s.Sane 0 Q fds) (hu : s.socks k = some u) (data : List UInt8) :
    Returns (unixSend k data) s fun r t =>
      (r < 0 ∧ t = s) ∨
        ∃ v, u.state = .connected ∧ u.peer ≠ 0 ∧ s.socks u.peer = some v ∧
          data.length ≤ v.rx.ringSpace ∧ r = asInt data.length ∧
          t = s.setRx u.peer v (v.rx.ringWrite data) := by
  unfold unixSend
  rw [returns_sockAt_bind hu]
  split
  · exact .pure (.inl ⟨by decide, rfl⟩)
  rename_i hstate
  split
  · exact .pure (.inl ⟨by decide, rfl⟩)
  rename_i hpeer
  obtain ⟨v, hv⟩ := h.peer hu (h.ne_null hu) hpeer
  rw [returns_sockAt_bind hv]
  split
  · exact .pure (.inl ⟨by decide, rfl⟩)
  rename_i hroom
  rw [returns_setRx_bind, returns_pure]
  exact .inr ⟨v, not_not.mp hstate, hpeer, hv, Nat.le_of_not_lt hroom, rfl, rfl⟩

theorem dgramTarget_error {r : Int} (hr : dgramTarget s u dst = .error r) : r < 0 := by
  unfold dgramTarget at hr
  split at hr
  · cases hr
  cases dst with
  | none =>
    cases hr
    decide
  | some addr =>
    dsimp only at hr
    split at hr
    · cases hr
      decide
    · cases hfind : bindFind s.bindTab addr <;> rw [hfind] at hr <;> cases hr
      decide

theorem State.Sane.dgramTarget (h : s.Sane 0 Q fds) (hu : s.socks k = some u)
    (hp : dgramTarget s u dst = .ok p) : ∃ v, s.socks p = some v := by
  unfold Unix.dgramTarget at hp
  split at hp
  · rename_i hpeer
    cases hp
    exact h.peer hu (h.ne_null hu) hpeer
  cases dst with
  | none => cases hp
  | some addr =>
    dsimp only at hp
    split at hp
    · cases hp
    · cases hfind : Unix.bindFind s.bindTab addr <;> rw [hfind] at hp <;> cases hp
      exact h.filed (h.bindFind hfind)

theorem unixSendtoDgram_returns (h : s.Sane 0 Q fds) (hu : s.socks k = some u)
    (data : List UInt8) (dst : Option UnixAddr) :
    Returns (unixSendtoDgram k data dst) s fun r t =>
      (r < 0 ∧ t = s) ∨
        ∃ p v, u.type ≠ .stream ∧ dgramTarget s u dst = .ok p ∧ s.socks p = some v ∧
          (data.length + recHdrSz) % 2 ^ 32 ≤ unixRxbufSz ∧
          (data.length + recHdrSz) % 2 ^ 32 ≤ v.rx.ringSpace ∧ r = asInt data.length ∧
          t = s.setRx p v (v.rx.putRecord k data) := by
  unfold unixSendtoDgram
  rw [returns_sockAt_bind hu]
  split
  · exact .pure (.inl ⟨by decide, rfl⟩)
  rename_i htype
  rw [returns_get_bind]
  cases hp : dgramTarget s u dst with
  | error r =>
    exact .pure (.inl ⟨dgramTarget_error hp, rfl⟩)
  | ok p =>
    obtain ⟨v, hv⟩ := h.dgramTarget hu hp
    dsimp only
    rw [returns_sockAt_bind hv]
    split
    · exact .pure (.inl ⟨by decide, rfl⟩)
    rename_i hsize
    split
    · exact .pure (.inl ⟨by decide, rfl⟩)
    rename_i hroom
    rw [returns_setRx_bind, returns_pure]
    exact .inr ⟨p, v, htype, rfl, hv, Nat.le_of_not_lt hsize, Nat.le_of_not_lt hroom, rfl, rfl⟩

theorem unixSendmsg_returns (h : s.Sane 0 Q fds) (hu : s.socks k = some u)
    (iov : List (List UInt8)) :
    Returns (unixSendmsg k iov) s fun r t =>
      (r < 0 ∧ t = s) ∨
        ∃ v, u.peer ≠ 0 ∧ s.socks u.peer = some v ∧
          ((v.type = .stream ∧ iov.flatten.length ≤ v.rx.ringSpace ∧
              t = s.setRx u.peer v (v.rx.ringWrite iov.flatten)) ∨
            (v.type ≠ .stream ∧ recHdrSz + iov.flatten.length ≤ v.rx.ringSpace ∧
              t = s.setRx u.peer v (v.rx.putRecord k iov.flatten))) ∧ 0 ≤ r := by
  unfold unixSendmsg
  rw [returns_sockAt_bind hu]
  split
  · exact .pure (.inl ⟨by decide, rfl⟩)
  split
  · exact .pure (.inl ⟨by decide, rfl⟩)
  rename_i hpeer
  obtain ⟨v, hv⟩ := h.peer hu (h.ne_null hu) hpeer
  rw [returns_sockAt_bind hv]
  dsimp only
  split
  · exact .pure (.inl ⟨by decide, rfl⟩)
  split
  · rename_i htype
    split
    · exact .pure (.inl ⟨by decide, rfl⟩)
    rename_i hroom
    rw [returns_setRx_bind, returns_pure]
    exact .inr ⟨v, hpeer, hv, .inl ⟨htype, Nat.le_of_not_lt hroom, rfl⟩, Int.natCast_nonneg _⟩
  rename_i htype
  split
  · exact .pure (.inl ⟨by decide, rfl⟩)
  split
  · exact .pure (.inl ⟨by decide, rfl⟩)
  rename_i hroom
  rw [returns_setRx_bind, returns_pure]
  refine .inr ⟨v, hpeer, hv, .inr ⟨htype, ?_, rfl⟩, Int.natCast_nonneg _⟩
  rw [Nat.add_comm]
  omega

/-! ## Receiving -/

theorem unixRecv_returns (hu : s.socks k = some u) (len : Nat) :
    Returns (unixRecv k len) s fun r t =>
      (r ≤ 0 ∧ t = s) ∨
        ∃ n, u.type = .stream ∧ n ≤ u.rx.ringUsed ∧ r = (n : Int) ∧
          t = s.setRx k u (u.rx.ringRead n).2 := by
  unfold unixRecv
  rw [returns_sockAt_bind hu]
  split
  · exact .pure (.inl ⟨by decide, rfl⟩)
  rename_i htype
  split
  · split
    · exact .pure (.inl ⟨Int.le_refl 0, rfl⟩)
    · exact .pure (.inl ⟨by decide, rfl⟩)
  rw [returns_setRx_bind, returns_pure]
  exact .inr ⟨_, not_not.mp htype, Nat.min_le_left _ _, rfl, rfl⟩

theorem unixRecvmsg_returns (hu : s.socks k = some u) (lens : List Nat) (mem : Bool) :
    Returns (unixRecvmsg k lens mem) s fun r t =>
      (r < 0 ∧ t = s) ∨ (u.type = .stream ∧ r = 0 ∧ t = s) ∨
        (u.type = .stream ∧ r = ((u.rx.readIov lens).1.length : Int) ∧
          t = s.setRx k u (u.rx.readIov lens).2) ∨
        (u.type ≠ .stream ∧ u.rx.msgCnt ≠ 0 ∧ 0 ≤ r ∧
          t = s.setRx k u (u.rx.framedPop lens.sum).2) := by
  unfold unixRecvmsg
  rw [returns_sockAt_bind hu]
  split
  · rename_i htype
    split
    · split
      · exact .pure (.inr (.inl ⟨htype, rfl, rfl⟩))
      · exact .pure (.inl ⟨by decide, rfl⟩)
    rw [returns_setRx_bind, returns_pure]
    exact .inr (.inr (.inl ⟨htype, rfl, rfl⟩))
  rename_i htype
  split
  · exact .pure (.inl ⟨by decide, rfl⟩)
  rename_i hcount
  split
  · exact .pure (.inl ⟨by decide, rfl⟩)
  split
  · rw [returns_setRx_bind, returns_pure]
    exact .inr (.inr (.inr ⟨htype, hcount, Int.natCast_nonneg _, rfl⟩))
  · exact .pure (.inl ⟨by decide, rfl⟩)

end Kil0yOS.Unix
