/-
Runs of the `AF_UNIX` system calls.

The pointers between sockets are right in every run.  The receive buffers hold what was sent
and not received as long as no call puts raw bytes into the buffer of a socket with messages,
or a record into that of a stream, and the senders in records are there as long as no socket
is closed whose messages wait elsewhere than at its peer.
-/
import Kil0yOS.Lib.Run
import Kil0yOS.Unix.Traffic

namespace Kil0yOS.Unix

open State List Function Lib

variable {buf : List UInt8} {dst : Option UnixAddr} {k : Ptr} {t : State} {s' : System}

/-! ## One receive buffer -/

/-- The buffer holds the messages or bytes that were sent and not received.  If `tracked`, the
senders of the messages have files. -/
def Box.Right (tracked : Prop) (fds : List Ptr) (b : Box) (msgs : List (List UInt8))
    (bytes : List UInt8) : Prop :=
  (b.type = .stream → b.rx.Streams bytes) ∧
    (b.type ≠ .stream → ∃ ms, b.rx.Holds ms ∧ ms.map Msg.data = msgs ∧
      (tracked → ∀ m ∈ ms, m.src = 0 ∨ m.src ∈ fds))

namespace Box

variable {tracked : Prop} {fds fds' : List Ptr} {type : SockType} {rx : Rx}
  {msgs : List (List UInt8)} {bytes data : List UInt8} {b : Box} {k : Ptr}

theorem right_empty (tracked : Prop) (fds : List Ptr) (type : SockType) :
    Right tracked fds ⟨type, {}⟩ [] [] :=
  ⟨fun _ => Rx.streams_empty, fun _ => ⟨[], Rx.holds_empty, rfl, fun _ m hm => by cases hm⟩⟩

theorem Right.mono (h : b.Right tracked fds msgs bytes) (hsub : fds ⊆ fds') :
    b.Right tracked fds' msgs bytes := by
  refine ⟨h.1, fun ht => ?_⟩
  obtain ⟨ms, hms, hdata, hsrc⟩ := h.2 ht
  exact ⟨ms, hms, hdata, fun htr m hm => (hsrc htr m hm).imp_right fun hmem => hsub hmem⟩

theorem right_stream (h : rx.Streams bytes) : Right tracked fds ⟨.stream, rx⟩ msgs bytes :=
  ⟨fun _ => h, fun ht => absurd rfl ht⟩

section

variable (h : Right tracked fds ⟨type, rx⟩ msgs bytes)
include h

theorem Right.put (ht : type ≠ .stream)
    (hk : k ∈ fds) (hroom : recHdrSz + data.length ≤ rx.ringSpace) :
    Right tracked fds ⟨type, rx.putRecord k data⟩ (msgs ++ [data]) bytes := by
  refine ⟨fun hs => absurd hs ht, fun _ => ?_⟩
  obtain ⟨ms, hms, hdata, hsrc⟩ := h.2 ht
  refine ⟨ms ++ [⟨k, data⟩], hms.put k hroom, by rw [map_append, hdata]; rfl, ?_⟩
  intro htr m hm
  rcases mem_append.mp hm with hm | hm
  · exact hsrc htr m hm
  · rw [mem_singleton.mp hm]
    exact .inr hk

theorem Right.pop (ht : type ≠ .stream)
    (hne : rx.msgCnt ≠ 0) (len : Nat) :
    Right tracked fds ⟨type, (rx.framedPop len).2⟩ msgs.tail bytes := by
  refine ⟨fun hs => absurd hs ht, fun _ => ?_⟩
  obtain ⟨ms, hms, hdata, hsrc⟩ := h.2 ht
  cases ms with
  | nil => exact absurd hms.count hne
  | cons m ms =>
    refine ⟨ms, hms.pop len, ?_, fun htr m' hm' => hsrc htr m' (mem_cons_of_mem m hm')⟩
    rw [← hdata]
    rfl

end

/-- The sender `k` is gone, and was scrubbed from the records. -/
theorem Right.scrub (h : b.Right tracked fds msgs bytes) (k : Ptr) :
    (b.scrub k).Right tracked (fds.erase k) msgs bytes := by
  unfold Box.scrub
  split
  · rename_i hnone
    refine ⟨h.1, fun ht => ?_⟩
    obtain ⟨ms, hms, hdata, -⟩ := h.2 ht
    obtain rfl : ms = [] := eq_nil_of_length_eq_zero (hms.count ▸ hnone.resolve_left ht)
    exact ⟨[], hms, hdata, nofun⟩
  refine ⟨fun ht => (‹¬ _› (Or.inl ht)).elim, fun ht => ?_⟩
  obtain ⟨ms, hms, hmsgs, hsrc⟩ := h.2 ht
  refine ⟨ms.map (.scrub k), hms.scrub k, ?_, ?_⟩
  · rw [map_map, ← hmsgs]
    exact map_congr_left fun m _ => m.data_scrub k
  intro htr m' hm'
  obtain ⟨m, hm, rfl⟩ := mem_map.mp hm'
  unfold Msg.scrub
  split
  · exact .inl rfl
  · exact (hsrc htr m hm).imp_right fun hmem => (mem_erase_of_ne ‹_›).mpr hmem

/-- The sender `k` is gone, and no record is from it. -/
theorem Right.erase (h : b.Right tracked fds msgs bytes)
    (hk : tracked → ∀ hd ∈ b.rx.headers, hd.src ≠ k) : b.Right tracked (fds.erase k) msgs bytes := by
  refine ⟨h.1, fun ht => ?_⟩
  obtain ⟨ms, hms, hdata, hsrc⟩ := h.2 ht
  refine ⟨ms, hms, hdata, fun htr m hm => (hsrc htr m hm).imp_right fun hmem => ?_⟩
  have hne : m.src ≠ k := hk htr m.hdr (by
    rw [hms.headers]
    exact mem_map_of_mem hm)
  exact (mem_erase_of_ne hne).mpr hmem

end Box

/-! ## The conditions on a step -/

namespace System

variable (s : System)

/-- Bytes that `k` writes go to a socket with messages. -/
def RawTo (k : Ptr) (data : List UInt8) : Prop :=
  ∃ u v, s.st.socks k = some u ∧ u.state = .connected ∧ s.st.socks u.peer = some v ∧
    v.type ≠ .stream ∧ data.length ≤ v.rx.ringSpace

/-- A record of `k` goes to a stream, or its length does not fit into its type. -/
def RecordTo (k : Ptr) (data : List UInt8) (dst : Option UnixAddr) : Prop :=
  ∃ u p v, s.st.socks k = some u ∧ dgramTarget s.st u dst = .ok p ∧ s.st.socks p = some v ∧
    (v.type = .stream ∨ 2 ^ 32 ≤ data.length + recHdrSz) ∧
    (data.length + recHdrSz) % 2 ^ 32 ≤ unixRxbufSz ∧
    (data.length + recHdrSz) % 2 ^ 32 ≤ v.rx.ringSpace

/-- What is sent has the format of the socket that it goes to. -/
def Formatted : Op → Prop
  | .write k buf => k ∈ s.fds → buf ≠ [] → ¬ s.RawTo k (buf.take 0x7FFFFFFF)
  | .sendto k buf dst => k ∈ s.fds → buf ≠ [] → ∀ u, s.st.socks k = some u →
      (u.type = .stream → dst = none → ¬ s.RawTo k (cut buf)) ∧
        (u.type ≠ .stream → ¬ s.RecordTo k (cut buf) dst)
  | _ => True

/-- A socket that is closed has messages waiting at its peer only. -/
def LeavesNoSender : Op → Prop
  | .close k => ∀ u, s.st.socks k = some u → ∀ j v, s.st.socks j = some v → j ≠ k → j ∉ u.pend →
      j ≠ u.peer → ∀ h ∈ v.rx.headers, h.src ≠ k
  | _ => True

/-! ## The invariant -/

/-- The pointers are right; if `fmt`, the receive buffers are, and if `tracked`, the senders
in them. -/
structure Inv (fmt tracked : Prop) (s : System) : Prop where
  running : s.faulted = false
  sound : s.st.Sound s.fds
  right : fmt → ∀ k b, s.st.boxes k = some b → b.Right tracked s.fds (s.msgs k) (s.bytes k)

variable {s} {fmt tracked : Prop} {α : Type} {x : M α}

theorem inv_init (h : s.Init) : s.Inv fmt tracked := by
  obtain ⟨hsocks, htab, hfds, hrun⟩ := h
  have hlinks : ∀ k, s.st.links k = none := fun k => by simp [links, hsocks]
  refine ⟨hrun, ⟨fun _ => [], ⟨?_, ?_, ?_⟩⟩, fun _ k b hb => ?_⟩
  · rw [hfds, htab]
    refine ⟨fun hmem => hmem (hlinks 0), ⟨fun _ => nodup_nil, by simp⟩, by simp, fun _ _ => rfl, ?_,
      by simp, nodup_nil⟩
    exact fun _ _ hmem => absurd (eq_of_mem_replicate hmem) (Option.some_ne_none _)
  · intro k u _ hu
    rw [hlinks] at hu
    cases hu
  · intro k u _ hu
    rw [hlinks] at hu
    cases hu
  · rw [boxes, hsocks] at hb
    cases hb

theorem inv_call {note : α → System}
    (h : Returns x s.st fun a t => Inv fmt tracked { note a with st := t }) :
    (s.call x note).Inv fmt tracked := by
  obtain ⟨a, t, hx, hinv⟩ := h
  unfold call
  rw [hx]
  exact hinv

section

variable (h : s.Inv fmt tracked)
include h

/-- Every receive buffer is an old one, with the same sent and not received, or right. -/
theorem Inv.next (hrun : s'.faulted = s.faulted) (hsound : s'.st.Sound s'.fds)
    (hboxes : fmt → ∀ j b, s'.st.boxes j = some b →
      (s.st.boxes j = some b ∧ s'.msgs j = s.msgs j ∧ s'.bytes j = s.bytes j ∧ s.fds ⊆ s'.fds) ∨
        b.Right tracked s'.fds (s'.msgs j) (s'.bytes j)) : s'.Inv fmt tracked := by
  refine ⟨hrun.trans h.running, hsound, fun hfmt j b hb => ?_⟩
  rcases hboxes hfmt j b hb with ⟨hold, hmsgs, hbytes, hsub⟩ | hright
  · rw [hmsgs, hbytes]
    exact (h.right hfmt j b hold).mono hsub
  · exact hright

theorem Inv.keeps (ht : Keeps s.st s.fds t) : Inv fmt tracked { s with st := t } :=
  h.next rfl ht.1 fun _ _ _ hb => .inl ⟨ht.2 ▸ hb, rfl, rfl, List.Subset.refl _⟩

theorem Inv.put {p : Ptr} {b : Box} (hrun : s'.faulted = s.faulted)
    (hsound : s'.st.Sound s'.fds) (hfds : s.fds ⊆ s'.fds)
    (hboxes : s'.st.boxes = update s.st.boxes p (some b))
    (hframe : ∀ j, j ≠ p → s'.msgs j = s.msgs j ∧ s'.bytes j = s.bytes j)
    (hb : fmt → b.Right tracked s'.fds (s'.msgs p) (s'.bytes p)) : s'.Inv fmt tracked := by
  refine h.next hrun hsound fun hfmt j b' hb' => ?_
  rw [hboxes] at hb'
  rcases update_cases hb' with ⟨hj, hb'⟩ | ⟨hj, hb'⟩
  · rw [Option.some.injEq] at hb'
    rw [hj, ← hb']
    exact .inr (hb hfmt)
  · exact .inl ⟨hb', (hframe j hj).1, (hframe j hj).2, hfds⟩

theorem Inv.closed {u : Sock} (hsound : t.Sound (s.fds.erase k))
    (hboxes : t.boxes = closeBoxes s.st.boxes k u)
    (hleft : fmt → ∀ j b, s.st.boxes j = some b → j ≠ k → j ∉ u.pend → j ≠ u.peer →
      b.Right tracked (s.fds.erase k) (s.msgs j) (s.bytes j)) :
    Inv fmt tracked { s with st := t, fds := s.fds.erase k } := by
  refine h.next rfl hsound fun hfmt j b hb => .inr ?_
  change t.boxes j = some b at hb
  rw [hboxes, closeBoxes] at hb
  split at hb
  · cases hb
  rename_i hgone
  rw [not_or] at hgone
  split at hb
  · obtain ⟨b', hb', rfl⟩ := Option.map_eq_some_iff.mp hb
    exact (h.right hfmt j b' hb').scrub k
  · exact hleft hfmt j b hb hgone.1 hgone.2 ‹_›

theorem inv_callOn {note : α → System}
    (hx : k ∈ s.fds → ∀ Q u, s.st.Sane 0 Q s.fds → s.st.socks k = some u →
      Returns x s.st fun a t => Inv fmt tracked { note a with st := t }) :
    (s.callOn k x note).Inv fmt tracked := by
  unfold callOn
  split
  · obtain ⟨Q, hQ⟩ := h.sound
    obtain ⟨u, hu⟩ := hQ.filed ‹_›
    exact inv_call (hx ‹_› Q u hQ hu)
  · exact h

end

/-! ## Sending and receiving -/

section Data

variable {Q : Ptr → List Ptr} {k p : Ptr} {u v : Sock} {rx : Rx} {data : List UInt8} {n : Nat}

/-- Only what is noted for the socket itself changes. -/
theorem sent_frame (k p : Ptr) (data : List UInt8) :
    (s.sent k p data).fds = s.fds ∧ (s.sent k p data).faulted = s.faulted ∧
      ∀ j, j ≠ p → (s.sent k p data).msgs j = s.msgs j ∧ (s.sent k p data).bytes j = s.bytes j := by
  cases hp : s.st.socks p with
  | none => simp [sent, hp]
  | some v =>
    simp only [sent, hp]
    split
    · split
      · exact ⟨rfl, rfl, fun j hj => ⟨rfl, update_of_ne hj _ _⟩⟩
      · exact ⟨rfl, rfl, fun j hj => ⟨rfl, rfl⟩⟩
    · exact ⟨rfl, rfl, fun j hj => ⟨update_of_ne hj _ _, rfl⟩⟩

theorem received_stream (hk : s.st.socks k = some u) (ht : u.type = .stream) :
    s.received k n = { s with bytes := update s.bytes k ((s.bytes k).drop n) } := by
  simp [received, hk, ht]

theorem received_framed (hk : s.st.socks k = some u) (ht : u.type ≠ .stream) :
    s.received k n = { s with msgs := update s.msgs k (s.msgs k).tail } := by
  simp [received, hk, ht]

section

variable (h : s.Inv fmt tracked)
include h

section

variable (hQ : s.st.Sane 0 Q s.fds)
include hQ

section

variable (hp : s.st.socks p = some v)
include hp

/-- The receive buffer of `p` is now `rx`, and for `p` alone is something noted. -/
theorem Inv.setRx (hfds : s'.fds = s.fds) (hrun : s'.faulted = s.faulted)
    (hframe : ∀ j, j ≠ p → s'.msgs j = s.msgs j ∧ s'.bytes j = s.bytes j)
    (hb : fmt → Box.Right tracked s.fds ⟨v.type, rx⟩ (s'.msgs p) (s'.bytes p)) :
    Inv fmt tracked { s' with st := s.st.setRx p v rx } := by
  refine h.put hrun ?_ (hfds ▸ List.Subset.refl _) (boxes_put s.st p _) hframe
    fun hfmt => ?_
  · rw [hfds]
    exact ⟨Q, hQ.setRx hp rx⟩
  · rw [hfds]
    exact hb hfmt

theorem Inv.sentBytes (hk : v.peer = k)
    (hb : fmt → v.type = .stream ∧ data.length ≤ v.rx.ringSpace) :
    Inv fmt tracked { s.sent k p data with st := s.st.setRx p v (v.rx.ringWrite data) } := by
  obtain ⟨hfds, hrun, hframe⟩ := sent_frame k p data
  refine h.setRx hQ hp hfds hrun hframe fun hfmt => ?_
  obtain ⟨ht, hroom⟩ := hb hfmt
  have hstream := (h.right hfmt p v.box (boxes_of_socks hp)).1 ht
  simp only [sent, hp, ht, hk, if_pos, update_self]
  exact Box.right_stream (hstream.write hroom)

theorem Inv.sentRecord (hk : k ∈ s.fds)
    (hb : fmt → v.type ≠ .stream ∧ recHdrSz + data.length ≤ v.rx.ringSpace) :
    Inv fmt tracked { s.sent k p data with st := s.st.setRx p v (v.rx.putRecord k data) } := by
  obtain ⟨hfds, hrun, hframe⟩ := sent_frame k p data
  refine h.setRx hQ hp hfds hrun hframe fun hfmt => ?_
  obtain ⟨ht, hroom⟩ := hb hfmt
  simp only [sent, hp, if_neg ht, update_self]
  exact (h.right hfmt p v.box (boxes_of_socks hp)).put ht hk hroom

end

theorem Inv.receivedBytes (hk : s.st.socks k = some u) (ht : u.type = .stream)
    (hrx : ∀ bytes, u.rx.Streams bytes → rx.Streams (bytes.drop n)) :
    Inv fmt tracked { s.received k n with st := s.st.setRx k u rx } := by
  rw [received_stream hk ht]
  refine h.setRx hQ hk rfl rfl (fun j hj => ⟨rfl, update_of_ne hj _ _⟩) fun hfmt => ?_
  have hstream := (h.right hfmt k u.box (boxes_of_socks hk)).1 ht
  dsimp only
  rw [update_self, ht]
  exact Box.right_stream (hrx _ hstream)

theorem Inv.receivedRecord
    (hk : s.st.socks k = some u) (ht : u.type ≠ .stream) (hne : u.rx.msgCnt ≠ 0) (len : Nat) :
    Inv fmt tracked { s.received k n with st := s.st.setRx k u (u.rx.framedPop len).2 } := by
  rw [received_framed hk ht]
  refine h.setRx hQ hk rfl rfl (fun j hj => ⟨update_of_ne hj _ _, rfl⟩) fun hfmt => ?_
  dsimp only
  rw [update_self]
  exact (h.right hfmt k u.box (boxes_of_socks hk)).pop ht hne len

end

end

theorem received_zero (hk : s.st.socks k = some u) (ht : u.type = .stream) : s.received k 0 = s := by
  simp [received_stream hk ht]

theorem target_of_ok (hu : s.st.socks k = some u)
    (hp : dgramTarget s.st u dst = .ok p) : s.target k dst = p := by
  simp only [target, hu, hp]

theorem target_of_peer (hu : s.st.socks k = some u) (hp : u.peer ≠ 0) (dst : Option UnixAddr) :
    s.target k dst = u.peer := by
  apply target_of_ok hu
  unfold dgramTarget
  rw [if_pos hp]

end Data

/-! ## Steps -/

section Steps

variable {Q : Ptr → List Ptr} {k : Ptr} {u v : Sock} {data : List UInt8}

section

variable (h : s.Inv fmt tracked)
include h

/-- A write by `unix_send`; `noted` says whether its result counts as a success. -/
theorem unixSend_inv (hQ : s.st.Sane 0 Q s.fds) (hu : s.st.socks k = some u) (noted : Int → Prop)
    [DecidablePred noted] (hfail : ∀ r, r < 0 → ¬ noted r)
    (hnoted : data.length ≤ unixRxbufSz → noted data.length) (hraw : fmt → ¬ s.RawTo k data) :
    Returns (unixSend k data) s.st fun r t => Inv fmt tracked
      { (if noted r then s.sent k (s.target k none) data else s) with st := t } := by
  refine (unixSend_returns hQ hu data).mono fun r t ht => ?_
  rcases ht with ⟨hr, rfl⟩ | ⟨v, hstate, hpeer, hv, hroom, rfl, rfl⟩
  · rw [if_neg (hfail r hr)]
    exact h
  have htype : fmt → v.type = .stream := by
    intro hfmt
    by_contra hne
    exact hraw hfmt ⟨u, v, hu, hstate, hv, hne, hroom⟩
  have hshort : fmt → data.length ≤ unixRxbufSz := by
    intro hfmt
    have hstream := (h.right hfmt u.peer v.box (boxes_of_socks hv)).1 (htype hfmt)
    have hspace := Rx.ringSpace_eq hstream.wf
    change v.rx.ringSpace = _ at hspace
    omega
  split
  · rw [target_of_peer hu hpeer]
    exact h.sentBytes hQ hv (hQ.peer_back hu hv hpeer) fun hfmt => ⟨htype hfmt, hroom⟩
  rename_i hnot
  refine h.setRx hQ hv rfl rfl (fun _ _ => ⟨rfl, rfl⟩) fun hfmt => absurd ?_ hnot
  have hlen := hshort hfmt
  have hint : asInt data.length = data.length := by
    unfold asInt
    rw [if_pos (by simp only [unixRxbufSz] at hlen; omega)]
  rw [hint]
  exact hnoted hlen

theorem Inv.step_write (hf : fmt → s.Formatted (.write k buf)) :
    (s.step (.write k buf)).Inv fmt tracked := by
  refine inv_callOn h fun hk Q u hQ hu => ?_
  unfold scWrite
  by_cases hnil : buf = []
  · rw [if_pos hnil, returns_pure]
    exact h
  rw [if_neg hnil]
  refine unixSend_inv h hQ hu (fun r => 0 < r) (fun r hr => by omega) (fun _ => ?_)
    fun hfmt => hf hfmt hk hnil
  have hpos : 0 < buf.length := length_pos_iff.mpr hnil
  rw [length_take]
  omega

theorem Inv.step_sendto (hf : fmt → s.Formatted (.sendto k buf dst)) :
    (s.step (.sendto k buf dst)).Inv fmt tracked := by
  refine inv_callOn h fun hk Q u hQ hu => ?_
  unfold scSendto
  by_cases hnil : buf = []
  · rw [if_pos hnil, returns_pure, if_neg (by simp [hnil])]
    exact h
  rw [if_neg hnil, returns_sockAt_bind hu]
  split
  · rename_i htype
    split
    · rw [returns_pure]
      exact h
    rename_i hdst
    obtain rfl : dst = none := Option.not_isSome_iff_eq_none.mp hdst
    exact unixSend_inv h hQ hu (fun r => 0 ≤ r ∧ buf ≠ []) (fun r hr => by omega)
      (fun _ => ⟨Int.natCast_nonneg _, hnil⟩) fun hfmt => (hf hfmt hk hnil u hu).1 htype rfl
  rename_i htype
  refine (unixSendtoDgram_returns hQ hu (cut buf) dst).mono fun r t ht => ?_
  rcases ht with ⟨hr, rfl⟩ | ⟨p, v, -, hp, hv, hsize, hroom, rfl, rfl⟩
  · rw [if_neg (by omega)]
    exact h
  have hfits : fmt → v.type ≠ .stream ∧ (cut buf).length + recHdrSz < 2 ^ 32 := by
    intro hfmt
    have hnot := (hf hfmt hk hnil u hu).2 htype
    constructor
    · intro hs
      exact hnot ⟨u, p, v, hu, hp, hv, .inl hs, hsize, hroom⟩
    · by_contra hlen
      exact hnot ⟨u, p, v, hu, hp, hv, .inr (Nat.le_of_not_lt hlen), hsize, hroom⟩
  split
  · rw [target_of_ok hu hp]
    refine h.sentRecord hQ hv hk fun hfmt => ⟨(hfits hfmt).1, ?_⟩
    rw [Nat.mod_eq_of_lt (hfits hfmt).2] at hroom
    omega
  rename_i hnot
  refine h.setRx hQ hv rfl rfl (fun _ _ => ⟨rfl, rfl⟩) fun hfmt => absurd ⟨?_, hnil⟩ hnot
  have hlen := (hfits hfmt).2
  simp only [unixRxbufSz] at hsize
  unfold asInt
  rw [if_pos (by omega)]
  exact Int.natCast_nonneg _

theorem Inv.step_sendmsg (iov : List (List UInt8)) : (s.step (.sendmsg k iov)).Inv fmt tracked := by
  refine inv_callOn h fun hk Q u hQ hu => ?_
  refine (unixSendmsg_returns hQ hu iov).mono fun r t ht => ?_
  rcases ht with ⟨hr, rfl⟩ | ⟨v, hpeer, hv, hcase, hr⟩
  · rw [if_neg (by omega)]
    exact h
  rw [if_pos hr, target_of_peer hu hpeer]
  rcases hcase with ⟨htype, hroom, rfl⟩ | ⟨htype, hroom, rfl⟩
  · exact h.sentBytes hQ hv (hQ.peer_back hu hv hpeer) fun _ => ⟨htype, hroom⟩
  · exact h.sentRecord hQ hv hk fun _ => ⟨htype, hroom⟩

theorem unixRecv_inv (hQ : s.st.Sane 0 Q s.fds) (hu : s.st.socks k = some u) (ht : u.type = .stream)
    (len : Nat) (noted : Int → Prop) [DecidablePred noted] (hfail : ∀ r, r < 0 → ¬ noted r)
    (hpos : ∀ r, 0 < r → noted r) :
    Returns (unixRecv k len) s.st fun r t => Inv fmt tracked
      { (if noted r then s.received k r.toNat else s) with st := t } := by
  refine (unixRecv_returns hu len).mono fun r t hr => ?_
  rcases hr with ⟨hr, rfl⟩ | ⟨n, -, hn, rfl, rfl⟩
  · split
    · have h0 : r = 0 := by
        by_contra hne
        exact hfail r (by omega) ‹_›
      rw [h0, Int.toNat_zero, received_zero hu ht]
      exact h
    · exact h
  have hrx : ∀ bytes, u.rx.Streams bytes → (u.rx.ringRead n).2.Streams (bytes.drop n) :=
    fun bytes hb => (hb.read hn).1
  split
  · exact h.receivedBytes hQ hu ht hrx
  have h0 : n = 0 := by
    by_contra hne
    exact ‹¬ _› (hpos n (by omega))
  subst h0
  have hzero := h.receivedBytes hQ hu ht hrx
  rw [received_zero hu ht] at hzero
  exact hzero

theorem unixRecvmsg_inv (hQ : s.st.Sane 0 Q s.fds) (hu : s.st.socks k = some u) (lens : List Nat)
    (mem : Bool) :
    Returns (unixRecvmsg k lens mem) s.st fun r t => Inv fmt tracked
      { (if 0 ≤ r then s.received k r.toNat else s) with st := t } := by
  refine (unixRecvmsg_returns hu lens mem).mono fun r t hr => ?_
  rcases hr with ⟨hr, rfl⟩ | ⟨ht, rfl, rfl⟩ | ⟨ht, rfl, rfl⟩ | ⟨ht, hne, hr, rfl⟩
  · rw [if_neg (by omega)]
    exact h
  · rw [Int.toNat_zero, received_zero hu ht]
    exact h
  · exact h.receivedBytes hQ hu ht fun bytes hb => hb.readIov lens
  · rw [if_pos hr]
    exact h.receivedRecord hQ hu ht hne lens.sum

theorem Inv.step_recvfrom (len : Nat) (mem : Bool) :
    (s.step (.recvfrom k len mem)).Inv fmt tracked := by
  refine inv_callOn h fun _ Q u hQ hu => ?_
  unfold scRecvfrom
  by_cases hlen : len = 0
  · rw [if_pos hlen, returns_pure, if_neg (by simp [hlen])]
    exact h
  rw [if_neg hlen, returns_sockAt_bind hu]
  split
  · exact unixRecv_inv h hQ hu ‹_› len (fun r => 0 ≤ r ∧ len ≠ 0) (fun r hr => by omega)
      fun r hr => ⟨hr.le, hlen⟩
  · refine (unixRecvmsg_inv h hQ hu [len] mem).mono fun r t ht => ?_
    simpa only [hlen, ne_eq, not_false_eq_true, and_true] using ht

theorem Inv.step_read (len : Nat) : (s.step (.read k len)).Inv fmt tracked := by
  refine inv_callOn h fun _ Q u hQ hu => ?_
  by_cases ht : u.type = .stream
  · exact unixRecv_inv h hQ hu ht _ (fun r => 0 < r) (fun r hr => by omega) fun r hr => hr
  refine (unixRecv_returns hu _).mono fun r t hr => ?_
  rcases hr with ⟨hr, rfl⟩ | ⟨n, hs, -⟩
  · rw [if_neg (by omega)]
    exact h
  · exact absurd hs ht

/-! The calls that make and close sockets. -/

theorem Inv.step_socket (type : SockType) (mem : Option Ptr) (file : Bool) :
    (s.step (.socket type mem file)).Inv fmt tracked := by
  obtain ⟨Q, hQ⟩ := h.sound
  refine inv_call ((scSocket_returns hQ type mem file).mono fun k t ht => ?_)
  rcases ht with ⟨rfl, hkeep⟩ | ⟨hk0, hsound, hboxes⟩
  · exact h.keeps hkeep
  rw [if_neg hk0]
  refine h.put rfl hsound (subset_cons_self _ _) hboxes
    (fun j hj => ⟨update_of_ne hj _ _, update_of_ne hj _ _⟩) fun _ => ?_
  simp only [filed, opened, update_self]
  exact Box.right_empty _ _ type

theorem Inv.step_socketpair (type : SockType) (mem mem' : Option Ptr) (files : Bool) :
    (s.step (.socketpair type mem mem' files)).Inv fmt tracked := by
  obtain ⟨Q, hQ⟩ := h.sound
  refine inv_call ((scSocketpair_returns hQ type mem mem' files).mono fun r t ht => ?_)
  rcases ht with ⟨rfl, hkeep⟩ | ⟨a, b, rfl, hsound, hboxes⟩
  · exact h.keeps hkeep
  refine h.next rfl hsound fun _ j x hx => ?_
  change t.boxes j = some x at hx
  rw [hboxes] at hx
  by_cases hj : j = b ∨ j = a
  · -- a new socket is empty
    have hnew : ∀ {β : Type} (f : Ptr → β) (c : β), update (update f a c) b c j = c := by
      intro β f c
      rcases hj with rfl | rfl
      · simp
      · simp [update_apply]
    rw [hnew] at hx
    simp only [filed, opened, hnew, ← Option.some.inj hx]
    exact .inr (Box.right_empty _ _ type)
  · rw [not_or] at hj
    rw [update_of_ne hj.1, update_of_ne hj.2] at hx
    simp only [filed, opened, update_of_ne hj.1, update_of_ne hj.2]
    exact .inl ⟨hx, trivial, trivial, fun y hy =>
      mem_cons_of_mem _ (mem_cons_of_mem _ hy)⟩

theorem Inv.step_connect (addr : UnixAddr) (mem : Option Ptr) :
    (s.step (.connect k addr mem)).Inv fmt tracked := by
  refine inv_callOn h fun _ Q u hQ hu => ?_
  refine (unixConnect_returns hQ hu addr mem).mono fun r t ht => ?_
  rcases ht with ⟨hr, rfl⟩ | ⟨rfl, hsound, c, type, rfl, -, hboxes⟩
  · rw [if_neg hr]
    exact h
  rw [if_pos rfl]
  refine h.put rfl hsound (List.Subset.refl _) hboxes
    (fun j hj => ⟨update_of_ne hj _ _, update_of_ne hj _ _⟩) fun _ => ?_
  simp only [opened, Option.getD_some, update_self]
  exact Box.right_empty _ _ type

theorem Inv.step_accept (file : Bool) : (s.step (.accept k file)).Inv fmt tracked := by
  refine inv_callOn h fun _ Q u hQ hu => ?_
  refine (scAccept4_returns hQ hu file).mono fun c t ht => ?_
  rcases ht with ⟨hc, hsound, hboxes⟩ | ⟨rfl, hsound, hboxes⟩
  · rw [if_neg hc]
    exact h.next rfl hsound fun _ j b hb =>
      .inl ⟨hboxes ▸ hb, rfl, rfl, subset_cons_self _ _⟩
  rcases hboxes with hboxes | ⟨e, v, he, hboxes⟩
  · exact h.keeps ⟨hsound, hboxes⟩
  -- a socket without a file has sent nothing
  have hsame : s.fds.erase e = s.fds := erase_of_not_mem he
  have hinv : Inv fmt tracked { s with st := t, fds := s.fds.erase e } :=
    h.closed (hsame.symm ▸ hsound) hboxes fun hfmt j b hb _ _ _ =>
      hsame.symm ▸ h.right hfmt j b hb
  rw [hsame] at hinv
  exact hinv

theorem Inv.step_close (hl : tracked → s.LeavesNoSender (.close k)) :
    (s.step (.close k)).Inv fmt tracked := by
  refine inv_callOn h fun hk Q u hQ hu => ?_
  have hfree : ∀ l, k ∉ Q l := fun l hmem => ((Unix.Sane.placed hQ).waits l k hmem).2.1 hk
  refine (unixSockClose_returns hQ hu hfree).mono fun _ t ht => ?_
  obtain ⟨⟨Q', hQ', -⟩, -, hboxes⟩ := ht
  refine h.closed hQ'.sound hboxes fun hfmt j b hb hjk hjp hpeer =>
    (h.right hfmt j b hb).erase fun htr => ?_
  obtain ⟨v, hv, rfl⟩ := socks_of_boxes hb
  exact hl htr u hu j v hv hjk hjp hpeer

/-- Every call keeps the pointers right, and under the conditions the buffers as well. -/
theorem Inv.step {op : Op} (hf : fmt → s.Formatted op) (hl : tracked → s.LeavesNoSender op) :
    (s.step op).Inv fmt tracked := by
  cases op with
  | socket type mem file => exact h.step_socket type mem file
  | socketpair type mem mem' files => exact h.step_socketpair type mem mem' files
  | bind k addr =>
    exact inv_callOn h fun hk Q u hQ hu => (unixBind_returns hQ hu hk addr).mono fun _ t => h.keeps
  | listen k backlog =>
    exact inv_callOn h fun _ Q u hQ hu => (unixListen_returns hQ hu backlog).mono fun _ t => h.keeps
  | connect k addr mem => exact h.step_connect addr mem
  | accept k file => exact h.step_accept file
  | write k buf => exact h.step_write hf
  | sendto k buf dst => exact h.step_sendto hf
  | sendmsg k iov => exact h.step_sendmsg iov
  | read k len => exact h.step_read len
  | recvfrom k len mem => exact h.step_recvfrom len mem
  | recvmsg k lens mem =>
    exact inv_callOn h fun _ Q u hQ hu => unixRecvmsg_inv h hQ hu lens mem
  | close k => exact h.step_close hl
  | unlink path =>
    obtain ⟨Q, hQ⟩ := h.sound
    exact inv_call ((unixUnlinkPath_returns hQ path).mono fun _ t => h.keeps)

end

end Steps

/-! ## Runs -/

def records (srcs : List Ptr) (msgs : List (List UInt8)) : List UInt8 :=
  (zipWith (fun src data => RecHdr.bytes ⟨data.length, src⟩ ++ data) srcs msgs).flatten

/-- Every receive buffer holds what was sent to its socket and not received. -/
structure Framing (s : System) : Prop where
  running : s.faulted = false
  used : ∀ k u, s.st.socks k = some u → u.rx.ringUsed ≤ unixRxbufSz
  stream : ∀ k u, s.st.socks k = some u → u.type = .stream →
    u.rx.ringPeek 0 u.rx.ringUsed = s.bytes k
  framed : ∀ k u, s.st.socks k = some u → u.type ≠ .stream →
    u.rx.msgCnt = (s.msgs k).length ∧ ∃ srcs, srcs.length = (s.msgs k).length ∧
      u.rx.ringPeek 0 u.rx.ringUsed = records srcs (s.msgs k)

theorem records_eq (ms : List Msg) :
    ms.flatMap Msg.bytes = records (ms.map Msg.src) (ms.map Msg.data) := by
  induction ms with
  | nil => rfl
  | cons m ms ih =>
    rw [flatMap_cons, ih]
    rfl

theorem Inv.framing (h : s.Inv True tracked) : s.Framing := by
  have hwf : ∀ k u, s.st.socks k = some u → u.rx.WellFormed := by
    intro k u hu
    obtain ⟨hstream, hframed⟩ := h.right trivial k u.box (boxes_of_socks hu)
    by_cases ht : u.type = .stream
    · exact (hstream ht).wf
    · obtain ⟨ms, hms, -⟩ := hframed ht
      exact hms.wf
  refine ⟨h.running, fun k u hu => ?_, fun k u hu ht => ?_, fun k u hu ht => ?_⟩
  · rw [Rx.ringUsed_eq (hwf k u hu)]
    exact (hwf k u hu).length_le
  · rw [Rx.ringPeek_all (hwf k u hu)]
    exact ((h.right trivial k u.box (boxes_of_socks hu)).1 ht).contents
  obtain ⟨ms, hms, hmsgs, -⟩ := (h.right trivial k u.box (boxes_of_socks hu)).2 ht
  rw [Rx.ringPeek_all (hwf k u hu), ← hmsgs]
  refine ⟨by rw [length_map]; exact hms.count, ms.map Msg.src, ?_, ?_⟩
  · simp
  · rw [← records_eq]
    exact hms.contents

/-- In every run in which what is sent has the format of the socket that it goes to, the
receive buffers hold what was sent and not received. -/
theorem framing_kept (h : Reach Init Formatted (fun s op t => t = s.step op) s) :
    s.Framing := by
  refine (Reach.invariant (I := Inv True False) (fun s hs => inv_init hs) ?_ h).framing
  intro s op t hs hok ht
  rw [ht]
  exact hs.step (fun _ => hok) False.elim

def start : System where
  st := ⟨fun _ => none, replicate unixBindMax none⟩
  fds := []
  msgs := fun _ => []
  bytes := fun _ => []
  faulted := false

theorem start_init : start.Init := ⟨fun _ => rfl, rfl, rfl, rfl⟩

theorem framing_kept_sendmsg : ([.socketpair .dgram (some 1) (some 2) true, .sendmsg 1 [[7]],
    .recvmsg 2 [5] true, .close 1].foldl System.step start).Framing := by
  apply framing_kept
  refine .foldl (P := Formatted) (fun s op hok => ?_) (.start start_init) _ ?_
  · exact ⟨hok, rfl⟩
  · exact ⟨trivial, trivial, trivial, trivial, trivial⟩

/-- A `write` to a datagram socket leaves a byte that belongs to no record. -/
theorem write_breaks_framing : start.Init ∧
    ¬ ([.socketpair .dgram (some 1) (some 2) true, .write 1 [7]].foldl System.step start).Framing := by
  refine ⟨start_init, fun h => ?_⟩
  obtain ⟨u, hu⟩ : ∃ u, ([.socketpair .dgram (some 1) (some 2) true,
      .write 1 [7]].foldl System.step start).st.socks 2 = some u := ⟨_, rfl⟩
  have hcount := (h.framed 2 u hu (by cases hu; decide)).1
  cases hu
  revert hcount
  decide

end System

end Kil0yOS.Unix
