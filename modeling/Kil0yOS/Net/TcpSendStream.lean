/-
The stream that `tcp_send` and `tcp_close` put on the wire.

Each step of a call keeps the sender's invariant, so does each call that begins, and with
them every run in which acknowledgements cover whole chunks.
-/
import Kil0yOS.Lib.Run
import Kil0yOS.Net.TcpSendInvariant

namespace Kil0yOS.Net

open List hiding length
open Lib SendSystem

variable {i : Fin tcpMaxSockets} {u : Nat} {s t : SendSystem}

theorem Poller.back_pending (caller : Poller) : caller.back.pending = 0 := by
  cases caller <;> rfl

namespace SendInv

variable {last : Bool} {chunk payload rest : List UInt8} {caller : Poller} {r : SendStep}
variable {seg : TcpSegment} {start : UInt64}

section

variable (h : SendInv i u s)
include h

theorem plain (hfin : s.fin = false) : s.tx.flags &&& tcpFlagFin = 0 := by
  by_contra hne
  rw [h.flags.mp hne] at hfin
  cases hfin

theorem una_le_length : u ≤ s.length := by
  have := h.pending
  have := h.una_le
  have := h.acked_le
  omega

theorem segEnd_una (hseq : seg.seq = (s.sock i).sndUna) :
    segEnd s.length (s.sock i).sndNxt seg =
      u + seg.payload.length + if seg.flags &&& tcpFlagFin ≠ 0 then 1 else 0 := by
  have hle := h.una_le_length
  have hnear := h.near
  have hdist : ((s.sock i).sndNxt - seg.seq).toNat = s.length - u := by
    rw [hseq, h.una, h.nxt, Serial.toNat_sub hle]
    unfold tcpMss at hnear
    omega
  unfold segEnd
  omega

/-- A segment at `snd_una` that carries the bytes there, with a FIN only behind the last
byte. -/
theorem allows_una (hiss : (t.sock i).iss = (s.sock i).iss)
    (happ : t.app = s.app) (hseq : seg.seq = (s.sock i).sndUna)
    (hpayload : seg.payload <+: s.app.drop u)
    (hfin : seg.flags &&& tcpFlagFin ≠ 0 → u = s.app.length) :
    t.Allows i (.segment seg s.app.length) := by
  refine ⟨fun hne => ?_, fun hflag => ?_⟩
  · have hlt : u < s.app.length := by
      by_contra hge
      rw [drop_eq_nil_of_le (by omega)] at hpayload
      exact hne (prefix_nil.mp hpayload)
    have hnear := h.near
    have hlen : s.app.length ≤ s.length := Nat.le_add_right _ _
    have hback : backFrom (t.sock i).iss seg.seq s.app.length = s.app.length - u := by
      unfold backFrom
      rw [hiss, hseq, h.una, Serial.toNat_sub (by omega)]
      unfold tcpMss at hnear
      omega
    rw [hback, happ, show s.app.length - (s.app.length - u) = u by omega]
    exact ⟨by omega, hpayload⟩
  · rw [hiss, happ, hseq, h.una, hfin hflag]

end

theorem exists_transmit (hlen : payload.length ≤ tcpMss) (sock : TcpSocket) (seq : UInt32)
    (flags : UInt8) :
    ∃ seg, tcpTransmitSeg sock seq flags payload = [seg] ∧ seg.seq = seq ∧ seg.flags = flags ∧
      seg.payload = payload := by
  unfold tcpTransmitSeg
  unfold tcpMss at hlen
  rw [if_neg (by unfold netMaxPacket; omega)]
  exact ⟨_, rfl, rfl, rfl, rfl⟩

/-- The observations so far stay allowed when bytes are taken into the stream. -/
theorem sendOk_grow (h : s.SendOk i) (hplain : ∀ ob ∈ s.log, ob.noFin)
    (hiss : (t.sock i).iss = (s.sock i).iss) (happ : t.app = s.app ++ chunk)
    (hlog : t.log = s.log) : t.SendOk i := by
  intro ob hmem
  rw [hlog] at hmem
  have hold := h ob hmem
  have hfin := hplain ob hmem
  cases ob with
  | success taken acked => exact hold
  | segment seg taken =>
    refine ⟨fun hne => ?_, fun hflag => absurd hfin hflag⟩
    obtain ⟨hle, hpre⟩ := hold.1 hne
    rw [hiss, happ]
    refine ⟨hle, hpre.trans ?_⟩
    have hin : taken - backFrom (s.sock i).iss seg.seq taken ≤ s.app.length := by
      by_contra hout
      rw [drop_eq_nil_of_le (by omega)] at hpre
      exact hne (prefix_nil.mp hpre)
    rw [drop_append_of_le_length hin]
    exact prefix_append _ _

theorem length_of_drop (hdrop : s.app.drop u = chunk) (hne : chunk ≠ []) :
    s.app.length = u + chunk.length := by
  have := congrArg List.length hdrop
  rw [length_drop] at this
  have := length_pos_of_ne_nil hne
  omega

section

variable (h : SendInv i u s)
include h

/-- A chunk is taken into the stream. -/
theorem take (hcall : s.call = .take rest) (hne : rest ≠ []) (now : UInt64) :
    SendInv i u (s.apply i (sendAdvance (s.sock i) s.tx now (.take rest))) := by
  obtain ⟨hfin, hu, htxLen⟩ := h.at_call hcall
  have hlen := length_of_not_fin hfin
  have hpending := h.pending
  rw [hcall] at hpending
  have hsent : s.sent = s.length := hpending
  generalize hchunk : rest.take tcpMss = chunk
  have hchunkLen : chunk.length ≤ tcpMss := by
    rw [← hchunk]
    exact length_take_le _ _
  have hchunkNe : chunk ≠ [] := by
    rw [← hchunk]
    intro hnil
    rcases take_eq_nil_iff.mp hnil with hzero | hnil
    · cases hzero
    · exact hne hnil
  have hr : sendAdvance (s.sock i) s.tx now (.take rest) =
      { sock := { s.sock i with sndNxt := (s.sock i).sndNxt + UInt32.ofNat chunk.length }
        tx := s.tx
        call := .track chunk (rest.drop tcpMss)
        taken := chunk } := by
    rw [← hchunk]
    exact if_neg hne
  rw [hr]
  have htlen : (s.app ++ chunk).length + s.fin.toNat = s.length + chunk.length := by
    rw [length, length_append]
    omega
  have hlog : s.log ++ [] ++ [] = s.log := by
    simp
  constructor
  · rw [apply_sock]
    exact h.state
  · rw [apply_sock]
    exact h.una
  · rw [apply_sock]
    show (s.sock i).sndNxt + _ = _ + UInt32.ofNat ((s.app ++ chunk).length + s.fin.toNat)
    rw [htlen, UInt32.ofNat_add, ← UInt32.add_assoc, h.nxt]
  · show s.sent + chunk.length = (s.app ++ chunk).length + s.fin.toNat
    rw [htlen, hsent]
  · show (s.app ++ chunk).length + s.fin.toNat ≤ _
    omega
  · exact h.una_le
  · exact h.acked_le
  · rw [apply_sock]
    exact h.acked
  · exact h.flags
  · intro _ hne'
    rw [apply_sock] at hne'
    exact absurd htxLen hne'
  · intro _ hzero
    exact absurd (eq_nil_of_length_eq_zero hzero) hchunkNe
  · refine ⟨hfin, ?_, hchunkNe, hchunkLen, ?_⟩
    · rw [hu]
      exact drop_left
    · rw [apply_sock]
      exact htxLen
  · show s.fin = false → ∀ ob ∈ s.log ++ [] ++ [], ob.noFin
    rw [hlog]
    exact h.noFin
  · exact sendOk_grow h.log (h.noFin hfin) (by rw [apply_sock]) rfl hlog

theorem track (hcall : s.call = .track chunk rest) (now : UInt64) :
    SendInv i u (s.apply i (sendAdvance (s.sock i) s.tx now (.track chunk rest))) := by
  obtain ⟨hfin, hdrop, hne, hlen, -⟩ := h.at_call hcall
  have hchunk := length_of_drop hdrop hne
  have hlen' : (UInt16.ofNat chunk.length).toNat = chunk.length := by
    rw [UInt16.toNat_ofNat']
    unfold tcpMss at hlen
    omega
  have hfull : UInt16.ofNat chunk.length ≠ 0 := by
    intro hzero
    rw [hzero] at hlen'
    exact hne (eq_nil_of_length_eq_zero hlen'.symm)
  generalize hr : sendAdvance (s.sock i) s.tx now (.track chunk rest) = r
  have happ : (s.apply i r).app = s.app := apply_app (by rw [← hr]; rfl)
  have htlen : (s.apply i r).length = s.length := apply_length (by rw [← hr]; rfl)
  have hlog : (s.apply i r).log = s.log := by
    rw [← hr]
    simp [apply, sendAdvance]
  subst hr
  constructor
  · rw [apply_sock]
    exact h.state
  · rw [apply_sock]
    exact h.una
  · rw [apply_sock, htlen]
    exact h.nxt
  · rw [htlen, ← h.pending, hcall]
    rfl
  · rw [htlen]
    exact h.near
  · exact h.una_le
  · exact h.acked_le
  · rw [apply_sock]
    exact h.acked
  · show (tcpFlagAck ||| tcpFlagPsh ||| tcpFlagAck) &&& tcpFlagFin ≠ 0 ↔ s.fin = true
    rw [hfin]
    decide
  · intro _ _
    rw [apply_sock, happ]
    show s.app.length = u + (UInt16.ofNat chunk.length).toNat ∧
      s.app.drop u = (chunk ++ s.tx.seg.drop chunk.length).take (UInt16.ofNat chunk.length).toNat
    rw [hlen', take_left]
    exact ⟨hchunk, hdrop⟩
  · intro _ hzero
    exact absurd (eq_nil_of_length_eq_zero hzero) hne
  · refine ⟨hfin, ?_, hne, ?_⟩
    · rw [happ]
      exact hdrop
    · rw [apply_sock]
      exact hfull
  · rw [hlog]
    exact h.noFin
  · exact sendOk_append h.log (by rw [apply_sock]; rfl) happ (hlog.trans (append_nil _).symm) nofun

theorem transmit (hsock : r.sock = s.sock i) (htx : r.tx = s.tx) (htaken : r.taken = [])
    (hresult : r.result = none) (hsegs : r.segs = [seg])
    (hend : segEnd s.length (s.sock i).sndNxt seg = s.length)
    (hallow : s.Allows i (.segment seg s.app.length))
    (hplain : s.fin = false → seg.flags &&& tcpFlagFin = 0) (hpending : r.call.pending = 0)
    (hdrained : s.fin = false → (s.sock i).txLen = 0 → u = s.app.length)
    (hcall : s.AtCall i u r.call) : SendInv i u (s.apply i r) := by
  have hle := h.pending
  have happ := apply_app (i := i) (s := s) htaken
  have hlen := apply_length (i := i) (s := s) htaken
  have hsock' : (s.apply i r).sock i = s.sock i := (apply_sock r).trans hsock
  have hsent : (s.apply i r).sent = s.length := by
    show r.segs.foldl (fun sent seg =>
      max sent (segEnd ((s.app ++ r.taken).length + s.fin.toNat) r.sock.sndNxt seg)) s.sent = _
    rw [hsegs, htaken, append_nil, hsock]
    show max s.sent (segEnd s.length (s.sock i).sndNxt seg) = s.length
    rw [hend]
    exact max_eq_right (by omega)
  have hlog : (s.apply i r).log = s.log ++ [.segment seg s.app.length] := by
    show s.log ++ r.segs.map (fun seg => .segment seg (s.app ++ r.taken).length) ++
      (if r.result = some true then _ else []) = _
    rw [hsegs, htaken, hresult, append_nil]
    exact append_nil _
  constructor
  · rw [hsock']
    exact h.state
  · rw [hsock']
    exact h.una
  · rw [hsock', hlen]
    exact h.nxt
  · show (s.apply i r).sent + r.call.pending = (s.apply i r).length
    omega
  · rw [hlen]
    exact h.near
  · exact h.una_le
  · rw [hsent]
    have := h.acked_le
    show s.acked ≤ s.length
    omega
  · rw [hsock']
    exact h.acked
  · show r.tx.flags &&& tcpFlagFin ≠ 0 ↔ s.fin = true
    rw [htx]
    exact h.flags
  · rw [hsock', happ]
    show s.fin = false → _ → _ ∧ _ = r.tx.seg.take _
    rw [htx]
    exact h.slot
  · rw [hsock', happ]
    exact fun hfin _ => hdrained hfin
  · refine atCall_congr ?_ happ rfl hcall
    rw [hsock']
    exact .refl _
  · refine noFin_append h.noFin rfl hlog fun hfin ob hob => ?_
    rw [mem_singleton.mp hob]
    exact hplain hfin
  · refine sendOk_append h.log (by rw [hsock']) happ hlog fun ob hob => ?_
    rw [mem_singleton.mp hob]
    unfold Allows at hallow ⊢
    rw [hsock', happ]
    exact hallow

theorem resend {flags : UInt8} (hsock : SameSender (s.sock i) r.sock) (htx : r.tx = s.tx)
    (htaken : r.taken = []) (hresult : r.result = none)
    (hsegs : r.segs = tcpTransmitSeg (s.sock i) (s.sock i).sndUna flags payload)
    (hend : u + payload.length + (if flags &&& tcpFlagFin ≠ 0 then 1 else 0) ≤ s.sent)
    (hpayload : payload <+: s.app.drop u) (hfin : flags &&& tcpFlagFin ≠ 0 → u = s.app.length)
    (hplain : s.fin = false → flags &&& tcpFlagFin = 0) (hpending : r.call.pending = s.call.pending)
    (hcall : s.AtCall i u r.call) : SendInv i u (s.apply i r) := by
  have happ := apply_app (i := i) (s := s) htaken
  have hsender := apply_sender hsock
  have hshort : payload.length ≤ tcpMss := by
    have := h.pending
    have := h.near
    omega
  obtain ⟨seg, hseg, hseq, hflags, hbytes⟩ :=
    exists_transmit hshort (s.sock i) (s.sock i).sndUna flags
  rw [hseg] at hsegs
  refine h.apply_congr hsock htx htaken ?_ hpending (atCall_congr hsender happ rfl hcall) ?_
    (fun hok => by rw [hresult] at hok; cases hok)
  · show r.segs.foldl (fun sent seg =>
      max sent (segEnd ((s.app ++ r.taken).length + s.fin.toNat) r.sock.sndNxt seg)) s.sent = _
    rw [hsegs, htaken, append_nil, hsock.sndNxt]
    show max s.sent (segEnd s.length (s.sock i).sndNxt seg) = s.sent
    rw [h.segEnd_una hseq, hflags, hbytes]
    exact max_eq_left hend
  · intro seg' hmem
    rw [hsegs] at hmem
    rw [mem_singleton.mp hmem]
    refine ⟨h.allows_una hsender.iss happ hseq (hbytes ▸ hpayload) (hflags ▸ hfin), fun hno => ?_⟩
    rw [hflags]
    exact hplain hno

theorem advance_transmit (now : UInt64) (hcall : s.call = .transmit chunk rest) :
    SendInv i u (s.apply i (sendAdvance (s.sock i) s.tx now (.transmit chunk rest))) := by
  have hnear := h.near
  obtain ⟨hfin, hdrop, hne, hfull⟩ := h.at_call hcall
  have hlen := length_of_not_fin hfin
  have hplain := h.plain hfin
  have hchunk := length_of_drop hdrop hne
  have hshort : chunk.length ≤ tcpMss := by omega
  obtain ⟨seg, hseg, hseq, hflags, hbytes⟩ :=
    exists_transmit hshort (s.sock i) (s.sock i).sndUna s.tx.flags
  have hend : segEnd s.length (s.sock i).sndNxt seg = s.length := by
    rw [h.segEnd_una hseq, hflags, hbytes, if_neg (fun hne => hne hplain)]
    omega
  have hallow : s.Allows i (.segment seg s.app.length) := by
    refine h.allows_una rfl rfl hseq ?_ fun hflag => absurd hplain (hflags ▸ hflag)
    rw [hbytes, hdrop]
  exact h.transmit rfl rfl rfl rfl hseg hend hallow (fun _ => hflags ▸ hplain) rfl
    (fun _ hzero => absurd hzero hfull) hfin

theorem advance_finSend (now : UInt64) (hcall : s.call = .finSend last) :
    SendInv i u (s.apply i (sendAdvance (s.sock i) s.tx now (.finSend last))) := by
  obtain ⟨hopen, hu⟩ := h.at_call hcall
  have hfin := hopen.1
  have hlen := length_of_fin hfin
  have hshort : ([] : List UInt8).length ≤ tcpMss := Nat.zero_le tcpMss
  obtain ⟨seg, hseg, hseq, hflags, hbytes⟩ :=
    exists_transmit hshort (s.sock i) ((s.sock i).sndNxt - 1) s.tx.flags
  have hnum : (s.sock i).sndNxt - 1 = (s.sock i).iss + 1 + UInt32.ofNat s.app.length := by
    rw [h.nxt, hlen, UInt32.ofNat_add]
    show _ + (_ + 1) - 1 = _
    grind
  have hend : segEnd s.length (s.sock i).sndNxt seg = s.length := by
    unfold segEnd
    rw [hseq, hnum, h.nxt, Serial.toNat_sub (by omega), hbytes, hflags, if_pos (h.flags.mpr hfin)]
    simp only [length_nil]
    omega
  have hallow : s.Allows i (.segment seg s.app.length) :=
    ⟨fun hne => absurd hbytes hne, fun _ => hseq.trans hnum⟩
  refine h.transmit rfl rfl rfl rfl hseg hend hallow (fun hno => ?_) rfl (fun hno => ?_) hopen
  all_goals
    rw [hno] at hfin
    cases hfin

/-- The slot is sent again; if it was retired meanwhile, an empty segment goes out. -/
theorem advance_pollSend (now : UInt64) (hcall : s.call = .pollSend caller) :
    SendInv i u (s.apply i (sendAdvance (s.sock i) s.tx now (.pollSend caller))) := by
  have hpending := h.pending
  rw [hcall] at hpending
  have hfin : s.fin = false := h.at_call hcall
  have hplain := h.plain hfin
  have hsent : s.sent = s.app.length := hpending.trans (length_of_not_fin hfin)
  have hback : s.AtCall i u caller.back := by
    cases caller with
    | application => exact .inl hfin
    | send rest start => exact hfin
  have hslot : u + (s.tx.seg.take (s.sock i).txLen.toNat).length ≤ s.sent ∧
      s.tx.seg.take (s.sock i).txLen.toNat <+: s.app.drop u := by
    by_cases hzero : (s.sock i).txLen = 0
    · rw [hzero]
      exact ⟨le_trans h.una_le h.acked_le, nil_prefix⟩
    · obtain ⟨hlength, hbytes⟩ := h.slot hfin hzero
      rw [← hbytes, length_drop]
      exact ⟨by omega, prefix_rfl⟩
  refine h.resend ⟨rfl, rfl, rfl, rfl, id, id, id⟩ rfl rfl rfl rfl ?_ hslot.2
    (fun hne => absurd hplain hne) (fun _ => hplain) (by rw [hcall]; exact caller.back_pending) hback
  rw [if_neg fun hne => hne hplain]
  exact hslot.1

theorem advance_finResend (now : UInt64) (hcall : s.call = .finResend last start) :
    SendInv i u (s.apply i (sendAdvance (s.sock i) s.tx now (.finResend last start))) := by
  have hpending := h.pending
  rw [hcall] at hpending
  obtain ⟨hopen, hu⟩ := h.at_call hcall
  have hlen := length_of_fin hopen.1
  refine h.resend ⟨rfl, rfl, rfl, rfl, id, id, id⟩ rfl rfl rfl rfl ?_ nil_prefix
    (fun _ => hu) (fun hno => ?_) (by rw [hcall]; rfl) hopen
  · have hsent : s.sent = s.length := hpending
    split
    all_goals
      simp only [length_nil]
      omega
  · rw [hopen.1] at hno
    cases hno

theorem goto {c c' : SendCall} {result : Option Bool} (hcall : s.call = c)
    (hpending : c'.pending = c.pending) (hat : s.AtCall i u c')
    (hresult : result ≠ some true := by simp) :
    SendInv i u (s.apply i { sock := s.sock i, tx := s.tx, call := c', result := result }) :=
  h.apply_silent (.refl _) rfl rfl rfl hresult (hcall ▸ hpending) hat

theorem pollTest (now : UInt64) (hcall : s.call = .pollTest caller) :
    SendInv i u (s.apply i (sendAdvance (s.sock i) s.tx now (.pollTest caller))) := by
  have hat := h.at_call hcall
  have hback : s.AtCall i u caller.back := by
    cases caller with
    | application => exact hat
    | send rest start => exact hat
  rw [sendAdvance]
  split
  next => exact h.goto hcall caller.back_pending hback
  next hused =>
    split
    next => exact h.goto hcall caller.back_pending hback
    split
    next =>
      exact h.apply_silent ⟨rfl, rfl, rfl, rfl, id, fun _ h => (by cases h), fun h => (by cases h)⟩
        rfl rfl rfl (by simp) (by rw [hcall]; exact caller.back_pending) hback
    next =>
      refine h.goto hcall rfl ?_
      show s.fin = false
      cases caller with
      | application =>
        refine hat.resolve_right fun hno => hused (.inl ?_)
        rw [hno]
        rfl
      | send rest start => exact hat

theorem finTest (now : UInt64) (hcall : s.call = .finTest last start) :
    SendInv i u (s.apply i (sendAdvance (s.sock i) s.tx now (.finTest last start))) := by
  have hopen : s.FinOpen i u last := h.at_call hcall
  rw [sendAdvance]
  split
  next hagain =>
    split
    next => exact h.goto hcall rfl hopen.1
    next =>
      refine h.goto hcall rfl ⟨hopen, ?_⟩
      cases last with
      | true => exact hopen.2.1
      | false => exact hopen.2 (hagain.1.resolve_left (by simp))
  next => exact h.goto hcall rfl hopen

theorem closeDone (now : UInt64) (hcall : s.call = .closeDone) :
    SendInv i u (s.apply i (sendAdvance (s.sock i) s.tx now .closeDone)) := by
  refine h.apply_congr ⟨rfl, rfl, rfl, rfl, fun _ => rfl, fun _ h => (by cases h),
    fun h => (by cases h)⟩ rfl rfl rfl (by rw [hcall]; rfl) ?_ (fun _ hseg => by cases hseg)
    nofun
  refine .inr ?_
  rw [apply_sock]
  rfl

theorem advance (now : UInt64) :
    SendInv i u (s.apply i (sendAdvance (s.sock i) s.tx now s.call)) := by
  cases hcall : s.call with
  | idle => exact h.goto hcall rfl (h.at_call hcall)
  | take rest =>
    by_cases hrest : rest = []
    · obtain ⟨hfin, hu, -⟩ := h.at_call hcall
      have hr : sendAdvance (s.sock i) s.tx now (.take rest) =
          { sock := s.sock i, tx := s.tx, call := .idle, result := some true } := if_pos hrest
      rw [hr]
      refine h.apply_congr (.refl _) rfl rfl rfl (by rw [hcall]; rfl) (.inl hfin) nofun fun _ => ?_
      rw [← hu]
      exact h.una_le
    · exact h.take hcall hrest now
  | track chunk rest => exact h.track hcall now
  | transmit chunk rest => exact h.advance_transmit now hcall
  | arm rest =>
    have hfin : s.fin = false := h.at_call hcall
    exact h.apply_silent ⟨rfl, rfl, rfl, rfl, id, id, id⟩ rfl rfl rfl (by simp [sendAdvance])
      (by rw [hcall]; rfl) hfin
  | await rest start =>
    have hfin : s.fin = false := h.at_call hcall
    rw [sendAdvance]
    split <;> exact h.goto hcall rfl hfin
  | pollTest caller => exact h.pollTest now hcall
  | pollSend caller => exact h.advance_pollSend now hcall
  | polled rest start =>
    have hfin : s.fin = false := h.at_call hcall
    rw [sendAdvance]
    split
    next => exact h.goto hcall rfl hfin
    split
    next => exact h.goto hcall rfl (.inl hfin)
    next => exact h.goto hcall rfl hfin
  | judge rest =>
    have hfin : s.fin = false := h.at_call hcall
    rw [sendAdvance]
    split
    next => exact h.goto hcall rfl (.inl hfin)
    next hzero =>
      have hempty : (s.sock i).txLen = 0 := not_not.mp hzero
      exact h.goto hcall rfl ⟨hfin, h.drained hfin (by rw [hcall]; rfl) hempty, hempty⟩
  | finSend last => exact h.advance_finSend now hcall
  | finArm last =>
    have hopen : s.FinOpen i u last := h.at_call hcall
    exact h.apply_silent ⟨rfl, rfl, rfl, rfl, id, id, id⟩ rfl rfl rfl (by simp [sendAdvance])
      (by rw [hcall]; rfl) hopen
  | finAwait last start =>
    have hopen : s.FinOpen i u last := h.at_call hcall
    rw [sendAdvance]
    split
    next => exact h.goto hcall rfl hopen
    next => exact h.goto hcall rfl hopen.1
  | finTest last start => exact h.finTest now hcall
  | finResend last start => exact h.advance_finResend now hcall
  | finLimit last start =>
    have hopen : s.FinOpen i u last := h.at_call hcall
    rw [sendAdvance]
    split
    next => exact h.goto hcall rfl hopen.1
    next => exact h.goto hcall rfl hopen
  | closeDone => exact h.closeDone now hcall

/-- With nothing outstanding the peer has acknowledged the whole stream. -/
theorem una_eq_length (hquiet : (s.sock i).sndUna = (s.sock i).sndNxt) : u = s.length := by
  have hle := h.una_le_length
  have hnear := h.near
  rw [h.una, h.nxt] at hquiet
  unfold tcpMss at hnear
  exact Serial.eq_of_seq_eq hquiet (by omega) (by omega)

theorem idle_una (hidle : s.call = .idle) (hused : (s.sock i).used = true)
    (hquiet : (s.sock i).sndUna = (s.sock i).sndNxt) : s.fin = false ∧ u = s.app.length := by
  have hfin : s.fin = false := by
    refine (h.at_call hidle).resolve_right fun hno => ?_
    rw [hused] at hno
    cases hno
  exact ⟨hfin, (h.una_eq_length hquiet).trans (length_of_not_fin hfin)⟩

theorem takeFin (sock' : TcpSocket) (last : Bool) (hidle : s.call = .idle) (hfin : s.fin = false)
    (hu : u = s.app.length) (hiss : sock'.iss = (s.sock i).iss)
    (huna : sock'.sndUna = (s.sock i).sndUna) (hnxt : sock'.sndNxt = (s.sock i).sndNxt + 1)
    (hsyn : sock'.state ≠ .synSent) (htakes : sock'.state.takesAcks → (s.sock i).state.takesAcks)
    (hlast : last = true → ¬ sock'.state.takesAcks) :
    SendInv i u { s.apply i
      { sock := sock', tx := { s.tx with flags := tcpFlagAck ||| tcpFlagFin }
        call := .finSend last } with fin := true } := by
  have hpending := h.pending
  have hlen := length_of_not_fin hfin
  rw [hidle] at hpending
  have hsent : s.sent = s.length := hpending
  generalize ht : { s.apply i
    { sock := sock', tx := { s.tx with flags := tcpFlagAck ||| tcpFlagFin }
      call := .finSend last : SendStep } with fin := true } = t
  have hsock : t.sock i = sock' := by
    rw [← ht]
    exact apply_sock _
  obtain ⟨htx, htcall, happ, htfin, htsent, htacked, hlog⟩ :
      t.tx.flags = (tcpFlagAck ||| tcpFlagFin) ∧ t.call = .finSend last ∧ t.app = s.app ∧
      t.fin = true ∧ t.sent = s.sent ∧ t.acked = s.acked ∧ t.log = s.log := by
    rw [← ht]
    exact ⟨rfl, rfl, append_nil _, rfl, rfl, rfl, by simp [apply]⟩
  have htlen : t.length = s.length + 1 := by
    unfold length
    rw [happ, htfin, hfin]
    rfl
  have hnot {p : Prop} (hno : t.fin = false) : p := by
    rw [htfin] at hno
    cases hno
  have hopen : t.FinOpen i u last := by
    refine ⟨htfin, ?_⟩
    rw [happ, hsock]
    cases last with
    | true => exact ⟨hu, hlast rfl⟩
    | false => exact fun _ => hu
  constructor
  · rw [hsock]
    exact hsyn
  · rw [hsock, huna, hiss]
    exact h.una
  · rw [hsock, hnxt, hiss, htlen, h.nxt, UInt32.ofNat_add, ← UInt32.add_assoc]
    rfl
  · rw [htsent, htcall, htlen, hsent]
    rfl
  · unfold tcpMss
    omega
  · rw [htacked]
    exact h.una_le
  · rw [htacked, htsent]
    exact h.acked_le
  · rw [hsock, htacked]
    exact fun ha => h.acked (htakes ha)
  · rw [htx, htfin]
    decide
  · exact fun hno => hnot hno
  · exact fun hno => hnot hno
  · rw [htcall]
    exact ⟨hopen, by rw [happ]; exact hu⟩
  · exact fun hno => hnot hno
  · exact sendOk_append h.log (by rw [hsock]; exact hiss) happ
      (hlog.trans (append_nil _).symm) nofun

theorem close (hidle : s.call = .idle) (hquiet : (s.sock i).sndUna = (s.sock i).sndNxt) :
    SendInv i u { s.apply i (tcpCloseStart (s.sock i) s.tx) with
      fin := s.fin || (tcpCloseStart (s.sock i) s.tx).call != .idle } := by
  -- A call that leaves at once.
  have hleave {sock' : TcpSocket} (hsock : SameSender (s.sock i) sock') :
      SendInv i u { s.apply i { sock := sock', tx := s.tx, call := .idle } with
        fin := s.fin || SendCall.idle != .idle } := by
    have hsame := h.apply_silent (r := { sock := sock', tx := s.tx, call := .idle }) hsock rfl rfl
      rfl (by simp) (by rw [hidle]) (h.at_call hidle)
    have heq : (s.fin || SendCall.idle != .idle) = s.fin := Bool.or_false _
    rw [heq]
    exact hsame
  unfold tcpCloseStart
  by_cases hused : (s.sock i).used = true
  · rw [if_neg (by rw [hused]; decide)]
    obtain ⟨hfin, hu⟩ := h.idle_una hidle hused hquiet
    cases hstate : (s.sock i).state with
    | closeWait =>
      have hgo := h.takeFin
        { s.sock i with state := .lastAck, txRetries := 0, sndNxt := (s.sock i).sndNxt + 1 }
        true hidle hfin hu rfl rfl rfl (fun hc => by cases hc) (fun hc => by cases hc)
        (fun _ hc => by cases hc)
      rw [hfin]
      exact hgo
    | established =>
      have hgo := h.takeFin { s.sock i with
          txLen := 1, finQueued := true, txRetries := 0, state := .finWait1
          sndNxt := (s.sock i).sndNxt + 1 }
        false hidle hfin hu rfl rfl rfl nofun (fun _ => by rw [hstate]; rfl)
        nofun
      rw [hfin]
      exact hgo
    | closed | synSent | finWait1 | finWait2 | timeWait | lastAck | closing =>
      exact hleave ⟨rfl, rfl, rfl, rfl, fun _ => rfl, fun _ hc => (by cases hc),
        fun hc => (by cases hc)⟩
  · rw [if_pos (by rw [Bool.eq_false_iff.mpr hused]; rfl)]
    exact hleave (.refl _)

theorem step {a : SendAction} (hord : s.Orderly i a) (hst : s.Step i a t) :
    ∃ u', SendInv i u' t := by
  obtain ⟨hpeer, rfl⟩ := hst
  cases a with
  | frame k srcIp data => exact h.receive hpeer hord
  | send data =>
    rw [step]
    split
    next hstart =>
      obtain ⟨hidle, hused, -⟩ := hstart
      obtain ⟨hfin, hu⟩ := h.idle_una hidle hused hord
      have hempty : (s.sock i).txLen = 0 := by
        by_contra hne
        have hlen := (h.slot hfin hne).1
        have hzero : (s.sock i).txLen.toNat = 0 := by omega
        exact hne (UInt16.toNat_inj.mp hzero)
      exact ⟨u, h.quiet rfl (.refl _) (by rw [hidle]; rfl) ⟨hfin, hu, hempty⟩⟩
    next => exact ⟨u, h⟩
  | poll =>
    rw [step]
    split
    next hidle =>
      exact ⟨u, h.quiet rfl (.refl _) (by rw [hidle]; rfl) (h.at_call hidle)⟩
    next => exact ⟨u, h⟩
  | close =>
    rw [step]
    split
    next hidle => exact ⟨u, h.close hidle hord⟩
    next => exact ⟨u, h⟩
  | advance now => exact ⟨u, h.advance now⟩
  | others sockets =>
    have hsock : sock i (s.step i (.others sockets)) = s.sock i := if_pos rfl
    have hsame : SameSender (s.sock i) (sock i (s.step i (.others sockets))) := by
      rw [hsock]
      exact .refl _
    exact ⟨u, h.quiet rfl hsame rfl (atCall_congr hsame rfl rfl h.call)⟩

end

end SendInv

theorem sendInv_of_reach (h : Reach (Opened i) (Orderly i) (Step i) s) : ∃ u, SendInv i u s :=
  h.invariant (I := fun s => ∃ u, SendInv i u s) (fun _ hs => ⟨0, SendInv.opened hs⟩)
    (fun _ _ _ hs hord hst => hs.elim fun _ hs => hs.step hord hst)

/-- In every run of an established connection in which acknowledgements cover whole
chunks and nothing new is sent over unacknowledged bytes, each segment carries the
stream's bytes at its sequence number, retransmissions included, each FIN stands right
behind the last byte, and `tcp_send` has succeeded only with every byte acknowledged. -/
theorem send_stream_ok (i : Fin tcpMaxSockets) {s : SendSystem}
    (h : Reach (Opened i) (Orderly i) (Step i) s) : s.SendOk i := by
  obtain ⟨u, hinv⟩ := sendInv_of_reach h
  exact hinv.log

/-! ## A connection that sends two bytes -/

instance (a : SendAction) : Decidable (FromReceiver i s a) :=
  match a with
  | .frame _ _ _ => inferInstanceAs (Decidable (∀ seg ∈ tcpDemux _ _ _, _))
  | .send data => inferInstanceAs (Decidable (data.length < 2 ^ 16))
  | .poll | .close | .advance _ | .others _ => isTrue trivial

instance (a : SendAction) : Decidable (s.Orderly i a) :=
  match a with
  | .frame _ _ _ => inferInstanceAs (Decidable (∀ seg ∈ tcpDemux _ _ _, _))
  | .send _ | .close => inferInstanceAs (Decidable (_ = _))
  | .poll | .advance _ | .others _ => isTrue trivial

def twoSystem : SendSystem :=
  { net := { ip := 0x0A00020F, sockets := fun _ => quietSocket 1000 }
    tx := { seg := [], flags := tcpFlagSyn }
    call := .idle
    app := []
    fin := false
    sent := 0
    acked := 0
    log := [] }

theorem twoSystem_opened : Opened 0 twoSystem where
  established := rfl
  sndUna := rfl
  sndNxt := rfl
  txLen := rfl
  flags := rfl
  idle := rfl
  app := rfl
  fin := rfl
  sent := rfl
  acked := rfl
  log := rfl

theorem twoSystem_reach {ok : SendSystem → SendAction → Prop} (acts : List SendAction)
    (h : Along (fun s a => ok s a ∧ FromReceiver 0 s a) (step 0) twoSystem acts) :
    Reach (Opened 0) ok (Step 0) (acts.foldl (step 0) twoSystem) :=
  .foldl (fun _ _ h => ⟨h.1, h.2, rfl⟩) (.start twoSystem_opened) acts h

def ackFrame (ack low high : UInt8) : List UInt8 :=
  [0, 80, 192, 0, 0, 0, 3, 232, 0, 0, 0, ack, 80, 16, 0, 0, low, high, 0, 0]

/-- Two bytes are sent, sent again after the timeout and acknowledged; then the FIN is. -/
def wholeAcks : List SendAction :=
  [.send [1, 2], .advance 1, .advance 1, .advance 1, .advance 1, .advance 300001,
    .advance 300001, .advance 300001, .frame 2 0x0A000202 (ackFrame 3 211 136), .advance 300001,
    .advance 300001, .advance 300001, .close, .advance 300002, .advance 300002,
    .frame 3 0x0A000202 (ackFrame 4 211 135)]

/-- The sequence number, flags and bytes of a segment, or how much was taken and
acknowledged when `tcp_send` succeeded. -/
def SendObservation.brief : SendObservation → UInt32 × UInt8 × List UInt8 ⊕ Nat × Nat
  | .segment seg _ => .inl (seg.seq, seg.flags, seg.payload)
  | .success taken acked => .inr (taken, acked)

theorem send_stream_ok_wholeAcks : let s := wholeAcks.foldl (step 0) twoSystem
    s.SendOk 0 ∧ s.log.map SendObservation.brief =
      [.inl (1, 24, [1, 2]), .inl (1, 24, [1, 2]), .inr (2, 2), .inl (3, 17, [])] := by
  refine ⟨send_stream_ok 0 (twoSystem_reach wholeAcks (by decide +kernel)), ?_⟩
  decide +kernel

/-- The peer acknowledges the first of the two bytes. -/
def firstByteAcked : List SendAction :=
  [.send [1, 2], .advance 1, .advance 1, .advance 1, .advance 1,
    .frame 1 0x0A000202 (ackFrame 2 211 137), .advance 2, .advance 2, .advance 2]

/-- Without the condition the promise is broken: an acknowledgement of the first byte
retires the chunk, and `tcp_send` succeeds with the second byte unacknowledged. -/
theorem send_stream_partial_ack :
    ¬ ∀ s, Reach (Opened 0) (fun _ _ => True) (Step 0) s → s.SendOk 0 := by
  intro hall
  have hmem : Sum.inr (2, 1) ∈
      (firstByteAcked.foldl (step 0) twoSystem).log.map SendObservation.brief := by
    exact mem_cons_of_mem _ mem_cons_self
  obtain ⟨ob, hob, hbrief⟩ := mem_map.mp hmem
  have hok := hall _ (twoSystem_reach firstByteAcked (by decide +kernel)) ob hob
  cases ob with
  | segment seg taken => cases hbrief
  | success taken acked =>
    cases hbrief
    have hle : 2 ≤ 1 := hok
    omega

end Kil0yOS.Net
