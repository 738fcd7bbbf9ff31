/-
A TCP connection whose peer numbers its stream from another starting point.

The sequence numbers of the peer reach a connection in the segments that arrive, and are
kept in `rcv_nxt`.  All tests of them are for equality, and so do not change when the same
constant is added to each, but for the one at a FIN: `fin_end > rcv_nxt` compares them as
plain numbers.
-/
import Mathlib.Data.UInt
import Kil0yOS.Lib.Run
import Kil0yOS.Net.TcpSend

namespace Kil0yOS.Net

open Lib TcpSocket

variable {payload : List UInt8} {len : Nat} {h : TcpHeader} {seq srcIp : UInt32} {flags : UInt8}

/-! ## The connection -/

structure Connection where
  sock : TcpSocket
  tx : TxSlot
  recv : RecvCall
  send : SendCall

inductive ConnAction
  /-- A segment with a right checksum arrives. -/
  | segment (srcIp : UInt32) (h : TcpHeader) (payload : List UInt8)
  /-- `tcp_recv` is called, or goes on. -/
  | recv (maxlen : Nat)
  | recvStep (giveUp : Bool)
  /-- `tcp_send`, `tcp_poll` or `tcp_close` is called, or goes on. -/
  | send (data : List UInt8)
  | poll
  | close
  | sendStep (now : UInt64)

/-- What a step shows: the segments transmitted, what `tcp_recv` and `tcp_send` return, and
the state of the socket. -/
structure Shown where
  segs : List TcpSegment
  event : RecvEvent
  result : Option Bool
  state : TcpState
  deriving DecidableEq

namespace Connection

variable (s : Connection)

def applySend (r : SendStep) : Connection × Shown :=
  ({ s with sock := r.sock, tx := r.tx, send := r.call }, ⟨r.segs, .silent, r.result, r.sock.state⟩)

def still (event : RecvEvent) (result : Option Bool) : Connection × Shown :=
  (s, ⟨[], event, result, s.sock.state⟩)

def step : ConnAction → Connection × Shown
  | .segment srcIp h payload =>
    if s.sock.accepts srcIp h then
      let r := tcpSegmentArrives s.sock h payload
      ({ s with sock := r.1 }, ⟨r.2, .silent, none, r.1.state⟩)
    else s.still .silent none
  | .recv maxlen =>
    if s.recv = .idle then
      if s.sock.used then
        ({ s with recv := .polled maxlen }, ⟨[], .silent, none, s.sock.state⟩)
      else s.still .error none
    else s.still .silent none
  | .recvStep giveUp =>
    let r := tcpRecvStep s.sock giveUp s.recv
    ({ s with sock := r.1, recv := r.2.1 }, ⟨[], r.2.2, none, r.1.state⟩)
  | .send data =>
    if s.send = .idle then
      if s.sock.used ∧ s.sock.state = .established then
        ({ s with send := .take data }, ⟨[], .silent, none, s.sock.state⟩)
      else s.still .silent (some false)
    else s.still .silent none
  | .poll =>
    if s.send = .idle then
      ({ s with send := .pollTest .application }, ⟨[], .silent, none, s.sock.state⟩)
    else s.still .silent none
  | .close =>
    if s.send = .idle then s.applySend (tcpCloseStart s.sock s.tx) else s.still .silent none
  | .sendStep now => s.applySend (sendAdvance s.sock s.tx now s.send)

end Connection

/-- A segment that `tcp_receive` finds for a socket is taken as in a step of its
connection, and the other sockets are left alone. -/
theorem tcpReceive_step {net : NetState} {data : List UInt8} {i : Fin tcpMaxSockets}
    (hdemux : tcpDemux net srcIp data = some (i, h, payload)) (tx : TxSlot) (recv : RecvCall)
    (send : SendCall) :
    let r := Connection.step ⟨net.sockets i, tx, recv, send⟩ (.segment srcIp h payload)
    tcpReceive net srcIp data =
      ({ net with sockets := Function.update net.sockets i r.1.sock }, some (i, r.2.segs)) := by
  have haccepts : (net.sockets i).accepts srcIp h = true := by
    unfold tcpDemux at hdemux
    split at hdemux
    · cases hdemux
    dsimp only at hdemux
    split at hdemux
    · cases hdemux
    split at hdemux
    · cases hdemux
    rename_i hfind
    split at hdemux
    · cases hdemux
    · cases hdemux
      have hok := List.find?_some hfind
      exact hok
  unfold tcpReceive Connection.step
  rw [hdemux]
  dsimp only
  rw [if_pos haccepts]

/-! ## The shift -/

section Shift
variable (c : UInt32)

def TcpHeader.shift (h : TcpHeader) : TcpHeader := { h with seq := h.seq + c }

def TcpSegment.shift (seg : TcpSegment) : TcpSegment := { seg with ack := seg.ack + c }

def TcpSocket.shift (sock : TcpSocket) : TcpSocket := { sock with rcvNxt := sock.rcvNxt + c }

def RecvEvent.shift : RecvEvent → RecvEvent
  | .sent segs => .sent (segs.map (.shift c))
  | ev => ev

def SendStep.shift (r : SendStep) : SendStep :=
  { r with sock := r.sock.shift c, segs := r.segs.map (.shift c) }

def Connection.shift (s : Connection) : Connection := { s with sock := s.sock.shift c }

def ConnAction.shift : ConnAction → ConnAction
  | .segment srcIp h payload => .segment srcIp (h.shift c) payload
  | a => a

def Shown.shift (o : Shown) : Shown :=
  { o with segs := o.segs.map (.shift c), event := o.event.shift c }

def shiftRecv (r : TcpSocket × RecvCall × RecvEvent) : TcpSocket × RecvCall × RecvEvent :=
  (r.1.shift c, r.2.1, r.2.2.shift c)

def shiftStep (r : Connection × Shown) : Connection × Shown := (r.1.shift c, r.2.shift c)

/-! ## What commutes with it -/

variable (sock : TcpSocket)

theorem tcpTransmitSeg_shift (seq : UInt32) (flags : UInt8) (payload : List UInt8) :
    tcpTransmitSeg (sock.shift c) seq flags payload =
      (tcpTransmitSeg sock seq flags payload).map (.shift c) := by
  unfold tcpTransmitSeg
  split
  · rfl
  · rfl

theorem tcpProcessAck_shift (flags : UInt8) (ack : UInt32) :
    tcpProcessAck (sock.shift c) flags ack = (tcpProcessAck sock flags ack).shift c := by
  unfold tcpProcessAck
  simp only [apply_ite (shift c)]
  rfl

theorem tcpInOrderData_shift (seq : UInt32) (payload : List UInt8) :
    tcpInOrderData (sock.shift c) (seq + c) payload =
      ((tcpInOrderData sock seq payload).1.shift c,
        (tcpInOrderData sock seq payload).2.map (.shift c)) := by
  have heq : seq + c = (sock.shift c).rcvNxt ↔ seq = sock.rcvNxt := UInt32.add_left_inj c
  unfold tcpInOrderData
  split
  · rw [← tcpTransmitSeg_shift]
    by_cases hseq : seq = sock.rcvNxt
    · rw [if_pos hseq, if_pos (heq.mpr hseq)]
      simp only [shift, tcpRxPush, add_right_comm]
    · rw [if_neg hseq, if_neg fun h => hseq (heq.mp h)]
      rfl
  · rfl

theorem tcpFinAcked_shift : tcpFinAcked (sock.shift c) = (tcpFinAcked sock).shift c := by
  unfold tcpFinAcked
  split
  · next h =>
    rw [if_pos (show sock.state = _ ∧ sock.txLen = 0 ∧ sock.finQueued = false from h)]
    rfl
  next h =>
  rw [if_neg (show ¬ (sock.state = _ ∧ sock.txLen = 0 ∧ sock.finQueued = false) from h),
    apply_ite (shift c)]
  rfl

/-- The comparison at a FIN that comes to an end at `finEnd`. -/
def SameOrder (rcvNxt finEnd : UInt32) : Prop := rcvNxt < finEnd ↔ rcvNxt + c < finEnd + c
deriving Decidable

/-- The larger of two numbers, shifted, is the larger of the numbers shifted exactly if
they are in the same order. -/
theorem max_shift_iff (a b : UInt32) :
    (if a + c < b + c then b + c else a + c) = (if a < b then b else a) + c ↔ SameOrder c a b := by
  have hne : a < b → a + c ≠ b + c := fun h heq =>
    absurd ((UInt32.add_left_inj c).mp heq) (UInt32.ne_of_lt h)
  have hne' : a + c < b + c → a + c ≠ b + c := UInt32.ne_of_lt
  unfold SameOrder
  by_cases h : a < b
  · by_cases h' : a + c < b + c
    · simp [h, h']
    · simp [h, h', hne h]
  · by_cases h' : a + c < b + c
    · simp [h, h', (hne' h').symm]
    · simp [h, h']

theorem finEnd_shift (seq n : UInt32) : seq + c + n + 1 = seq + n + 1 + c := by
  rw [add_right_comm seq, add_right_comm (seq + n)]

theorem tcpProcessFin_shift
    (h : flags &&& tcpFlagFin ≠ 0 → SameOrder c sock.rcvNxt (seq + UInt32.ofNat len + 1)) :
    tcpProcessFin (sock.shift c) flags (seq + c) len =
      ((tcpProcessFin sock flags seq len).1.shift c,
        (tcpProcessFin sock flags seq len).2.map (.shift c)) := by
  unfold tcpProcessFin
  by_cases hfin : flags &&& tcpFlagFin ≠ 0
  · have hmax := (max_shift_iff c sock.rcvNxt (seq + UInt32.ofNat len + 1)).mpr (h hfin)
    rw [if_pos hfin, if_pos hfin, ← tcpTransmitSeg_shift]
    simp only [shift, finEnd_shift, hmax]
  · rw [if_neg hfin, if_neg hfin]
    rfl

/-- The acknowledgement of the FIN shows it if the order is not the same. -/
theorem tcpProcessFin_shows (hfin : flags &&& tcpFlagFin ≠ 0)
    (h : ¬ SameOrder c sock.rcvNxt (seq + UInt32.ofNat len + 1)) :
    (tcpProcessFin (sock.shift c) flags (seq + c) len).2 ≠
      (tcpProcessFin sock flags seq len).2.map (.shift c) := by
  intro heq
  apply h
  rw [← max_shift_iff]
  unfold tcpProcessFin at heq
  rw [if_pos hfin, if_pos hfin] at heq
  have hack := congrArg (List.map TcpSegment.ack) heq
  simp only [shift, finEnd_shift] at hack
  exact (List.cons.inj hack).1

/-! ## A segment -/

def TcpSocket.taken (seq : UInt32) (payload : List UInt8) : UInt32 :=
  if seq = sock.rcvNxt then sock.rcvNxt + UInt32.ofNat payload.length else sock.rcvNxt

theorem rcvNxt_tcpProcessAck (flags : UInt8) (ack : UInt32) :
    (tcpProcessAck sock flags ack).rcvNxt = sock.rcvNxt := by
  unfold tcpProcessAck
  split_ifs <;> rfl

theorem rcvNxt_tcpInOrderData (seq : UInt32) (payload : List UInt8) :
    (tcpInOrderData sock seq payload).1.rcvNxt = sock.taken seq payload := by
  unfold tcpInOrderData taken
  cases payload with
  | nil =>
    simp
  | cons b payload =>
    rw [if_pos (show 0 < (b :: payload).length from Nat.zero_lt_succ _)]
    rw [apply_ite rcvNxt]

theorem rcvNxt_data (h : TcpHeader) (payload : List UInt8) :
    (tcpInOrderData (tcpProcessAck sock h.flags h.ack) h.seq payload).1.rcvNxt =
      sock.taken h.seq payload := by
  rw [rcvNxt_tcpInOrderData, taken, rcvNxt_tcpProcessAck]
  rfl

/-- The states in which a FIN is taken. -/
def TcpState.takesFin : TcpState → Bool
  | .established | .finWait1 | .finWait2 | .closing => true
  | _ => false

/-- A segment whose FIN, if it is taken, is compared in the same order. -/
def TcpSocket.Keeps (h : TcpHeader) (payload : List UInt8) : Prop :=
  h.flags &&& tcpFlagRst = 0 → sock.state.takesFin = true → h.flags &&& tcpFlagFin ≠ 0 →
    SameOrder c (sock.taken h.seq payload) (h.seq + UInt32.ofNat payload.length + 1)

/-- The part of `tcp_receive` for the states in which data is taken. -/
def tcpData (h : TcpHeader) (payload : List UInt8) : TcpSocket × List TcpSegment :=
  let acked := tcpProcessAck sock h.flags h.ack
  let data := tcpInOrderData acked h.seq payload
  let fin := tcpProcessFin data.1 h.flags h.seq payload.length
  (tcpFinAcked fin.1, data.2 ++ fin.2)

theorem tcpData_shift (hkeeps : h.flags &&& tcpFlagFin ≠ 0 →
      SameOrder c (sock.taken h.seq payload) (h.seq + UInt32.ofNat payload.length + 1)) :
    tcpData (sock.shift c) (h.shift c) payload =
      ((tcpData sock h payload).1.shift c, (tcpData sock h payload).2.map (.shift c)) := by
  have hkeeps : h.flags &&& tcpFlagFin ≠ 0 →
      SameOrder c (tcpInOrderData (tcpProcessAck sock h.flags h.ack) h.seq payload).1.rcvNxt
        (h.seq + UInt32.ofNat payload.length + 1) := by
    rw [rcvNxt_data]
    exact hkeeps
  have hfin := tcpProcessFin_shift c _ hkeeps
  unfold tcpData
  simp [TcpHeader.shift, tcpProcessAck_shift, tcpInOrderData_shift, hfin, tcpFinAcked_shift]

theorem tcpData_shows (hfin : h.flags &&& tcpFlagFin ≠ 0)
    (hno : ¬ SameOrder c (sock.taken h.seq payload) (h.seq + UInt32.ofNat payload.length + 1)) :
    (tcpData (sock.shift c) (h.shift c) payload).2 ≠
      (tcpData sock h payload).2.map (.shift c) := by
  have hrcv := rcvNxt_data sock h payload
  intro heq
  unfold tcpData at heq
  simp only [TcpHeader.shift, tcpProcessAck_shift, tcpInOrderData_shift, List.map_append] at heq
  exact tcpProcessFin_shows c _ hfin (hrcv ▸ hno) (List.append_cancel_left heq)

theorem tcpSegmentArrives_data (hrst : h.flags &&& tcpFlagRst = 0)
    (hstate : sock.state.takesFin = true) :
    tcpSegmentArrives sock h payload = tcpData sock h payload := by
  unfold tcpSegmentArrives
  rw [if_neg fun hne => hne hrst]
  cases hs : sock.state with
  | established | finWait1 | finWait2 | closing => rfl
  | closed | synSent | timeWait | closeWait | lastAck =>
    rw [hs] at hstate
    cases hstate

theorem tcpSegmentArrives_shift (hkeeps : sock.Keeps c h payload) :
    tcpSegmentArrives (sock.shift c) (h.shift c) payload =
      ((tcpSegmentArrives sock h payload).1.shift c,
        (tcpSegmentArrives sock h payload).2.map (.shift c)) := by
  by_cases hrst : h.flags &&& tcpFlagRst = 0
  · have hrst' : (h.shift c).flags &&& tcpFlagRst = 0 := hrst
    by_cases htakes : sock.state.takesFin = true
    · rw [tcpSegmentArrives_data sock hrst htakes, tcpSegmentArrives_data (sock.shift c) hrst' htakes]
      exact tcpData_shift c sock (hkeeps hrst htakes)
    have hstate : (sock.shift c).state = sock.state := rfl
    unfold tcpSegmentArrives
    rw [if_neg (not_not.mpr hrst), if_neg (not_not.mpr hrst'), hstate]
    cases hs : sock.state with
    | established | finWait1 | finWait2 | closing => exact absurd (by rw [hs]; rfl) htakes
    | closed | closeWait => rfl
    | synSent =>
      have hend := add_right_comm h.seq c 1
      have hend' := add_right_comm (h.seq + 1) c (UInt32.ofNat payload.length)
      dsimp only
      split
      · next hcond =>
        rw [if_pos (by exact hcond), ← tcpTransmitSeg_shift]
        simp only [shift, TcpHeader.shift, tcpRxPush, hend, hend']
      · next hcond => rw [if_neg (by exact hcond)]; rfl
    | lastAck =>
      dsimp only
      split
      · next hcond => rw [if_pos (by exact hcond)]; rfl
      · next hcond => rw [if_neg (by exact hcond)]; rfl
    | timeWait =>
      dsimp only
      split
      · next hcond =>
        rw [if_pos (by exact hcond)]
        rfl
      · next hcond => rw [if_neg (by exact hcond)]; rfl
  · unfold tcpSegmentArrives
    rw [if_pos (by exact hrst), if_pos hrst]
    rfl

/-! ## The calls -/

theorem tcpRecvStep_shift (giveUp : Bool) (call : RecvCall) :
    tcpRecvStep (sock.shift c) giveUp call = shiftRecv c (tcpRecvStep sock giveUp call) := by
  cases call with
  | idle => rfl
  | windowUpdate =>
    rfl
  | polled | testRing | drain | testFin | waiting =>
    simp only [tcpRecvStep, apply_ite (shiftRecv c)]
    rfl

theorem sendAdvance_shift (tx : TxSlot) (now : UInt64) (call : SendCall) :
    sendAdvance (sock.shift c) tx now call = (sendAdvance sock tx now call).shift c := by
  cases call with
  | idle | track | arm | finArm | closeDone => rfl
  | transmit | pollSend | finSend | finResend =>
    simp only [sendAdvance, SendStep.shift, ← tcpTransmitSeg_shift]
    rfl
  | take | await | judge | finAwait | finLimit | polled | finTest | pollTest =>
    simp only [sendAdvance, apply_ite (SendStep.shift c)]
    rfl

theorem tcpCloseStart_shift (tx : TxSlot) :
    tcpCloseStart (sock.shift c) tx = (tcpCloseStart sock tx).shift c := by
  unfold tcpCloseStart
  rw [apply_ite (SendStep.shift c)]
  have hsame : (sock.shift c).state = sock.state := rfl
  rw [hsame]
  cases sock.state with
  | closeWait | established | closed | synSent | finWait1 | finWait2 | timeWait | lastAck | closing => rfl

/-! ## Runs -/

/-- A step at which no FIN is taken that is compared in another order. -/
def Connection.Keeps (s : Connection) : ConnAction → Prop
  | .segment srcIp h payload => s.sock.accepts srcIp h = true → s.sock.Keeps c h payload
  | _ => True

variable {c} {s : Connection} {a : ConnAction}

theorem step_segment_of_accepts (haccepts : s.sock.accepts srcIp h = true) :
    s.step (.segment srcIp h payload) =
      ({ s with sock := (tcpSegmentArrives s.sock h payload).1 },
        ⟨(tcpSegmentArrives s.sock h payload).2, .silent, none,
          (tcpSegmentArrives s.sock h payload).1.state⟩) := if_pos haccepts

/-- A step that keeps the order commutes with the shift. -/
theorem Connection.step_shift (h : s.Keeps c a) :
    (s.shift c).step (a.shift c) = shiftStep c (s.step a) := by
  cases a with
  | segment srcIp hd payload =>
    by_cases haccepts : s.sock.accepts srcIp hd = true
    · have haccepts' : (s.shift c).sock.accepts srcIp (hd.shift c) = true := haccepts
      have harrives : tcpSegmentArrives (s.shift c).sock (hd.shift c) payload = _ :=
        tcpSegmentArrives_shift c s.sock (h haccepts)
      rw [step_segment_of_accepts haccepts, ConnAction.shift, step_segment_of_accepts haccepts',
        harrives]
      rfl
    · have hidle : s.step (.segment srcIp hd payload) = s.still .silent none := if_neg haccepts
      have hidle' : (s.shift c).step (.segment srcIp (hd.shift c) payload) =
          (s.shift c).still .silent none := if_neg haccepts
      rw [hidle, ConnAction.shift, hidle']
      rfl
  | recv maxlen =>
    simp only [Connection.step, ConnAction.shift, apply_ite (shiftStep c)]
    rfl
  | recvStep giveUp =>
    have hstep : tcpRecvStep (s.shift c).sock giveUp (s.shift c).recv = _ :=
      tcpRecvStep_shift c s.sock giveUp s.recv
    simp only [Connection.step, ConnAction.shift, hstep]
    rfl
  | send data =>
    simp only [Connection.step, ConnAction.shift, apply_ite (shiftStep c)]
    rfl
  | poll =>
    simp only [Connection.step, ConnAction.shift, apply_ite (shiftStep c)]
    rfl
  | close =>
    have hclose : tcpCloseStart (s.shift c).sock (s.shift c).tx = _ :=
      tcpCloseStart_shift c s.sock s.tx
    simp only [Connection.step, ConnAction.shift, hclose, apply_ite (shiftStep c)]
    rfl
  | sendStep now =>
    have hstep : sendAdvance (s.shift c).sock (s.shift c).tx now (s.shift c).send = _ :=
      sendAdvance_shift c s.sock s.tx now s.send
    simp only [Connection.step, ConnAction.shift, hstep]
    rfl

/-- A step that does not keep the order shows it. -/
theorem Connection.step_shows (h : ¬ s.Keeps c a) :
    ((s.shift c).step (a.shift c)).2 ≠ (s.step a).2.shift c := by
  cases a with
  | segment srcIp hd payload =>
    have hkeeps : s.sock.accepts srcIp hd = true ∧ ¬ s.sock.Keeps c hd payload :=
      Classical.not_imp.mp h
    obtain ⟨haccepts, hno⟩ := hkeeps
    obtain ⟨hrst, hno⟩ := Classical.not_imp.mp hno
    obtain ⟨hstate, hno⟩ := Classical.not_imp.mp hno
    obtain ⟨hfin, hno⟩ := Classical.not_imp.mp hno
    have haccepts' : (s.shift c).sock.accepts srcIp (hd.shift c) = true := haccepts
    rw [step_segment_of_accepts haccepts, ConnAction.shift, step_segment_of_accepts haccepts']
    intro heq
    have hsegs : (tcpSegmentArrives (s.sock.shift c) (hd.shift c) payload).2 =
        (tcpSegmentArrives s.sock hd payload).2.map (.shift c) := congrArg Shown.segs heq
    have hrst' : (hd.shift c).flags &&& tcpFlagRst = 0 := hrst
    rw [tcpSegmentArrives_data s.sock hrst hstate,
      tcpSegmentArrives_data (s.sock.shift c) hrst' hstate] at hsegs
    exact tcpData_shows c s.sock hfin hno hsegs
  | recv | recvStep | send | poll | close | sendStep => exact absurd trivial h

end Shift

/-- With a constant added to every sequence number of the peer, a connection shows the same,
but for that constant in the acknowledgements, exactly along the runs in which every FIN
taken is compared with `rcv_nxt` in the same order as before. -/
theorem tcp_shift_iff (c : UInt32) (s : Connection) (acts : List ConnAction) :
    outputs Connection.step (s.shift c) (acts.map (.shift c)) =
        (outputs Connection.step s acts).map (.shift c) ↔
      Along (Connection.Keeps c) (fun s a => (s.step a).1) s acts :=
  outputs_map_iff (fun _ _ h => Connection.step_shift h) (fun _ _ h => Connection.step_shows h)
    s acts

/-- An established connection whose peer has used up its sequence numbers but one. -/
def lastNumber : Connection where
  sock := quietSocket 0xFFFFFFFF
  tx := { seg := [], flags := tcpFlagSyn }
  recv := .idle
  send := .idle

def lastFin : ConnAction :=
  .segment 0x0A000202
    { srcPort := 80, dstPort := 49152, seq := 0xFFFFFFFF, ack := 1, dataOff := 0x50
      flags := tcpFlagFin ||| tcpFlagAck } []

/-- The FIN is not acknowledged, and would be if the peer had begun one number later. -/
theorem fin_lost_at_wrap :
    (outputs Connection.step lastNumber [lastFin]).map (fun o => o.segs.map TcpSegment.ack) =
        [[0xFFFFFFFF]] ∧
      (outputs Connection.step (lastNumber.shift 1) [lastFin.shift 1]).map
        (fun o => o.segs.map TcpSegment.ack) = [[1]] ∧
      outputs Connection.step (lastNumber.shift 1) ([lastFin].map (.shift 1)) ≠
        (outputs Connection.step lastNumber [lastFin]).map (.shift 1) := by
  refine ⟨by decide +kernel, by decide +kernel, by decide +kernel⟩

end Kil0yOS.Net
