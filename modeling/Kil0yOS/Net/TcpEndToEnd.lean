/-
Two hosts on one TCP connection, and between them a network that loses, repeats and
reorders segments.
-/
import Kil0yOS.Net.TcpSendStream
import Kil0yOS.Net.TcpStream

namespace Kil0yOS.Net

open List hiding length
open Lib SendSystem

variable (i j : Fin tcpMaxSockets) (s : SendSystem)

/-- The sender as its receiver sees it. -/
def SendSystem.peer : Peer := { stream := s.app, first := (s.sock i).iss + 1 }

/-- Every frame that reaches connection `j` carries a segment the sender transmitted at
some time, and is no reset. -/
def Carried (r : RecvSystem) : RecvAction → Prop
  | .frame o srcIp data =>
    ∀ seg ∈ tcpDemux r.net srcIp data, seg.1 = j →
      (∃ ob ∈ s.log, ob.brief = .inl (seg.2.1.seq, seg.2.1.flags, seg.2.2)) ∧
        seg.2.1.flags &&& tcpFlagRst = 0 ∧ o = (seg.2.1.seq - (s.peer i).first).toNat
  | _ => True

variable {i j s} {r : RecvSystem} {a : RecvAction}

theorem Carried.fromPeer (h : Carried i j s r a) (hs : s.SendOk i) (hlen : s.app.length < 2 ^ 32) :
    FromPeer j (s.peer i) r a := by
  cases a with
  | start maxlen | advance giveUp | others sockets => trivial
  | frame o srcIp data =>
    rintro ⟨_, hd, payload⟩ hseg hj
    obtain ⟨⟨⟨sent, taken⟩ | _, hlog, hbrief⟩, hrst, ho⟩ := h _ hseg hj
    case success => cases hbrief
    simp only [SendObservation.brief, Sum.inl.injEq, Prod.mk.injEq] at hbrief
    obtain ⟨hseq, hflags, rfl⟩ := hbrief
    obtain ⟨hdata, hfin⟩ := hs _ hlog
    rw [hseq] at hdata hfin
    have hbytes : sent.payload <+: s.app.drop o := by
      by_cases hnil : sent.payload = []
      · rw [hnil]
        exact nil_prefix
      obtain ⟨hback, hbytes⟩ := hdata hnil
      have hin : taken - backFrom (s.sock i).iss hd.seq taken < s.app.length := by
        by_contra hout
        rw [drop_eq_nil_of_le (not_lt.mp hout), prefix_nil] at hbytes
        exact hnil hbytes
      have hoff : o = taken - backFrom (s.sock i).iss hd.seq taken := by
        have := hd.seq.toNat_lt
        simp only [backFrom, peer, UInt32.toNat_sub, UInt32.toNat_add, UInt32.toNat_ofNat'] at *
        omega
      rwa [hoff]
    refine ⟨hrst, fun _ => ⟨hbytes, by simp [ho], fun hf => ?_⟩⟩
    have hend : o = s.app.length := by
      rw [ho, hfin (hflags ▸ hf)]
      simpa [peer] using hlen
    rw [hend, drop_length, prefix_nil] at hbytes
    rw [hend, hbytes]
    rfl

/-- The receiving application has a front of what was given to `tcp_send`, no byte is
acknowledged before it is held, and the end of the stream comes behind the last byte.  The
sender's log only grows: its last state says what the network can carry in the whole run. -/
theorem stream_end_to_end (hs : Reach (Opened i) (Orderly i) (Step i) s)
    (hlen : s.app.length < 2 ^ 32)
    (hr : Reach (Connected j (s.peer i)) (RecvSystem.InOrder j)
      (fun r a t => Carried i j s r a ∧ t = r.step j a) r) : r.StreamOk (s.peer i) := by
  obtain ⟨u, hsend⟩ := sendInv_of_reach hs
  have hinv : StreamInv j (s.peer i) r :=
    hr.invariant (fun _ hr => hr.streamInv)
      (fun _ _ _ hr hio hst => hr.step hio ⟨hst.1.fromPeer hsend.log hlen, hst.2⟩)
  exact ⟨(prefix_append _ _).trans hinv.sock.held, hinv.log⟩

def reader : RecvSystem :=
  { oneSystem with net.sockets := fun _ => quietSocket 1 }

/-- The two bytes of `wholeAcks` arrive. -/
def bothBytes : RecvAction :=
  .frame 0 0x0A000202 [0, 80, 192, 0, 0, 0, 0, 1, 0, 0, 0, 1, 80, 24, 0, 0, 214, 101, 0, 0, 1, 2]

theorem stream_end_to_end_bothBytes : let r := reader.step 0 bothBytes
    r.log = [.ack 3 0 2] ∧ r.StreamOk ((wholeAcks.foldl (step 0) twoSystem).peer 0) := by
  have hcarried : Carried 0 0 (wholeAcks.foldl (step 0) twoSystem) reader bothBytes := by
    show ∀ seg ∈ tcpDemux _ _ _, _
    decide +kernel
  refine ⟨by decide +kernel, stream_end_to_end (twoSystem_reach wholeAcks (by decide +kernel))
    (by decide +kernel) (.next bothBytes (.start ?_) (by decide +kernel) ⟨hcarried, rfl⟩)⟩
  exact ⟨rfl, rfl, by decide +kernel, by decide, rfl, rfl, rfl, rfl, rfl⟩

end Kil0yOS.Net
