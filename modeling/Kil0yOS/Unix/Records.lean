/-
What the receive buffer of a socket holds: the bytes of a stream, or records of messages, and
what each operation on the buffer makes of them.
-/
import Kil0yOS.Unix.Transport

namespace Kil0yOS.Unix

open Lib RecHdr List

structure Msg where
  src : Ptr
  data : List UInt8

namespace Msg

def hdr (m : Msg) : RecHdr := ⟨m.data.length, m.src⟩

def bytes (m : Msg) : List UInt8 := m.hdr.bytes ++ m.data

def scrub (k : Ptr) (m : Msg) : Msg := if m.src = k then { m with src := 0 } else m

theorem data_scrub (k : Ptr) (m : Msg) : (m.scrub k).data = m.data := by
  unfold scrub
  split <;> rfl

end Msg

theorem RecHdr.length_bytes (h : RecHdr) : h.bytes.length = recHdrSz := by
  rfl

theorem readHdr_bytes {h : RecHdr} (hlen : h.len < 2 ^ 32) : readHdr h.bytes = h := by
  have hlow : h.bytes.take 4 = leBytes 4 h.len := by
    rw [bytes, take_left' (length_leBytes 4 h.len)]
  have hhigh : (h.bytes.drop 8).take 8 = leBytes 8 h.src.toNat := by
    have hsplit : h.bytes = (leBytes 4 h.len ++ leBytes 4 0) ++ leBytes 8 h.src.toNat := by
      simp [bytes]
    have hfirst : (leBytes 4 h.len ++ leBytes 4 0).length = 8 := by
      simp [length_leBytes]
    rw [hsplit, drop_left' hfirst, take_of_length_le (length_leBytes 8 _).le]
  have hsrc : h.src.toNat < 256 ^ 8 := h.src.toNat_lt
  rw [readHdr, hlow, hhigh, leNat_leBytes hlen, leNat_leBytes hsrc, UInt64.ofNat_toNat]

theorem Msg.length_bytes (m : Msg) : m.bytes.length = recHdrSz + m.data.length := by
  simp [Msg.bytes, RecHdr.length_bytes]

namespace Rx

def contents (b : Rx) : List UInt8 := b.ring.items unixRxbufSz

def WellFormed (b : Rx) : Prop := b.ring.WellFormed unixRxbufSz

structure Streams (b : Rx) (bytes : List UInt8) : Prop where
  wf : b.WellFormed
  count : b.msgCnt = 0
  contents : b.contents = bytes

structure Holds (b : Rx) (ms : List Msg) : Prop where
  wf : b.WellFormed
  count : b.msgCnt = ms.length
  contents : b.contents = ms.flatMap Msg.bytes

variable {b : Rx} {bytes data : List UInt8} {ms : List Msg} {m : Msg} {n : Nat}

/-! ## The ring -/

section

variable (h : b.WellFormed)
include h

theorem WellFormed.length_le : b.contents.length ≤ unixRxbufSz := by
  rw [contents, Spool.length_items]
  exact h.used_le

theorem ringUsed_eq : b.ringUsed = b.contents.length := by
  have hle := h.used_le
  have hread := h.read_le
  rw [contents, Spool.length_items]
  simp only [ringUsed, Spool.used, unixRxbufSz] at hle ⊢
  omega

theorem ringSpace_eq : b.ringSpace = unixRxbufSz - b.contents.length := by
  have hle := h.length_le
  rw [ringSpace, ringUsed_eq h]
  simp only [unixRxbufSz] at hle ⊢
  omega

theorem contents_ringWrite (data : List UInt8) (hroom : data.length ≤ b.ringSpace) :
    (b.ringWrite data).WellFormed ∧ (b.ringWrite data).contents = b.contents ++ data := by
  have hle := h.length_le
  rw [ringSpace_eq h] at hroom
  rw [contents, Spool.length_items] at hle hroom
  exact Spool.items_write h (by omega)

theorem contents_ringRead (hn : n ≤ b.contents.length) :
    (b.ringRead n).1 = b.contents.take n ∧ (b.ringRead n).2.WellFormed ∧
      (b.ringRead n).2.contents = b.contents.drop n := by
  rw [contents, Spool.length_items] at hn
  exact Spool.items_take h hn

end

theorem msgCnt_ringRead (b : Rx) (n : Nat) : (b.ringRead n).2.msgCnt = b.msgCnt := rfl

theorem ringPeek_eq {off len : Nat} (hle : off + len ≤ b.contents.length) :
    b.ringPeek off len = (b.contents.drop off).take len := by
  rw [contents, Spool.length_items] at hle
  exact Spool.peek_eq hle

theorem ringPeek_all (h : b.WellFormed) : b.ringPeek 0 b.ringUsed = b.contents := by
  simp [ringUsed_eq h, ringPeek_eq (Nat.zero_add _).le]

/-! ## Streams -/

theorem streams_empty : ({} : Rx).Streams [] := ⟨Spool.wellFormed_empty (by decide) 0, rfl, rfl⟩

theorem Streams.write (h : b.Streams bytes) (hroom : data.length ≤ b.ringSpace) :
    (b.ringWrite data).Streams (bytes ++ data) := by
  obtain ⟨hwf, hcontents⟩ := contents_ringWrite h.wf data hroom
  exact ⟨hwf, h.count, by rw [hcontents, h.contents]⟩

theorem Streams.read (h : b.Streams bytes) (hn : n ≤ b.ringUsed) :
    (b.ringRead n).2.Streams (bytes.drop n) ∧ (b.ringRead n).1.length = n := by
  rw [ringUsed_eq h.wf] at hn
  obtain ⟨htaken, hwf, hcontents⟩ := contents_ringRead h.wf hn
  refine ⟨⟨hwf, h.count, by rw [hcontents, h.contents]⟩, ?_⟩
  simp [htaken, Nat.min_eq_left hn]

theorem Streams.readIov (h : b.Streams bytes) (lens : List Nat) :
    (b.readIov lens).2.Streams (bytes.drop (b.readIov lens).1.length) := by
  induction lens generalizing b bytes with
  | nil => exact h
  | cons len lens ih =>
    rw [Rx.readIov]
    split
    · exact h
    obtain ⟨hread, hlen⟩ := h.read (Nat.min_le_left b.ringUsed len)
    have hrest := ih hread
    rw [drop_drop] at hrest
    simp only [length_append, hlen]
    exact hrest

/-! ## Messages -/

theorem holds_empty : ({} : Rx).Holds [] := ⟨Spool.wellFormed_empty (by decide) 0, rfl, rfl⟩

theorem Holds.put (h : b.Holds ms) (src : Ptr) (hroom : recHdrSz + data.length ≤ b.ringSpace) :
    (b.putRecord src data).Holds (ms ++ [⟨src, data⟩]) := by
  have hhdr : (bytes ⟨data.length, src⟩).length = recHdrSz := length_bytes _
  obtain ⟨hwf, hcontents⟩ := contents_ringWrite h.wf (bytes ⟨data.length, src⟩) (by omega)
  have hroom' : data.length ≤ (b.ringWrite (bytes ⟨data.length, src⟩)).ringSpace := by
    rw [ringSpace_eq h.wf] at hroom
    rw [ringSpace_eq hwf, hcontents, length_append]
    omega
  obtain ⟨hwf', hcontents'⟩ := contents_ringWrite hwf data hroom'
  refine ⟨hwf', ?_, ?_⟩
  · show b.msgCnt + 1 = _
    simp [h.count]
  · show ((b.ringWrite _).ringWrite data).contents = _
    rw [hcontents', hcontents, h.contents]
    simp [Msg.bytes, Msg.hdr]

/-- The messages in a buffer are shorter than it. -/
theorem Holds.short (h : b.Holds ms) (hm : m ∈ ms) : m.data.length < 2 ^ 32 := by
  have hle := h.wf.length_le
  have hsub : m.bytes.length ≤ (ms.flatMap Msg.bytes).length :=
    (sublist_flatten_of_mem (mem_map_of_mem hm)).length_le
  rw [h.contents] at hle
  rw [Msg.length_bytes] at hsub
  simp only [unixRxbufSz] at hle
  omega

theorem contents_ringRead_twice (h : b.WellFormed) {rest : List UInt8}
    (hcontents : b.contents = data ++ rest) (hn : n ≤ data.length) :
    ((b.ringRead n).2.ringRead (data.length - n)).2.WellFormed ∧
      ((b.ringRead n).2.ringRead (data.length - n)).2.contents = rest := by
  obtain ⟨-, hwf, hleft⟩ := contents_ringRead (n := n) h (by
    rw [hcontents, length_append]
    omega)
  rw [hcontents, drop_append_of_le_length hn] at hleft
  have hdropped : (data.drop n).length = data.length - n := length_drop
  obtain ⟨-, hwf', hleft'⟩ := contents_ringRead (n := data.length - n) hwf (by
    rw [hleft, length_append]
    omega)
  rw [hleft, drop_left' hdropped] at hleft'
  exact ⟨hwf', hleft'⟩

theorem Holds.pop (h : b.Holds (m :: ms)) (len : Nat) : (b.framedPop len).2.Holds ms := by
  have hshort := h.short (mem_cons_self)
  have hcontents : b.contents = m.hdr.bytes ++ (m.data ++ ms.flatMap Msg.bytes) := by
    simp [h.contents, Msg.bytes]
  have hhdr : m.hdr.bytes.length = recHdrSz := length_bytes _
  obtain ⟨htaken, hwf, hleft⟩ := contents_ringRead (n := recHdrSz) h.wf (by
    rw [hcontents, length_append]
    omega)
  rw [hcontents, take_left' hhdr] at htaken
  rw [hcontents, drop_left' hhdr] at hleft
  have hread : readHdr (b.ringRead recHdrSz).1 = ⟨m.data.length, m.src⟩ := by
    rw [htaken, readHdr_bytes hshort]
    rfl
  have hcount : (b.ringRead recHdrSz).2.msgCnt - 1 = ms.length := by
    simp [msgCnt_ringRead, h.count]
  simp only [framedPop, hread]
  generalize b.ringRead recHdrSz = r at hwf hleft hcount
  obtain ⟨hwf', hleft'⟩ := contents_ringRead_twice
    hwf hleft (Nat.min_le_left m.data.length (len % 2 ^ 32))
  refine ⟨hwf', ?_, hleft'⟩
  exact hcount

theorem readHdr_ringPeek {pre post : List UInt8} (hm : m.data.length < 2 ^ 32)
    (hcontents : b.contents = pre ++ (m.bytes ++ post)) :
    readHdr (b.ringPeek pre.length recHdrSz) = m.hdr := by
  have hhdr : m.hdr.bytes.length = recHdrSz := length_bytes _
  have hlen : m.bytes.length = recHdrSz + m.data.length := Msg.length_bytes m
  rw [ringPeek_eq, hcontents, drop_left, Msg.bytes, append_assoc, take_left' hhdr, readHdr_bytes hm]
  rw [hcontents, length_append, length_append]
  omega

theorem headerLoop_eq (pre : List UInt8) (hms : ∀ m ∈ ms, m.data.length < 2 ^ 32)
    (hcontents : b.contents = pre ++ ms.flatMap Msg.bytes) :
    b.headerLoop ms.length pre.length = ms.map Msg.hdr := by
  induction ms generalizing pre with
  | nil => rfl
  | cons m ms ih =>
    have hhdr := readHdr_ringPeek (hms m mem_cons_self) hcontents
    have hnext : pre.length + recHdrSz + m.hdr.len = (pre ++ m.bytes).length := by
      rw [length_append, Msg.length_bytes, Nat.add_assoc]
      rfl
    rw [length_cons, headerLoop, map_cons]
    simp only [hhdr]
    rw [hnext, ih (pre ++ m.bytes) (fun m' hm' => hms m' (mem_cons_of_mem m hm'))
      (by simp [hcontents])]

theorem Holds.headers (h : b.Holds ms) : b.headers = ms.map Msg.hdr := by
  rw [Rx.headers, h.count]
  exact headerLoop_eq [] (fun _ hm => h.short hm) h.contents

/-- One header without its sender, if that is `k`. -/
theorem contents_scrub (h : b.WellFormed) (k : Ptr) {pre post : List UInt8}
    (hcontents : b.contents = pre ++ (m.bytes ++ post)) : let b' := if m.hdr.src = k then
      { b with ring := b.ring.poke unixRxbufSz (pre.length + 8) (replicate 8 0) } else b
    b'.WellFormed ∧ b'.msgCnt = b.msgCnt ∧ b'.contents = (pre ++ (m.scrub k).bytes) ++ post := by
  rw [Msg.scrub]
  by_cases hk : m.src = k
  swap
  · have hk' : ¬ m.hdr.src = k := hk
    rw [if_neg hk', if_neg hk]
    exact ⟨h, rfl, by simp [hcontents]⟩
  have hk' : m.hdr.src = k := hk
  rw [if_pos hk', if_pos hk]
  have hfirst : (leBytes 4 m.data.length ++ leBytes 4 0).length = 8 := by
    simp [length_leBytes]
  have hoff : pre.length + 8 = (pre ++ (leBytes 4 m.data.length ++ leBytes 4 0)).length := by
    simp [hfirst]
  have hsplit : b.ring.items unixRxbufSz =
      (pre ++ (leBytes 4 m.data.length ++ leBytes 4 0)) ++ leBytes 8 m.src.toNat ++
        (m.data ++ post) := by
    show b.contents = _
    rw [hcontents]
    simp [Msg.bytes, Msg.hdr, bytes]
  have hzero : (replicate 8 (0 : UInt8)).length = (leBytes 8 m.src.toNat).length := by
    simp [length_leBytes]
  obtain ⟨hwf, hitems⟩ := Spool.items_poke h hsplit hzero
  rw [hoff]
  refine ⟨hwf, rfl, ?_⟩
  show Spool.items unixRxbufSz _ = _
  have hnull : replicate 8 (0 : UInt8) = leBytes 8 (0 : Ptr).toNat := rfl
  rw [hitems, hnull]
  simp [Msg.bytes, Msg.hdr, bytes]

theorem contents_scrubLoop (k : Ptr) (pre : List UInt8) (h : b.WellFormed)
    (hms : ∀ m ∈ ms, m.data.length < 2 ^ 32)
    (hcontents : b.contents = pre ++ ms.flatMap Msg.bytes) :
    (scrubLoop k ms.length pre.length b).WellFormed ∧
      (scrubLoop k ms.length pre.length b).msgCnt = b.msgCnt ∧
      (scrubLoop k ms.length pre.length b).contents =
        pre ++ (ms.map (.scrub k)).flatMap Msg.bytes := by
  induction ms generalizing pre b with
  | nil => exact ⟨h, rfl, hcontents⟩
  | cons m ms ih =>
    have hhdr := readHdr_ringPeek (hms m mem_cons_self) hcontents
    have hnext : pre.length + recHdrSz + m.hdr.len = (pre ++ (m.scrub k).bytes).length := by
      rw [length_append, Msg.length_bytes, Msg.data_scrub, Nat.add_assoc]
      rfl
    obtain ⟨hwf, hcount, hc⟩ := contents_scrub h k hcontents
    obtain ⟨hwf', hcount', hc'⟩ := ih (pre ++ (m.scrub k).bytes) hwf
      (fun m' hm' => hms m' (mem_cons_of_mem m hm')) hc
    rw [length_cons, scrubLoop]
    simp only [hhdr]
    rw [hnext]
    refine ⟨hwf', hcount'.trans hcount, ?_⟩
    rw [hc', map_cons, flatMap_cons, append_assoc]

theorem Holds.scrub (h : b.Holds ms) (k : Ptr) :
    (scrubLoop k b.msgCnt 0 b).Holds (ms.map (.scrub k)) := by
  obtain ⟨hwf, hcount, hcontents⟩ :=
    contents_scrubLoop k [] h.wf (fun _ hm => h.short hm) h.contents
  rw [h.count] at hcount ⊢
  refine ⟨hwf, ?_, hcontents⟩
  rw [length_map]
  exact hcount

end Rx

end Kil0yOS.Unix
