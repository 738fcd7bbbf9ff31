/-
Requests to the heap of any 64-bit size.

A request is rounded up to eight bytes, and the end of a block behind the last one found, in
words of 64 bits.  Where one of the two passes 2^64, `kmalloc` hands out a block that is too
small or not in the arena.
-/
import Kil0yOS.Mm.HeapRuns

namespace Kil0yOS.Mm

/-- The request in multiples of eight bytes, as it is meant. -/
def roundUp (n : Nat) : Nat := (n + 7) / 8 * 8

/-- The request is rounded to zero and meets a free block, or the end of a new block wraps to
an address in the arena or before it. -/
def Wraps (h : Heap) (cs : List Cell) (n : Nat) : Prop :=
  (2 ^ 64 ≤ n + 7 ∧ ∃ c ∈ cs, c.free = true) ∨
    (2 ^ 64 ≤ h.heapEnd + hdrSz + roundUp n ∧ hdrSz + roundUp n ≤ 2 ^ 64)

/-- What `kmalloc` and `krealloc` are to do with a request. -/
structure Serves (h : Heap) (cs : List Cell) (n : Nat) : Prop where
  alloc : ∃ p h' cs', h.kmalloc n = some (p, h') ∧ HeapInv h' cs' ∧ (p ≠ 0 → ∃ size, n ≤ size ∧
    (p, size) ∈ payloads h.heapStart cs' ∧ h.heapStart ≤ p ∧ p + size ≤ h.heapEnd)
  null : n ≠ 0 → ((∃ h', h.kmalloc n = some (0, h')) ↔ ∀ c ∈ cs, c.free = true → c.size < roundUp n)
  realloc : n ≠ 0 → ∀ p k, (p, k) ∈ payloads h.heapStart cs →
    ∃ q h' cs', h.krealloc p n = some (q, h') ∧ HeapInv h' cs' ∧
      (q ≠ 0 → (∃ size, n ≤ size ∧ (q, size) ∈ payloads h.heapStart cs') ∧
        ∀ i < min k n, h'.mem (q + i) = h.mem (p + i)) ∧
      (q = 0 → (p, k) ∈ payloads h.heapStart cs' ∧ ∀ i < k, h'.mem (p + i) = h.mem (p + i))

variable {h : Heap} {cs : List Cell} {n : Nat}

theorem roundSize_eq (hn : n < 2 ^ 64) (hn0 : n ≠ 0) :
    Heap.roundSize n = if 2 ^ 64 ≤ n + 7 then 0 else roundUp n := by
  unfold Heap.roundSize roundUp
  rw [if_neg hn0]
  split <;> omega

section

variable (hi : HeapInv h cs)
include hi

theorem HeapInv.cell_le {c : Cell} (hc : c ∈ cs) : c.size ≤ 2 ^ 53 := by
  obtain ⟨xs, ys, rfl⟩ := List.append_of_mem hc
  have := hi.cell_lt
  have := hi.end_le
  omega

theorem HeapInv.payload_bounds {p k : Nat}
    (hp : (p, k) ∈ payloads h.heapStart cs) : h.heapStart ≤ p ∧ p + k ≤ h.heapEnd := by
  have := payloads_bounds hp
  have := hi.full
  omega

/-- The two outcomes of a request that does not wrap. -/
theorem kmalloc_outcome (hn : n < 2 ^ 64) (hn0 : n ≠ 0) (hw : ¬ Wraps h cs n) :
    (h.kmalloc n = some (0, h) ∧ ∀ c ∈ cs, c.free = true → c.size < roundUp n) ∨
      (n < 2 ^ 63 ∧ (∃ c ∈ cs, c.free = true ∧ roundUp n ≤ c.size) ∧
        ∃ p h', p ≠ 0 ∧ h.kmalloc n = some (p, h')) := by
  have hend := hi.end_le
  have hround := roundSize_eq hn hn0
  obtain ⟨hfree, hbehind⟩ := not_or.mp hw
  rcases kmalloc_search hi n with ⟨xs, c, ys, hcs, hcf, hle, hb, hres⟩ | ⟨hsmall, h', hres⟩
  · have hc : c ∈ cs := hcs ▸ List.mem_append_right xs List.mem_cons_self
    have hlt := hi.cell_le hc
    split at hround
    · next hbig => exact absurd ⟨hbig, c, hc, hcf⟩ hfree
    rw [hround] at hle
    refine .inr ⟨?_, ⟨c, hc, hcf, hle⟩, _, _, Nat.ne_of_gt (Nat.add_pos_right _ ?_), hres⟩
    · unfold roundUp at hle
      omega
    · decide
  refine .inl ⟨?_, fun c hc hcf => ?_⟩
  · have hup : roundUp n ≤ n + 7 := by
      unfold roundUp
      omega
    rw [hres, if_neg]
    rw [hround]
    simp only [hdrSz] at hbehind ⊢
    split <;> omega
  · have hlt := hsmall c hc hcf
    split at hround <;> omega

theorem serves_of_not_wraps (hn : n < 2 ^ 64) (hw : ¬ Wraps h cs n) : Serves h cs n := by
  constructor
  · by_cases hsmall : n < 2 ^ 63
    · obtain ⟨p, h', cs', hres, hspec, hroom⟩ := kmalloc_call hi hsmall
      refine ⟨p, h', cs', hres, hspec.inv, fun hp => ?_⟩
      obtain ⟨size, hle, hmem⟩ := hroom hp
      have hbounds := hspec.inv.payload_bounds (hspec.kept.start ▸ hmem)
      rw [hspec.kept.start, hspec.kept.finish] at hbounds
      exact ⟨size, hle, hmem, hbounds⟩
    · rcases kmalloc_outcome hi hn (by omega) hw with ⟨hres, -⟩ | ⟨hlt, -⟩
      · exact ⟨0, h, cs, hres, hi, fun hne => absurd rfl hne⟩
      · exact absurd hlt hsmall
  · intro hn0
    rcases kmalloc_outcome hi hn hn0 hw with ⟨hres, hall⟩ | ⟨-, ⟨c, hc, hcf, hle⟩, p, h', hp, hres⟩
    · exact iff_of_true ⟨h, hres⟩ hall
    refine iff_of_false (fun ⟨h₁, hnull⟩ => hp ?_) fun hall => ?_
    · rw [hres] at hnull
      exact (Prod.mk.inj (Option.some.inj hnull)).1
    · exact Nat.not_lt.mpr hle (hall c hc hcf)
  intro hn0 p k hp
  by_cases hsmall : n < 2 ^ 63
  · obtain ⟨q, h', cs', hres, hcases⟩ := krealloc_call hi hp hsmall
    have hpos := (hi.blkSize hp).2
    refine ⟨q, h', cs', hres, ?_⟩
    rcases hcases with ⟨hz, -⟩ | ⟨-, hfits, rfl, rfl, rfl⟩ | ⟨-, rfl, hspec⟩ |
      ⟨-, hq, hlt, hspec, hroom, hsame⟩
    · exact absurd hz hn0
    · exact ⟨hi, fun _ => ⟨⟨k, hfits, hp⟩, fun _ _ => rfl⟩, fun hz => ⟨hp, fun _ _ => rfl⟩⟩
    · obtain ⟨hmem, hkept⟩ := hspec.kept.payload p k hp (by omega)
      exact ⟨hspec.inv, fun hne => absurd rfl hne,
        fun _ => ⟨hmem, fun i hi => hkept (p + i) (by omega) (by omega)⟩⟩
    · exact ⟨hspec.inv, fun _ => ⟨hroom, fun i hi => hsame i (by omega)⟩, fun hz => absurd hz hq⟩
  · rcases kmalloc_outcome hi hn hn0 hw with ⟨hres, -⟩ | ⟨hlt, -⟩
    · obtain ⟨hsize, hpos⟩ := hi.blkSize hp
      have hbounds := hi.payload_bounds hp
      have hend := hi.end_le
      refine ⟨0, h, cs, ?_, hi, fun hne => absurd rfl hne, fun _ => ⟨hp, fun _ _ => rfl⟩⟩
      rw [Heap.krealloc, if_neg (by omega), if_neg hn0]
      rw [if_neg (by omega), hres]
      rfl
    · exact absurd hlt hsmall

/-- A request that wraps is answered by a pointer, though no block has room for it. -/
theorem not_serves_of_wraps (hn : n < 2 ^ 64) (hw : Wraps h cs n) : ¬ Serves h cs n := by
  intro hs
  have hend := hi.end_le
  have hlarge : 2 ^ 53 < n := by
    unfold Wraps roundUp hdrSz at hw
    omega
  have hn0 : n ≠ 0 := by omega
  obtain ⟨h₁, hnull⟩ := (hs.null hn0).mpr fun c hc _ => by
    have := hi.cell_le hc
    unfold roundUp
    omega
  have hround := roundSize_eq hn hn0
  have h24 : hdrSz = 24 := rfl
  rcases kmalloc_search hi n with ⟨xs, c, ys, -, -, -, -, hres⟩ | ⟨hsmall, h', hres⟩
  · have heq := (Prod.mk.inj (Option.some.inj (hres.symm.trans hnull))).1
    omega
  rcases hw with ⟨hbig, c, hc, hcf⟩ | ⟨hwrap, hle⟩
  · rw [if_pos hbig] at hround
    have := hsmall c hc hcf
    omega
  rw [if_neg (by unfold roundUp at hle; omega)] at hround
  rw [if_pos (by omega)] at hres
  have heq := (Prod.mk.inj (Option.some.inj (hres.symm.trans hnull))).1
  omega

end

/-- `kmalloc` and `krealloc` do what they are to do exactly with the requests that do not
wrap. -/
theorem serves_iff (hi : HeapInv h cs) (hn : n < 2 ^ 64) : Serves h cs n ↔ ¬ Wraps h cs n :=
  ⟨fun hs hw => not_serves_of_wraps hi hn hw hs, serves_of_not_wraps hi hn⟩

theorem serves_iff_plainBoot :
    Serves (memoryInit plainBoot fun _ => 0) [⟨0x2000000 - hdrSz, true⟩] 100 ↔
      ¬ Wraps (memoryInit plainBoot fun _ => 0) [⟨0x2000000 - hdrSz, true⟩] 100 :=
  serves_iff (memoryInit_inv plainBoot fun _ => 0).heap (by decide)

/-- The largest request there is, to the heap as it is at the start. -/
theorem largest_request_not_served :
    ¬ Serves (memoryInit plainBoot fun _ => 0) [⟨0x2000000 - hdrSz, true⟩] (2 ^ 64 - 1) :=
  not_serves_of_wraps (memoryInit_inv plainBoot fun _ => 0).heap (by decide)
    (.inl ⟨by decide, _, List.mem_singleton_self _, rfl⟩)

end Kil0yOS.Mm
