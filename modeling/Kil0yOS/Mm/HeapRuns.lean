/-
The heap over any sequence of calls.

The callers are modelled by the pointers they hold.  They allocate, reallocate and
release, and write to the payloads of the pointers they hold; a pointer is released
only while it is held.
-/
import Kil0yOS.Lib.Run
import Kil0yOS.Mm.HeapFree

namespace Kil0yOS.Mm

open List Option Lib

variable {m m' : Bytes} {a b n p size : Nat} {c d : Cell} {cs xs ys : List Cell} {h h' : Heap}

/-! ## The other forms of allocation -/

theorem HeapInv.blkSize (hi : HeapInv h cs) (hp : (p, n) ∈ payloads h.heapStart cs) :
    Mm.blkSize h.mem (p - hdrSz) = n ∧ 0 < p := by
  have h24 : hdrSz = 24 := rfl
  obtain ⟨xs, ys, hcs, hpeq⟩ := mem_payloads.mp hp
  subst hcs
  obtain ⟨_, hdr, _⟩ := laid_middle.mp hi.laid
  have haddr : p - hdrSz = h.heapStart + extent xs := by omega
  refine ⟨?_, by omega⟩
  rw [haddr]
  exact hdr.size

theorem HeapInv.ne_zero (hi : HeapInv h cs) (hp : (p, n) ∈ payloads h.heapStart cs) : p ≠ 0 :=
  Nat.ne_of_gt (hi.blkSize hp).2

theorem Kept.refl (h : Heap) (cs : List Cell) (e : Nat) : Kept h h cs cs e :=
  ⟨rfl, rfl, fun _ _ hp _ => ⟨hp, fun _ _ _ => rfl⟩⟩

/-- What one call does to the cells: `added` is the pointer it returns, if it is a new
one, and `removed` the pointer it releases. -/
structure CallSpec (h h' : Heap) (cs cs' : List Cell) (added removed : Nat) : Prop where
  inv : HeapInv h' cs'
  kept : Kept h h' cs cs' removed
  live : ∀ p, (∃ n, (p, n) ∈ payloads h.heapStart cs') ↔
    (added ≠ 0 ∧ p = added) ∨ (p ≠ removed ∧ ∃ n, (p, n) ∈ payloads h.heapStart cs)
  fresh : added ≠ 0 → ∀ n, (added, n) ∉ payloads h.heapStart cs

theorem CallSpec.same (hi : HeapInv h cs) : CallSpec h h cs cs 0 0 := by
  refine ⟨hi, .refl h cs 0, ?_, fun hne => absurd rfl hne⟩
  intro p
  constructor
  · intro hp
    obtain ⟨n, hp⟩ := hp
    exact .inr ⟨hi.ne_zero hp, n, hp⟩
  intro hp
  rcases hp with hp | hp
  · exact absurd rfl hp.1
  · exact hp.2

theorem kmalloc_call (hi : HeapInv h cs) (hn : n < 2 ^ 63) :
    ∃ p h' cs', h.kmalloc n = some (p, h') ∧ CallSpec h h' cs cs' p 0 ∧
      (p ≠ 0 → ∃ size, n ≤ size ∧ (p, size) ∈ payloads h.heapStart cs') := by
  rcases kmalloc_spec hi hn with hnull | hsome
  · exact ⟨0, h, cs, hnull, CallSpec.same hi, fun hne => absurd rfl hne⟩
  obtain ⟨p, h', cs', size, hres, hp, hi', hsz, hmem, honly, hnew, hkept⟩ := hsome
  refine ⟨p, h', cs', hres, ⟨hi', hkept, ?_, fun _ => hnew⟩, fun _ => ⟨size, hsz, hmem⟩⟩
  intro q
  constructor
  · intro hq
    obtain ⟨k, hq⟩ := hq
    rcases honly q k hq with heq | hold
    · exact .inl ⟨by omega, (Prod.mk.inj heq).1⟩
    · exact .inr ⟨hi.ne_zero hold, k, hold⟩
  intro hq
  rcases hq with hq | hq
  · rw [hq.2]
    exact ⟨size, hmem⟩
  · obtain ⟨hne, k, hq⟩ := hq
    exact ⟨k, (hkept.payload q k hq hne).1⟩

theorem kfree_call (hi : HeapInv h cs) (hp : (p, n) ∈ payloads h.heapStart cs) :
    ∃ h' cs', h.kfree p = some h' ∧ CallSpec h h' cs cs' 0 p := by
  obtain ⟨h', cs', hres, hi', hiff, hkept⟩ := kfree_spec hi hp
  refine ⟨h', cs', hres, hi', hkept, ?_, fun hne => absurd rfl hne⟩
  intro q
  constructor
  · intro hq
    obtain ⟨k, hq⟩ := hq
    obtain ⟨hq, hne⟩ := (hiff q k).mp hq
    exact .inr ⟨hne, k, hq⟩
  intro hq
  rcases hq with hq | hq
  · exact absurd rfl hq.1
  · obtain ⟨hne, k, hq⟩ := hq
    exact ⟨k, (hiff q k).mpr ⟨hq, hne⟩⟩

theorem write_call (m' : Bytes) (hi : HeapInv h cs) (hp : (p, n) ∈ payloads h.heapStart cs)
    (hout : ∀ x, x < p ∨ p + n ≤ x → m' x = h.mem x) :
    HeapInv { h with mem := m' } cs ∧ Kept h { h with mem := m' } cs cs p := by
  refine ⟨hi.write hp hout, rfl, rfl, ?_⟩
  intro q k hq hne
  refine ⟨hq, ?_⟩
  intro x h₁ h₂
  apply hout
  rcases payloads_disjoint hp hq hne with hd | hd
  · exact .inl (by omega)
  · exact .inr (by omega)

/-- The caller fills the block that it got. -/
theorem CallSpec.write (m : Bytes) (hs : CallSpec h h' cs xs p 0) (hp : p ≠ 0)
    (hmem : (p, n) ∈ payloads h.heapStart xs) (hout : ∀ x, x < p ∨ p + n ≤ x → m x = h'.mem x) :
    CallSpec h { h' with mem := m } cs xs p 0 := by
  obtain ⟨hi, hkept⟩ := write_call m hs.inv (hs.kept.start ▸ hmem) hout
  refine ⟨hi, ⟨hs.kept.start, hs.kept.finish, fun q k hq hne => ?_⟩, hs.live, hs.fresh⟩
  obtain ⟨hq', hsame⟩ := hs.kept.payload q k hq hne
  have hqp : q ≠ p := fun he => hs.fresh hp k (he ▸ hq)
  refine ⟨hq', fun x h₁ h₂ => ?_⟩
  rw [(hkept.payload q k (hs.kept.start ▸ hq') hqp).2 x h₁ h₂, hsame x h₁ h₂]

theorem kcalloc_call {nmemb : Nat} (hn : nmemb * size < 2 ^ 63 ∨ 2 ^ 64 ≤ nmemb * size)
    (hi : HeapInv h cs) :
    ∃ p h' cs', h.kcalloc nmemb size = some (p, h') ∧ CallSpec h h' cs cs' p 0 := by
  rw [Heap.kcalloc]
  by_cases hover : nmemb ≠ 0 ∧ size > (2 ^ 64 - 1) / nmemb
  · rw [if_pos hover]
    exact ⟨0, h, cs, rfl, CallSpec.same hi⟩
  rw [if_neg hover]
  -- the product fits a word, so it is below the bound on requests
  have hword : nmemb * size < 2 ^ 64 := by
    by_cases hz : nmemb = 0
    · rw [hz, Nat.zero_mul]
      decide
    have hle : size ≤ (2 ^ 64 - 1) / nmemb := by
      by_contra hgt
      omega
    have := Nat.mul_le_mul_left nmemb hle
    have hdiv := Nat.mul_div_le (2 ^ 64 - 1) nmemb
    omega
  obtain ⟨p, h', cs', hres, hspec, hroom⟩ := kmalloc_call (n := nmemb * size) hi (by omega)
  simp only [hres, bind_eq_bind, bind_some]
  by_cases hp : p ≠ 0
  · rw [if_pos hp]
    obtain ⟨sz, hsz, hmem⟩ := hroom hp
    exact ⟨p, _, cs', rfl, hspec.write _ hp hmem fun x hx => Bytes.fill_of_out _ _ (by omega)⟩
  · rw [if_neg hp]
    exact ⟨p, h', cs', rfl, hspec⟩

theorem krealloc_call (hi : HeapInv h cs) (hp : (p, n) ∈ payloads h.heapStart cs)
    (hs : size < 2 ^ 63) :
    ∃ q h' cs', h.krealloc p size = some (q, h') ∧
      ((size = 0 ∧ q = 0 ∧ CallSpec h h' cs cs' 0 p) ∨
        (size ≠ 0 ∧ size ≤ n ∧ q = p ∧ h' = h ∧ cs' = cs) ∨
        (size ≠ 0 ∧ q = 0 ∧ CallSpec h h' cs cs' 0 0) ∨
          (size ≠ 0 ∧ q ≠ 0 ∧ n < size ∧ CallSpec h h' cs cs' q p ∧
            (∃ sz, size ≤ sz ∧ (q, sz) ∈ payloads h.heapStart cs') ∧
            ∀ i < n, h'.mem (q + i) = h.mem (p + i))) := by
  obtain ⟨hsize, hpos⟩ := hi.blkSize hp
  rw [Heap.krealloc, if_neg (by omega)]
  by_cases hz : size = 0
  · rw [if_pos hz]
    obtain ⟨h', cs', hres, hspec⟩ := kfree_call hi hp
    rw [hres]
    exact ⟨0, h', cs', rfl, .inl ⟨hz, rfl, hspec⟩⟩
  rw [if_neg hz]
  simp only [hsize]
  by_cases hfits : n ≥ size
  · rw [if_pos hfits]
    exact ⟨p, h, cs, rfl, .inr (.inl ⟨hz, hfits, rfl, rfl, rfl⟩)⟩
  rw [if_neg hfits]
  obtain ⟨q, h₁, cs₁, hres, hspec, hroom⟩ := kmalloc_call hi hs
  rw [hres]
  simp only [bind_eq_bind, bind_some]
  by_cases hq : q ≠ 0
  · rw [if_pos hq]
    obtain ⟨sz, hsz, hmem⟩ := hroom hq
    have hqp : p ≠ q := by
      intro he
      exact hspec.fresh hq n (he ▸ hp)
    have hstart := hspec.kept.start
    -- the contents go to the new block
    obtain ⟨hp₁, hsame⟩ := hspec.kept.payload p n hp (by omega)
    have hsize₁ := (hspec.inv.blkSize (hstart ▸ hp₁)).1
    rw [hsize₁]
    have hcopied := hspec.write (h₁.mem.copy q p n) hq hmem fun x hx =>
      Bytes.copy_of_out _ (by omega)
    obtain ⟨h₃, cs₃, hres₃, hspec₃⟩ := kfree_call hcopied.inv (hstart ▸ hp₁)
    rw [hres₃]
    obtain ⟨hmem₃, hsame₃⟩ := hspec₃.kept.payload q sz (hstart ▸ hmem) (Ne.symm hqp)
    refine ⟨q, h₃, cs₃, rfl, .inr (.inr (.inr ⟨hz, hq, by omega, ⟨hspec₃.inv, ?_, ?_, ?_⟩,
      ⟨sz, hsz, hstart ▸ hmem₃⟩, fun i hi => ?_⟩))⟩
    · refine ⟨hspec₃.kept.start.trans hstart, hspec₃.kept.finish.trans hspec.kept.finish, ?_⟩
      intro r k hr hne
      obtain ⟨hr₂, hsame₂⟩ := hcopied.kept.payload r k hr (hi.ne_zero hr)
      obtain ⟨hr₃, hsame₃⟩ := hspec₃.kept.payload r k (hstart ▸ hr₂) hne
      refine ⟨hstart ▸ hr₃, ?_⟩
      intro x hx₁ hx₂
      rw [hsame₃ x hx₁ hx₂, hsame₂ x hx₁ hx₂]
    · intro r
      have hl₃ := hspec₃.live r
      have hl₁ := hspec.live r
      simp only [hstart] at hl₃
      rw [hl₃, hl₁]
      have hr0 : (∃ n, (r, n) ∈ payloads h.heapStart cs) → r ≠ 0 := by
        intro hr
        obtain ⟨k, hr⟩ := hr
        exact hi.ne_zero hr
      constructor
      · intro hr
        rcases hr with hr | ⟨hne, hr | hr⟩
        · exact absurd rfl hr.1
        · exact .inl hr
        · exact .inr ⟨hne, hr.2⟩
      intro hr
      rcases hr with hr | hr
      · refine .inr ⟨?_, .inl hr⟩
        rw [hr.2]
        exact Ne.symm hqp
      · exact .inr ⟨hr.1, .inr ⟨hr0 hr.2, hr.2⟩⟩
    · exact hspec.fresh
    · rw [hsame₃ (q + i) (by omega) (by omega)]
      show h₁.mem.copy q p n (q + i) = _
      rw [Bytes.copy, if_pos (by omega), Nat.add_sub_cancel_left]
      exact hsame (p + i) (by omega) (by omega)
  · rw [not_not] at hq
    subst hq
    exact ⟨0, h₁, cs₁, rfl, .inr (.inr (.inl ⟨hz, rfl, hspec⟩))⟩

/-! ## The callers -/

structure HeapSystem where
  heap : Heap
  live : List Nat

variable {s : HeapSystem}

inductive HeapCall
  | kmalloc (size : Nat)
  | kcalloc (nmemb size : Nat)
  | krealloc (ptr size : Nat)
  | kfree (ptr : Nat)
  | store (ptr off : Nat) (v : UInt8)

namespace HeapSystem

def hold (live : List Nat) (p : Nat) : List Nat := if p = 0 then live else p :: live

def step (s : HeapSystem) : HeapCall → Option HeapSystem
  | .kmalloc size => do
    let (p, h) ← s.heap.kmalloc size
    some { heap := h, live := hold s.live p }
  | .kcalloc nmemb size => do
    let (p, h) ← s.heap.kcalloc nmemb size
    some { heap := h, live := hold s.live p }
  | .krealloc ptr size => do
    let (p, h) ← s.heap.krealloc ptr size
    -- a pointer that could not be enlarged is still held
    if ptr ≠ 0 ∧ (size = 0 ∨ p ≠ 0) then some { heap := h, live := hold (s.live.erase ptr) p }
    else some { heap := h, live := hold s.live p }
  | .kfree ptr => do
    let h ← s.heap.kfree ptr
    some { heap := h, live := s.live.erase ptr }
  | .store ptr off v => some { s with heap := { s.heap with mem := s.heap.mem.set (ptr + off) v } }

/-- Requests are below 2^63 bytes, pointers that are given back are held, and writes
stay in the payload. -/
def Allowed (s : HeapSystem) : HeapCall → Prop
  | .kmalloc size => size < 2 ^ 63
  | .kcalloc nmemb size => nmemb * size < 2 ^ 63 ∨ 2 ^ 64 ≤ nmemb * size
  | .krealloc ptr size => (ptr = 0 ∨ ptr ∈ s.live) ∧ size < 2 ^ 63
  | .kfree ptr => ptr = 0 ∨ ptr ∈ s.live
  | .store ptr off _ => ptr ∈ s.live ∧ off < blkSize s.heap.mem (ptr - hdrSz)

end HeapSystem

def HeapCall.subject : HeapCall → Nat
  | .kmalloc _ => 0
  | .kcalloc _ _ => 0
  | .krealloc ptr _ => ptr
  | .kfree ptr => ptr
  | .store ptr _ _ => ptr

/-- The block list of the heap is `cs`, and the blocks in use are those held. -/
structure WellFormedHeap (s : HeapSystem) (cs : List Cell) : Prop where
  starts : s.heap.heapList = s.heap.heapStart
  laid : Laid s.heap.mem s.heap.heapStart cs 0
  ends : s.heap.heapStart + extent cs = s.heap.heapEnd
  apart : Apart cs
  nodup : s.live.Nodup
  live : ∀ p, p ∈ s.live ↔ ∃ n, (p, n) ∈ payloads s.heap.heapStart cs
  disjoint : (payloads s.heap.heapStart cs).Pairwise fun p q => p.1 + p.2 ≤ q.1
  verified : s.heap.heapVerify = some 0
  single : s.live = [] → cs = [⟨s.heap.heapEnd - s.heap.heapStart - hdrSz, true⟩]

structure SystemInv (s : HeapSystem) (cs : List Cell) : Prop where
  heap : HeapInv s.heap cs
  nodup : s.live.Nodup
  live : ∀ p, p ∈ s.live ↔ ∃ n, (p, n) ∈ payloads s.heap.heapStart cs

/-- Free neighbours have been merged, so an arena without payloads in use is one
cell. -/
theorem eq_single_of_payloads_nil (hne : cs ≠ []) (hap : Apart cs) (hp : payloads a cs = []) :
    cs = [⟨extent cs - hdrSz, true⟩] := by
  have hallfree : ∀ c ∈ cs, c.free = true := by
    intro c hc
    obtain ⟨xs, ys, rfl⟩ := append_of_mem hc
    by_contra hfree
    have hmem : (a + extent xs + hdrSz, c.size) ∈ payloads a (xs ++ c :: ys) :=
      mem_payloads.mpr ⟨xs, ys, by rw [← Bool.eq_false_iff.mpr hfree], rfl⟩
    rw [hp] at hmem
    cases hmem
  cases cs with
  | nil => exact absurd rfl hne
  | cons c cs =>
    have hc := hallfree c mem_cons_self
    cases cs with
    | nil =>
      simp only [extent, Nat.add_zero, Nat.add_sub_cancel_left]
      rw [← hc]
    | cons d cs =>
      have hd := hallfree d (mem_cons_of_mem _ mem_cons_self)
      exact absurd ⟨hc, hd⟩ (isChain_cons_cons.mp hap).1

theorem SystemInv.wellFormed (hi : SystemInv s cs) : WellFormedHeap s cs := by
  refine ⟨hi.heap.list, hi.heap.laid, hi.heap.full, hi.heap.apart, hi.nodup, hi.live, ?_,
    hi.heap.heapVerify, ?_⟩
  · exact (payloads_pairwise _ cs).imp fun hpq => by omega
  intro hnil
  have hpay : payloads s.heap.heapStart cs = [] := by
    rw [eq_nil_iff_forall_not_mem]
    intro q hq
    have hmem := (hi.live q.1).mpr ⟨q.2, hq⟩
    rw [hnil] at hmem
    cases hmem
  have hsingle := eq_single_of_payloads_nil hi.heap.nonempty hi.heap.apart hpay
  have hfull := hi.heap.full
  have hext : s.heap.heapEnd - s.heap.heapStart = extent cs := by omega
  rw [hext]
  exact hsingle

theorem HeapSystem.mem_hold {live : List Nat} {q : Nat} :
    q ∈ HeapSystem.hold live p ↔ (p ≠ 0 ∧ q = p) ∨ q ∈ live := by
  unfold HeapSystem.hold
  split
  · next hp => simp [hp]
  · next hp => simp [hp]

/-- The pointers held follow what a call does to the cells. -/
theorem SystemInv.call (hi : SystemInv s cs) {h' : Heap} {cs' : List Cell} {added removed : Nat}
    (hspec : CallSpec s.heap h' cs cs' added removed) :
    SystemInv { heap := h', live := HeapSystem.hold (s.live.erase removed) added } cs' := by
  have hnotin : added ≠ 0 → added ∉ s.live.erase removed := by
    intro hne hmem
    obtain ⟨n, hn⟩ := (hi.live added).mp (mem_of_mem_erase hmem)
    exact hspec.fresh hne n hn
  refine ⟨hspec.inv, ?_, ?_⟩
  · simp only [HeapSystem.hold]
    split
    · exact hi.nodup.erase removed
    · rename_i hne
      exact nodup_cons.mpr ⟨hnotin hne, hi.nodup.erase removed⟩
  · intro p
    simp only [hspec.kept.start]
    rw [HeapSystem.mem_hold, hspec.live p, ← hi.live p, hi.nodup.mem_erase_iff]

theorem SystemInv.erase_zero (hi : SystemInv s cs) : s.live.erase 0 = s.live := by
  apply erase_of_not_mem
  intro hmem
  obtain ⟨n, hn⟩ := (hi.live 0).mp hmem
  exact hi.heap.ne_zero hn rfl

/-- One call keeps the heap, and the payloads it is not about. -/
theorem step_spec (hi : SystemInv s cs) (a : HeapCall) (hok : s.Allowed a) :
    ∃ t cs', s.step a = some t ∧ SystemInv t cs' ∧ Kept s.heap t.heap cs cs' a.subject := by
  cases a with
  | kmalloc size =>
    obtain ⟨p, h', cs', hres, hspec, _⟩ := kmalloc_call hi.heap hok
    refine ⟨_, cs', ?_, hi.call hspec, hspec.kept⟩
    rw [HeapSystem.step, hres, hi.erase_zero]
    rfl
  | kcalloc nmemb size =>
    obtain ⟨p, h', cs', hres, hspec⟩ := kcalloc_call hok hi.heap
    refine ⟨_, cs', ?_, hi.call hspec, hspec.kept⟩
    rw [HeapSystem.step, hres, hi.erase_zero]
    rfl
  | kfree ptr =>
    by_cases hz : ptr = 0
    · subst hz
      refine ⟨s, cs, ?_, hi, .refl _ _ _⟩
      rw [HeapSystem.step, hi.erase_zero]
      rfl
    obtain ⟨n, hn⟩ := (hi.live ptr).mp (hok.resolve_left hz)
    obtain ⟨h', cs', hres, hspec⟩ := kfree_call hi.heap hn
    refine ⟨_, cs', ?_, hi.call hspec, hspec.kept⟩
    rw [HeapSystem.step, hres]
    rfl
  | store ptr off v =>
    obtain ⟨hmem, hoff⟩ := hok
    obtain ⟨n, hn⟩ := (hi.live ptr).mp hmem
    rw [(hi.heap.blkSize hn).1] at hoff
    obtain ⟨hinv, hkept⟩ := write_call (s.heap.mem.set (ptr + off) v) hi.heap hn (by
      intro x hx
      exact Bytes.set_of_ne _ _ (by omega))
    exact ⟨_, cs, rfl, ⟨hinv, hi.nodup, hi.live⟩, hkept⟩
  | krealloc ptr size =>
    obtain ⟨hptr, hsize⟩ := hok
    by_cases hz : ptr = 0
    · subst hz
      obtain ⟨p, h', cs', hres, hspec, _⟩ := kmalloc_call hi.heap hsize
      refine ⟨_, cs', ?_, hi.call hspec, hspec.kept⟩
      rw [HeapSystem.step, Heap.krealloc, hres, hi.erase_zero]
      simp
    obtain ⟨n, hn⟩ := (hi.live ptr).mp (hptr.resolve_left hz)
    obtain ⟨q, h', cs', hres, hcases⟩ := krealloc_call hi.heap hn hsize
    rcases hcases with ⟨hs, hq, hspec⟩ | ⟨hs, -, hq, hh, hcs⟩ | ⟨hs, hq, hspec⟩ | ⟨hs, hq, -, hspec, -⟩
    · -- released
      refine ⟨_, cs', ?_, hi.call hspec, hspec.kept⟩
      rw [HeapSystem.step, hres, hq]
      simp only [bind_eq_bind, bind_some]
      rw [if_pos ⟨hz, .inl hs⟩]
    · -- it fits where it is
      subst hq hh hcs
      have hperm := perm_cons_erase (hptr.resolve_left hz)
      refine ⟨{ heap := s.heap, live := q :: s.live.erase q }, cs', ?_,
        ⟨hi.heap, hperm.nodup_iff.mp hi.nodup, fun r => ?_⟩, .refl _ _ _⟩
      · rw [HeapSystem.step, hres]
        simp only [bind_eq_bind, bind_some]
        rw [if_pos ⟨hz, .inr hz⟩, HeapSystem.hold, if_neg hz]
      · rw [← hperm.mem_iff]
        exact hi.live r
    · -- no room: the pointer stays as it is
      have hcall := hi.call hspec
      rw [hi.erase_zero] at hcall
      refine ⟨_, cs', ?_, hcall, hspec.kept.start, hspec.kept.finish, fun p n hp _ =>
        hspec.kept.payload p n hp (hi.heap.ne_zero hp)⟩
      rw [HeapSystem.step, hres, hq]
      simp only [bind_eq_bind, bind_some]
      rw [if_neg]
      intro hcond
      rcases hcond.2 with hc | hc
      · exact hs hc
      · exact hc rfl
    · refine ⟨_, cs', ?_, hi.call hspec, hspec.kept⟩
      rw [HeapSystem.step, hres]
      simp only [bind_eq_bind, bind_some]
      rw [if_pos ⟨hz, .inr hq⟩]

/-! ## Initialisation -/

theorem largest_inRange (base : Nat) (map : List MapEntry) (best : Nat × Nat)
    (hbest : best.1 = 0 ∨ base ≤ best.2 ∧ best.2 + best.1 ≤ 2 ^ 52) :
    (BootInfo.largest base map best).1 = 0 ∨ base ≤ (BootInfo.largest base map best).2 ∧
      (BootInfo.largest base map best).2 + (BootInfo.largest base map best).1 ≤ 2 ^ 52 := by
  induction map generalizing best with
  | nil => exact hbest
  | cons e es ih =>
    apply ih
    split
    · rename_i he
      exact .inr ⟨he.2.2, e.inRange⟩
    · exact hbest

theorem arena_bounds (b : BootInfo) :
    0 < b.arena.1 ∧ b.arena.1 + 0x100000 ≤ b.arena.2 ∧ b.arena.2 ≤ 2 ^ 53 := by
  have hbase : 0x200000 ≤ b.heapBase ∧ b.heapBase ≤ 2 ^ 52 := by
    have := b.kernelEnd_le
    simp only [BootInfo.heapBase]
    split <;> omega
  have hlargest := largest_inRange b.heapBase b.map (0, b.heapBase) (.inl rfl)
  simp only [BootInfo.arena]
  split
  · split <;> omega
  · omega

theorem memoryInit_inv (b : BootInfo) (mem : Bytes) :
    SystemInv { heap := memoryInit b mem, live := [] } [⟨b.arena.2 - b.arena.1 - hdrSz, true⟩] := by
  have h24 : hdrSz = 24 := rfl
  obtain ⟨hpos, hsize, hend⟩ := arena_bounds b
  refine ⟨⟨?_, cons_ne_nil _ _, rfl, ?_, hpos, hend, isChain_singleton _, ?_⟩, nodup_nil, ?_⟩
  · refine ⟨?_, trivial⟩
    exact headerAt_putHeader (c := ⟨b.arena.2 - b.arena.1 - hdrSz, true⟩) mem b.arena.1
      (by simp only; omega) (by decide)
  · show b.arena.1 + extent [⟨b.arena.2 - b.arena.1 - hdrSz, true⟩] = b.arena.2
    simp only [extent]
    omega
  · intro c hc hfree
    rw [mem_singleton] at hc
    rw [hc] at hfree
    cases hfree
  · intro p
    constructor
    · intro hp
      cases hp
    · intro hp
      obtain ⟨n, hn⟩ := hp
      cases hn

/-! ## Runs -/

/-- The states of the heap that calls lead to after its initialisation. -/
def HeapRun (b : BootInfo) (mem : Bytes) : HeapSystem → Prop :=
  Reach (fun s => s = { heap := memoryInit b mem, live := [] }) HeapSystem.Allowed
    fun s a t => s.step a = some t

theorem HeapRun.inv {b : BootInfo} {mem : Bytes} (h : HeapRun b mem s) :
    (∃ cs, SystemInv s cs) ∧ s.heap.heapStart = (memoryInit b mem).heapStart ∧
      s.heap.heapEnd = (memoryInit b mem).heapEnd := by
  apply Reach.invariant _ _ h
  · intro s hs
    rw [hs]
    exact ⟨⟨_, memoryInit_inv b mem⟩, rfl, rfl⟩
  intro s a t hs hok hstep
  obtain ⟨⟨cs, hi⟩, hstart, hend⟩ := hs
  obtain ⟨t', cs', hres, hi', hkept⟩ := step_spec hi a hok
  rw [hstep, some.injEq] at hres
  rw [hres]
  exact ⟨⟨cs', hi'⟩, hkept.start.trans hstart, hkept.finish.trans hend⟩

/-- Whatever the callers do, the heap is well formed and its arena is the one it
started with.  The next call returns, and it leaves every payload in use alone that
it is not about. -/
theorem heap_wellFormed {b : BootInfo} {mem : Bytes} {s : HeapSystem} (h : HeapRun b mem s) :
    s.heap.heapStart = (memoryInit b mem).heapStart ∧
      s.heap.heapEnd = (memoryInit b mem).heapEnd ∧
        ∃ cs, WellFormedHeap s cs ∧ ∀ a, s.Allowed a → ∃ t cs', s.step a = some t ∧
          WellFormedHeap t cs' ∧
            ∀ p n, (p, n) ∈ payloads s.heap.heapStart cs → p ≠ a.subject →
              (p, n) ∈ payloads t.heap.heapStart cs' ∧
                ∀ x, p ≤ x → x < p + n → t.heap.mem x = s.heap.mem x := by
  obtain ⟨⟨cs, hi⟩, hstart, hend⟩ := h.inv
  refine ⟨hstart, hend, cs, hi.wellFormed, ?_⟩
  intro a hok
  obtain ⟨t, cs', hres, hi', hkept⟩ := step_spec hi a hok
  refine ⟨t, cs', hres, hi'.wellFormed, ?_⟩
  intro p n hp hne
  rw [hkept.start]
  exact hkept.payload p n hp hne

/-- A machine without a memory map. -/
def plainBoot : BootInfo := ⟨0x300000, [], by decide⟩

def plainHeap : HeapSystem := { heap := memoryInit plainBoot fun _ => 0, live := [] }

theorem heap_wellFormed_plainBoot :
    ∃ s, HeapRun plainBoot (fun _ => 0) s ∧ s.live ≠ [] ∧ ∃ cs, WellFormedHeap s cs := by
  have hstart : HeapRun plainBoot (fun _ => 0) plainHeap := .start rfl
  have hok : plainHeap.Allowed (.kmalloc 100) := by
    show 100 < 2 ^ 63
    decide
  have hstep : (plainHeap.step (.kmalloc 100)).map HeapSystem.live = some [0x300018] := by
    decide +kernel
  obtain ⟨t, ht, hlive⟩ := map_eq_some_iff.mp hstep
  have hrun : HeapRun plainBoot (fun _ => 0) t := hstart.next _ hok ht
  obtain ⟨_, _, cs, hcs, _⟩ := heap_wellFormed hrun
  refine ⟨t, hrun, ?_, cs, hcs⟩
  rw [hlive]
  exact cons_ne_nil _ _

end Kil0yOS.Mm
