/-
The calls on one open file, and the blocks they touch.

An open file owns its lnx_file_t and its buffer, and the entry owns its node and the buffer
with its content.  A call changes blocks of the file it is made on, a close writes the
content back and changes blocks of the entry, and nothing else is touched.
-/
import Kil0yOS.Vfs.Reads
import Kil0yOS.Vfs.Tree

namespace Kil0yOS.Vfs

open Lib List Function

/-! ## Blocks and what they belong to -/

/-- Where the content of a file is looked up: its buffer, or the mount it is on. -/
def Node.leads (n : Node) : Option Nat :=
  match n.backend, n.mnt with
  | .mem, _ => n.memData
  | .ext2, some (.inst p) => some p
  | _, _ => none

/-- The blocks a block leads to and that are parts of the same thing. -/
def Block.Owns : Block → Nat → Prop
  | .lnxFile F, p => F.cache = some p
  | .node n, p => n.leads = some p
  | _, _ => False

/-- Block `p` is a part of what stands at `i`, an open file or an entry with its content. -/
def Owns (h : Heap) (i p : Nat) : Prop := p = i ∨ ∃ b, h.block i = some b ∧ b.Owns p

/-- What a call leaves that changes the blocks in `T` and new ones: nothing has got hold of a
block that was there before. -/
structure Touches (T : Nat → Prop) (h h' : Heap) : Prop where
  next : h.next ≤ h'.next
  same : ∀ p, p < h.next → ¬ T p → h'.block p = h.block p
  owned : ∀ i p, Owns h' i p → Owns h i p ∨ h.next ≤ p ∧ p < h'.next

section Heaps

variable {s : State} {h h' h'' : Heap} {T : Nat → Prop} {i k p q : Nat} {b : Block}

theorem alloc_next : (h.alloc b).block h.next = some b := update_self ..

theorem alloc_of_lt (hp : p < h.next) : (h.alloc b).block p = h.block p :=
  update_of_ne (Nat.ne_of_lt hp) ..

theorem returns_kmalloc (s : State) (b : Block) :
    Returns (kmalloc b) s fun r t => t.diskFails = s.diskFails ∧
      ((r = none ∧ s.heapFails 0 = true ∧ t.heap = s.heap) ∨
        (r = some s.heap.next ∧ t.heap = s.heap.alloc b)) := by
  by_cases hfails : s.heapFails 0 = true
  · exact ⟨_, _, if_pos hfails, rfl, .inl ⟨rfl, hfails, rfl⟩⟩
  · exact ⟨_, _, if_neg hfails, rfl, .inr ⟨rfl, rfl⟩⟩

theorem store_block (hp : p < h.next) : (h.store p b).block = update h.block p (some b) := by
  simp only [Heap.store, dif_pos hp]

theorem store_self (hp : p < h.next) : (h.store p b).block p = some b := by
  rw [store_block hp, update_self]

theorem store_of_ne (hp : p < h.next) (hq : q ≠ p) : (h.store p b).block q = h.block q := by
  rw [store_block hp, update_of_ne hq]

theorem free_of_ne (hq : q ≠ p) : (h.free p).block q = h.block q := update_of_ne hq ..

theorem owns_congr (hi : h'.block i = h.block i) : Owns h' i p ↔ Owns h i p := by
  simp only [Owns, hi]

namespace Touches

theorem refl (T : Nat → Prop) (h : Heap) : Touches T h h :=
  ⟨Nat.le_refl _, fun _ _ _ => rfl, fun _ _ hp => .inl hp⟩

section

variable (ht : Touches T h h')
include ht

theorem mono {T' : Nat → Prop} (hT : ∀ p, p < h.next → T p → T' p) : Touches T' h h' :=
  ⟨ht.next, fun p hp hnot => ht.same p hp fun hp' => hnot (hT p hp hp'), ht.owned⟩

theorem not_owns (hp : p < h.next) (hnot : ¬ Owns h i p) : ¬ Owns h' i p := by
  intro hp'
  rcases ht.owned i p hp' with hold | hnew
  · exact hnot hold
  · omega

/-- What is new is made of new blocks. -/
theorem owned_new (hi : h.next ≤ i) (hp : Owns h' i p) : p = i ∨ h.next ≤ p ∧ p < h'.next := by
  rcases ht.owned i p hp with (heq | ⟨b, hb, -⟩) | hnew
  · exact .inl heq
  · rw [h.above i hi] at hb
    cases hb
  · exact .inr hnew

/-- One more block changes. -/
theorem put {x : Option Block} (hblock : h''.block = update h'.block p x)
    (hnext : h'.next ≤ h''.next) (hT : T p ∨ h.next ≤ p)
    (hx : ∀ b q, x = some b → b.Owns q → Owns h' p q ∨ h.next ≤ q ∧ q < h''.next) :
    Touches T h h'' := by
  have hwas : ∀ i q, Owns h' i q → Owns h i q ∨ h.next ≤ q ∧ q < h''.next := fun i q hq =>
    (ht.owned i q hq).imp_right fun hnew => ⟨hnew.1, hnew.2.trans_le hnext⟩
  refine ⟨ht.next.trans hnext, fun q hq hnot => ?_, fun i q hq => ?_⟩
  · have hqp : q ≠ p := by
      rintro rfl
      exact hT.elim hnot (Nat.not_le.mpr hq)
    rw [hblock, update_of_ne hqp, ht.same q hq hnot]
  rcases hq with rfl | ⟨b, hb, hq⟩
  · exact .inl (.inl rfl)
  by_cases hip : i = p
  · subst hip
    rw [hblock, update_self] at hb
    exact (hx b q hb hq).elim (hwas i q) .inr
  · rw [hblock, update_of_ne hip] at hb
    exact hwas i q (.inr ⟨b, hb, hq⟩)

theorem alloc (hb : ∀ q, ¬ b.Owns q) : Touches T h (h'.alloc b) := by
  refine ht.put rfl (Nat.le_succ _) (.inr ht.next) fun c q hc hq => ?_
  cases hc
  exact absurd hq (hb q)

theorem store (hp : p < h'.next) (hT : T p ∨ h.next ≤ p)
    (hb : ∀ q, b.Owns q → Owns h' p q ∨ h.next ≤ q ∧ q < h'.next) :
    Touches T h (h'.store p b) := by
  refine ht.put (store_block hp) (store_next hp b).ge hT fun c q hc hq => ?_
  cases hc
  rw [store_next hp]
  exact hb q hq

theorem free (hT : T p ∨ h.next ≤ p) : Touches T h (h'.free p) :=
  ht.put rfl (Nat.le_refl _) hT fun _ _ hc => (by cases hc)

end

end Touches

/-- Things made of blocks that are there, each block with one owner. -/
def Apart (h : Heap) (I : Nat → Prop) : Prop :=
  ∃ owner : Nat → Nat, ∀ i p, I i → Owns h i p → p < h.next ∧ owner p = i

theorem Apart.lt_next {I : Nat → Prop} (ha : Apart h I) (hi : I i) (hp : Owns h i p) :
    p < h.next := by
  obtain ⟨owner, howner⟩ := ha
  exact (howner i p hi hp).1

theorem Apart.eq {I : Nat → Prop} {j : Nat} (ha : Apart h I) (hi : I i) (hj : I j)
    (hpi : Owns h i p) (hpj : Owns h j p) : i = j := by
  obtain ⟨owner, howner⟩ := ha
  exact (howner i p hi hpi).2.symm.trans (howner j p hj hpj).2

/-- The thing at `k` is touched or new, and the others are not touched. -/
theorem Apart.touches {I I' : Nat → Prop} (ha : Apart h I) (ht : Touches T h h')
    (hI : ∀ i, I' i → i ≠ k → I i ∧ ∀ p, Owns h i p → ¬ T p)
    (hk : I' k → I k ∨ h.next ≤ k ∧ k < h'.next) : Apart h' I' := by
  obtain ⟨owner, howner⟩ := id ha
  have hold : ∀ i p, I i → Owns h i p → p < h'.next ∧ (if p < h.next then owner p else k) = i := by
    intro i p hi hp
    obtain ⟨hlt, ho⟩ := howner i p hi hp
    exact ⟨hlt.trans_le ht.next, by rw [if_pos hlt, ho]⟩
  have hnew : ∀ p, h.next ≤ p ∧ p < h'.next →
      p < h'.next ∧ (if p < h.next then owner p else k) = k :=
    fun p hp => ⟨hp.2, if_neg (Nat.not_lt.mpr hp.1)⟩
  refine ⟨fun p => if p < h.next then owner p else k, fun i p hi hp => ?_⟩
  by_cases hik : i = k
  · subst hik
    rcases hk hi with hi | hi
    · exact (ht.owned i p hp).elim (hold i p hi) (hnew p)
    · rcases ht.owned_new hi.1 hp with rfl | hp
      · exact hnew p hi
      · exact hnew p hp
  · obtain ⟨hi, hT⟩ := hI i hi hik
    rw [owns_congr (ht.same i (ha.lt_next hi (.inl rfl)) (hT i (.inl rfl)))] at hp
    exact hold i p hi hp

end Heaps

/-! ## Open files and entries -/

def Buffer (h : Heap) (F : LnxFile) (bytes : List UInt8) : Prop :=
  (F.cache = none ∧ F.size = 0 ∧ bytes = []) ∨
    ∃ c all, F.cache = some c ∧ h.block c = some (.data all) ∧ F.size ≤ all.length ∧
      bytes = all.take F.size

structure OpenAt (h : Heap) (e f : Nat) (F : LnxFile) (bytes : List UInt8) : Prop where
  file : h.block f = some (.lnxFile F)
  entry : F.entry = e
  buffer : Buffer h F bytes

/-- The bytes of a file as fs_read_file finds them through its node. -/
def NodeBytes (h : Heap) (n : Node) (bytes : List UInt8) : Prop :=
  match n.backend, n.leads with
  | .mem, none => bytes = []
  | .mem, some r => h.block r = some (.data bytes)
  | .ext2, none => n.stored = bytes ∧ n.memData = none
  | .ext2, some q => ∃ M, h.block q = some (.mount M) ∧ n.stored = bytes ∧
      (M.writable = true ∨ n.memData = none)
  | .fat, _ => n.stored = bytes

def Stored (h : Heap) (e : Nat) (bytes : List UInt8) : Prop :=
  ∃ n, h.block e = some (.node n) ∧ n.type = .file ∧ n.size = bytes.length ∧ NodeBytes h n bytes

section Things

variable {h h' : Heap} {e f p : Nat} {n : Node} {F G : LnxFile} {bytes : List UInt8}

theorem Buffer.length (hbuf : Buffer h F bytes) : bytes.length = F.size := by
  rcases hbuf with ⟨-, hsize, rfl⟩ | ⟨c, all, -, -, hle, rfl⟩
  · exact hsize.symm
  · rw [length_take]
    omega

theorem Buffer.of_none (hbuf : Buffer h F bytes) (hc : F.cache = none) : bytes = [] := by
  rcases hbuf with ⟨-, -, hnil⟩ | ⟨c, -, hc', -⟩
  · exact hnil
  · cases hc.symm.trans hc'

/-- The buffer does not lie in the lnx_file_t. -/
theorem Buffer.store (hbuf : Buffer h F bytes) (hf : h.block f = some (.lnxFile G)) {b : Block} :
    Buffer (h.store f b) F bytes := by
  rcases hbuf with hnone | ⟨c, all, hc, hall, hle, hbytes⟩
  · exact .inl hnone
  · refine .inr ⟨c, all, hc, ?_, hle, hbytes⟩
    rw [store_of_ne (lt_next_of_block hf) (ne_of_block hall hf (by simp))]
    exact hall

theorem OpenAt.lt_next (ho : OpenAt h e f F bytes) (hp : Owns h f p) : p < h.next := by
  rcases hp with rfl | ⟨b, hb, hp⟩
  · exact lt_next_of_block ho.file
  rw [ho.file] at hb
  cases hb
  rcases ho.buffer with ⟨hnone, -, -⟩ | ⟨c, all, hc, hall, -, -⟩
  · exact absurd (hnone.symm.trans hp) (by simp)
  · cases hc.symm.trans hp
    exact lt_next_of_block hall

/-- An open file depends on its own blocks only. -/
theorem OpenAt.congr (ho : OpenAt h e f F bytes)
    (hsame : ∀ p, Owns h f p → h'.block p = h.block p) : OpenAt h' e f F bytes := by
  refine ⟨(hsame f (.inl rfl)).trans ho.file, ho.entry, ?_⟩
  rcases ho.buffer with hnone | ⟨c, all, hc, hall, hle, hbytes⟩
  · exact .inl hnone
  · exact .inr ⟨c, all, hc, (hsame c (.inr ⟨_, ho.file, hc⟩)).trans hall, hle, hbytes⟩

theorem NodeBytes.block (hbytes : NodeBytes h n bytes) (hp : n.leads = some p) :
    ∃ b, h.block p = some b ∧ ∀ k, b ≠ .node k := by
  simp only [NodeBytes, hp] at hbytes
  cases hback : n.backend with
  | mem =>
    rw [hback] at hbytes
    exact ⟨_, hbytes, by simp⟩
  | ext2 =>
    rw [hback] at hbytes
    obtain ⟨M, hM, -⟩ := hbytes
    exact ⟨_, hM, by simp⟩
  | fat => simp [Node.leads, hback] at hp

/-- The bytes of a node lie in the block it leads to. -/
theorem NodeBytes.congr (hbytes : NodeBytes h n bytes)
    (hsame : ∀ p, n.leads = some p → h'.block p = h.block p) : NodeBytes h' n bytes := by
  cases hp : n.leads with
  | none => cases hback : n.backend <;> simpa [NodeBytes, hp, hback] using hbytes
  | some p => cases hback : n.backend <;> simpa [NodeBytes, hp, hback, hsame p hp] using hbytes

theorem Stored.lt_next (hst : Stored h e bytes) (hp : Owns h e p) : p < h.next := by
  obtain ⟨n, hn, -, -, hbytes⟩ := hst
  rcases hp with rfl | ⟨b, hb, hp⟩
  · exact lt_next_of_block hn
  · rw [hn] at hb
    cases hb
    obtain ⟨b, hb, -⟩ := hbytes.block hp
    exact lt_next_of_block hb

/-- The content depends on the blocks of the entry only. -/
theorem Stored.congr (hst : Stored h e bytes)
    (hsame : ∀ p, Owns h e p → h'.block p = h.block p) : Stored h' e bytes := by
  obtain ⟨n, hn, htype, hsize, hbytes⟩ := hst
  exact ⟨n, (hsame e (.inl rfl)).trans hn, htype, hsize,
    hbytes.congr fun p hp => hsame p (.inr ⟨_, hn, hp⟩)⟩

end Things

/-! ## Reading and seeking -/

/-- What a call on the open file `f` leaves. -/
structure Touched (h : Heap) (e f : Nat) (F : LnxFile) (bytes : List UInt8) (h' : Heap) : Prop
    extends Touches (Owns h f) h h' where
  file : OpenAt h' e f F bytes

section Calls

variable {s : State} {h h' : Heap} {e f c pos size : Nat} {n : Node} {F : LnxFile}
  {bytes bytes' all : List UInt8}

theorem Touched.refl (ho : OpenAt h e f F bytes) : Touched h e f F bytes h :=
  ⟨.refl _ h, ho⟩

/-- The fields change, and the buffer stays where it is. -/
theorem Touched.setFile (ht : Touched h e f F bytes h') (F' : LnxFile) (hentry : F'.entry = e)
    (hcache : F'.cache = F.cache) (hbuf : Buffer h' F' bytes') :
    Touched h e f F' bytes' (h'.store f (.lnxFile F')) := by
  have hf := ht.file.file
  refine ⟨ht.store (lt_next_of_block hf) (.inl (.inl rfl)) fun q hq => .inl (.inr ⟨_, hf, ?_⟩),
    store_self (lt_next_of_block hf), hentry, hbuf.store hf⟩
  exact hcache.symm.trans hq

/-- The buffer changes. -/
theorem Touched.setData (ht : Touched h e f F bytes h') (hc : F.cache = some c)
    (hdata : h'.block c = some (.data bytes')) (hlen : F.size ≤ all.length) :
    Touched h e f F (all.take F.size) (h'.store c (.data all)) := by
  have hlt := lt_next_of_block hdata
  have howned : Owns h' f c := .inr ⟨_, ht.file.file, hc⟩
  refine ⟨ht.store hlt ((ht.owned f c howned).imp_right And.left) fun q hq => hq.elim, ?_,
    ht.file.entry, .inr ⟨c, all, hc, store_self hlt, hlen, rfl⟩⟩
  rw [store_of_ne hlt (ne_of_block ht.file.file hdata (by simp))]
  exact ht.file.file

/-- Behind the end a read returns nothing, and before it a part of the buffer. -/
theorem Buffer.slice (hbuf : Buffer h F bytes) (pos count : Nat) :
    F.size ≤ pos ∧ (bytes.drop pos).take count = [] ∨ ¬ F.size ≤ pos ∧ ∃ c all,
      F.cache = some c ∧ h.block c = some (.data all) ∧
        (all.drop pos).take (min (F.size - pos) count) = (bytes.drop pos).take count := by
  by_cases hpos : F.size ≤ pos
  · rw [drop_eq_nil_of_le (hbuf.length.trans_le hpos), take_nil]
    exact .inl ⟨hpos, rfl⟩
  rcases hbuf with ⟨-, hsize, -⟩ | ⟨c, all, hc, hall, -, rfl⟩
  · omega
  · exact .inr ⟨hpos, c, all, hc, hall, by rw [drop_take, take_take, Nat.min_comm]⟩

section

variable (ho : OpenAt s.heap e f F bytes) (hn : s.heap.block e = some (.node n))
include ho hn

theorem OpenAt.lnxvfsRead (htype : n.type = .file) (count : Nat) :
    Returns (lnxvfsRead f count) s fun r t => r = .ok ((bytes.drop F.pos).take count) ∧
      ∃ pos, Touched s.heap e f { F with pos := pos } bytes t.heap := by
  obtain ⟨dirty, entry, cache, size, pos⟩ := F
  obtain ⟨hfile, rfl, hbuf⟩ := id ho
  refine returns_bind_of_some (fileAt_of_file hfile) (returns_bind_of_some (nodeAt_of_node hn) ?_)
  rw [if_neg (by simp [htype])]
  rcases hbuf.slice pos count with ⟨hpos, hslice⟩ | ⟨hpos, c, all, rfl, hall, hslice⟩
  · rw [if_pos hpos]
    exact .pure ⟨by rw [hslice], pos, .refl ho⟩
  · rw [if_neg hpos]
    exact returns_bind_of_some (dataAt_of_data hall) (returns_modify_bind.mpr
      (.pure ⟨by rw [hslice], pos + min (size - pos) count,
        (Touched.refl ho).setFile _ rfl rfl hbuf⟩))

theorem OpenAt.lnxvfsPread (htype : n.type = .file) (count : Nat) {off : Int} (hoff : 0 ≤ off) :
    Returns (lnxvfsPread f count off) s fun r t => r = .ok ((bytes.drop off.toNat).take count) ∧
      t = s := by
  obtain ⟨dirty, entry, cache, size, pos⟩ := F
  obtain ⟨hfile, rfl, hbuf⟩ := id ho
  refine returns_bind_of_some (fileAt_of_file hfile) (returns_bind_of_some (nodeAt_of_node hn) ?_)
  rw [if_neg (not_not.mpr htype), if_neg (by omega)]
  by_cases hcount : count = 0
  · rw [if_pos (.inr hcount), hcount]
    exact .pure ⟨rfl, rfl⟩
  rcases hbuf.slice off.toNat count with ⟨hpos, hslice⟩ | ⟨hpos, c, all, rfl, hall, hslice⟩
  · rw [if_pos (.inl hpos)]
    exact .pure ⟨by rw [hslice], rfl⟩
  · rw [if_neg (not_or.mpr ⟨hpos, hcount⟩)]
    exact returns_bind_of_some (dataAt_of_data hall) (.pure ⟨by rw [hslice], rfl⟩)

theorem OpenAt.lnxvfsLseek (whence : Nat) (off : Int) :
    Returns (lnxvfsLseek f whence off) s fun _ t => ∃ pos,
      Touched s.heap e f { F with pos := pos } bytes t.heap := by
  obtain ⟨dirty, entry, cache, size, pos⟩ := F
  obtain ⟨hfile, rfl, hbuf⟩ := id ho
  refine returns_bind_of_some (fileAt_of_file hfile) ?_
  split
  · exact .pure ⟨pos, .refl ho⟩
  split
  · exact .pure ⟨pos, .refl ho⟩
  refine returns_bind_of_some (nodeAt_of_node hn) ?_
  split
  · exact .pure ⟨pos, .refl ho⟩
  · exact returns_modify_bind.mpr (.pure ⟨_, (Touched.refl ho).setFile _ rfl rfl hbuf⟩)

theorem OpenAt.lnxvfsFstat :
    Returns (lnxvfsFstat f) s fun r t => r = statFill e n ∧ t = s := by
  refine returns_bind_of_some (fileAt_of_file ho.file) ?_
  rw [ho.entry]
  exact returns_bind_of_some (nodeAt_of_node hn) (.pure ⟨rfl, rfl⟩)

end

end Calls

/-! ## Writing -/

/-- What a content is after a write at a position; a gap before it reads as zeros. -/
def splice (bytes : List UInt8) (pos : Nat) (buf : List UInt8) : List UInt8 :=
  bytes.take pos ++ replicate (pos - bytes.length) 0 ++ buf ++ bytes.drop (pos + buf.length)

section Write

variable {s : State} {h h' : Heap} {e f c pos size : Nat} {n : Node} {F : LnxFile}
  {bytes buf all : List UInt8}

theorem splice_of_le (h : pos ≤ bytes.length) : splice bytes pos buf = overwrite bytes pos buf := by
  simp [splice, overwrite, Nat.sub_eq_zero_of_le h]

theorem length_overwrite (h : pos + buf.length ≤ bytes.length) :
    (overwrite bytes pos buf).length = bytes.length := by
  simp only [overwrite, length_append, length_take, length_drop]
  omega

theorem take_overwrite (hsize : size ≤ all.length) (h : pos + buf.length ≤ size) :
    (overwrite all pos buf).take size = overwrite (all.take size) pos buf := by
  have hlen : (all.take pos ++ buf).length = pos + buf.length := by
    rw [length_append, length_take]
    omega
  rw [overwrite, overwrite, take_append, take_of_length_le (by omega), hlen,
    take_take, Nat.min_eq_left (by omega), drop_take]

/-- The end of a write, in a buffer that is large enough. -/
theorem Touched.writeAtPos (ht : Touched h e f F bytes s.heap)
    (hroom : F.pos + buf.length ≤ F.size) :
    Returns (writeAtPos f buf) s fun r t => r = .ok buf.length ∧
      Touched h e f { F with pos := F.pos + buf.length, dirty := true }
        (overwrite bytes F.pos buf) t.heap := by
  obtain ⟨dirty, entry, cache, size, pos⟩ := F
  obtain ⟨hfile, rfl, hbuf⟩ := id ht.file
  dsimp only at hroom
  refine returns_bind_of_some (fileAt_of_file hfile) ?_
  rcases hbuf with ⟨rfl, rfl, rfl⟩ | ⟨c, all, rfl, hall, hle, rfl⟩
  · obtain rfl : pos = 0 := by omega
    obtain rfl : buf = [] := eq_nil_of_length_eq_zero (by omega)
    exact returns_modify_bind.mpr (.pure ⟨rfl, ht.setFile _ rfl rfl (.inl ⟨rfl, rfl, rfl⟩)⟩)
  -- The buffer is written first, then the fields.
  refine returns_bind_of_some (dataAt_of_data hall)
    (returns_modify_bind.mpr (returns_modify_bind.mpr (.pure ⟨rfl, ?_⟩)))
  have hdata := ht.setData rfl hall ((length_overwrite (hroom.trans hle)).symm ▸ hle)
  rw [take_overwrite hle hroom] at hdata
  exact hdata.setFile _ rfl rfl hdata.file.buffer

/-- What krealloc leaves of the buffer of an open file. -/
structure Regrown (h : Heap) (f : Nat) (F : LnxFile) (bytes : List UInt8) (size c : Nat)
    (h' : Heap) : Prop extends Touches (Owns h f) h h' where
  file : h'.block f = some (.lnxFile F)
  data : ∃ all, h'.block c = some (.data all) ∧ size ≤ all.length ∧ all.take F.size = bytes
  block : Owns h' f c ∨ h.next ≤ c ∧ c < h'.next

theorem length_grown (all : List UInt8) (size : Nat) (fill : Nat → UInt8) :
    size ≤ (grown all size fill).length := by
  simp only [grown, length_append, length_map, length_range]
  omega

theorem OpenAt.regrow (ho : OpenAt h e f F bytes) (hlen : size ≤ all.length)
    (htake : all.take F.size = bytes) : Regrown h f F bytes size h.next (h.alloc (.data all)) :=
  ⟨(Touches.refl _ h).alloc fun _ hq => hq, (alloc_of_lt (lt_next_of_block ho.file)).trans ho.file,
    ⟨all, alloc_next, hlen, htake⟩, .inr ⟨Nat.le_refl _, Nat.lt_succ_self _⟩⟩

theorem OpenAt.krealloc (ho : OpenAt s.heap e f F bytes) (size : Nat) (inPlace : Bool)
    (fill : Nat → UInt8) :
    Returns (krealloc F.cache size inPlace fill) s fun r t =>
      (r = none ∧ t.heap = s.heap) ∨ ∃ c, r = some c ∧ Regrown s.heap f F bytes size c t.heap := by
  rcases id ho.buffer with ⟨hc, hsize, rfl⟩ | ⟨c, all, hc, hall, hle, rfl⟩
  · rw [hc]
    refine (returns_kmalloc s _).mono fun r t ht => ?_
    rcases ht.2 with ⟨hr, -, hheap⟩ | ⟨hr, hheap⟩
    · exact .inl ⟨hr, hheap⟩
    · rw [hheap]
      exact .inr ⟨_, hr, ho.regrow (length_grown _ _ _) (by rw [hsize, take_zero])⟩
  rw [hc]
  have hlen := length_grown all size fill
  have htake : (grown all size fill).take _ = _ := take_append_of_le_length hle
  have hfc : f ≠ c := ne_of_block ho.file hall (by simp)
  have howns : Owns s.heap f c := .inr ⟨_, ho.file, hc⟩
  have hlt := lt_next_of_block hall
  refine returns_bind_of_some (dataAt_of_data hall) ?_
  split
  · -- The block has the room.
    have hfile := (store_of_ne (b := .data (grown all size fill)) hlt hfc).trans ho.file
    exact returns_modify_bind.mpr (.pure (.inr ⟨c, rfl,
      (Touches.refl _ _).store hlt (.inl howns) fun q hq => hq.elim, hfile,
      ⟨_, store_self hlt, hlen, htake⟩, .inl (.inr ⟨_, hfile, hc⟩)⟩))
  refine (returns_kmalloc s _).bind fun r t ht => ?_
  rcases ht.2 with ⟨rfl, -, hheap⟩ | ⟨rfl, hheap⟩
  · exact .pure (.inl ⟨rfl, hheap⟩)
  -- The old block is freed.
  have hgrown := ho.regrow hlen htake
  rw [← hheap] at hgrown
  obtain ⟨all', hall', hfits⟩ := hgrown.data
  refine returns_modify_bind.mpr (.pure (.inr ⟨_, rfl, hgrown.free (.inl howns),
    (free_of_ne hfc).trans hgrown.file, ⟨all', (free_of_ne hlt.ne').trans hall', hfits⟩, .inr ?_⟩))
  exact ⟨Nat.le_refl _, (lt_next_of_block hall' : s.heap.next < t.heap.next)⟩

theorem Regrown.setFile (hg : Regrown h f F bytes size c h') (hentry : F.entry = e) :
    ∃ all : List UInt8, all.take F.size = bytes ∧
      Touched h e f { F with cache := some c, size := size } (all.take size)
        (h'.store f (.lnxFile { F with cache := some c, size := size })) := by
  obtain ⟨all, hall, hlen, htake⟩ := hg.data
  have hlt := lt_next_of_block hg.file
  refine ⟨all, htake, hg.store hlt (.inl (.inl rfl)) fun q hq => ?_, store_self hlt, hentry,
    Buffer.store (.inr ⟨c, all, rfl, hall, hlen, rfl⟩) hg.file⟩
  cases hq
  exact hg.block

/-- A write that does not start behind the end of the file. -/
theorem OpenAt.lnxvfsWrite (ho : OpenAt s.heap e f F bytes) (hn : s.heap.block e = some (.node n))
    (htype : n.type = .file) (hpos : F.pos ≤ F.size) (buf : List UInt8) (inPlace : Bool)
    (fill : Nat → UInt8) :
    Returns (lnxvfsWrite f buf inPlace fill) s fun r t =>
      (r.isOk = false ∧ t.heap = s.heap) ∨
      (r = .ok buf.length ∧ ∃ cache size, (cache = none → F.cache = none) ∧ Touched s.heap e f
        { F with cache := cache, size := size, pos := F.pos + buf.length, dirty := true }
        (splice bytes F.pos buf) t.heap) := by
  have hlen := ho.buffer.length
  rw [splice_of_le (hpos.trans_eq hlen.symm)]
  refine returns_bind_of_some (fileAt_of_file ho.file)
    (returns_bind_of_some (nodeAt_of_node (ho.entry ▸ hn)) ?_)
  rw [if_neg (by simp [htype])]
  by_cases hgrow : F.size < F.pos + buf.length
  · rw [if_pos hgrow]
    refine (ho.krealloc _ inPlace fill).bind fun r t ht => ?_
    rcases ht with ⟨rfl, hheap⟩ | ⟨c, rfl, hgrown⟩
    · exact .pure (.inl ⟨rfl, hheap⟩)
    obtain ⟨all, htake, hset⟩ := hgrown.setFile ho.entry
    refine returns_modify_bind.mpr ((Touched.writeAtPos hset (Nat.le_refl _)).mono fun r v hv =>
      .inr ⟨hv.1, some c, F.pos + buf.length, fun hnone => (by cases hnone), ?_⟩)
    -- The write covers what was new in the buffer.
    have hsame : overwrite (all.take (F.pos + buf.length)) F.pos buf
        = overwrite bytes F.pos buf := by
      rw [overwrite, overwrite, take_take, Nat.min_eq_left (by omega), ← htake,
        take_take, Nat.min_eq_left hpos, drop_eq_nil_of_le (by simp),
        drop_eq_nil_of_le (by simp; omega)]
    exact hsame ▸ hv.2
  · rw [if_neg hgrow]
    exact ((Touched.refl ho).writeAtPos (by omega)).mono fun r v hv =>
      .inr ⟨hv.1, F.cache, F.size, fun hnone => hnone, hv.2⟩

end Write

end Kil0yOS.Vfs
