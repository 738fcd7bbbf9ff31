/-
Several descriptors of one file.

Every open takes a copy of the whole file, and the last close of a copy that was written to
puts it back.  Descriptors that dup or fork made share a copy; descriptors of different opens
do not.  A copy is stale if a write was made through another one: it lacks that write, and
if it is written to itself, its close overwrites it.  An open does not notice when the read
of the file fails, and then its copy is not one of the file at all.
-/
import Kil0yOS.Lib.Run
import Kil0yOS.Lib.WriteBack
import Kil0yOS.Vfs.OpenClose

namespace Kil0yOS.Vfs

open Lib List Option Function Prod

/-- The descriptors of one file in all processes.  `expected` and `stale` record the history:
the content at the first open with the writes made since in order, and the open files that
lack one of them. -/
structure Session where
  vfs : State
  /-- The descriptors, each with the lnx_file_t it leads to. -/
  fds : List (Nat × Nat)
  expected : List UInt8
  stale : List Nat

inductive FileCall where
  /-- A second descriptor for the same open file, as dup and fork make. -/
  | dup (fd' : Nat)
  | close
  | read (count : Nat)
  | pread (count : Nat) (off : Int)
  | write (buf : List UInt8) (inPlace : Bool) (fill : Nat → UInt8)
  | lseek (whence : Nat) (off : Int)
  | fstat

inductive Call where
  | openFile (fd flags : Nat) (fill : Nat → UInt8) (fileNew fdInstall : Bool)
  | via (fd : Nat) (c : FileCall)

inductive Reply where
  | failed
  | done
  | bytes (b : List UInt8)
  | size (n : Nat)
deriving DecidableEq

namespace Session

variable (S : Session)

def files : List Nat := S.fds.map snd

def fileOf (fd : Nat) : Option Nat := S.fds.lookup fd

def lnxFile (f : Nat) : Option LnxFile :=
  match S.vfs.heap.block f with
  | some (.lnxFile F) => some F
  | _ => none

def node (e : Nat) : Option Node :=
  match S.vfs.heap.block e with
  | some (.node n) => some n
  | _ => none

def isDirty (f : Nat) : Bool := (S.lnxFile f).any LnxFile.dirty

def cursor (f : Nat) : Nat := ((S.lnxFile f).map LnxFile.pos).getD 0

/-- The descriptors that are left when one of `f` is closed. -/
def without (fd f : Nat) : List (Nat × Nat) := S.fds.erase (fd, f)

def run {α : Type} (x : V (Outcome α)) (done : α → Session → Reply × Session) :
    Option (Reply × Session) :=
  (x S.vfs).map fun (r, v) =>
    match r with
    | .error _ => (.failed, { S with vfs := v })
    | .ok a => done a { S with vfs := v }

/-- A call through the descriptor `fd` of the open file `f`. -/
def callOn (fd f : Nat) : FileCall → Option (Reply × Session)
  | .dup fd' => some (.done, { S with fds := (fd', f) :: S.fds })
  | .close =>
    if f ∈ (S.without fd f).map snd then some (.done, { S with fds := S.without fd f })
    else (vfsFClose f S.vfs).map fun (_, v) => (.done, { S with vfs := v, fds := S.without fd f })
  | .read count => S.run (lnxvfsRead f count) fun b S' => (.bytes b, S')
  | .pread count off => S.run (lnxvfsPread f count off) fun b S' => (.bytes b, S')
  | .write buf inPlace fill => S.run (lnxvfsWrite f buf inPlace fill) fun _ S' => (.done,
      { S' with
        expected := splice S.expected (S.cursor f) buf
        stale := S.files.filter (· ≠ f) })
  | .lseek whence off => S.run (lnxvfsLseek f whence off) fun _ S' => (.done, S')
  | .fstat => (lnxvfsFstat f S.vfs).map fun (r, v) => (.size r.stSize, { S with vfs := v })

/-- A call on the file with the entry `e`; none where a call does not return. -/
def step (e : Nat) : Call → Option (Reply × Session)
  | .openFile fd flags fill fileNew fdInstall =>
    S.run (openEntry e flags fill fileNew fdInstall) fun f S' => (.done,
      { S' with
        fds := (fd, f) :: S.fds
        stale := if S.files.any S.isDirty then f :: S.stale else S.stale })
  | .via fd c =>
    match S.fileOf fd with
    | none => some (.failed, S)
    | some f => S.callOn fd f c

end Session

def Call.step (e : Nat) (S : Session) (c : Call) (S' : Session) : Prop :=
  ∃ r, S.step e c = some (r, S')

structure Unopened (e : Nat) (S : Session) : Prop where
  fds : S.fds = []
  stale : S.stale = []
  stored : Stored S.vfs.heap e S.expected

def NoTrunc : Call → Prop
  | .openFile _ flags _ _ _ => flags &&& lOTrunc = 0
  | .via _ _ => True

/-- Nothing is read or written through an open file that is stale, and no write starts behind
the end of the file.  The size is not asked for while a write that changed it waits for its
flush.  A flush finds the memory and the disk it needs, and the file is not larger than a
file may be. -/
def UncrossedOn (e : Nat) (S : Session) (fd f : Nat) : FileCall → Prop
  | .read _ => f ∉ S.stale
  | .pread _ _ => f ∉ S.stale
  | .write _ _ _ => f ∉ S.stale ∧ ∀ F ∈ S.lnxFile f, F.pos ≤ F.size
  | .fstat => ∀ g ∈ S.files, ∀ G ∈ S.lnxFile g, ∀ n ∈ S.node e, G.dirty = true → G.size = n.size
  | .close => f ∉ (S.without fd f).map snd → ∀ F ∈ S.lnxFile f, F.dirty = true →
    S.vfs.heapFails 0 = false ∧ S.vfs.diskFails 0 = false ∧ F.size ≤ maxFileSize
  | _ => True

/-- The condition under which no write is lost or overlooked.  Besides, the read that an open
makes of a file on disk does not fail. -/
def Uncrossed (e : Nat) (S : Session) : Call → Prop
  | .openFile _ flags _ _ _ => flags &&& lOTrunc = 0 ∧
    ∀ n ∈ S.node e, n.backend ≠ .mem → n.size ≠ 0 → S.vfs.diskFails 0 = false
  | .via fd c => ∀ f ∈ S.fileOf fd, UncrossedOn e S fd f c

/-- What a reply shows of the writes made before. -/
def ObservesOn (S : Session) (f : Nat) : FileCall → Reply → Prop
  | .read count, r => r = .bytes ((S.expected.drop (S.cursor f)).take count)
  | .pread count off, r => 0 ≤ off → r = .bytes ((S.expected.drop off.toNat).take count)
  | .fstat, r => r = .size S.expected.length
  | _, _ => True

def Observes (S : Session) : Call → Reply → Prop
  | .via fd c, r => ∀ f ∈ S.fileOf fd, ObservesOn S f c r
  | .openFile _ _ _ _ _, _ => True

/-- What fs_read_file returns if the disk does not fail. -/
def ReadsBack (v : State) (e : Nat) (bytes : List UInt8) : Prop :=
  ∃ n, v.heap.block e = some (.node n) ∧ n.size = bytes.length ∧
    ∀ buffer, buffer.length = n.size →
      (fsReadFile e buffer n.size { v with diskFails := fun _ => false }).map fst = some bytes

/-! ## The invariant -/

/-- The bytes of an open file, and whether its close writes them back. -/
def view (h : Heap) (f : Nat) : Option (List UInt8 × Bool) :=
  match h.block f with
  | some (.lnxFile F) =>
    match F.cache with
    | none => some ([], false)
    | some c =>
      match h.block c with
      | some (.data all) => some (all.take F.size, F.dirty)
      | _ => none
  | _ => none

def Session.copies (S : Session) (f : Nat) : Option (List UInt8 × Bool) :=
  if f ∈ S.files then view S.vfs.heap f else none

/-- The open files are in order, and their buffers are private copies of the content. -/
structure Session.Sound (S : Session) (e : Nat) : Prop where
  opened : ∀ f ∈ S.files, ∃ F b, OpenAt S.vfs.heap e f F b
  apart : Apart S.vfs.heap fun i => i = e ∨ i ∈ S.files
  stale : ∀ f ∈ S.stale, f < S.vfs.heap.next
  content : ∃ stored, Stored S.vfs.heap e stored ∧
    Coherent S.expected stored S.copies (· ∈ S.stale)

section Views

variable {S S' : Session} {e f fd g k : Nat} {F : LnxFile} {b stored : List UInt8} {T : Nat → Prop}

section

variable (ho : OpenAt S.vfs.heap e f F b)
include ho

theorem OpenAt.lnxFile : S.lnxFile f = some F := by
  simp only [Session.lnxFile, ho.file]

theorem OpenAt.cursor : S.cursor f = F.pos := by
  simp [Session.cursor, ho.lnxFile]

theorem OpenAt.copies (hf : f ∈ S.files) : S.copies f = some (b, F.waits) := by
  rw [Session.copies, if_pos hf]
  simp only [view, ho.file, LnxFile.waits]
  rcases ho.buffer with ⟨hc, -, rfl⟩ | ⟨c, all, hc, hall, -, rfl⟩
  · simp [hc]
  · simp [hc, hall]

end

theorem node_of_block {n : Node} (hn : S.vfs.heap.block e = some (.node n)) : S.node e = some n := by
  simp only [Session.node, hn]

theorem mem_files_of_fileOf (h : S.fileOf fd = some f) : f ∈ S.files := by
  obtain ⟨before, after, heq, -⟩ := lookup_eq_some_iff.mp h
  rw [Session.files, heq]
  simp

theorem copies_of_not_mem (hf : f ∉ S.files) : S.copies f = none := if_neg hf

section

variable (h : S.Sound e)
include h

namespace Session.Sound

theorem lt_next (hf : f ∈ S.files) : f < S.vfs.heap.next :=
  h.apart.lt_next (.inr hf) (.inl rfl)

theorem ne_entry (hf : f ∈ S.files) : f ≠ e := by
  obtain ⟨F, b, ho⟩ := h.opened f hf
  obtain ⟨stored, ⟨n, hn, -⟩, -⟩ := h.content
  exact ne_of_block ho.file hn (by simp)

theorem waiting (hb : S.copies f = some (b, true)) :
    f ∈ S.files ∧ ∃ F, OpenAt S.vfs.heap e f F b ∧ F.dirty = true := by
  have hf : f ∈ S.files := by
    by_contra hf
    cases (copies_of_not_mem hf).symm.trans hb
  obtain ⟨F, b', ho⟩ := h.opened f hf
  have heq := (ho.copies hf).symm.trans hb
  simp only [LnxFile.waits, some.injEq, Prod.mk.injEq, Bool.and_eq_true] at heq
  exact ⟨hf, F, heq.1 ▸ ho, heq.2.1⟩

/-- A call that touches the thing at `k` alone among those that stay: the open file `f`, or the
entry when `f` goes. -/
theorem after (ht : Touches T S.vfs.heap S'.vfs.heap) (hk : k = e ∨ k = f)
    (hmem : ∀ g, g ≠ f → (g ∈ S'.files ↔ g ∈ S.files))
    (hI : ∀ i, i = e ∨ i ∈ S'.files → i ≠ k → (i = e ∨ i ∈ S.files) ∧
      ∀ p, Owns S.vfs.heap i p → ¬ T p)
    (hself : f ∈ S'.files → f ∈ S.files ∨ S.vfs.heap.next ≤ f)
    (hopened : f ∈ S'.files → ∃ F b, OpenAt S'.vfs.heap e f F b)
    (hstale : ∀ g ∈ S'.stale, g < S'.vfs.heap.next) (hstored : Stored S'.vfs.heap e stored)
    (hcoh : Coherent S'.expected stored (update S.copies f (S'.copies f)) (· ∈ S'.stale)) :
    S'.Sound e := by
  -- The other open files are as they were.
  have hsame : ∀ g, g ∈ S'.files → g ≠ f → ∀ F b, OpenAt S.vfs.heap e g F b →
      OpenAt S'.vfs.heap e g F b := by
    intro g hg hgf F b ho
    have hgk : g ≠ k := by
      rcases hk with rfl | rfl
      · exact h.ne_entry ((hmem g hgf).mp hg)
      · exact hgf
    exact ho.congr fun p hp => ht.same p (ho.lt_next hp) ((hI g (.inr hg) hgk).2 p hp)
  have hcopies : S'.copies = update S.copies f (S'.copies f) := by
    refine eq_update_iff.mpr ⟨rfl, fun g hgf => ?_⟩
    by_cases hg : g ∈ S'.files
    · obtain ⟨F, b, ho⟩ := h.opened g ((hmem g hgf).mp hg)
      rw [(hsame g hg hgf F b ho).copies hg, ho.copies ((hmem g hgf).mp hg)]
    · rw [copies_of_not_mem hg, copies_of_not_mem fun hg' => hg ((hmem g hgf).mpr hg')]
  refine ⟨fun g hg => ?_, h.apart.touches ht hI fun hk' => ?_, hstale, stored, hstored,
    hcopies ▸ hcoh⟩
  · by_cases hgf : g = f
    · subst hgf
      exact hopened hg
    · obtain ⟨F, b, ho⟩ := h.opened g ((hmem g hgf).mp hg)
      exact ⟨F, b, hsame g hg hgf F b ho⟩
  by_cases hke : k = e
  · exact .inl (.inl hke)
  obtain rfl := hk.resolve_left hke
  have hk' := hk'.resolve_left hke
  obtain ⟨F, b, ho⟩ := hopened hk'
  exact (hself hk').imp .inr fun hnew => ⟨hnew, lt_next_of_block ho.file⟩

/-- A call on the open file `f`, which may be a new one. -/
theorem call (ht : Touches (Owns S.vfs.heap f) S.vfs.heap S'.vfs.heap)
    (hf : f ∈ S.files ∨ S.vfs.heap.next ≤ f) (hmem : ∀ g, g ≠ f → (g ∈ S'.files ↔ g ∈ S.files))
    (hopened : f ∈ S'.files → ∃ F b, OpenAt S'.vfs.heap e f F b)
    (hstale : ∀ g ∈ S'.stale, g < S'.vfs.heap.next) (hstored : Stored S.vfs.heap e stored)
    (hcoh : Coherent S'.expected stored (update S.copies f (S'.copies f)) (· ∈ S'.stale)) :
    S'.Sound e := by
  have hI : ∀ i, i = e ∨ i ∈ S'.files → i ≠ f → (i = e ∨ i ∈ S.files) ∧
      ∀ p, Owns S.vfs.heap i p → ¬ Owns S.vfs.heap f p := by
    intro i hi hif
    have hi : i = e ∨ i ∈ S.files := hi.imp_right (hmem i hif).mp
    refine ⟨hi, fun p hp hpf => ?_⟩
    rcases hf with hf | hnew
    · exact hif (h.apart.eq hi (.inr hf) hp hpf)
    · have hlt := h.apart.lt_next hi hp
      rcases (Touches.refl (fun _ => False) S.vfs.heap).owned_new hnew hpf with rfl | hp
      · omega
      · omega
  have hef : e ≠ f := by
    rintro rfl
    exact hf.elim (fun hf => h.ne_entry hf rfl)
      (Nat.not_le.mpr (hstored.lt_next (.inl rfl)))
  refine h.after ht (.inr rfl) hmem hI (fun _ => hf) hopened hstale
    (hstored.congr fun p hp => ht.same p (hstored.lt_next hp) ?_) hcoh
  exact (hI e (.inl rfl) hef).2 p hp

/-- A call that changes no copy. -/
theorem quiet (ht : Touches (Owns S.vfs.heap f) S.vfs.heap S'.vfs.heap)
    (hf : f ∈ S.files ∨ S.vfs.heap.next ≤ f) (hmem : ∀ g, g ∈ S'.files ↔ g ∈ S.files)
    (hexpected : S'.expected = S.expected) (hstale : S'.stale = S.stale)
    (hopened : f ∈ S.files → ∃ F b, OpenAt S'.vfs.heap e f F b ∧ S.copies f = some (b, F.waits)) :
    S'.Sound e := by
  obtain ⟨stored, hstored, hcoh⟩ := h.content
  refine h.call ht hf (fun g _ => hmem g) (fun hf' => ?_) (fun g hg => ?_) hstored ?_
  · obtain ⟨F, b, ho, -⟩ := hopened ((hmem f).mp hf')
    exact ⟨F, b, ho⟩
  · rw [hstale] at hg
    exact (h.stale g hg).trans_le ht.next
  have hcopy : S'.copies f = S.copies f := by
    by_cases hf' : f ∈ S.files
    · obtain ⟨F, b, ho, hcopy⟩ := hopened hf'
      rw [ho.copies ((hmem f).mpr hf'), hcopy]
    · rw [copies_of_not_mem hf', copies_of_not_mem (mt (hmem f).mp hf')]
  rw [hcopy, update_eq_self, hexpected, hstale]
  exact hcoh

theorem untouched (ht : Touches (fun _ => False) S.vfs.heap S'.vfs.heap)
    (hmem : ∀ g, g ∈ S'.files ↔ g ∈ S.files) (hexpected : S'.expected = S.expected)
    (hstale : S'.stale = S.stale) : S'.Sound e :=
  h.quiet (ht.mono fun _ _ => False.elim) (.inr (Nat.le_refl _)) hmem hexpected hstale fun hf =>
    absurd (h.lt_next hf) (Nat.lt_irrefl _)

end Session.Sound

end

end Views

/-! ## The calls -/

section Calls

variable {S : Session} {e f fd g : Nat}

/-- A call that returns, keeps the invariant and shows the writes made before. -/
def Answers (S : Session) (e fd f : Nat) (c : FileCall) : Prop :=
  ∃ r S', S.callOn fd f c = some (r, S') ∧ S'.Sound e ∧ ObservesOn S f c r

theorem mem_without_of_ne (hne : g ≠ f) : g ∈ (S.without fd f).map snd ↔ g ∈ S.files := by
  simp only [Session.without, Session.files, List.mem_map]
  constructor
  · rintro ⟨x, hx, rfl⟩
    exact ⟨x, mem_of_mem_erase hx, rfl⟩
  · rintro ⟨x, hx, rfl⟩
    refine ⟨x, (mem_erase_of_ne fun heq => hne ?_).mpr hx, rfl⟩
    rw [heq]

namespace Session.Sound

variable (h : S.Sound e)
include h

section

variable (hf : f ∈ S.files)
include hf

theorem ofFd : ∃ F b n, OpenAt S.vfs.heap e f F b ∧ S.vfs.heap.block e = some (.node n) ∧
    n.type = .file ∧ (f ∉ S.stale → b = S.expected) := by
  obtain ⟨F, b, ho⟩ := h.opened f hf
  obtain ⟨stored, ⟨n, hn, htype, -, -⟩, hcoh⟩ := h.content
  exact ⟨F, b, n, ho, hn, htype, hcoh.current f b _ (ho.copies hf)⟩

theorem seek {F : LnxFile} {b : List UInt8} {pos : Nat} {v : State}
    (ho : OpenAt S.vfs.heap e f F b)
    (ht : Touched S.vfs.heap e f { F with pos := pos } b v.heap) :
    { S with vfs := v : Session }.Sound e :=
  h.quiet ht.toTouches (.inl hf) (fun _ => Iff.rfl) rfl rfl fun hf =>
    ⟨_, b, ht.file, ho.copies hf⟩

theorem read (count : Nat) (hok : UncrossedOn e S fd f (.read count)) :
    Answers S e fd f (.read count) := by
  obtain ⟨F, b, n, ho, hn, htype, hfresh⟩ := h.ofFd hf
  obtain ⟨r, v, hrun, rfl, pos, ht⟩ := ho.lnxvfsRead hn htype count
  refine ⟨.bytes ((b.drop F.pos).take count), { S with vfs := v },
    by simp [callOn, run, hrun], h.seek hf ho ht, ?_⟩
  rw [ObservesOn, ho.cursor, hfresh hok]

theorem pread (count : Nat) (off : Int) (hok : UncrossedOn e S fd f (.pread count off)) :
    Answers S e fd f (.pread count off) := by
  obtain ⟨F, b, n, ho, hn, htype, hfresh⟩ := h.ofFd hf
  by_cases hoff : 0 ≤ off
  · obtain ⟨r, v, hrun, rfl, rfl⟩ := ho.lnxvfsPread hn htype count hoff
    refine ⟨.bytes ((b.drop off.toNat).take count), S, by simp [callOn, run, hrun], h, fun _ => ?_⟩
    rw [hfresh hok]
  have hrun : lnxvfsPread f count off S.vfs = some (.error lEinval, S.vfs) := by
    have hn' := nodeAt_of_node (ho.entry ▸ hn)
    simp only [lnxvfsPread]
    rw [bind_of_some (fileAt_of_file ho.file), bind_of_some hn',
      if_neg (not_not.mpr htype), if_pos (Int.not_le.mp hoff)]
    rfl
  exact ⟨.failed, S, by simp [callOn, run, hrun], h, fun hpos => absurd hpos hoff⟩

theorem lseek (whence : Nat) (off : Int) : Answers S e fd f (.lseek whence off) := by
  obtain ⟨F, b, n, ho, hn, -, -⟩ := h.ofFd hf
  obtain ⟨r, v, hrun, pos, ht⟩ := ho.lnxvfsLseek hn whence off
  refine ⟨if r.isOk then .done else .failed, { S with vfs := v }, ?_, h.seek hf ho ht, trivial⟩
  cases r <;> simp [callOn, run, hrun, Except.isOk, Except.toBool]

theorem fstat (hok : UncrossedOn e S fd f .fstat) : Answers S e fd f .fstat := by
  obtain ⟨F, b, n, ho, hn, htype, -⟩ := h.ofFd hf
  obtain ⟨stored, ⟨n', hn', -, hsize, -⟩, hcoh⟩ := h.content
  cases hn'.symm.trans hn
  obtain ⟨r, v, hrun, rfl, rfl⟩ := ho.lnxvfsFstat hn
  refine ⟨.size (statFill e n).stSize, S, by simp [callOn, hrun], h, congrArg Reply.size ?_⟩
  have hdir : n.type ≠ .directory := by simp [htype]
  simp only [statFill, if_neg hdir]
  by_cases hdirty : ∃ g c, S.copies g = some (c, true)
  · -- The size of the copy that waits for its flush is the size of the file.
    obtain ⟨g, c, hgd⟩ := hdirty
    obtain ⟨hg, G, ho', hG⟩ := h.waiting hgd
    have hcur := hcoh.current g c true hgd (hcoh.alone g c hgd).1
    rw [← hok g hg G ho'.lnxFile n (node_of_block hn) hG, ← ho'.buffer.length, hcur]
  · rw [hsize, hcoh.flushed fun g c hg => hdirty ⟨g, c, hg⟩]

/-- A write through a copy that is not stale. -/
theorem write (buf : List UInt8) (inPlace : Bool) (fill : Nat → UInt8)
    (hok : UncrossedOn e S fd f (.write buf inPlace fill)) :
    Answers S e fd f (.write buf inPlace fill) := by
  obtain ⟨F, b, n, ho, hn, htype, -⟩ := h.ofFd hf
  obtain ⟨hfresh, hpos⟩ := hok
  obtain ⟨r, v, hrun, hcases⟩ :=
    ho.lnxvfsWrite hn htype (hpos F ho.lnxFile) buf inPlace fill
  cases r with
  | error k =>
    obtain ⟨-, hheap⟩ := hcases.resolve_right fun hok => (by cases hok.1)
    exact ⟨.failed, { S with vfs := v }, by simp [callOn, run, hrun],
      h.untouched (hheap ▸ .refl _ _) (fun _ => Iff.rfl) rfl rfl, trivial⟩
  | ok count =>
    obtain ⟨-, cache, size, hcache, ht⟩ := hcases.resolve_left fun hno => (by cases hno.1)
    refine ⟨.done, _, by simp only [callOn, run, hrun, map_some]; rfl, ?_, trivial⟩
    obtain ⟨stored, hstored, hcoh⟩ := h.content
    refine h.call ht.toTouches (.inl hf) (fun _ _ => Iff.rfl) (fun _ => ⟨_, _, ht.file⟩)
      (fun g hg => (h.lt_next (mem_filter.mp hg).1).trans_le ht.next) hstored ?_
    rw [OpenAt.copies (S := { S with vfs := v, expected := _, stale := _ }) ht.file hf, ho.cursor]
    refine hcoh.change (ho.copies hf) hfresh (fun x => splice x F.pos buf) ?_ (by simp)
      fun j hj hcopy => ?_
    · -- Without a buffer there was nothing to write.
      cases cache with
      | some c => exact .inl rfl
      | none =>
        refine .inr ⟨?_, (ht.file.buffer.of_none rfl).trans (ho.buffer.of_none (hcache rfl)).symm⟩
        simp [LnxFile.waits, hcache rfl]
    · refine mem_filter.mpr ⟨?_, by simpa using hj⟩
      by_contra hmem
      exact hcopy (copies_of_not_mem hmem)

theorem dup (fd' : Nat) : Answers S e fd f (.dup fd') := by
  refine ⟨.done, _, rfl, h.untouched (.refl _ _) (fun g => ?_) rfl rfl, trivial⟩
  rw [Session.files, map_cons, mem_cons]
  refine ⟨fun hg => ?_, .inr⟩
  rcases hg with rfl | hg
  · exact hf
  · exact hg

theorem close (hok : UncrossedOn e S fd f .close) : Answers S e fd f .close := by
  obtain ⟨F, b, n, ho, -, -, -⟩ := h.ofFd hf
  by_cases hlast : f ∈ (S.without fd f).map snd
  · refine ⟨.done, _, if_pos hlast, h.untouched (.refl _ _) (fun g => ?_) rfl rfl, trivial⟩
    by_cases hgf : g = f
    · subst hgf
      exact ⟨fun _ => hf, fun _ => hlast⟩
    · exact mem_without_of_ne hgf
  obtain ⟨stored, hstored, hcoh⟩ := h.content
  have hclash : ∀ i p, i = e ∨ i ∈ S.files → i ≠ f → Owns S.vfs.heap i p → ¬ Owns S.vfs.heap f p :=
    fun i p hi hif hp hpf => hif (h.apart.eq hi (.inr hf) hp hpf)
  obtain ⟨_, v, hrun, hc⟩ := ho.vfsFClose
    (fun p hp hpe => hclash e p (.inl rfl) (h.ne_entry hf).symm hpe hp) hstored
    (hok hlast F ho.lnxFile)
  refine ⟨.done, { S with vfs := v, fds := S.without fd f }, by simp [callOn, hlast, hrun], ?_,
    trivial⟩
  have hmem : ∀ g, g ≠ f → (g ∈ (S.without fd f).map snd ↔ g ∈ S.files) :=
    fun g hgf => mem_without_of_ne hgf
  refine h.after hc.toTouches (.inl rfl) hmem (fun i hi hie => ?_) (fun hf' => absurd hf' hlast)
    (fun hf' => absurd hf' hlast) (fun g hg => (h.stale g hg).trans_le hc.next) hc.stored ?_
  · have hi : i ∈ (S.without fd f).map snd := hi.resolve_left hie
    have hif : i ≠ f := fun heq => hlast (heq ▸ hi)
    have hi : i = e ∨ i ∈ S.files := .inr ((hmem i hif).mp hi)
    exact ⟨hi, fun p hp hT => hT.elim (fun hpe => hie (h.apart.eq hi (.inl rfl) hp hpe))
      (hclash i p hi hif hp)⟩
  · rw [copies_of_not_mem hlast]
    exact hcoh.giveBack (ho.copies hf)

theorem callOn (c : FileCall) (hok : UncrossedOn e S fd f c) : Answers S e fd f c := by
  cases c with
  | dup fd' => exact h.dup hf fd'
  | close => exact h.close hf hok
  | read count => exact h.read hf count hok
  | pread count off => exact h.pread hf count off hok
  | write buf inPlace fill => exact h.write hf buf inPlace fill hok
  | lseek whence off => exact h.lseek hf whence off
  | fstat => exact h.fstat hf hok

end

/-- A new open file takes a copy of the content. -/
theorem openFile {fd flags : Nat} {fill : Nat → UInt8} {fileNew fdInstall : Bool}
    (hok : Uncrossed e S (.openFile fd flags fill fileNew fdInstall)) :
    ∃ r S', S.step e (.openFile fd flags fill fileNew fdInstall) = some (r, S') ∧ S'.Sound e := by
  obtain ⟨stored, hstored, hcoh⟩ := h.content
  obtain ⟨n, hn, -⟩ := id hstored
  obtain ⟨r, v, hrun, ht⟩ :=
    hstored.openEntry hn flags hok.1 (hok.2 n (node_of_block hn)) fill fileNew fdInstall
  cases r with
  | error k =>
    exact ⟨.failed, { S with vfs := v }, by simp [Session.step, run, hrun],
      h.untouched ht.toTouches (fun _ => Iff.rfl) rfl rfl⟩
  | ok f =>
    obtain ⟨hnew, F, ho, hclean⟩ := ht.file f rfl
    have hf : f ∉ S.files := fun hin => absurd (h.lt_next hin) (Nat.not_lt.mpr hnew)
    refine ⟨.done, _, by simp only [Session.step, run, hrun, map_some]; rfl, ?_⟩
    refine h.call (f := f) (ht.mono fun _ _ => False.elim) (.inr hnew) (fun g hgf => ?_)
      (fun _ => ⟨F, stored, ho⟩) (fun g hg => ?_) hstored ?_
    · simp [Session.files, hgf]
    · have hg' : g = f ∨ g ∈ S.stale := by
        dsimp only at hg
        split at hg
        · exact mem_cons.mp hg
        · exact .inr hg
      rcases hg' with rfl | hg
      · exact lt_next_of_block ho.file
      · exact (h.stale g hg).trans_le ht.next
    rw [OpenAt.copies (S := { S with vfs := v, fds := (fd, f) :: S.fds, stale := _ }) ho
      mem_cons_self, LnxFile.waits, hclean]
    refine hcoh.take (copies_of_not_mem hf) (fun hd => ?_) fun g hgf => ?_
    · obtain ⟨g, c, hgd⟩ := hd
      obtain ⟨hg, G, ho', hG⟩ := h.waiting hgd
      have hany : S.files.any S.isDirty = true :=
        any_eq_true.mpr ⟨g, hg, by simp [Session.isDirty, ho'.lnxFile, hG]⟩
      rw [if_pos hany]
      exact mem_cons_self
    · dsimp only
      split
      · rw [mem_cons, or_iff_right hgf]
      · exact Iff.rfl

theorem step (c : Call) (hok : Uncrossed e S c) :
    ∃ r S', S.step e c = some (r, S') ∧ S'.Sound e ∧ Observes S c r := by
  cases c with
  | openFile fd flags fill fileNew fdInstall =>
    obtain ⟨r, S', hstep, hsound⟩ := h.openFile hok
    exact ⟨r, S', hstep, hsound, trivial⟩
  | via fd c =>
    simp only [Session.step, Observes]
    cases hfd : S.fileOf fd with
    | none => exact ⟨.failed, S, rfl, h, fun f hf => (by cases hf)⟩
    | some f =>
      obtain ⟨r, S', hcall, hsound, hshows⟩ := h.callOn (mem_files_of_fileOf hfd) c (hok f hfd)
      refine ⟨r, S', hcall, hsound, fun f' hf' => ?_⟩
      cases hf'
      exact hshows

end Session.Sound

theorem Unopened.sound (h : Unopened e S) : S.Sound e := by
  have hnot : ∀ g, g ∉ S.files := by simp [Session.files, h.fds]
  have hentry : ∀ {i}, i = e ∨ i ∈ S.files → i = e := fun hi => hi.resolve_right (hnot _)
  refine ⟨fun g hg => absurd hg (hnot g), ⟨fun _ => e, fun i p hi hp => ?_⟩,
    by simp [h.stale], S.expected, h.stored, ?_⟩
  · rw [hentry hi] at hp ⊢
    exact ⟨h.stored.lt_next hp, rfl⟩
  · rw [show S.copies = fun _ => none from funext fun g => copies_of_not_mem (hnot g)]
    exact .start S.expected _

theorem sound_of_reach (h : Reach (Unopened e) (Uncrossed e) (Call.step e) S) : S.Sound e := by
  refine h.invariant (fun S hS => hS.sound) fun S c S' hS hok hstep => ?_
  obtain ⟨r, S'', hrun, hsound, -⟩ := hS.step c hok
  obtain ⟨r', hrun'⟩ := hstep
  cases hrun.symm.trans hrun'
  exact hsound

end Calls

/-! ## A file of four bytes -/

def fourNode : Node := { blankNode [0x66] .file 0 none with size := 4, memData := some 1 }

def fourBytes : Session :=
  { vfs := .granting (.ofList [.node fourNode, .data [0x61, 0x62, 0x63, 0x64]])
    fds := []
    expected := [0x61, 0x62, 0x63, 0x64]
    stale := [] }

theorem fourBytes_unopened : Unopened 0 fourBytes :=
  ⟨rfl, rfl, fourNode, rfl, rfl, rfl, rfl⟩

def Session.next (S : Session) (c : Call) : Session := ((S.step 0 c).map snd).getD S

/-- A run from there whose calls all return and are allowed. -/
theorem reach_foldl {ok : Session → Call → Prop} (cs : List Call)
    (hall : Along (fun S c => ok S c ∧ (S.step 0 c).isSome) Session.next fourBytes cs) :
    Reach (Unopened 0) ok (Call.step 0) (cs.foldl Session.next fourBytes) := by
  refine Reach.foldl (fun S c hc => ⟨hc.1, ?_⟩) (.start fourBytes_unopened) cs hall
  obtain ⟨⟨r, S'⟩, hstep⟩ := isSome_iff_exists.mp hc.2
  refine ⟨r, ?_⟩
  rw [Session.next, hstep]
  rfl

instance (S : Session) (fd f : Nat) (c : FileCall) : Decidable (UncrossedOn 0 S fd f c) := by
  cases c <;> dsimp only [UncrossedOn] <;> infer_instance

instance (S : Session) (c : Call) : Decidable (Uncrossed 0 S c) := by
  cases c <;> dsimp only [Uncrossed] <;> infer_instance

instance (c : Call) : Decidable (NoTrunc c) := by
  cases c <;> dsimp only [NoTrunc] <;> infer_instance

def quietOpen (fd : Nat) : Call := .openFile fd 0 (fun _ => 0) true true

def writeByte (fd : Nat) (b : UInt8) : Call := .via fd (.write [b] true fun _ => 0)

def writtenCalls : List Call :=
  [quietOpen 3, .via 3 (.dup 5), writeByte 3 0x58, writeByte 5 0x59, .via 3 .close, .via 5 .close,
    quietOpen 4, writeByte 4 0x5A]

def crossedCalls : List Call :=
  [quietOpen 3, quietOpen 4, writeByte 3 0x58, .via 4 (.lseek lSeekSet 1), writeByte 4 0x59,
    .via 3 .close, .via 4 .close]

end Kil0yOS.Vfs
