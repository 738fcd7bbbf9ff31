/-
User address spaces: `core/uvm.c`.

Address spaces are numbered, and each has its page tables, its table of regions
and its allocation marks.  An operation works on the address space of a process
whichever one is loaded.  `none` is a panic of the kernel.  The contents of pages
are not modelled here.
-/
import Kil0yOS.Mm.PageTable

namespace Kil0yOS.Mm

def maxVmRegions : Nat := 24

def uvmProtRead : UInt32 := 0x1
def uvmProtWrite : UInt32 := 0x2
def uvmProtExec : UInt32 := 0x4

def uvmElfBase : UInt64 := 0x10000000
def uvmMmapBase : UInt64 := 0x18000000
def uvmMmapLimit : UInt64 := 0x7F000000

def protToPte (prot : UInt32) : UInt64 :=
  let f := vmmPresent ||| vmmUser
  let f := if prot &&& uvmProtWrite ≠ 0 then f ||| vmmWritable else f
  if prot &&& uvmProtExec = 0 then f ||| vmmNx else f

def pteToProt (pte : UInt64) : UInt32 :=
  let p := uvmProtRead
  let p := if hasFlag pte vmmWritable then p ||| uvmProtWrite else p
  if hasFlag pte vmmNx then p else p ||| uvmProtExec

def pageDown (a : UInt64) : UInt64 := a &&& ~~~0xFFF

def pageUp (a : UInt64) : UInt64 := (a + 0xFFF) &&& ~~~0xFFF

/-- The pages a loop from `s` in steps of a page visits before it reaches `e`. -/
def pagesOf (s e : UInt64) : List Nat :=
  List.range' (s.toNat / 4096) ((e.toNat - s.toNat + 4095) / 4096)

structure Region where
  used : Bool
  start : UInt64
  stop : UInt64
  prot : UInt32
  deriving DecidableEq, Repr

structure AddressSpace where
  space : Space
  regions : List Region
  brkStart : UInt64
  brkCur : UInt64
  mmapTop : UInt64

/-- A page passed to `pmm_free_page`, with the address space and virtual page it
was found under, and the page the user saw there.  Not in the source. -/
structure Freed where
  space : Nat
  vpage : Nat
  page : UInt64
  user : Option Nat
  deriving DecidableEq

structure Memory where
  pmm : Pmm
  mm : Nat → AddressSpace
  /-- What the operations passed to `pmm_free_page`.  Not in the source. -/
  freed : List Freed

namespace Memory

variable (m : Memory)

def setMm (a : Nat) (f : AddressSpace → AddressSpace) : Memory :=
  { m with mm := Function.update m.mm a (f (m.mm a)) }

def space (a : Nat) : Space := (m.mm a).space

def mapPage (a v : Nat) (phys flags : UInt64) : Option Memory :=
  match vmmMapPage m.pmm (m.space a) v phys flags with
  | none => none
  | some (pmm, s) => some ({ m with pmm := pmm }.setMm a fun mm => { mm with space := s })

/-- The unmapping of one page: what the tables say is there is unmapped and given
back to the allocator. -/
def releasePage (a : Nat) (m : Memory) (v : Nat) : Memory :=
  let phys := vmmGetPhys (m.space a) v
  if phys = 0 then m
  else
    { m.setMm a fun mm => { mm with space := vmmUnmapPage mm.space v } with
      pmm := m.pmm.pmmFreePage (phys &&& ~~~0xFFF)
      freed := { space := a, vpage := v, page := phys &&& ~~~0xFFF,
                 user := userPage (m.space a) v } :: m.freed }

/-! ## Regions -/

/-- The first region with the same protection that overlaps or touches the range
is extended. -/
def extendRegion (start stop : UInt64) (prot : UInt32) : List Region → Option (List Region)
  | [] => none
  | r :: rs =>
    if r.used = false ∨ r.stop < start ∨ stop < r.start ∨ r.prot ≠ prot then
      (extendRegion start stop prot rs).map (r :: ·)
    else
      some ({ r with
        start := if start < r.start then start else r.start
        stop := if r.stop < stop then stop else r.stop } :: rs)

def addRegion (new : Region) : List Region → Option (List Region)
  | [] => none
  | r :: rs => if r.used then (addRegion new rs).map (r :: ·) else some (new :: rs)

def regionCommit (regions : List Region) (start stop : UInt64) (prot : UInt32) : List Region :=
  match extendRegion start stop prot regions with
  | some rs => rs
  | none =>
    (addRegion { used := true, start := start, stop := stop, prot := prot } regions).getD regions

/-- What is left of a region when a range is unmapped. -/
def cutRegion (s e : UInt64) (r : Region) : Region :=
  if r.used = false ∨ r.stop ≤ s ∨ e ≤ r.start then r
  else if s ≤ r.start ∧ r.stop ≤ e then { r with used := false }
  else if r.start < s then { r with stop := s }
  else { r with start := e }

/-! ## Operations -/

/-- The loop of `uvm_map_range`.  The pages `done` are mapped already and are
released again when there is no page for the next one. -/
def mapLoop (a : Nat) (prot : UInt32) (done : List Nat) : List Nat → Memory → Option (Memory × Bool)
  | [], m => some (m, true)
  | v :: vs, m =>
    let pte := vmmGetPte (m.space a) v
    if hasFlag pte vmmPresent && hasFlag pte vmmUser then
      match m.mapPage a v (pte &&& ~~~0xFFF) (protToPte (pteToProt pte ||| prot)) with
      | none => none
      | some m => mapLoop a prot (done ++ [v]) vs m
    else
      let (pmm, phys) := m.pmm.pmmAllocPage
      let m := { m with pmm := pmm }
      if phys = 0 then some (done.foldl (releasePage a) m, false)
      else
        match m.mapPage a v phys (protToPte prot) with
        | none => none
        | some m => mapLoop a prot (done ++ [v]) vs m

def uvmMapRange (a : Nat) (start stop : UInt64) (prot : UInt32) : Option (Memory × Bool) :=
  if stop ≤ start then some (m, false)
  else
    let s := pageDown start
    let e := pageUp stop
    match mapLoop a prot [] (pagesOf s e) m with
    | none => none
    | some (m, false) => some (m, false)
    | some (m, true) =>
      some (m.setMm a fun mm => { mm with regions := regionCommit mm.regions s e prot }, true)

def uvmUnmapRange (a : Nat) (start stop : UInt64) : Memory :=
  let s := pageDown start
  let e := pageUp stop
  let m := (pagesOf s e).foldl (releasePage a) m
  m.setMm a fun mm => { mm with regions := mm.regions.map (cutRegion s e) }

def inRegion (mm : AddressSpace) (addr : UInt64) : Bool :=
  mm.regions.any fun r => r.used && decide (r.start ≤ addr) && decide (addr < r.stop)

/-- `uvm_check_range`: the regions are those of `a`, but the page tables walked are
those in use, of `active`. -/
def uvmCheckRange (a active : Nat) (uaddr len : UInt64) : Bool :=
  if len = 0 then true
  else if uaddr + len < uaddr then false
  else
    (pagesOf (pageDown uaddr) (uaddr + len)).all fun v =>
      inRegion (m.mm a) (Pmm.pageAddr v) && decide (vmmGetPhys (m.space active) v ≠ 0)

def protLoop (a : Nat) (prot : UInt32) : List Nat → Memory → Option Memory
  | [], m => some m
  | v :: vs, m =>
    let phys := vmmGetPhys (m.space a) v
    if phys = 0 then protLoop a prot vs m
    else
      match m.mapPage a v (phys &&& ~~~0xFFF) (protToPte prot) with
      | none => none
      | some m => protLoop a prot vs m

def uvmChangeProt (a active : Nat) (start stop : UInt64) (prot : UInt32) : Option (Memory × Bool) :=
  let s := pageDown start
  let e := pageUp stop
  if m.uvmCheckRange a active s (e - s) = false then some (m, false)
  else
    match protLoop a prot (pagesOf s e) m with
    | none => none
    | some m =>
      some (m.setMm a fun mm =>
        { mm with
          regions := mm.regions.map fun r =>
            if r.used = false ∨ r.stop ≤ s ∨ e ≤ r.start then r else { r with prot := prot } },
        true)

/-- `uvm_mmap_anon`; zero is failure. -/
def uvmMmapAnon (a : Nat) (hint len : UInt64) (prot : UInt32) (fixed : Bool) :
    Option (Memory × UInt64) :=
  let plen := pageUp len
  if fixed then
    let s := pageDown hint
    if s < uvmElfBase ∨ uvmMmapLimit < s + plen then some (m, 0)
    else
      match (m.uvmUnmapRange a s (s + plen)).uvmMapRange a s (s + plen) prot with
      | none => none
      | some (m, ok) => some (m, if ok then s else 0)
  else
    let top := if (m.mm a).mmapTop < uvmMmapBase then uvmMmapBase else (m.mm a).mmapTop
    let m := m.setMm a fun mm => { mm with mmapTop := top }
    let s := pageUp top
    if uvmMmapLimit < s + plen then some (m, 0)
    else
      match m.uvmMapRange a s (s + plen) prot with
      | none => none
      | some (m, false) => some (m, 0)
      | some (m, true) => some (m.setMm a fun mm => { mm with mmapTop := s + plen }, s)

def releaseRegion (a : Nat) (m : Memory) (r : Region) : Memory :=
  if r.used then (pagesOf r.start r.stop).foldl (releasePage a) m else m

def uvmReleaseMm (a : Nat) : Memory :=
  let m := (m.mm a).regions.foldl (releaseRegion a) m
  m.setMm a fun mm =>
    { mm with
      regions := mm.regions.map fun r => { r with used := false }
      brkStart := 0
      brkCur := 0
      mmapTop := 0 }

/-- The pages of one region are copied to the child; false when there is no page
left. -/
def forkPages (p c : Nat) : List Nat → Memory → Option (Memory × Bool)
  | [], m => some (m, true)
  | v :: vs, m =>
    let pte := vmmGetPte (m.space p) v
    if hasFlag pte vmmPresent then
      let (pmm, cphys) := m.pmm.pmmAllocPage
      let m := { m with pmm := pmm }
      if cphys = 0 then some (m, false)
      else
        match m.mapPage c v cphys (pte &&& 0xFFF) with
        | none => none
        | some m => forkPages p c vs m
    else forkPages p c vs m

def forkRegions (p c : Nat) : List Region → Memory → Option (Memory × Bool)
  | [], m => some (m, true)
  | r :: rs, m =>
    if r.used then
      match forkPages p c (pagesOf r.start r.stop) m with
      | none => none
      | some (m, false) => some (m.uvmReleaseMm c, false)
      | some (m, true) =>
        match addRegion r (m.mm c).regions with
        | none => some (m.uvmReleaseMm c, false)
        | some regions => forkRegions p c rs (m.setMm c fun mm => { mm with regions := regions })
    else forkRegions p c rs m

def uvmFork (p c : Nat) : Option (Memory × Bool) :=
  match forkRegions p c (m.mm p).regions m with
  | none => none
  | some (m, false) => some (m, false)
  | some (m, true) =>
    some (m.setMm c fun mm =>
      { mm with
        brkStart := (m.mm p).brkStart
        brkCur := (m.mm p).brkCur
        mmapTop := (m.mm p).mmapTop }, true)

end Memory

/-! ## Ranges and rights -/

/-- A mask of all bits from `k` on rounds down to a multiple of `2 ^ k`. -/
theorem toNat_and_mask {mask : UInt64} {k : Nat}
    (hmask : ∀ i < 64, mask.toBitVec.getLsbD i = decide (k ≤ i)) (x : UInt64) :
    (x &&& mask).toNat = x.toNat / 2 ^ k * 2 ^ k := by
  have hshift : (x &&& mask).toBitVec = x.toBitVec >>> k <<< k := by
    apply BitVec.eq_of_getLsbD_eq
    intro i hi
    rw [UInt64.toBitVec_and, BitVec.getLsbD_and, hmask i hi]
    by_cases hk : k ≤ i
    · simp [hi, hk, Nat.not_lt.mpr hk]
    · simp [hk, Nat.lt_of_not_le hk]
  have hlt : x.toNat / 2 ^ k * 2 ^ k < 2 ^ 64 :=
    Nat.lt_of_le_of_lt (Nat.div_mul_le_self _ _) x.toNat_lt
  show (x &&& mask).toBitVec.toNat = _
  rw [hshift, BitVec.toNat_shiftLeft, BitVec.toNat_ushiftRight, Nat.shiftLeft_eq,
    Nat.shiftRight_eq_div_pow]
  exact Nat.mod_eq_of_lt hlt

theorem toNat_and_not_low (x : UInt64) : (x &&& ~~~0xFFF).toNat = x.toNat / 4096 * 4096 :=
  toNat_and_mask (k := 12) (by decide) x

theorem pageDown_aligned (x : UInt64) : (pageDown x).toNat % 4096 = 0 := by
  unfold pageDown
  rw [toNat_and_not_low]
  omega

theorem pageUp_aligned (x : UInt64) : (pageUp x).toNat % 4096 = 0 := by
  unfold pageUp
  rw [toNat_and_not_low]
  omega

theorem pageDown_of_aligned {x : UInt64} (h : x.toNat % 4096 = 0) : pageDown x = x := by
  unfold pageDown
  rw [← UInt64.toNat_inj, toNat_and_not_low]
  omega

theorem mem_pagesOf {s e : UInt64} {v : Nat} (hs : s.toNat % 4096 = 0) :
    v ∈ pagesOf s e ↔ s.toNat ≤ v * 4096 ∧ v * 4096 < e.toNat := by
  unfold pagesOf
  rw [List.mem_range'_1]
  omega

theorem protToPte_user (prot : UInt32) : hasFlag (protToPte prot) vmmUser = true := by
  unfold protToPte
  split <;> split <;> decide

/-! ## The pages of the upper levels

An address space has a PML4, a PDPT and four page directories of its own, and a
PML5 above them on a machine that walks five levels.  The entries of these pages
are those of the identity map; only the pages themselves are kept here.
-/

def pageNo (phys : UInt64) : Nat := (phys / 4096).toNat

structure Dirs where
  pml5 : Option Nat
  pml4 : Nat
  pdpt : Nat
  /-- One directory for each of the four gigabytes. -/
  pds : List Nat
  deriving DecidableEq, Repr

namespace Dirs

def frames (d : Dirs) : List Nat := d.pml5.toList ++ d.pml4 :: d.pdpt :: d.pds

/-- The pages a walk for a virtual page reads above its table. -/
def walk (d : Dirs) (v : Nat) : List Nat :=
  d.pml5.toList ++ [d.pml4, d.pdpt] ++ d.pds[v / 0x40000]?.toList

end Dirs

def freeFrames (pmm : Pmm) (ps : List Nat) : Pmm :=
  ps.foldl (fun pmm p => pmm.pmmFreePage (Pmm.pageAddr p)) pmm

/-- The copies of the directories that are still to be made.  Without a page for one
of them, those made are given back. -/
def copyPds : Nat → Pmm → List Nat → Pmm × Option (List Nat)
  | 0, pmm, made => (pmm, some made)
  | n + 1, pmm, made =>
    let (pmm, pd) := pmm.pmmAllocPage
    if pd = 0 then (freeFrames pmm made, none) else copyPds n pmm (made ++ [pageNo pd])

def createDirs (la57 : Bool) (pmm : Pmm) : Pmm × Option Dirs :=
  let (pmm, pml4) := pmm.pmmAllocPage
  if pml4 = 0 then (pmm, none)
  else
    -- `PML4[0]` of the boot tables is present
    let (pmm, pdpt) := pmm.pmmAllocPage
    if pdpt = 0 then (pmm.pmmFreePage pml4, none)
    else
      match copyPds 4 pmm [] with
      | (pmm, none) => ((pmm.pmmFreePage pdpt).pmmFreePage pml4, none)
      | (pmm, some pds) =>
        if la57 then
          let (pmm, pml5) := pmm.pmmAllocPage
          -- the four directories are not given back here
          if pml5 = 0 then ((pmm.pmmFreePage pdpt).pmmFreePage pml4, none)
          else
            (pmm, some { pml5 := some (pageNo pml5), pml4 := pageNo pml4, pdpt := pageNo pdpt,
                         pds := pds })
        else (pmm, some { pml5 := none, pml4 := pageNo pml4, pdpt := pageNo pdpt, pds := pds })

def tablePage (s : Space) (w : Nat) : Option Nat :=
  match s w with
  | .table page _ => some page
  | _ => none

/-- The pages `vmm_destroy_address_space` gives back: the tables of each directory
before the directory, then the levels above. -/
def destroyedFrames (d : Dirs) (s : Space) : List Nat :=
  (d.pds.zipIdx.flatMap fun (pd, i) =>
    (List.range' (i * 512) 512).filterMap (tablePage s) ++ [pd]) ++
    [d.pdpt, d.pml4] ++ d.pml5.toList

def destroyDirs (d : Dirs) (s : Space) (pmm : Pmm) : Pmm := freeFrames pmm (destroyedFrames d s)

end Kil0yOS.Mm
