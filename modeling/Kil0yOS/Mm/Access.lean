/-
The kernel's accesses to physical pages.

The kernel uses the number of a page as an address.  Where such an access ends up is
for the tables in CR3 to say, at the moment it is made.  For each operation this
module lists the accesses in the order of the source, each with those tables: the
walks of the tables, the filling of new ones, and the zeroing and copying of pages.
Up to the first access that goes astray the state is the one of `Memory`, so a list
without one is the list of the accesses made.
-/
import Kil0yOS.Mm.FrameRuns

namespace Kil0yOS.Mm

/-- An access to a page by its number, and the tables that are loaded. -/
structure Access where
  frame : Nat
  tables : Space

def kernelPage (s : Space) (v : Nat) : Option Nat :=
  match s (windowOf v) with
  | .absent => none
  | .huge e => some ((e.entry &&& 0x000FFFFFFFE00000).toNat / 4096 + slotOf v)
  | .table _ entries =>
    if hasFlag (entries (slotOf v)) vmmPresent then some (entryPage (entries (slotOf v))) else none

def Access.Reaches (x : Access) : Prop := kernelPage x.tables x.frame = some x.frame
deriving Decidable

/-- What an operation runs under: the pages of the upper levels, the address space in
CR3, and what the pages contain, as words. -/
structure Env where
  dirs : Nat → Dirs
  loaded : Nat
  words : Nat → Nat → UInt64

namespace Env

variable (e : Env) (m : Memory)

def touch (frames : List Nat) : List Access :=
  frames.map fun f => { frame := f, tables := m.space e.loaded }

def walk (a v : Nat) : List Access :=
  e.touch m ((e.dirs a).walk v ++ (tablePage (m.space a) (windowOf v)).toList)

def setWindow (a w : Nat) (x : PdEntry) : Memory :=
  m.setMm a fun mm => { mm with space := Function.update mm.space w x }

/-- `vmm_map_page`.  A split fills the new table before it is entered in the
directory; a table for an empty window is entered first and cleared then. -/
def mapPage (a v : Nat) (flags : UInt64) : List Access :=
  let pt := m.pmm.pmmAllocPage.2
  e.walk m a v ++
    match m.space a (windowOf v) with
    | .table _ _ => []
    | .huge x =>
      if hasFlag flags vmmUser = true ∧ pt ≠ 0 then
        e.touch m [pageNo pt] ++
          e.walk (setWindow m a (windowOf v) (.table (pageNo pt) (splitHuge x))) a v
      else []
    | .absent =>
      if pt = 0 then []
      else
        e.touch (setWindow m a (windowOf v) (.table (pageNo pt) (e.words (pageNo pt))))
            [pageNo pt] ++
          e.walk (setWindow m a (windowOf v) (.table (pageNo pt) fun _ => 0)) a v

def releasePage (a v : Nat) : List Access :=
  e.walk m a v ++ if vmmGetPhys (m.space a) v = 0 then [] else e.walk m a v

def releasePages (a : Nat) : List Nat → Memory → List Access
  | [], _ => []
  | v :: vs, m => e.releasePage m a v ++ releasePages a vs (Memory.releasePage a m v)

def releaseRegions (a : Nat) : List Region → Memory → List Access
  | [], _ => []
  | r :: rs, m =>
    (if r.used then e.releasePages a (pagesOf r.start r.stop) m else []) ++
      releaseRegions a rs (Memory.releaseRegion a m r)

def mapLoop (a : Nat) (prot : UInt32) (done : List Nat) : List Nat → Memory → List Access
  | [], _ => []
  | v :: vs, m =>
    let pte := vmmGetPte (m.space a) v
    e.walk m a v ++
      if hasFlag pte vmmPresent && hasFlag pte vmmUser then
        let flags := protToPte (pteToProt pte ||| prot)
        e.mapPage m a v flags ++
          match m.mapPage a v (pte &&& ~~~0xFFF) flags with
          | none => []
          | some m => mapLoop a prot (done ++ [v]) vs m
      else
        let (pmm, phys) := m.pmm.pmmAllocPage
        let m := { m with pmm := pmm }
        if phys = 0 then e.releasePages a done m
        else
          e.mapPage m a v (protToPte prot) ++
            match m.mapPage a v phys (protToPte prot) with
            | none => []
            -- the page is zeroed when it is mapped already
            | some m => e.touch m [pageNo phys] ++ mapLoop a prot (done ++ [v]) vs m

def uvmMapRange (a : Nat) (start stop : UInt64) (prot : UInt32) : List Access :=
  if stop ≤ start then [] else e.mapLoop a prot [] (pagesOf (pageDown start) (pageUp stop)) m

def uvmUnmapRange (a : Nat) (start stop : UInt64) : List Access :=
  e.releasePages a (pagesOf (pageDown start) (pageUp stop)) m

def checkLoop (m : Memory) (a active : Nat) : List Nat → List Access
  | [] => []
  | v :: vs =>
    if Memory.inRegion (m.mm a) (Pmm.pageAddr v) then
      e.walk m active v ++ if vmmGetPhys (m.space active) v = 0 then [] else checkLoop m a active vs
    else []

def uvmCheckRange (a active : Nat) (uaddr len : UInt64) : List Access :=
  if len = 0 ∨ uaddr + len < uaddr then []
  else e.checkLoop m a active (pagesOf (pageDown uaddr) (uaddr + len))

def protLoop (a : Nat) (prot : UInt32) : List Nat → Memory → List Access
  | [], _ => []
  | v :: vs, m =>
    let phys := vmmGetPhys (m.space a) v
    e.walk m a v ++
      if phys = 0 then protLoop a prot vs m
      else
        e.mapPage m a v (protToPte prot) ++
          match m.mapPage a v (phys &&& ~~~0xFFF) (protToPte prot) with
          | none => []
          | some m => protLoop a prot vs m

def uvmChangeProt (a active : Nat) (start stop : UInt64) (prot : UInt32) : List Access :=
  let s := pageDown start
  let t := pageUp stop
  e.uvmCheckRange m a active s (t - s) ++
    if m.uvmCheckRange a active s (t - s) then e.protLoop a prot (pagesOf s t) m else []

def uvmMmapAnon (a : Nat) (hint len : UInt64) (prot : UInt32) (fixed : Bool) : List Access :=
  let plen := pageUp len
  if fixed then
    let s := pageDown hint
    if s < uvmElfBase ∨ uvmMmapLimit < s + plen then []
    else
      e.uvmUnmapRange m a s (s + plen) ++
        e.uvmMapRange (m.uvmUnmapRange a s (s + plen)) a s (s + plen) prot
  else
    let top := mmapStart m a
    let m := m.setMm a fun mm => { mm with mmapTop := top }
    let s := pageUp top
    if uvmMmapLimit < s + plen then [] else e.uvmMapRange m a s (s + plen) prot

def uvmReleaseMm (a : Nat) : List Access := e.releaseRegions a (m.mm a).regions m

def forkPages (p c : Nat) : List Nat → Memory → List Access
  | [], _ => []
  | v :: vs, m =>
    let pte := vmmGetPte (m.space p) v
    e.walk m p v ++
      if hasFlag pte vmmPresent then
        let (pmm, cphys) := m.pmm.pmmAllocPage
        let m := { m with pmm := pmm }
        if cphys = 0 then []
        else
          -- the page of the parent is copied to the new one before that is mapped
          e.touch m [pageNo cphys, entryPage pte] ++
            (e.mapPage m c v (pte &&& 0xFFF) ++
              match m.mapPage c v cphys (pte &&& 0xFFF) with
              | none => []
              | some m => forkPages p c vs m)
      else forkPages p c vs m

def forkRegions (p c : Nat) : List Region → Memory → List Access
  | [], _ => []
  | r :: rs, m =>
    if r.used then
      e.forkPages p c (pagesOf r.start r.stop) m ++
        match Memory.forkPages p c (pagesOf r.start r.stop) m with
        | none => []
        | some (m, false) => e.uvmReleaseMm m c
        | some (m, true) =>
          match Memory.addRegion r (m.mm c).regions with
          | none => e.uvmReleaseMm m c
          | some regions => forkRegions p c rs (m.setMm c fun mm => { mm with regions := regions })
    else forkRegions p c rs m

def uvmFork (p c : Nat) : List Access := e.forkRegions p c (m.mm p).regions m

/-- The loop over the pages of a range that `uvm_write_user_va`, `uvm_read_user_va`
and `elf_copy_segment` make. -/
def copyLoop (m : Memory) (a : Nat) : List Nat → List Access
  | [] => []
  | v :: vs =>
    e.walk m a v ++
      if vmmGetPhys (m.space a) v = 0 then []
      else e.touch m [pageNo (vmmGetPhys (m.space a) v)] ++ copyLoop m a vs

def exec : Op → List Access
  | .mapRange a start stop prot => e.uvmMapRange m a start stop prot
  | .unmapRange a start stop => e.uvmUnmapRange m a start stop
  | .changeProt a active start stop prot => e.uvmChangeProt m a active start stop prot
  | .mmapAnon a hint len prot fixed => e.uvmMmapAnon m a hint len prot fixed
  | .fork p c => e.uvmFork m p c
  | .releaseMm a => e.uvmReleaseMm m a

end Env

end Kil0yOS.Mm
