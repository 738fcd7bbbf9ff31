/-
What unpacking an archive can change, and what it can return.

The payload of an archive is all that its data members may write, however much of them is
decompressed.  Unpacking writes nothing else, and the control fields it returns come from
one of the archive's control files.
-/
import Kil0yOS.Pkg.StatusText
import Kil0yOS.Pkg.TreeFrames

namespace Kil0yOS.Pkg

open Lib List

variable {Q : Path → Prop} {s : Sys}

/-- The nodes that extracting an entry may write. -/
def TarEntry.Writes (e : TarEntry) (current p : Path) : Prop :=
  e.isDir = false ∧ regular e.typeflag = true ∧
    (p = pathOf current e.path ∨ p = targetOf current e.path)

theorem after_mkdirParent (path : CString) :
    After (mkdirParent path) s fun _ t => Steps (Written Q) s t := by
  unfold mkdirParent
  cases splitLast path with
  | none => exact .pure .refl
  | some parts =>
    obtain ⟨dirp, base⟩ := parts
    exact .ite (fun _ => .pure .refl) fun _ => after_fsMkdirP dirp

theorem after_extractCb (e : TarEntry) (hQ : ∀ p, e.Writes s.current p → Q p) :
    After (extractCb e) s fun _ t => Steps (Written Q) s t := by
  refine .ite (fun _ => ?_) fun hdir => .ite (fun hreg => ?_) fun _ => ?_
  · refine (after_fsMkdirP (Q := Q) _).bind fun b u hu => ?_
    exact .ite (fun _ => .pure hu) fun _ => .pure hu
  · refine (after_mkdirParent (Q := Q) e.path).bind fun b u hu => ?_
    refine .ite (fun _ => ?_) fun _ => .pure hu
    have hwrites : ∀ p, p = pathOf u.current e.path ∨ p = targetOf u.current e.path → Q p := by
      intro p hp
      rw [hu.current] at hp
      exact hQ p ⟨Bool.eq_false_iff.mpr hdir, hreg, hp⟩
    refine (after_fileFor e.path (hwrites _ (.inr rfl))).option
      (fun _ hv => .pure (hu.trans hv.1)) fun f v hv => ?_
    refine (after_fsWriteFile f e.body (hwrites f (hv.2 f rfl))).bind fun b w hw => ?_
    have hsw := (hu.trans hv.1).trans hw.1
    exact .ite (fun _ => .pure hsw) fun _ => .pure hsw
  · exact .pure .refl

theorem after_extractAll (es : List TarEntry) (hQ : ∀ e ∈ es, ∀ p, e.Writes s.current p → Q p) :
    After (extractAll es) s fun _ t => Steps (Written Q) s t := by
  induction es generalizing s with
  | nil => exact .pure .refl
  | cons e es ih =>
    refine (after_extractCb e (hQ e mem_cons_self)).option (fun _ hu => .pure hu)
      fun f u hu => ?_
    have hrest : ∀ d ∈ es, ∀ p, d.Writes u.current p → Q p := by
      intro d hd
      rw [hu.current]
      exact hQ d (mem_cons_of_mem e hd)
    exact (ih hrest).option (fun _ hv => .pure (hu.trans hv)) fun _ _ hv => .pure (hu.trans hv)

theorem after_tarExtract (tar : List UInt8)
    (hQ : ∀ e ∈ (tarIterate tar).1, ∀ p, e.Writes s.current p → Q p) :
    After (tarExtract tar) s fun _ t => Steps (Written Q) s t := by
  exact (after_extractAll _ hQ).option (fun _ hu => .pure hu) fun _ _ hu => .pure hu

/-! ## Members -/

variable {inflate : List UInt8 → Option (List UInt8)} {C : DebControl → Prop}

/-- Decompressing a member can give this archive. -/
def Yields (inflate : List UInt8 → Option (List UInt8)) (w : World) (m : ArMember) (ext : CString)
    (tar : List UInt8) : Prop :=
  ∃ s t, s.world = w ∧ unpackTar inflate m ext s = some (some tar, t)

theorem after_unpackTar (m : ArMember) (ext : CString) :
    After (unpackTar inflate m ext) s fun r t => Steps Eq s t ∧
      ∀ tar, r = some tar → Yields inflate s.world m ext tar := by
  intro r t h
  refine ⟨?_, fun tar hr => ⟨s, t, rfl, hr ▸ h⟩⟩
  revert h
  unfold unpackTar
  split
  · have hgunzip : After (gunzipToHeap inflate m) s fun _ t => Steps Eq s t := by
      refine (after_refused .buffer).bind fun b u hu => ?_
      exact .ite (fun _ => .pure hu) fun _ => .pure hu
    exact hgunzip r t
  split
  · intro h
    simp only [zstdToHeap] at h
    split at h
    · cases h
      exact ⟨rfl, rfl, rfl⟩
    · cases h
      exact ⟨rfl, rfl, rfl⟩
    · cases h
  · intro h
    cases h
    exact ⟨rfl, rfl, rfl⟩

section
variable (inflate : List UInt8 → Option (List UInt8)) (w : World)

/-- The nodes that unpacking a member of an archive may write. -/
def ArMember.Writes (m : ArMember) (current p : Path) : Prop :=
  dataTar <+: m.name ∧ ∃ tar, Yields inflate w m (m.name.drop dataTar.length) tar ∧
    ∃ e ∈ (tarIterate tar).1, e.Writes current p

/-- The control fields that it can give. -/
def ArMember.Gives (m : ArMember) (c : DebControl) : Prop :=
  controlTar <+: m.name ∧ ∃ tar, Yields inflate w m (m.name.drop controlTar.length) tar ∧
    ∃ body, tarFindFile tar controlName = some body ∧ c = debParseControl body

def Payload (current : Path) (deb : List UInt8) (p : Path) : Prop :=
  ∃ m ∈ arMembers deb, m.Writes inflate w current p

def Controls (deb : List UInt8) (c : DebControl) : Prop :=
  ∃ m ∈ arMembers deb, m.Gives inflate w c

end

theorem after_unpackMember (m : ArMember) (u : Unpack)
    (hQ : ∀ p, m.Writes inflate s.world s.current p → Q p)
    (hC : ∀ c, m.Gives inflate s.world c → C c) (hu : u.control = .zero ∨ C u.control) :
    After (unpackMember inflate m u) s fun r t => Steps (Written Q) s t ∧
      ∀ v, r = some v → v.control = .zero ∨ C v.control := by
  refine .ite (fun _ => ?_) fun _ => .ite (fun hctl => ?_) fun _ =>
    .ite (fun hdata => ?_) fun _ => ?_
  · refine .pure ⟨.refl, fun v hv => ?_⟩
    cases hv
    exact hu
  · refine (after_unpackTar m _).option (fun _ h1 => .pure ⟨h1.1.of_eq, nofun⟩) fun tar s1 h1 => ?_
    have hs1 : Steps (Written Q) s s1 := h1.1.of_eq
    cases hfind : tarFindFile tar controlName with
    | none =>
      simp only [hfind]
      refine .pure ⟨hs1, fun v hv => ?_⟩
      cases hv
      exact hu
    | some body =>
      simp only [hfind]
      refine (after_refused .buffer).bind fun b s2 h2 => ?_
      have hs2 := hs1.trans h2.of_eq
      cases b with
      | true =>
        refine after_bind.mpr (.pure (.pure ⟨hs2, fun v hv => ?_⟩))
        cases hv
        exact .inl rfl
      | false =>
        refine after_bind.mpr (.pure (.pure ⟨hs2, fun v hv => ?_⟩))
        cases hv
        exact .inr (hC _ ⟨hctl, tar, h1.2 tar rfl, body, hfind, rfl⟩)
  · refine (after_unpackTar m _).option (fun _ h1 => .pure ⟨h1.1.of_eq, nofun⟩) fun tar s1 h1 => ?_
    have hs1 : Steps (Written Q) s s1 := h1.1.of_eq
    have hwrites : ∀ e ∈ (tarIterate tar).1, ∀ p, e.Writes s1.current p → Q p := by
      rw [h1.1.current]
      exact fun e he p hp => hQ p ⟨hdata, tar, h1.2 tar rfl, e, he, hp⟩
    refine (after_tarExtract tar hwrites).option
      (fun _ h2 => .pure ⟨hs1.trans h2, nofun⟩) fun files s2 h2 => ?_
    refine .pure ⟨hs1.trans h2, fun v hv => ?_⟩
    cases hv
    exact hu
  · refine .pure ⟨.refl, fun v hv => ?_⟩
    cases hv
    exact hu

theorem after_unpackMembers (ms : List ArMember) (u : Unpack)
    (hQ : ∀ m ∈ ms, ∀ p, m.Writes inflate s.world s.current p → Q p)
    (hC : ∀ m ∈ ms, ∀ c, m.Gives inflate s.world c → C c) (hu : u.control = .zero ∨ C u.control) :
    After (unpackMembers inflate ms u) s fun r t => Steps (Written Q) s t ∧
      ∀ v, r = some v → v.control = .zero ∨ C v.control := by
  induction ms generalizing s u with
  | nil =>
    refine .pure ⟨.refl, fun v hv => ?_⟩
    cases hv
    exact hu
  | cons m ms ih =>
    refine (after_unpackMember m u (hQ m mem_cons_self)
      (hC m mem_cons_self) hu).option (fun _ h1 => .pure ⟨h1.1, nofun⟩) fun v s1 h1 => ?_
    refine (ih v ?_ ?_ (h1.2 v rfl)).mono fun r s2 h2 => ⟨h1.1.trans h2.1, h2.2⟩
    · rw [h1.1.world, h1.1.current]
      exact fun m' hm' => hQ m' (mem_cons_of_mem m hm')
    · rw [h1.1.world]
      exact fun m' hm' => hC m' (mem_cons_of_mem m hm')

/-- Unpacking writes the payload only, and returns control fields of the archive. -/
theorem after_debUnpack (deb : List UInt8)
    (hQ : ∀ p, Payload inflate s.world s.current deb p → Q p) :
    After (debUnpack inflate deb) s fun r t => Steps (Written Q) s t ∧
      ∀ res, r = some res → Controls inflate s.world deb res.control := by
  refine (after_unpackMembers (C := Controls inflate s.world deb) _ .start ?_ ?_
    (.inl rfl)).option (fun _ h => .pure ⟨h.1, nofun⟩) fun u t h => ?_
  · exact fun m hm p hp => hQ p ⟨m, hm, hp⟩
  · exact fun m hm c hc => ⟨m, hm, hc⟩
  refine .pure ⟨h.1, fun res hres => ?_⟩
  unfold Unpack.result at hres
  split at hres
  · rename_i hall
    cases hres
    rcases h.2 u rfl with hzero | hc
    · rw [hzero] at hall
      exact absurd rfl hall.2.2.2
    · exact hc
  · cases hres

/-! ## Reading and writing whole files -/

theorem after_fsReadAll (path : CString) :
    After (fsReadAll path) s fun r t => Steps Eq s t ∧
      ∀ bytes, r = some bytes → s.tree.entry (pathOf s.current path) = some (.file bytes) := by
  refine (after_fsResolvePath path).option (fun _ hu => .pure ⟨hu.1, nofun⟩) fun f u hu => ?_
  obtain ⟨hu, hpath⟩ := hu
  refine .get_bind ?_
  rw [← hpath f rfl]
  split
  · rename_i bytes hbytes
    rw [← hu.tree] at hbytes
    refine .ite (fun hnil => ?_) fun _ => ?_
    · refine .pure ⟨hu, fun b hb => ?_⟩
      cases hb
      rw [hbytes, hnil]
    refine (after_refused _).bind fun b v hv => ?_
    have hsv := hu.trans hv
    refine .ite (fun _ => .pure ⟨hsv, nofun⟩) fun _ => ?_
    refine .pure ⟨hsv, fun b hb => ?_⟩
    cases hb
    exact hbytes
  · exact .pure ⟨hu, nofun⟩

/-- Nothing goes wrong behind the lookup. -/
theorem fsReadAll_of_fsResolvePath {path : CString} {r : Option Path} {u : Sys}
    (h : fsResolvePath path s = some (r, u)) : Returns (fsReadAll path) s fun _ _ => True := by
  refine returns_bind_of_some h ?_
  cases r with
  | none => exact .pure trivial
  | some f =>
    refine returns_get_bind.mpr ?_
    split
    · split
      · exact .pure trivial
      refine returns_bind_of_some (refused_eq _) ?_
      split
      all_goals exact .pure trivial
    · exact .pure trivial

theorem after_fsWriteAll (path : CString) (data : List UInt8)
    (hQ : ∀ p, p = pathOf s.current path ∨ p = targetOf s.current path → Q p) :
    After (fsWriteAll path data) s fun ok t => Steps (Written Q) s t ∧
      (ok = true → ∃ p, (p = pathOf s.current path ∨ p = targetOf s.current path) ∧
        t.tree.entry p = some (.file (data.take maxFileSize))) := by
  have hmk : After (if 260 ≤ path.length then pure false else mkdirParent path) s
      fun _ t => Steps (Written Q) s t :=
    .ite (fun _ => .pure .refl) fun _ => after_mkdirParent path
  refine hmk.bind fun b u hu => ?_
  refine .ite (fun _ => ?_) fun _ => .pure ⟨hu, nofun⟩
  rw [← hu.current] at hQ
  refine (after_fileFor path (hQ _ (.inr rfl))).option
    (fun _ hv => .pure ⟨hu.trans hv.1, nofun⟩) fun f v hv => ?_
  have hf := hv.2 f rfl
  refine (after_fsWriteFile f data (hQ f hf)).mono fun ok w hw => ?_
  refine ⟨(hu.trans hv.1).trans hw.1, fun hok => ⟨f, ?_, hw.2 hok⟩⟩
  rw [← hu.current]
  exact hf

end Kil0yOS.Pkg
