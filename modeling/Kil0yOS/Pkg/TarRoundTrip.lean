/-
Archives in the ustar format, read back by tar_iterate.

A member is a header block with fields at fixed places, its contents, and zeros up to the
next block.  The reader takes the name field for a string: it stops at a zero, and a name
that fills the field has none, so that the mode behind it is read as well.
-/
import Kil0yOS.Pkg.Archive

namespace Kil0yOS.Pkg

open List Option

variable {name rest : CString} {v : List UInt8} {width : Nat} {c : UInt8}

/-! ## The format -/

def isOctal (c : UInt8) : Prop := 0x30 ≤ c ∧ c ≤ 0x37

def octalValue (digits : List UInt8) : Nat :=
  digits.foldl (fun v c => v * 8 + (c.toNat - 0x30)) 0

/-- A regular file or a directory in the ustar format. -/
structure Ustar where
  name : List UInt8
  pre : List UInt8
  typeflag : UInt8
  body : List UInt8
  /-- mode, uid and gid. -/
  ids : List UInt8
  /-- The size field: digits, and spaces or zeros behind them. -/
  digits : List UInt8
  ends : List UInt8
  /-- mtime and chksum. -/
  times : List UInt8
  /-- From linkname to devminor. -/
  link : List UInt8
  name_ne : name ≠ []
  name_le : name.length ≤ 100
  name_text : 0 ∉ name
  pre_le : pre.length ≤ 155
  pre_text : 0 ∉ pre
  kind : typeflag = 0x30 ∨ typeflag = 0 ∨ typeflag = 0x35
  ids_length : ids.length = 24
  mode : ∃ c more, ids = c :: more ∧ isOctal c
  digits_ne : digits ≠ []
  digits_octal : ∀ c ∈ digits, isOctal c
  ends_ne : ends ≠ []
  ends_blank : ∀ c ∈ ends, c = 0 ∨ c = 0x20
  size_length : digits.length + ends.length = 12
  size : octalValue digits = body.length
  times_length : times.length = 20
  link_length : link.length = 188

variable {m : Ustar}

def padded (width : Nat) (v : List UInt8) : List UInt8 := v ++ replicate (width - v.length) 0

def blocks (size : Nat) : Nat := (size + (tarBlock - 1)) / tarBlock * tarBlock

namespace Ustar

variable (m : Ustar)

def header : List UInt8 :=
  padded 100 m.name ++ (m.ids ++ (m.digits ++ (m.ends ++ (m.times ++ (m.typeflag ::
    (m.link ++ (padded 155 m.pre ++ replicate 12 0)))))))

def record : List UInt8 := m.header ++ padded (blocks m.body.length) m.body

def full : CString := if m.pre = [] then m.name else m.pre ++ slash :: m.name

end Ustar

/-- The members, two blocks of zeros, and what else there is. -/
def layout (ms : List Ustar) (rest : List UInt8) : List UInt8 :=
  ms.flatMap Ustar.record ++ (replicate (2 * tarBlock) 0 ++ rest)

/-! ## Header fields -/

theorem length_padded (h : v.length ≤ width) : (padded width v).length = width := by
  rw [padded, length_append, length_replicate]
  omega

theorem le_blocks (size : Nat) : size ≤ blocks size := by
  unfold blocks tarBlock
  omega

theorem Ustar.length_header (m : Ustar) : m.header.length = tarBlock := by
  have hname := length_padded m.name_le
  have hpre := length_padded m.pre_le
  have hids := m.ids_length
  have hsize := m.size_length
  have htimes := m.times_length
  have hlink := m.link_length
  simp only [Ustar.header, length_append, length_cons, length_replicate, tarBlock]
  omega

theorem cstr_append (hv : 0 ∉ v) (rest : List UInt8) : cstr (v ++ rest) = v ++ cstr rest := by
  apply takeWhile_append_of_pos
  intro x hx
  have hne : x ≠ 0 := fun h => hv (h ▸ hx)
  simpa using hne

theorem cstr_zero (rest : List UInt8) : cstr (0 :: rest) = [] := rfl

theorem cstr_padded (hv : 0 ∉ v) (h : v.length < width)
    (rest : List UInt8) : cstr (padded width v ++ rest) = v := by
  obtain ⟨n, hn⟩ : ∃ n, width - v.length = n + 1 := ⟨width - v.length - 1, by omega⟩
  simp [padded, hn, replicate_succ, cstr_append hv, cstr_zero]

theorem octalLoop_digits {digits : List UInt8} (h : ∀ c ∈ digits, isOctal c) (v : Nat) (seen : Bool)
    (hseen : digits ≠ [] ∨ seen = true) {ends : List UInt8} (hne : ends ≠ [])
    (hends : ∀ c ∈ ends, c = 0 ∨ c = 0x20) :
    octalLoop (digits ++ ends) v seen = digits.foldl (fun v c => v * 8 + (c.toNat - 0x30)) v := by
  induction digits generalizing v seen with
  | nil =>
    obtain ⟨c, ends, rfl⟩ := exists_cons_of_ne_nil hne
    have hseen : seen = true := hseen.elim (fun h => absurd rfl h) id
    rw [nil_append, octalLoop, if_pos (hends c mem_cons_self), if_pos hseen]
    rfl
  | cons c digits ih =>
    obtain ⟨hlow, hhigh⟩ := h c mem_cons_self
    have hblank : ¬ (c = 0 ∨ c = 0x20) := by
      rintro (rfl | rfl)
      all_goals exact absurd hlow (by decide)
    have hrange : ¬ (c < 0x30 ∨ 0x37 < c) := by
      rintro (hlt | hgt)
      · exact absurd hlow (UInt8.not_le.mpr hlt)
      · exact absurd hhigh (UInt8.not_le.mpr hgt)
    rw [cons_append, octalLoop, if_neg hblank, if_neg hrange,
      ih (fun d hd => h d (mem_cons_of_mem c hd)) _ true (.inr rfl)]
    rfl

namespace Ustar

variable (m : Ustar) (rest : List UInt8)

theorem fields : (m.header ++ rest).drop 124 = m.digits ++ m.ends ++ (m.times ++ (m.typeflag ::
    (m.link ++ (padded 155 m.pre ++ (replicate 12 0 ++ rest))))) := by
  have hlen : (padded 100 m.name ++ m.ids).length = 124 := by
    simp [length_padded m.name_le, m.ids_length]
  refine Eq.trans ?_ (drop_left' hlen)
  simp [header]

theorem size_field : tarOctal (((m.header ++ rest).drop 124).take 12) = m.body.length := by
  have hfield : (m.digits ++ m.ends).length = 12 := by
    rw [length_append]
    exact m.size_length
  rw [fields, take_left' hfield, tarOctal,
    octalLoop_digits m.digits_octal 0 false (.inl m.digits_ne) m.ends_ne m.ends_blank]
  exact m.size

theorem fields_typeflag : (m.header ++ rest).drop 156 =
    m.typeflag :: m.link ++ (padded 155 m.pre ++ (replicate 12 0 ++ rest)) := by
  have hlen : (m.digits ++ m.ends ++ m.times).length = 32 := by
    have hsize := m.size_length
    simp only [length_append, m.times_length]
    omega
  rw [← drop_drop (i := 32), fields, ← append_assoc, drop_left' hlen, cons_append]

theorem typeflag_field : (m.header ++ rest).getD 156 0 = m.typeflag := by
  rw [getD_eq_getElem?_getD, ← head?_drop, fields_typeflag]
  rfl

theorem pre_field : (m.header ++ rest).drop 345 =
    padded 155 m.pre ++ (replicate 12 0 ++ rest) := by
  have hlen : (m.typeflag :: m.link).length = 189 := by
    rw [length_cons, m.link_length]
  rw [← drop_drop (i := 189), fields_typeflag, drop_left' hlen]

/-- The prefix ends its string in any case: zeros follow the field. -/
theorem cstr_pre : cstr ((m.header ++ rest).drop 345) = m.pre := by
  rw [m.pre_field]
  rcases Nat.lt_or_eq_of_le m.pre_le with hlt | heq
  · exact cstr_padded m.pre_text hlt _
  · simp [padded, heq, cstr_append m.pre_text, cstr_zero]

theorem has_pre : (m.header ++ rest).getD 345 0 ≠ 0 ↔ m.pre ≠ [] := by
  have hhead : (m.header ++ rest).getD 345 0 = (padded 155 m.pre ++
      (replicate 12 0 ++ rest)).getD 0 0 := by
    rw [← m.pre_field rest]
    simp
  rw [hhead]
  cases hpre : m.pre with
  | nil =>
    exact ⟨fun h => absurd rfl h, fun h => absurd rfl h⟩
  | cons c pre =>
    have hc : c ≠ 0 := by
      rintro rfl
      exact m.pre_text (hpre ▸ mem_cons_self)
    simpa [padded] using hc

theorem first_byte : (m.header ++ rest).getD 0 0 ≠ 0 := by
  obtain ⟨c, name, hname⟩ := exists_cons_of_ne_nil m.name_ne
  have hc : c ≠ 0 := by
    rintro rfl
    exact m.name_text (hname ▸ mem_cons_self)
  simpa [header, padded, hname] using hc

def readName : CString := cstr (m.header ++ rest)

theorem readName_short (h : m.name.length < 100) : m.readName rest = m.name := by
  rw [readName, header, append_assoc]
  exact cstr_padded m.name_text h _

/-- Behind a name that fills its field, the mode is read. -/
theorem readName_full (h : m.name.length = 100) :
    ∃ c more, isOctal c ∧ m.readName rest = m.name ++ c :: more := by
  obtain ⟨c, ids, hids, hc⟩ := m.mode
  have hne : c ≠ 0 := by
    rintro rfl
    exact absurd hc.1 (by decide)
  refine ⟨c, cstr (ids ++ (m.digits ++ (m.ends ++ (m.times ++ (m.typeflag ::
    (m.link ++ (padded 155 m.pre ++ replicate 12 0)))))) ++ rest), hc, ?_⟩
  rw [readName, header, padded, h, replicate_zero, append_nil,
    append_assoc, cstr_append m.name_text, hids]
  simp [cstr, hne]

theorem tarFullName_header : tarFullName (m.header ++ rest) =
    if m.pre = [] then (m.readName rest).take 255
    else m.pre ++ slash :: (m.readName rest).take (254 - m.pre.length) := by
  have hshort : m.pre.length < 255 := by
    have := m.pre_le
    omega
  unfold tarFullName
  by_cases hpre : m.pre = []
  · rw [if_neg fun h => (m.has_pre rest).mp h hpre, if_pos hpre]
    rfl
  · rw [if_pos ((m.has_pre rest).mpr hpre), if_neg hpre, m.cstr_pre, take_of_length_le (by omega)]
    rw [if_pos hshort]
    rfl

end Ustar

/-! ## Names -/

/-- The name without the leading part that is dropped. -/
def stripName (name : CString) : CString := (stripDotSlash name).dropWhile (· = slash)

theorem tarNormalizeName_eq (name : CString) :
    tarNormalizeName name =
      if (stripName name).rdropWhile (· = slash) = [] ∨
        256 ≤ ((stripName name).rdropWhile (· = slash)).length then none
      else some ((stripName name).rdropWhile (· = slash)) := rfl

theorem tarNormalizeName_eq_some {clean : CString} (h : tarNormalizeName name = some clean) :
    clean = (stripName name).rdropWhile (· = slash) ∧ clean ≠ [] ∧ clean.length < 256 := by
  rw [tarNormalizeName_eq] at h
  split at h
  · cases h
  · rename_i hok
    cases h
    exact ⟨rfl, fun he => hok (.inl he), Nat.lt_of_not_le fun hle => hok (.inr hle)⟩

theorem stripDotSlash_of_ne
    (h : ∀ rest, name ≠ 0x2E :: 0x2F :: rest) : stripDotSlash name = name := by
  unfold stripDotSlash
  split
  · rename_i rest
    exact absurd rfl (h rest)
  · rfl

/-- Where the first two bytes of a text that is put together come from. -/
theorem dotSlash_of_append {tail more : CString} (h : name ++ tail = 0x2E :: 0x2F :: more) :
    name = [] ∨ name = [0x2E] ∨ ∃ rest, name = 0x2E :: 0x2F :: rest := by
  cases name with
  | nil => exact .inl rfl
  | cons a name =>
    obtain ⟨ha, htail⟩ := List.cons.inj h
    subst ha
    cases name with
    | nil => exact .inr (.inl rfl)
    | cons b name =>
      obtain ⟨hb, -⟩ := List.cons.inj htail
      subst hb
      exact .inr (.inr ⟨name, rfl⟩)

/-- Stripping leaves alone what stands behind a byte that is no part of "./". -/
theorem stripDotSlash_append (name : CString) (hslash : c ≠ slash) (hrest : c ≠ 0x2E ∨ rest = []) :
    stripDotSlash (name ++ c :: rest) = stripDotSlash name ++ c :: rest := by
  fun_induction stripDotSlash name with
  | case1 name ih => exact ih
  | case2 name hname =>
    apply stripDotSlash_of_ne
    intro more heq
    rcases dotSlash_of_append heq with rfl | rfl | ⟨name', rfl⟩
    · obtain ⟨hc, hmore⟩ := List.cons.inj heq
      rcases hrest with h | h
      · exact h hc
      · rw [h] at hmore
        cases hmore
    · obtain ⟨-, heq⟩ := List.cons.inj heq
      exact hslash (List.cons.inj heq).1
    · exact hname name' rfl

theorem stripName_append (name : CString) (hslash : c ≠ slash) (hrest : c ≠ 0x2E ∨ rest = []) :
    stripName (name ++ c :: rest) = stripName name ++ c :: rest := by
  unfold stripName
  rw [stripDotSlash_append name hslash hrest]
  generalize stripDotSlash name = name
  induction name with
  | nil => rw [nil_append, dropWhile_cons_of_neg (by simpa using hslash)]; rfl
  | cons a name ih =>
    rw [cons_append, dropWhile_cons, dropWhile_cons]
    split
    · exact ih
    · rfl

/-- A longer name, with no slash in the place where it goes on, is another name. -/
theorem tarNormalizeName_longer (hslash : c ≠ slash) (hrest : c ≠ 0x2E ∨ rest = [])
    (hsome : tarNormalizeName name ≠ none) :
    tarNormalizeName (name ++ c :: rest) ≠ tarNormalizeName name := by
  intro heq
  obtain ⟨clean, hclean⟩ := Option.ne_none_iff_exists'.mp hsome
  rw [hclean] at heq
  have hshort := (tarNormalizeName_eq_some hclean).1
  have hlong := (tarNormalizeName_eq_some heq).1
  rw [stripName_append name hslash hrest] at hlong
  have hlen : (stripName name).length + 1 ≤ clean.length := by
    rw [hlong, rdropWhile]
    have hkeep : ∀ (tail front : CString), (c :: front).length ≤
        ((tail ++ c :: front).dropWhile (· = slash)).length := by
      intro tail front
      induction tail with
      | nil => rw [nil_append, dropWhile_cons_of_neg (by simpa using hslash)]
      | cons a tail ih =>
        rw [cons_append, dropWhile_cons]
        split
        · exact ih
        · simp only [length_cons, length_append]
          omega
    have := hkeep rest.reverse (stripName name).reverse
    simpa using this
  have hle := ( rdropWhile_prefix (· = slash) (stripName name)).length_le
  rw [← hshort] at hle
  omega

theorem stripName_slash (hne : stripName (name ++ [slash]) ≠ []) :
    stripName (name ++ [slash]) = stripName name ++ [slash] := by
  revert hne
  unfold stripName
  fun_induction stripDotSlash name with
  | case1 name ih => exact ih
  | case2 name hname =>
    intro hne
    have hkeep : stripDotSlash (name ++ [slash]) = name ++ [slash] := by
      apply stripDotSlash_of_ne
      intro more heq
      rcases dotSlash_of_append heq with rfl | rfl | ⟨name', rfl⟩
      · cases heq
      · exact absurd (by decide) hne
      · exact hname name' rfl
    rw [hkeep] at hne ⊢
    clear hkeep hname
    induction name with
    | nil => exact absurd (by decide) hne
    | cons a name ih =>
      rw [cons_append, dropWhile_cons] at hne ⊢
      rw [dropWhile_cons]
      split
      · rename_i ha
        rw [if_pos ha] at hne
        exact ih hne
      · rfl

/-- A slash at the end makes no difference to a name that is one. -/
theorem tarNormalizeName_slash (hsome : tarNormalizeName (name ++ [slash]) ≠ none) :
    tarNormalizeName name = tarNormalizeName (name ++ [slash]) := by
  obtain ⟨clean, hclean⟩ := Option.ne_none_iff_exists'.mp hsome
  obtain ⟨heq, hne, -⟩ := tarNormalizeName_eq_some hclean
  have hstrip : stripName (name ++ [slash]) = stripName name ++ [slash] := by
    apply stripName_slash
    intro hnil
    rw [hnil] at heq
    exact hne heq
  rw [tarNormalizeName_eq, tarNormalizeName_eq, hstrip]
  simp

/-! ## Which names are read right -/

/-- The reader's name of a member. -/
def Ustar.readClean (m : Ustar) (rest : List UInt8) : Option CString :=
  tarNormalizeName (tarFullName (m.header ++ rest))

/-- The name is usable, and does not fill its field, or else the prefix is so long that
what is read too much is cut off again. -/
def Ustar.Legible (m : Ustar) : Prop :=
  tarNormalizeName m.full ≠ none ∧
    (m.name.length < 100 ∨ m.pre.length = 154 ∨ m.pre.length = 155 ∧ m.name.getLast? = some slash)

section Legible
variable (m : Ustar) (rest : List UInt8)

theorem tarFullName_short (h : m.name.length < 100) : tarFullName (m.header ++ rest) = m.full := by
  have hpre := m.pre_le
  rw [m.tarFullName_header, m.readName_short rest h, Ustar.full,
    take_of_length_le (by omega), take_of_length_le (by omega)]

theorem isOctal.ne (h : isOctal c) : c ≠ slash ∧ c ≠ 0x2E := by
  constructor
  all_goals
    rintro rfl
    exact absurd h.1 (by decide)

section

variable (h : m.name.length = 100)
include h

/-- With a name of 100 bytes and a prefix of at most 153, at least one byte of the mode is
read. -/
theorem tarFullName_longer (hpre : m.pre.length ≤ 153) :
    ∃ c more, isOctal c ∧ tarFullName (m.header ++ rest) = m.full ++ c :: more := by
  obtain ⟨c, more, hc, hread⟩ := m.readName_full rest h
  have htake : ∀ n, 101 ≤ n → (m.name ++ c :: more).take n =
      m.name ++ c :: more.take (n - 101) := by
    intro n hn
    obtain ⟨k, rfl⟩ : ∃ k, n = m.name.length + (k + 1) := ⟨n - 101, by omega⟩
    rw [take_length_add_append, take_succ_cons]
    congr 3
    omega
  rw [m.tarFullName_header, hread, Ustar.full]
  by_cases hnil : m.pre = []
  · rw [if_pos hnil, if_pos hnil, htake 255 (by decide)]
    exact ⟨c, _, hc, rfl⟩
  · rw [if_neg hnil, if_neg hnil, htake _ (by omega)]
    refine ⟨c, more.take (254 - m.pre.length - 101), hc, ?_⟩
    simp

theorem tarFullName_exact (hpre : m.pre.length = 154) :
    tarFullName (m.header ++ rest) = m.full := by
  obtain ⟨c, more, -, hread⟩ := m.readName_full rest h
  have hne : m.pre ≠ [] := ne_nil_of_length_pos (by omega)
  rw [m.tarFullName_header, hread, Ustar.full, if_neg hne, if_neg hne, take_left' (by omega)]

/-- With both fields full, the last byte of the name is lost. -/
theorem tarFullName_cut (hpre : m.pre.length = 155) :
    ∃ c, m.name.getLast? = some c ∧ m.full = tarFullName (m.header ++ rest) ++ [c] := by
  obtain ⟨c, more, -, hread⟩ := m.readName_full rest h
  have hne : m.pre ≠ [] := ne_nil_of_length_pos (by omega)
  refine ⟨m.name.getLast m.name_ne, getLast?_eq_some_getLast m.name_ne, ?_⟩
  have hcut : (m.name ++ c :: more).take 99 = m.name.dropLast := by
    rw [take_append_of_le_length (by omega), dropLast_eq_take, h]
  simp [m.tarFullName_header, hread, Ustar.full, hne, hpre, hcut, dropLast_append_getLast]

end

/-- A member is read under its name exactly if it is legible. -/
theorem readClean_iff :
    (m.readClean rest = tarNormalizeName m.full ∧ tarNormalizeName m.full ≠ none) ↔ m.Legible := by
  have hname := m.name_le
  have hpre := m.pre_le
  unfold Ustar.readClean Ustar.Legible
  rw [and_comm]
  refine and_congr_right fun hsome => ?_
  by_cases hshort : m.name.length < 100
  · rw [tarFullName_short m rest hshort]
    exact iff_of_true rfl (.inl hshort)
  have hfull : m.name.length = 100 := by omega
  by_cases hsmall : m.pre.length ≤ 153
  · obtain ⟨c, more, hc, hread⟩ := tarFullName_longer m rest hfull hsmall
    rw [hread]
    refine iff_of_false (tarNormalizeName_longer hc.ne.1 (.inl hc.ne.2) hsome) ?_
    rintro (h | h | h)
    · exact hshort h
    · omega
    · omega
  by_cases hexact : m.pre.length = 154
  · rw [tarFullName_exact m rest hfull hexact]
    exact iff_of_true rfl (.inr (.inl hexact))
  have hlong : m.pre.length = 155 := by omega
  obtain ⟨c, hlast, hcut⟩ := tarFullName_cut m rest hfull hlong
  rw [hcut] at hsome ⊢
  rw [hlast, some.injEq]
  by_cases hc : c = slash
  · rw [hc] at hsome ⊢
    exact iff_of_true (tarNormalizeName_slash hsome) (.inr (.inr ⟨hlong, rfl⟩))
  refine iff_of_false ?_ ?_
  · intro heq
    by_cases hnone : tarNormalizeName (tarFullName (m.header ++ rest)) = none
    · exact hsome (heq ▸ hnone)
    · exact tarNormalizeName_longer hc (.inr rfl) hnone heq.symm
  · rintro (h | h | h)
    · exact hshort h
    · exact hexact h
    · exact hc h.2

end Legible

/-! ## The whole archive -/

def Ustar.entry (m : Ustar) (rest : List UInt8) : Option TarEntry :=
  (m.readClean rest).map fun clean => ⟨clean, m.typeflag, m.body⟩

/-- An entry with the normalised full name and the contents of a member. -/
def Ustar.Read (m : Ustar) (e : TarEntry) : Prop :=
  tarNormalizeName m.full = some e.clean ∧ e.typeflag = m.typeflag ∧ e.body = m.body

theorem Ustar.read_iff {rest : List UInt8} {e : TarEntry} (he : m.entry rest = some e) :
    m.Read e ↔ m.Legible := by
  obtain ⟨clean, hclean, rfl⟩ := map_eq_some_iff.mp he
  rw [← readClean_iff m rest, hclean]
  constructor
  · intro h
    exact ⟨h.1.symm, fun hnone => some_ne_none _ (h.1.symm.trans hnone)⟩
  · intro h
    exact ⟨h.1.symm, rfl, rfl⟩

theorem Ustar.entry_of_legible (h : m.Legible) (rest : List UInt8) :
    ∃ e, m.entry rest = some e := by
  obtain ⟨heq, hne⟩ := (readClean_iff m rest).mpr h
  obtain ⟨clean, hclean⟩ := Option.ne_none_iff_exists'.mp hne
  exact ⟨_, map_eq_some_iff.mpr ⟨clean, heq.trans hclean, rfl⟩⟩

theorem tarLoop_record (fuel : Nat) (m : Ustar) (next : List UInt8) :
    tarLoop (fuel + 1) (m.record ++ next) none =
      ((m.entry (padded (blocks m.body.length) m.body ++ next)).toList ++ (tarLoop fuel next none).1,
        (tarLoop fuel next none).2) := by
  obtain ⟨more, hmore⟩ : ∃ more, more = padded (blocks m.body.length) m.body ++ next := ⟨_, rfl⟩
  have hlen : more.length = blocks m.body.length + next.length := by
    simp [hmore, length_padded (le_blocks _)]
  have hhead := m.length_header
  have hdrop : (m.header ++ more).drop tarBlock = more := drop_left' hhead
  have hnext : (m.header ++ more).drop (tarBlock + blocks m.body.length) = next := by
    rw [← drop_drop, hdrop, hmore, drop_left' (length_padded (le_blocks _))]
  have hbody : more.take m.body.length = m.body := by
    simp [hmore, padded]
  have hkind : m.typeflag ≠ 0x4C := by
    rcases m.kind with h | h | h
    all_goals
      rw [h]
      decide
  have hroom : ¬ (m.header ++ more).length < tarBlock := by
    rw [length_append]
    omega
  have hfits : ¬ (m.header ++ more).length < tarBlock + blocks m.body.length := by
    rw [length_append]
    omega
  rw [Ustar.record, append_assoc, ← hmore, tarLoop, if_neg hroom, if_neg (m.first_byte more)]
  dsimp only
  rw [m.size_field, m.typeflag_field, ← blocks, if_neg hfits, if_neg hkind, hdrop, hnext, hbody]
  cases hclean : tarNormalizeName (tarFullName (m.header ++ more)) with
  | none => simp [Ustar.entry, Ustar.readClean, hclean]
  | some clean => simp [Ustar.entry, Ustar.readClean, hclean]

theorem tarLoop_end (fuel : Nat) (rest : List UInt8) :
    tarLoop fuel (layout [] rest) none = ([], true) := by
  cases fuel with
  | zero => rfl
  | succ fuel =>
    have hsplit : layout [] rest = replicate tarBlock 0 ++
        (replicate tarBlock 0 ++ rest) := by
      rw [layout, Nat.two_mul, replicate_add, append_assoc]
      rfl
    have hroom : ¬ (layout [] rest).length < tarBlock := by
      rw [hsplit, length_append, length_replicate]
      omega
    have hzero : (layout [] rest).getD 0 0 = 0 := rfl
    have hall : ((layout [] rest).take tarBlock).all (· = 0) = true := by
      rw [hsplit, take_left' length_replicate, all_replicate]
      rfl
    rw [tarLoop, if_neg hroom, if_pos hzero, if_pos hall]

/-- With a round for every member, no error is found, and a member gives at most one
entry. -/
theorem tarLoop_layout {fuel : Nat} {ms : List Ustar} (rest : List UInt8) (h : ms.length ≤ fuel) :
    (tarLoop fuel (layout ms rest) none).2 = true ∧
      (tarLoop fuel (layout ms rest) none).1.length ≤ ms.length ∧
      (Forall₂ Ustar.Read ms (tarLoop fuel (layout ms rest) none).1 ↔
        ∀ m ∈ ms, m.Legible) := by
  induction ms generalizing fuel with
  | nil =>
    rw [tarLoop_end]
    simp
  | cons m ms ih =>
    obtain ⟨fuel, rfl⟩ : ∃ n, fuel = n + 1 := ⟨fuel - 1, by rw [length_cons] at h; omega⟩
    obtain ⟨hok, hlen, hiff⟩ := ih (Nat.le_of_succ_le_succ h)
    have hsplit : layout (m :: ms) rest = m.record ++ layout ms rest := by
      rw [layout, flatMap_cons, append_assoc]
      rfl
    rw [hsplit, tarLoop_record]
    refine ⟨hok, ?_, ?_⟩
    · have := length_toList_le (o := m.entry (padded (blocks m.body.length) m.body ++ layout ms rest))
      rw [length_append, length_cons]
      omega
    rw [forall_mem_cons]
    cases hentry : m.entry (padded (blocks m.body.length) m.body ++ layout ms rest) with
    | none =>
      -- an entry is missing
      constructor
      · intro hread
        have heq : ms.length + 1 = (tarLoop fuel (layout ms rest) none).1.length :=
          hread.length_eq
        omega
      · intro hlegible
        obtain ⟨e, he⟩ := Ustar.entry_of_legible hlegible.1 _
        cases hentry.symm.trans he
    | some e =>
      simp [Ustar.read_iff hentry, hiff]

/-- The archive is read as it was written: success, and one entry for every member in
order, with its name and contents. -/
def RoundTrip (ms : List Ustar) (rest : List UInt8) : Prop :=
  (tarIterate (layout ms rest)).2 = true ∧
    Forall₂ Ustar.Read ms (tarIterate (layout ms rest)).1

theorem length_le_layout (ms : List Ustar) (rest : List UInt8) :
    ms.length ≤ (layout ms rest).length := by
  induction ms with
  | nil => exact Nat.zero_le _
  | cons m ms ih =>
    have hhead := m.length_header
    unfold tarBlock at hhead
    simp only [layout, flatMap_cons, Ustar.record, length_append, length_cons] at ih ⊢
    omega

/-- An archive is read as it was written exactly if all its names are legible. -/
theorem roundTrip_iff_legible (ms : List Ustar) (rest : List UInt8) :
    RoundTrip ms rest ↔ ∀ m ∈ ms, m.Legible := by
  obtain ⟨hok, -, hiff⟩ := tarLoop_layout rest (length_le_layout ms rest)
  unfold RoundTrip tarIterate
  rw [hiff]
  exact and_iff_right hok

/-- A member whose name fills its field, and which has no contents. -/
def fullName : Ustar where
  name := replicate 100 0x61
  pre := []
  typeflag := 0x30
  body := []
  ids := replicate 24 0x30
  digits := replicate 11 0x30
  ends := [0]
  times := replicate 20 0x30
  link := replicate 188 0
  name_ne := by decide
  name_le := Nat.le_of_eq length_replicate
  name_text := by decide
  pre_le := Nat.zero_le _
  pre_text := by decide
  kind := by decide
  ids_length := length_replicate
  mode := ⟨0x30, replicate 23 0x30, rfl, by unfold isOctal; decide⟩
  digits_ne := by decide
  digits_octal := by
    intro c hc
    rw [eq_of_mem_replicate hc]
    exact ⟨by decide, by decide⟩
  ends_ne := by decide
  ends_blank := fun _ hc => .inl (List.mem_singleton.mp hc)
  size_length := rfl
  size := rfl
  times_length := length_replicate
  link_length := length_replicate

/-- The mode, the owner and the size are read as part of the name. -/
theorem full_name_reads_mode : (tarIterate (layout [fullName] [])).1.map TarEntry.clean =
        [replicate 100 0x61 ++ replicate 35 0x30] ∧
      ¬ RoundTrip [fullName] [] := by
  have hread : (tarIterate (layout [fullName] [])).1.map TarEntry.clean =
      [replicate 100 0x61 ++ replicate 35 0x30] := by
    decide +kernel
  refine ⟨hread, fun h => ?_⟩
  have hclean : tarNormalizeName fullName.full = some (replicate 100 0x61) := by
    decide +kernel
  obtain ⟨e, he⟩ : ∃ e, (tarIterate (layout [fullName] [])).1 = [e] :=
    length_eq_one_iff.mp (h.2.length_eq.symm)
  have hname := h.2
  rw [he] at hname hread
  have heq := (forall₂_cons.mp hname).1.1
  rw [hclean, some.injEq] at heq
  rw [map_singleton, singleton_inj, ← heq] at hread
  exact absurd (congrArg length hread) (by simp)

end Kil0yOS.Pkg
