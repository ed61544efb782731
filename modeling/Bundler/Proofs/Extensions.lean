/-
Extensions of file names, and the characters that are cut for them.

Whether a path has an extension is asked by bytes: the last bytes of the path, as many as the extension
has, are compared with it. Where these bytes begin inside a character (`Text.Torn`) there is no such text
to compare, and the question is a fault. Everywhere else the answer is the one that is wanted: the path
ends in the extension, the case of ASCII letters set aside (`Path.hasExtension_true_iff`,
`Path.hasExtension_error_iff`). What is asked of a path before its extension is changed or left out is
asked in this way, so it is known of each function for which paths it is a fault
(`Path.withJsExtension_error_iff`, `Path.moduleId_error_iff`). A path whose last five bytes are single
characters is none of them (`Path.ok_of_not_torn`).

A module is found under a base name with one of four extensions behind it, and the base name is its id.
The id is what is left of the file without its extension, unless a character of the base is torn
(`Path.moduleId_append`). A source file is written to the script of that id
(`Path.withJsExtension_append`).
-/
import Bundler.Proofs.Names

set_option autoImplicit false

namespace Bundler

open Text

/-! ## Cuts inside a character -/

namespace Text

/-- The last `n` bytes of a text begin inside a character. -/
def Torn (n : Nat) (cs : List Char) : Prop :=
  ∃ front c back, cs = front ++ c :: back ∧ size back < n ∧ n < size back + c.utf8Size

variable {n : Nat} {cs front back ext : List Char}

theorem Torn.le_size (h : Torn n cs) : n ≤ size cs := by
  obtain ⟨front, c, back, rfl, -, hlt⟩ := h
  rw [size_append]
  unfold size
  omega

/-- Only a character of several bytes is torn. -/
theorem Torn.exists_wide (h : Torn n cs) : ∃ c ∈ cs, 1 < c.utf8Size := by
  obtain ⟨front, c, back, rfl, hlow, hhigh⟩ := h
  exact ⟨c, by simp, by omega⟩

/-- The last bytes are characters, or the first of these characters is torn. -/
theorem exists_append_or_torn (h : n ≤ size cs) :
    (∃ front back, cs = front ++ back ∧ size back = n) ∨ Torn n cs := by
  induction cs with
  | nil => exact .inl ⟨[], [], rfl, (Nat.le_zero.mp h).symm⟩
  | cons c cs ih =>
    unfold size at h
    -- the cut falls behind the first character, in front of it, or inside of it
    by_cases hbehind : n ≤ size cs
    · rcases ih hbehind with ⟨front, back, rfl, hback⟩ | ⟨front, d, back, rfl, htorn⟩
      · exact .inl ⟨c :: front, back, rfl, hback⟩
      · exact .inr ⟨c :: front, d, back, rfl, htorn⟩
    · by_cases hall : n = c.utf8Size + size cs
      · exact .inl ⟨[], c :: cs, rfl, hall.symm⟩
      · exact .inr ⟨[], c, cs, rfl, by omega, by omega⟩

/-- A character that begins before the end of a text stands in front of that end. -/
private theorem exists_of_append_eq {c : Char} (heq : cs ++ ext = front ++ c :: back)
    (h : size ext < size back + c.utf8Size) :
    ∃ middle, cs = front ++ c :: middle ∧ back = middle ++ ext := by
  rcases List.append_eq_append_iff.mp heq with ⟨middle, -, hext⟩ | ⟨middle, hcs, hback⟩
  · rw [hext, size_append, size] at h
    omega
  · cases middle with
    | nil =>
      rw [List.nil_append] at hback
      rw [← hback, size] at h
      omega
    | cons d middle =>
      rw [List.cons_append] at hback
      obtain ⟨rfl, rfl⟩ := List.cons.inj hback
      exact ⟨middle, hcs, rfl⟩

/-- A cut before the end of a text tears what the cut of the text in front of the end does. -/
theorem torn_append_iff (h : size ext < n) : Torn n (cs ++ ext) ↔ Torn (n - size ext) cs := by
  constructor
  · rintro ⟨front, c, back, heq, hlow, hhigh⟩
    obtain ⟨middle, hcs, rfl⟩ := exists_of_append_eq heq (by omega)
    rw [size_append] at hlow hhigh
    exact ⟨front, c, middle, hcs, by omega, by omega⟩
  · rintro ⟨front, c, back, rfl, hlow, hhigh⟩
    have hsize := size_append back ext
    exact ⟨front, c, back ++ ext, by simp, by omega, by omega⟩

/-- A cut between two characters tears none. -/
theorem not_torn_size (front back : List Char) : ¬Torn (size back) (front ++ back) := by
  rintro ⟨front', c, back', heq, hlow, hhigh⟩
  obtain ⟨middle, -, rfl⟩ := exists_of_append_eq heq hhigh
  rw [size_append] at hlow
  omega

/-- Of two ends of a text, those of the same size are the same. -/
theorem eq_of_size_eq {front' back' : List Char} (h : front ++ back = front' ++ back')
    (hsize : size back = size back') : back = back' := by
  have hfront : size front = size front' := by
    have htotal := congrArg size h
    rw [size_append, size_append] at htotal
    omega
  have hdrop := dropBytes?_size front back
  rw [h, hfront, dropBytes?_size] at hdrop
  exact (Option.some.inj hdrop).symm

/-- A letter keeps its size when it is made small. -/
theorem utf8Size_toLower (c : Char) : c.toLower.utf8Size = c.utf8Size := by
  by_cases hascii : c.toNat < 128
  · have hall : ∀ n : Fin 128, (Char.ofNat n).toLower.utf8Size = (Char.ofNat n).utf8Size := by
      decide +kernel
    have hc := hall ⟨c.toNat, hascii⟩
    simpa only [Char.ofNat_toNat] using hc
  · have hsame : c.toLower = c := by
      unfold Char.toLower
      rw [dif_neg]
      rintro ⟨-, hle⟩
      exact hascii (Nat.lt_of_le_of_lt hle (by decide))
    rw [hsame]

theorem size_of_map_toLower (h : cs.map Char.toLower = ext.map Char.toLower) : size cs = size ext := by
  have hsize : ∀ ds : List Char, size (ds.map Char.toLower) = size ds := by
    intro ds
    induction ds with
    | nil => rfl
    | cons d ds ih => simp only [List.map_cons, size, utf8Size_toLower, ih]
  rw [← hsize cs, h, hsize]

end Text

namespace Path

/-! ## The test for an extension -/

/-- The path ends in an extension, the case of ASCII letters set aside. -/
def EndsLike (p ext : String) : Prop :=
  ext.toList.map Char.toLower <:+ p.toList.map Char.toLower

instance (p ext : String) : Decidable (EndsLike p ext) :=
  inferInstanceAs (Decidable (_ <:+ _))

variable {p ext : String}

theorem endsLike_iff : EndsLike p ext ↔
    ∃ front back, p.toList = front ++ back ∧ eqIgnoringAsciiCase back ext.toList = true := by
  constructor
  · rintro ⟨front, h⟩
    obtain ⟨front', back, hp, -, hback⟩ := List.map_eq_append_iff.mp h.symm
    exact ⟨front', back, hp, beq_iff_eq.mpr hback⟩
  · rintro ⟨front, back, hp, hback⟩
    exact ⟨front.map Char.toLower, by rw [hp, List.map_append, beq_iff_eq.mp hback]⟩

theorem endsLike_append (base ext : String) : EndsLike (base ++ ext) ext := by
  unfold EndsLike
  rw [String.toList_append, List.map_append]
  exact List.suffix_append _ _

theorem EndsLike.le_size (h : EndsLike p ext) : size ext.toList ≤ size p.toList := by
  obtain ⟨front, back, hp, hback⟩ := endsLike_iff.mp h
  rw [hp, size_append, ← size_of_map_toLower (beq_iff_eq.mp hback)]
  omega

theorem EndsLike.not_torn (h : EndsLike p ext) : ¬Torn (size ext.toList) p.toList := by
  obtain ⟨front, back, hp, hback⟩ := endsLike_iff.mp h
  rw [hp, ← size_of_map_toLower (beq_iff_eq.mp hback)]
  exact not_torn_size front back

/-- Where no character is torn, the test says whether the path ends in the extension. -/
theorem hasExtension_of_not_torn (h : ¬Torn (size ext.toList) p.toList) :
    hasExtension p ext = .ok (decide (EndsLike p ext)) := by
  unfold hasExtension
  simp only
  by_cases hle : size ext.toList ≤ size p.toList
  · obtain ⟨front, back, hp, hback⟩ := (exists_append_or_torn hle).resolve_right h
    have hcut : size p.toList - size ext.toList = size front := by
      rw [hp, size_append]
      omega
    rw [if_pos hle, hcut, hp, dropBytes?_size]
    change Except.ok (eqIgnoringAsciiCase back ext.toList) = _
    congr 1
    rw [Bool.eq_iff_iff, decide_eq_true_iff]
    refine ⟨fun hequal => endsLike_iff.mpr ⟨front, back, hp, hequal⟩, fun hends => ?_⟩
    obtain ⟨front', back', hp', hequal⟩ := endsLike_iff.mp hends
    have hsize := size_of_map_toLower (beq_iff_eq.mp hequal)
    rw [eq_of_size_eq (hp.symm.trans hp') (hback.trans hsize.symm)]
    exact hequal
  · rw [if_neg hle, decide_eq_false fun hends => hle hends.le_size]
    rfl

theorem hasExtension_of_torn (h : Torn (size ext.toList) p.toList) :
    hasExtension p ext = .error .badCut := by
  have hcut : dropBytes? (size p.toList - size ext.toList) p.toList = none := by
    cases hdrop : dropBytes? (size p.toList - size ext.toList) p.toList with
    | none => rfl
    | some back =>
      obtain ⟨front, hp, hfront⟩ := of_dropBytes? hdrop
      have hle := h.le_size
      rw [hp, size_append] at hle hfront
      rw [hp, show size ext.toList = size back by omega] at h
      exact absurd h (not_torn_size front back)
  unfold hasExtension
  simp only
  rw [if_pos h.le_size, hcut]
  rfl

/-- The test says yes exactly where the path ends in the extension. -/
theorem hasExtension_true_iff : hasExtension p ext = .ok true ↔ EndsLike p ext := by
  by_cases h : Torn (size ext.toList) p.toList
  · rw [hasExtension_of_torn h]
    exact ⟨fun hok => (nomatch hok), fun hends => absurd h hends.not_torn⟩
  · rw [hasExtension_of_not_torn h, Except.ok.injEq, decide_eq_true_iff]

/-- The test is a fault exactly where a character is torn. -/
theorem hasExtension_error_iff {f : Fault} :
    hasExtension p ext = .error f ↔ f = .badCut ∧ Torn (size ext.toList) p.toList := by
  by_cases h : Torn (size ext.toList) p.toList
  · rw [hasExtension_of_torn h, Except.error.injEq]
    exact ⟨fun hf => ⟨hf.symm, h⟩, fun hf => hf.1.symm⟩
  · rw [hasExtension_of_not_torn h]
    exact ⟨fun hok => (nomatch hok), fun hf => absurd hf.2 h⟩

/-- The last three bytes begin inside the first letter. -/
example : hasExtension "éé" ".js" = .error .badCut := by decide

/-! ## Extensions that are changed or left out -/

theorem dropLastBytes_append (base ext : String) :
    dropLastBytes (base ++ ext) (size ext.toList) = .ok base := by
  unfold dropLastBytes
  simp only
  rw [String.toList_append, size_append, Nat.add_sub_cancel, takeBytes?_size]
  change Except.ok (String.ofList base.toList) = _
  rw [String.ofList_toList]

theorem EndsLike.dropLastBytes (h : EndsLike p ext) :
    ∃ kept, Path.dropLastBytes p (size ext.toList) = .ok kept := by
  obtain ⟨front, back, hp, hback⟩ := endsLike_iff.mp h
  have hsize := size_of_map_toLower (beq_iff_eq.mp hback)
  have hcut : size p.toList - size ext.toList = size front := by
    rw [hp, size_append]
    omega
  refine ⟨String.ofList front, ?_⟩
  unfold Path.dropLastBytes
  simp only
  rw [hcut, hp, takeBytes?_size]
  rfl

/-- The name of a module is a fault exactly where the five bytes of the longest extension tear a
character. -/
theorem moduleId_error_iff {f : Fault} : moduleId p = .error f ↔ f = .badCut ∧ Torn 5 p.toList := by
  unfold moduleId isDeclaration
  by_cases h : Torn 5 p.toList
  · rw [hasExtension_of_torn (show Torn (size ".d.ts".toList) p.toList from h)]
    change Except.error Fault.badCut = _ ↔ _
    rw [Except.error.injEq]
    exact ⟨fun hf => ⟨hf.symm, h⟩, fun hf => hf.1.symm⟩
  · rw [hasExtension_of_not_torn (show ¬Torn (size ".d.ts".toList) p.toList from h)]
    refine ⟨fun hok => ?_, fun hf => absurd hf.2 h⟩
    by_cases hends : EndsLike p ".d.ts"
    · obtain ⟨kept, hkept⟩ := hends.dropLastBytes
      rw [decide_eq_true hends] at hok
      change Path.dropLastBytes p (size ".d.ts".toList) = _ at hok
      rw [hkept] at hok
      cases hok
    · rw [decide_eq_false hends] at hok
      cases hok

/-- The question for a source file tears a character: that for its extension, or the one whether it is a
declaration file, which is asked of paths with that extension. -/
def SourceTorn (p ext : String) : Prop :=
  Torn (size ext.toList) p.toList ∨ EndsLike p ext ∧ Torn 5 p.toList

theorem isSource_of_torn (h : SourceTorn p ext) : isSource p ext = .error .badCut := by
  unfold isSource
  rcases h with h | ⟨hends, h⟩
  · rw [hasExtension_of_torn h]
    rfl
  · rw [hasExtension_true_iff.mpr hends, isDeclaration,
      hasExtension_of_torn (show Torn (size ".d.ts".toList) p.toList from h)]
    rfl

theorem isSource_of_not_torn (h : ¬SourceTorn p ext) :
    isSource p ext = .ok (decide (EndsLike p ext ∧ ¬EndsLike p ".d.ts")) := by
  unfold isSource
  rw [hasExtension_of_not_torn fun htorn => h (.inl htorn)]
  by_cases hends : EndsLike p ext
  · have hfive : ¬Torn (size ".d.ts".toList) p.toList := fun htorn => h (.inr ⟨hends, htorn⟩)
    rw [decide_eq_true hends]
    change isDeclaration p >>= (fun b => pure !b) = _
    rw [isDeclaration, hasExtension_of_not_torn hfive]
    simp [hends, bind, Except.bind, pure, Except.pure]
  · simp [hends, bind, Except.bind, pure, Except.pure]

/-- Two ends of the same length are the same, but for the case of letters. -/
theorem EndsLike.eq_of_length {ext' : String} (h : EndsLike p ext) (h' : EndsLike p ext')
    (hlength : ext.toList.length = ext'.toList.length) :
    ext.toList.map Char.toLower = ext'.toList.map Char.toLower := by
  have hle : (ext.toList.map Char.toLower).length ≤ (ext'.toList.map Char.toLower).length := by
    simp [hlength]
  exact (List.suffix_of_suffix_length_le h h' hle).eq_of_length (by simp [hlength])

/-- The script of a source file has no name exactly where one of the questions tears a character. -/
theorem withJsExtension_error_iff {f : Fault} :
    withJsExtension p = .error f ↔ f = .badCut ∧ (SourceTorn p ".tsx" ∨ SourceTorn p ".ts") := by
  unfold withJsExtension
  by_cases htsx : SourceTorn p ".tsx"
  · rw [isSource_of_torn htsx]
    change Except.error Fault.badCut = _ ↔ _
    rw [Except.error.injEq]
    exact ⟨fun hf => ⟨hf.symm, .inl htsx⟩, fun hf => hf.1.symm⟩
  rw [isSource_of_not_torn htsx]
  by_cases hends : EndsLike p ".tsx" ∧ ¬EndsLike p ".d.ts"
  · -- behind `.tsx` neither the extension `.ts` is found nor a character torn by it
    have hts : ¬SourceTorn p ".ts" := by
      have hshort : EndsLike p "tsx" := List.IsSuffix.trans (by decide) hends.1
      rintro (htorn | ⟨hends', -⟩)
      · exact hshort.not_torn htorn
      · exact absurd (hshort.eq_of_length hends' rfl) (by decide)
    obtain ⟨kept, hkept⟩ := hends.1.dropLastBytes
    rw [decide_eq_true hends]
    change (Path.dropLastBytes p (size ".tsx".toList) >>= fun kept => pure (kept ++ ".js")) = _ ↔ _
    rw [hkept]
    exact ⟨fun hok => (nomatch hok), fun hf => (hf.2.elim htsx hts).elim⟩
  · rw [decide_eq_false hends]
    change (isSource p ".ts" >>= fun found => if found = true then
      Path.dropLastBytes p (size ".ts".toList) >>= fun kept => pure (kept ++ ".js") else pure p) = _ ↔ _
    by_cases hts : SourceTorn p ".ts"
    · rw [isSource_of_torn hts]
      change Except.error Fault.badCut = _ ↔ _
      rw [Except.error.injEq]
      exact ⟨fun hf => ⟨hf.symm, .inr hts⟩, fun hf => hf.1.symm⟩
    · rw [isSource_of_not_torn hts]
      refine ⟨fun hok => ?_, fun hf => (hf.2.elim htsx hts).elim⟩
      by_cases hends' : EndsLike p ".ts" ∧ ¬EndsLike p ".d.ts"
      · obtain ⟨kept, hkept⟩ := hends'.1.dropLastBytes
        rw [decide_eq_true hends'] at hok
        change (Path.dropLastBytes p (size ".ts".toList) >>= fun kept => pure (kept ++ ".js")) = _ at hok
        rw [hkept] at hok
        cases hok
      · rw [decide_eq_false hends'] at hok
        cases hok

/-- A path of which no cut tears a character is met with no fault. -/
theorem ok_of_not_torn (h : ∀ n ≤ 5, ¬Torn n p.toList) :
    (∀ ext, size ext.toList ≤ 5 → hasExtension p ext = .ok (decide (EndsLike p ext))) ∧
    (∃ q, withJsExtension p = .ok q) ∧ ∃ id, moduleId p = .ok id := by
  refine ⟨fun ext hext => hasExtension_of_not_torn (h _ hext), ?_, ?_⟩
  · cases hq : withJsExtension p with
    | ok q => exact ⟨q, rfl⟩
    | error f =>
      rcases (withJsExtension_error_iff.mp hq).2 with (htorn | htorn) | (htorn | htorn)
      · exact absurd htorn (h 4 (by decide))
      · exact absurd htorn.2 (h 5 (by decide))
      · exact absurd htorn (h 3 (by decide))
      · exact absurd htorn.2 (h 5 (by decide))
  · cases hid : moduleId p with
    | ok id => exact ⟨id, rfl⟩
    | error f => exact absurd (moduleId_error_iff.mp hid).2 (h 5 (by decide))

/-- A path of ASCII characters is one of these. -/
theorem ok_of_ascii (h : ∀ c ∈ p.toList, c.utf8Size = 1) :
    (∀ ext, size ext.toList ≤ 5 → hasExtension p ext = .ok (decide (EndsLike p ext))) ∧
    (∃ q, withJsExtension p = .ok q) ∧ ∃ id, moduleId p = .ok id := by
  refine ok_of_not_torn fun n _ htorn => ?_
  obtain ⟨c, hc, hwide⟩ := htorn.exists_wide
  have hone := h c hc
  omega

/-! ## Files of modules -/

/-- A base name of modules: its last component is not empty and does not end like that of a declaration
file without its last extension. -/
structure IsBase (base : String) : Prop where
  names : ∃ front c, base.toList = front ++ [c] ∧ c ≠ '/'
  plain : ¬EndsLike base ".d"

variable {base : String}

/-- A path is its directory, up to the last slash, and the name behind it. -/
private theorem stripExtension_of_name {directory name : List Char} {c : Char} {stem rest : List Char}
    (hp : p.toList = directory ++ name) (hdirectory : directory = [] ∨ ∃ d, directory = d ++ ['/'])
    (hslash : ∀ d ∈ name, (d == '/') = false)
    (hdot : splitLast? (· == '.') name = some (c :: stem, rest)) :
    Path.stripExtension p = String.ofList (directory ++ c :: stem) := by
  unfold Path.stripExtension
  rcases hdirectory with rfl | ⟨d, rfl⟩
  · rw [List.nil_append] at hp
    rw [hp, splitLast?_of_not_mem hslash]
    simp only [hdot]
  · rw [List.append_assoc, List.singleton_append] at hp
    rw [hp, splitLast?_append_cons (by rfl) hslash]
    simp only [hdot]

/-- What is put behind a base name is left out again with the last dot. -/
theorem IsBase.stripExtension (h : IsBase base) {rest : List Char}
    (hext : ext.toList = '.' :: rest) (hslash : '/' ∉ rest) (hdot : '.' ∉ rest) :
    Path.stripExtension (base ++ ext) = base := by
  obtain ⟨front, last, hbase, hlast⟩ := h.names
  have hnot {d : Char} (hd : d ∉ rest) : ∀ e ∈ rest, (e == d) = false := fun e he =>
    beq_eq_false_iff_ne.mpr fun heq => hd (heq ▸ he)
  obtain ⟨directory, name, hp, hdirectory, hname⟩ : ∃ directory name,
      base.toList = directory ++ name ∧ (directory = [] ∨ ∃ d, directory = d ++ ['/']) ∧
      ∀ e ∈ name, (e == '/') = false := by
    cases hsplit : splitLast? (· == '/') base.toList with
    | none => exact ⟨[], base.toList, rfl, .inl rfl, of_splitLast?_eq_none hsplit⟩
    | some parts =>
      obtain ⟨slash, hs, heq, hbehind⟩ := of_splitLast?_eq_some hsplit
      obtain rfl := beq_iff_eq.mp hs
      exact ⟨parts.1 ++ ['/'], parts.2, by simp [heq], .inr ⟨_, rfl⟩, hbehind⟩
  have hne : name ≠ [] := by
    rintro rfl
    rw [List.append_nil] at hp
    rcases hdirectory with rfl | ⟨d, rfl⟩
    · rw [hp] at hbase
      simp at hbase
    · have hends := List.append_inj_right' (hp.symm.trans hbase) rfl
      exact hlast (List.singleton_inj.mp hends).symm
  obtain ⟨c, stem, rfl⟩ := List.exists_cons_of_ne_nil hne
  have hwhole : (base ++ ext).toList = directory ++ (c :: stem ++ '.' :: rest) := by
    rw [String.toList_append, hp, hext, List.append_assoc]
  have hslash' : ∀ e ∈ c :: stem ++ '.' :: rest, (e == '/') = false := by
    intro e he
    rcases List.mem_append.mp he with he | he
    · exact hname e he
    · rcases List.mem_cons.mp he with rfl | he
      · rfl
      · exact hnot hslash e he
  rw [stripExtension_of_name hwhole hdirectory hslash'
    (splitLast?_append_cons (by rfl) (hnot hdot) (c :: stem)), ← hp, String.ofList_toList]

/-- The ends that a source file or a script has behind its base name. -/
def extensions : List String := [".ts", ".tsx", ".js"]

theorem of_mem_extensions (h : ext ∈ extensions) : 3 ≤ size ext.toList ∧ size ext.toList < 5 ∧
    ∃ rest, ext.toList = '.' :: rest ∧ '/' ∉ rest ∧ '.' ∉ rest := by
  simp only [extensions, List.mem_cons, List.not_mem_nil, or_false] at h
  rcases h with rfl | rfl | rfl
  · exact ⟨by decide, by decide, ['t', 's'], by decide⟩
  · exact ⟨by decide, by decide, ['t', 's', 'x'], by decide⟩
  · exact ⟨by decide, by decide, ['j', 's'], by decide⟩

/-- No such file ends like a declaration file. -/
theorem IsBase.not_declaration (h : IsBase base) (hext : ext ∈ extensions) :
    ¬EndsLike (base ++ ext) ".d.ts" := by
  rintro ⟨front, hends⟩
  rw [String.toList_append, List.map_append] at hends
  simp only [extensions, List.mem_cons, List.not_mem_nil, or_false] at hext
  rcases hext with rfl | rfl | rfl
  · -- behind `.ts` the base name would end in `.d`
    have hparted : (front ++ ['.', 'd']) ++ ['.', 't', 's']
        = base.toList.map Char.toLower ++ ['.', 't', 's'] := by
      rw [List.append_assoc]
      exact hends
    exact h.plain ⟨front, List.append_inj_left' hparted rfl⟩
  · have hparted : (front ++ ['.']) ++ ['d', '.', 't', 's']
        = base.toList.map Char.toLower ++ ['.', 't', 's', 'x'] := by
      rw [List.append_assoc]
      exact hends
    exact absurd (List.append_inj_right' hparted rfl) (by decide)
  · have hparted : (front ++ ['.', 'd']) ++ ['.', 't', 's']
        = base.toList.map Char.toLower ++ ['.', 'j', 's'] := by
      rw [List.append_assoc]
      exact hends
    exact absurd (List.append_inj_right' hparted rfl) (by decide)

private theorem torn_append_extension (hext : ext ∈ extensions) :
    Torn (size ".d.ts".toList) (base ++ ext).toList ↔ Torn (5 - size ext.toList) base.toList := by
  rw [String.toList_append]
  exact torn_append_iff (of_mem_extensions hext).2.1

/-- The name of a file behind a base name is the base name, unless its last bytes, as many as the
longest extension has more, tear a character. -/
theorem IsBase.moduleId (h : IsBase base) (hext : ext ∈ extensions)
    (htorn : ¬Torn (5 - size ext.toList) base.toList) : Path.moduleId (base ++ ext) = .ok base := by
  obtain ⟨-, -, rest, hrest, hslash, hdot⟩ := of_mem_extensions hext
  unfold Path.moduleId
  rw [isDeclaration, hasExtension_of_not_torn (mt (torn_append_extension hext).mp htorn),
    decide_eq_false (h.not_declaration hext)]
  change Except.ok (Path.stripExtension (base ++ ext)) = _
  rw [h.stripExtension hrest hslash hdot]

/-- Where they do, the name is a fault. -/
theorem moduleId_of_torn (hext : ext ∈ extensions) (htorn : Torn (5 - size ext.toList) base.toList) :
    moduleId (base ++ ext) = .error .badCut :=
  moduleId_error_iff.mpr ⟨rfl, (torn_append_extension hext).mpr htorn⟩

example : moduleId "日.ts" = .error .badCut := by decide

/-- The name of a declaration file is its base name, whatever that is. -/
theorem moduleId_declaration (base : String) : moduleId (base ++ ".d.ts") = .ok base := by
  unfold moduleId
  rw [isDeclaration, hasExtension_true_iff.mpr (endsLike_append base ".d.ts")]
  exact dropLastBytes_append base ".d.ts"

/-- A source file behind a base name is known for one, and it loses the extension it has. -/
private theorem IsBase.isSource (h : IsBase base) (hext : ext ∈ extensions)
    (htorn : ¬Torn (5 - size ext.toList) base.toList) :
    Path.isSource (base ++ ext) ext = .ok true := by
  rw [isSource_of_not_torn, decide_eq_true ⟨endsLike_append base ext, h.not_declaration hext⟩]
  rintro (hcut | ⟨-, hcut⟩)
  · exact (endsLike_append base ext).not_torn hcut
  · exact htorn ((torn_append_extension hext).mp hcut)

/-- The script of a source file bears the name of its module. -/
theorem IsBase.withJsExtension (h : IsBase base) (hext : ext = ".ts" ∨ ext = ".tsx")
    (htorn : ∀ n ≤ 2, ¬Torn n base.toList) :
    Path.withJsExtension (base ++ ext) = .ok (base ++ ".js") := by
  unfold Path.withJsExtension
  rcases hext with rfl | rfl
  · -- the longer extension is asked for first
    have htsx : Path.isSource (base ++ ".ts") ".tsx" = .ok false := by
      have hends : ¬EndsLike (base ++ ".ts") ".tsx" := fun hends => by
        have hshort : EndsLike (base ++ ".ts") "tsx" := List.IsSuffix.trans (by decide) hends
        exact absurd (hshort.eq_of_length (endsLike_append base ".ts") rfl) (by decide)
      rw [isSource_of_not_torn, decide_eq_false fun h => hends h.1]
      rintro (hcut | ⟨hends', -⟩)
      · rw [String.toList_append] at hcut
        exact htorn 1 (by decide) ((torn_append_iff (by decide)).mp hcut)
      · exact hends hends'
    rw [htsx]
    change (Path.isSource (base ++ ".ts") ".ts" >>= fun found => if found = true then
      Path.dropLastBytes (base ++ ".ts") (size ".ts".toList) >>= fun kept => pure (kept ++ ".js")
      else pure (base ++ ".ts")) = _
    rw [h.isSource (show ".ts" ∈ extensions by decide) (htorn 2 (Nat.le_refl 2)), dropLastBytes_append]
    rfl
  · rw [h.isSource (show ".tsx" ∈ extensions by decide) (htorn 1 (by decide))]
    change (Path.dropLastBytes (base ++ ".tsx") (size ".tsx".toList) >>= fun kept =>
      pure (kept ++ ".js")) = _
    rw [dropLastBytes_append]
    rfl

end Path

end Bundler
