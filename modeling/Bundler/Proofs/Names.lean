/-
Names of files, and what can be told from them.

A name is completed and brought into normal form before a file is looked for, and the entry of the
file is found by the lower-cased result. Two facts about this are used later on. The first is that
the normal form is exact: what the disk makes of it, the components of the path, gives the normal
form back, so two names in normal form that differ lead to different files. It bounds the number
of files that a program can have by what is on the disk.

The second is about the ends of names. An import is found under a base name with one of four
extensions behind it. Neither completing a name nor lower-casing it changes the extension, so the
keys of a source file and of a script never meet, and whether an import is a script is answered
without a fault.
-/
import Mathlib.Data.List.Basic
import Bundler.Proofs.Cache

set_option autoImplicit false

namespace Bundler

open Bundler.Text

/-! ## Splitting and joining -/

namespace Text

theorem splitWhere_of_not_mem {p : Char → Bool} :
    ∀ {cs : List Char}, (∀ c ∈ cs, p c = false) → splitWhere p cs = [cs]
  | [], _ => rfl
  | c :: cs, h => by
    have hc := h c List.mem_cons_self
    have hcs := splitWhere_of_not_mem fun d hd => h d (List.mem_cons_of_mem c hd)
    simp only [splitWhere, hc, hcs, Bool.false_eq_true, if_false]

theorem splitWhere_ne_nil (p : Char → Bool) (cs : List Char) : splitWhere p cs ≠ [] := by
  cases cs with
  | nil => simp [splitWhere]
  | cons c cs =>
    unfold splitWhere
    split
    · simp
    · split <;> simp

/-- A separator parts the pieces before it from those behind it. -/
theorem splitWhere_append_cons {p : Char → Bool} {s : Char} (hs : p s = true) (bs : List Char) :
    ∀ as : List Char, splitWhere p (as ++ s :: bs) = splitWhere p as ++ splitWhere p bs
  | [] => by simp only [List.nil_append, splitWhere, hs, if_true, List.singleton_append]
  | c :: as => by
    have ih := splitWhere_append_cons hs bs as
    by_cases hc : p c = true
    · simp only [List.cons_append, splitWhere, if_pos hc, ih]
    · obtain ⟨piece, pieces, has⟩ := List.exists_cons_of_ne_nil (splitWhere_ne_nil p as)
      simp only [List.cons_append, splitWhere, if_neg hc, ih, has]

/-- What has no separators before the first one is a piece. -/
theorem splitWhere_append {p : Char → Bool} {s : Char} (hs : p s = true) (bs : List Char)
    {as : List Char} (has : ∀ c ∈ as, p c = false) :
    splitWhere p (as ++ s :: bs) = as :: splitWhere p bs := by
  rw [splitWhere_append_cons hs, splitWhere_of_not_mem has]
  rfl

/-- Pieces that are put together with a separator come apart again. -/
theorem splitWhere_intercalate {p : Char → Bool} {s : Char} (hs : p s = true) :
    ∀ {pieces : List (List Char)}, pieces ≠ [] → (∀ piece ∈ pieces, ∀ c ∈ piece, p c = false) →
      splitWhere p (List.intercalate [s] pieces) = pieces
  | [], hne, _ => absurd rfl hne
  | [piece], _, h => by
    rw [List.intercalate_singleton]
    exact splitWhere_of_not_mem (h piece List.mem_cons_self)
  | piece :: next :: pieces, _, h => by
    rw [List.intercalate_cons_cons, List.append_assoc, List.singleton_append,
      splitWhere_append hs _ (h piece List.mem_cons_self),
      splitWhere_intercalate hs (by simp) fun q hq => h q (List.mem_cons_of_mem piece hq)]

theorem not_mem_splitWhere (p : Char → Bool) :
    ∀ cs : List Char, ∀ piece ∈ splitWhere p cs, ∀ c ∈ piece, p c = false
  | [], piece, hpiece, c, hc => by
    simp only [splitWhere, List.mem_singleton] at hpiece
    rw [hpiece] at hc
    exact absurd hc List.not_mem_nil
  | d :: cs, piece, hpiece, c, hc => by
    have ih := not_mem_splitWhere p cs
    unfold splitWhere at hpiece
    by_cases hd : p d = true
    · rw [if_pos hd] at hpiece
      rcases List.mem_cons.mp hpiece with rfl | hmem
      · exact absurd hc List.not_mem_nil
      · exact ih piece hmem c hc
    · rw [if_neg hd] at hpiece
      have hd' : p d = false := by simpa using hd
      cases hsplit : splitWhere p cs with
      | nil => exact absurd hsplit (splitWhere_ne_nil p cs)
      | cons first rest =>
        rw [hsplit] at hpiece ih
        simp only at hpiece
        rcases List.mem_cons.mp hpiece with rfl | hmem
        · rcases List.mem_cons.mp hc with rfl | hc'
          · exact hd'
          · exact ih first List.mem_cons_self c hc'
        · exact ih piece (List.mem_cons_of_mem _ hmem) c hc

/-- The last piece of a text goes as far as the text does, whatever it ends with. -/
theorem splitWhere_append_of_not_mem (p : Char → Bool) :
    ∀ cs : List Char, ∃ pieces last, ∀ ext : List Char, (∀ c ∈ ext, p c = false) →
      splitWhere p (cs ++ ext) = pieces ++ [last ++ ext]
  | [] => ⟨[], [], fun ext hext => by rw [List.nil_append, splitWhere_of_not_mem hext]; rfl⟩
  | c :: cs => by
    obtain ⟨pieces, last, h⟩ := splitWhere_append_of_not_mem p cs
    by_cases hc : p c = true
    · refine ⟨[] :: pieces, last, fun ext hext => ?_⟩
      rw [List.cons_append, splitWhere, h ext hext, if_pos hc]
      rfl
    · cases pieces with
      | nil =>
        refine ⟨[], c :: last, fun ext hext => ?_⟩
        rw [List.cons_append, splitWhere, h ext hext, if_neg hc]
        rfl
      | cons piece pieces =>
        refine ⟨(c :: piece) :: pieces, last, fun ext hext => ?_⟩
        rw [List.cons_append, splitWhere, h ext hext, if_neg hc]
        rfl

theorem of_splitLast?_eq_none {p : Char → Bool} :
    ∀ {cs : List Char}, splitLast? p cs = none → ∀ c ∈ cs, p c = false
  | [], _ => List.forall_mem_nil _
  | c :: cs, h => by
    rw [splitLast?] at h
    cases hcs : splitLast? p cs with
    | some parts => simp [hcs] at h
    | none =>
      have hc : p c = false := by simpa [hcs] using h
      exact List.forall_mem_cons.mpr ⟨hc, of_splitLast?_eq_none hcs⟩

/-- The text behind the last separator has none. -/
theorem of_splitLast?_eq_some {p : Char → Bool} :
    ∀ {cs before behind : List Char}, splitLast? p cs = some (before, behind) →
      ∃ s, p s = true ∧ cs = before ++ s :: behind ∧ ∀ c ∈ behind, p c = false
  | c :: cs, before, behind, h => by
    rw [splitLast?] at h
    cases hcs : splitLast? p cs with
    | some parts =>
      rw [hcs] at h
      cases h
      obtain ⟨s, hs, heq, hbehind⟩ := of_splitLast?_eq_some hcs
      exact ⟨s, hs, by rw [heq, List.cons_append], hbehind⟩
    | none =>
      rw [hcs] at h
      by_cases hc : p c = true
      · simp only [hc, if_true] at h
        cases h
        exact ⟨c, hc, rfl, of_splitLast?_eq_none hcs⟩
      · simp [hc] at h

theorem splitLast?_of_not_mem {p : Char → Bool} :
    ∀ {cs : List Char}, (∀ c ∈ cs, p c = false) → splitLast? p cs = none
  | [], _ => rfl
  | c :: cs, h => by
    have hcs := splitLast?_of_not_mem fun d hd => h d (List.mem_cons_of_mem c hd)
    simp only [splitLast?, hcs, h c List.mem_cons_self, Bool.false_eq_true, if_false]

theorem splitLast?_append_cons {p : Char → Bool} {s : Char} (hs : p s = true) {behind : List Char}
    (hbehind : ∀ c ∈ behind, p c = false) :
    ∀ before, splitLast? p (before ++ s :: behind) = some (before, behind)
  | [] => by simp only [List.nil_append, splitLast?, splitLast?_of_not_mem hbehind, hs, if_true]
  | c :: before => by
    simp only [List.cons_append, splitLast?, splitLast?_append_cons hs hbehind before]

/-- What a text is parted at stands in it. -/
theorem of_splitOnce?_eq_some {pattern : List Char} (hpattern : pattern ≠ []) :
    ∀ {cs before behind : List Char}, splitOnce? pattern cs = some (before, behind) →
      cs = before ++ (pattern ++ behind)
  | [], before, behind, h => by simp [splitOnce?, hpattern] at h
  | c :: cs, before, behind, h => by
    unfold splitOnce? at h
    split at h
    · rename_i hprefix
      cases h
      exact (List.prefix_iff_eq_append.mp (List.isPrefixOf_iff_prefix.mp hprefix)).symm
    · obtain ⟨⟨_, _⟩, hrest, heq⟩ := Option.map_eq_some_iff.mp h
      cases heq
      exact congrArg (c :: ·) (of_splitOnce?_eq_some hpattern hrest)

/-- Lower-casing goes from the front to the back. -/
theorem lowerFrom_append (cs ext before : List Char) :
    ∃ small before', lowerFrom before (cs ++ ext) = small ++ lowerFrom before' ext := by
  induction cs generalizing before with
  | nil => exact ⟨[], before, rfl⟩
  | cons c cs ih =>
    obtain ⟨small, before', h⟩ := ih (c :: before)
    rw [List.cons_append, lowerFrom, h, ← List.append_assoc]
    exact ⟨_, before', rfl⟩

theorem size_append (as bs : List Char) : size (as ++ bs) = size as + size bs := by
  induction as with
  | nil => simp [size]
  | cons a as ih =>
    simp only [List.cons_append, size, ih]
    omega

theorem dropBytes?_size (as bs : List Char) : dropBytes? (size as) (as ++ bs) = some bs := by
  induction as with
  | nil => cases bs <;> rfl
  | cons a as ih =>
    have hpos : 0 < a.utf8Size := a.utf8Size_pos
    obtain ⟨n, hn⟩ : ∃ n, size (a :: as) = n + 1 := ⟨size (a :: as) - 1, by
      simp only [size]
      omega⟩
    rw [hn, List.cons_append]
    unfold dropBytes?
    simp only [size] at hn
    rw [if_pos (by omega), show n + 1 - a.utf8Size = size as by omega, ih]

theorem takeBytes?_size (as bs : List Char) : takeBytes? (size as) (as ++ bs) = some as := by
  induction as with
  | nil => cases bs <;> rfl
  | cons a as ih =>
    have hpos : 0 < a.utf8Size := a.utf8Size_pos
    obtain ⟨n, hn⟩ : ∃ n, size (a :: as) = n + 1 := ⟨size (a :: as) - 1, by
      simp only [size]
      omega⟩
    rw [hn, List.cons_append]
    unfold takeBytes?
    simp only [size] at hn
    rw [if_pos (by omega), show n + 1 - a.utf8Size = size as by omega, ih]
    rfl

/-- A cut takes off as many bytes as were asked for. -/
theorem of_dropBytes? :
    ∀ {n : Nat} {cs bs : List Char}, dropBytes? n cs = some bs → ∃ as, cs = as ++ bs ∧ size as = n
  | 0, cs, bs, h => by
    unfold dropBytes? at h
    exact ⟨[], Option.some.inj h, rfl⟩
  | n + 1, [], bs, h => by
    unfold dropBytes? at h
    cases h
  | n + 1, c :: cs, bs, h => by
    unfold dropBytes? at h
    split at h
    · rename_i hsize
      obtain ⟨as, rfl, has⟩ := of_dropBytes? h
      refine ⟨c :: as, rfl, ?_⟩
      unfold size
      omega
    · cases h

end Text

/-! ## The normal form of a path -/

namespace Path

/-- A component that stays in a path. -/
def IsPart (part : Component) : Prop := part ≠ [] ∧ part ≠ ['.'] ∧ '/' ∉ part

private theorem isPart_push {absolute : Bool} {stack : List Component} {part : Component}
    (hstack : ∀ q ∈ stack, IsPart q) (hpart : '/' ∉ part) :
    ∀ q ∈ push absolute stack part, IsPart q := by
  have habove : IsPart above := by
    unfold IsPart above
    decide
  unfold push
  by_cases hempty : (part == [] || part == ['.']) = true
  · rw [if_pos hempty]
    exact hstack
  · rw [if_neg hempty]
    simp only [Bool.or_eq_true, beq_iff_eq, not_or] at hempty
    by_cases hab : (part == above) = true
    · rw [if_pos hab]
      cases stack with
      | nil =>
        cases absolute with
        | true => simp
        | false =>
          intro q hq
          simp only [Bool.false_eq_true, if_false, List.mem_singleton] at hq
          rw [hq]
          exact habove
      | cons last rest =>
        simp only
        split
        · intro q hq
          rcases List.mem_cons.mp hq with rfl | hmem
          · exact habove
          · exact hstack q hmem
        · exact fun q hq => hstack q (List.mem_cons_of_mem _ hq)
    · rw [if_neg hab]
      intro q hq
      rcases List.mem_cons.mp hq with rfl | hmem
      · exact ⟨hempty.1, hempty.2, hpart⟩
      · exact hstack q hmem

theorem isPart_components (absolute : Bool) (p : List Char) :
    ∀ part ∈ components absolute p, IsPart part := by
  have hfold : ∀ (parts stack : List Component), (∀ q ∈ parts, '/' ∉ q) →
      (∀ q ∈ stack, IsPart q) → ∀ q ∈ parts.foldl (push absolute) stack, IsPart q := by
    intro parts
    induction parts with
    | nil => exact fun stack _ hstack => hstack
    | cons part parts ih =>
      intro stack hparts hstack
      exact ih _ (fun q hq => hparts q (List.mem_cons_of_mem _ hq))
        (isPart_push hstack (hparts part List.mem_cons_self))
  intro part hpart
  unfold components at hpart
  refine hfold _ [] ?_ (by simp) part (List.mem_reverse.mp hpart)
  intro q hq hslash
  have h := not_mem_splitWhere (· == '/') p q hq '/' hslash
  simp at h

private theorem ofList_ne {chars : List Char} {s : String} (h : chars ≠ s.toList) :
    String.ofList chars ≠ s := fun heq => h (by
  have h' := congrArg String.toList heq
  simpa using h')

/-- The disk drops none of the components of a path in normal form. -/
private theorem filter_parts {parts : List Component} (hparts : ∀ part ∈ parts, IsPart part) :
    (parts.map String.ofList).filter (fun p => p != "" && p != ".") = parts.map String.ofList := by
  rw [List.filter_eq_self]
  intro q hq
  obtain ⟨part, hpart, rfl⟩ := List.mem_map.mp hq
  obtain ⟨hne, hdot, -⟩ := hparts part hpart
  have h₁ : String.ofList part ≠ "" := ofList_ne hne
  have h₂ : String.ofList part ≠ "." := ofList_ne hdot
  simp [h₁, h₂]

/-- Cut at its slashes, a joined path gives its components again; without any it is one empty piece. -/
theorem splitWhere_joined {parts : List Component} (hparts : ∀ part ∈ parts, IsPart part) :
    splitWhere (· == '/') (List.intercalate ['/'] parts) = if parts = [] then [[]] else parts := by
  by_cases h : parts = []
  · rw [if_pos h, h]
    rfl
  · rw [if_neg h]
    refine splitWhere_intercalate (by simp) h fun piece hpiece c hc => ?_
    have hslash := (hparts piece hpiece).2.2
    by_contra hne
    simp only [Bool.not_eq_false, beq_iff_eq] at hne
    rw [hne] at hc
    exact hslash hc

/-- A joined path begins with no slash. -/
theorem head?_joined {parts : List Component} (hparts : ∀ part ∈ parts, IsPart part) :
    ((List.intercalate ['/'] parts).head? == some '/') = false := by
  cases parts with
  | nil => rfl
  | cons part parts =>
    obtain ⟨hne, -, hnot⟩ := hparts part List.mem_cons_self
    obtain ⟨c, cs, rfl⟩ := List.exists_cons_of_ne_nil hne
    have hc : c ≠ '/' := fun h => hnot (by simp [h])
    cases parts with
    | nil => simpa [List.intercalate_singleton] using hc
    | cons q qs => simpa [List.intercalate_cons_cons] using hc

/-- What the disk makes of a path in normal form. -/
private theorem ofString_joined (absolute : Bool) {parts : List Component}
    (hparts : ∀ part ∈ parts, IsPart part) :
    DiskPath.ofString (String.ofList (if absolute then '/' :: List.intercalate ['/'] parts
      else List.intercalate ['/'] parts)) = ⟨absolute, parts.map String.ofList⟩ := by
  have hfilter : ((splitWhere (· == '/') (List.intercalate ['/'] parts)).map String.ofList).filter
      (fun p => p != "" && p != ".") = parts.map String.ofList := by
    rw [splitWhere_joined hparts]
    by_cases h : parts = []
    · rw [if_pos h, h]
      rfl
    · rw [if_neg h]
      exact filter_parts hparts
  cases absolute with
  | true =>
    unfold DiskPath.ofString
    simp only [if_true, String.toList_ofList, List.head?_cons, splitWhere, beq_self_eq_true,
      List.map_cons, Bool.not_true, Bool.false_and, Bool.false_eq_true, if_false]
    rw [List.filter_cons_of_neg (by decide), hfilter]
  | false =>
    have hdot : (((splitWhere (· == '/') (List.intercalate ['/'] parts)).map String.ofList).head?
        == some ".") = false := by
      rw [splitWhere_joined hparts]
      cases parts with
      | nil => rfl
      | cons part parts =>
        obtain ⟨-, hne, -⟩ := hparts part List.mem_cons_self
        have h : String.ofList part ≠ "." := ofList_ne hne
        simpa using h
    unfold DiskPath.ofString
    simp only [Bool.false_eq_true, if_false, String.toList_ofList, head?_joined hparts, hdot,
      Bool.not_false, Bool.and_false]
    rw [hfilter]

/-- The disk tells paths in normal form apart. -/
theorem ofString_normalize_injective {a b : String}
    (h : DiskPath.ofString (normalize a) = DiskPath.ofString (normalize b)) :
    normalize a = normalize b := by
  unfold normalize normalizeChars at h ⊢
  simp only at h ⊢
  rw [ofString_joined _ (isPart_components _ _), ofString_joined _ (isPart_components _ _),
    DiskPath.mk.injEq] at h
  obtain ⟨habs, hparts⟩ := h
  rw [habs] at hparts ⊢
  have hinj : Function.Injective String.ofList := fun x y hxy => by
    have h' := congrArg String.toList hxy
    simpa using h'
  rw [List.map_injective_iff.mpr hinj hparts]

/-! ## The ends of names -/

private theorem suffix_intercalate (last : Component) :
    ∀ parts : List Component, last <:+ List.intercalate ['/'] (parts ++ [last])
  | [] => by
    simp only [List.nil_append, List.intercalate_singleton]
    exact List.suffix_refl last
  | [part] => by
    rw [List.singleton_append, List.intercalate_cons_cons, List.intercalate_singleton]
    exact List.suffix_append _ _
  | part :: next :: parts => by
    rw [List.cons_append, List.cons_append, List.intercalate_cons_cons]
    exact (suffix_intercalate last (next :: parts)).trans (List.suffix_append _ _)

/-- A path keeps its extension in normal form. -/
theorem suffix_normalizeChars {ext : List Char} (hlong : 3 ≤ ext.length)
    (hslash : ∀ c ∈ ext, c ≠ '/' ∧ c ≠ '\\') (p : List Char) :
    ext <:+ normalizeChars (p ++ ext) := by
  have hslashed : slashed (p ++ ext) = slashed p ++ ext := by
    unfold slashed
    rw [List.map_append, List.append_cancel_left_eq]
    conv_rhs => rw [← List.map_id ext]
    refine List.map_congr_left fun c hc => ?_
    have h := (hslash c hc).2
    simp [h]
  obtain ⟨pieces, last, hends⟩ := splitWhere_append_of_not_mem (· == '/') (slashed p)
  have hsplit := hends ext fun c hc => by simpa using (hslash c hc).1
  have hcomponents : ∀ absolute, ∃ parts,
      components absolute (slashed (p ++ ext)) = parts ++ [last ++ ext] := by
    intro absolute
    have hpush : ∀ stack, push absolute stack (last ++ ext) = (last ++ ext) :: stack := by
      intro stack
      have hlen : 3 ≤ (last ++ ext).length := by
        rw [List.length_append]
        omega
      have h₁ : last ++ ext ≠ [] := fun h => by rw [h] at hlen; simp at hlen
      have h₂ : last ++ ext ≠ ['.'] := fun h => by rw [h] at hlen; simp at hlen
      have h₃ : last ++ ext ≠ above := fun h => by rw [h] at hlen; simp [above] at hlen
      unfold push
      rw [if_neg (by simp only [Bool.or_eq_true, beq_iff_eq, not_or]; exact ⟨h₁, h₂⟩),
        if_neg (by simpa using h₃)]
    unfold components
    rw [hslashed, hsplit, List.foldl_append]
    simp only [List.foldl_cons, List.foldl_nil]
    rw [hpush, List.reverse_cons]
    exact ⟨_, rfl⟩
  unfold normalizeChars
  simp only
  obtain ⟨parts, hparts⟩ := hcomponents ((slashed (p ++ ext)).head? == some '/')
  rw [hparts]
  have hjoined : ext <:+ List.intercalate ['/'] (parts ++ [last ++ ext]) :=
    (List.suffix_append last ext).trans (suffix_intercalate (last ++ ext) parts)
  split
  · exact hjoined.trans (List.suffix_cons _ _)
  · exact hjoined

/-- A source file, as an import finds it. -/
def IsSourceName (file : String) : Prop :=
  ∃ base, file = base ++ ".ts" ∨ file = base ++ ".tsx" ∨ file = base ++ ".d.ts"

/-- A script, as an import finds it. -/
def IsScriptName (file : String) : Prop := ∃ base, file = base ++ ".js"

private theorem suffix_lower {ext : List Char} (hext : ∀ before, lowerFrom before ext = ext)
    {s : String} (h : ext <:+ s.toList) : ext <:+ (Text.lower s).toList := by
  obtain ⟨p, hp⟩ := h
  obtain ⟨small, before, hlower⟩ := lowerFrom_append p ext []
  unfold Text.lower
  rw [String.toList_ofList, ← hp, hlower, hext]
  exact List.suffix_append _ _

private theorem suffix_keyOf {ext : List Char} (hlong : 3 ≤ ext.length)
    (hslash : ∀ c ∈ ext, c ≠ '/' ∧ c ≠ '\\') (hext : ∀ before, lowerFrom before ext = ext)
    (dir : String) {name : String} (h : ext <:+ name.toList) :
    ext <:+ (Cache.keyOf dir name).toList := by
  have hnormal : ∀ q : String, ext <:+ q.toList → ext <:+ (normalize q).toList := by
    rintro q ⟨p, hp⟩
    unfold normalize
    rw [String.toList_ofList, ← hp]
    exact suffix_normalizeChars hlong hslash p
  have hcanonical : ext <:+ (Cache.canonicalName dir name).toList := by
    unfold Cache.canonicalName join
    split
    · exact hnormal _ h
    · split
      · exact hnormal _ h
      · refine hnormal _ ?_
        rw [String.toList_append]
        exact h.trans (List.suffix_append _ _)
  exact suffix_lower hext hcanonical

private theorem not_both_suffixes {a b cs : List Char} (hlen : a.length = b.length) (hne : a ≠ b)
    (ha : a <:+ cs) : ¬ b <:+ cs := by
  intro hb
  have h : a <:+ b := List.suffix_of_suffix_length_le ha hb (Nat.le_of_eq hlen)
  exact hne (h.eq_of_length hlen)

/-- No source file has the key of a script. -/
theorem keyOf_ne_of_isSourceName {dir file script : String} (hfile : IsSourceName file)
    (hscript : IsScriptName script) : Cache.keyOf dir file ≠ Cache.keyOf dir script := by
  intro heq
  have hjs : ['.', 'j', 's'] <:+ (Cache.keyOf dir script).toList := by
    obtain ⟨base, rfl⟩ := hscript
    refine suffix_keyOf (by decide) (by simp) (fun _ => rfl) dir ?_
    rw [String.toList_append]
    exact List.suffix_append _ _
  rw [← heq] at hjs
  obtain ⟨base, h⟩ := hfile
  have hts : ∀ stem, file = stem ++ ".ts" → False := by
    rintro stem rfl
    have h : ['.', 't', 's'] <:+ (Cache.keyOf dir (stem ++ ".ts")).toList := by
      refine suffix_keyOf (by decide) (by simp) (fun _ => rfl) dir ?_
      rw [String.toList_append]
      exact List.suffix_append _ _
    exact not_both_suffixes (by decide) (by decide) hjs h
  rcases h with h | h | h
  · exact hts base h
  · subst h
    have h : ['t', 's', 'x'] <:+ (Cache.keyOf dir (base ++ ".tsx")).toList := by
      refine suffix_keyOf (by decide) (by simp) (fun _ => rfl) dir ?_
      rw [String.toList_append]
      exact ((by decide : ['t', 's', 'x'] <:+ ".tsx".toList)).trans (List.suffix_append _ _)
    exact not_both_suffixes (by decide) (by decide) hjs h
  · refine hts (base ++ ".d") ?_
    rw [h, String.append_assoc]
    rfl

private theorem isJs_append (base : String) (more last : List Char) (hlast : size last = 3) :
    isJs (base ++ String.ofList (more ++ last))
      = .ok (eqIgnoringAsciiCase last ".js".toList) := by
  have hwanted : size ".js".toList = 3 := by decide
  have htotal : (base ++ String.ofList (more ++ last)).toList = (base.toList ++ more) ++ last := by
    rw [String.toList_append, String.toList_ofList, List.append_assoc]
  unfold isJs hasExtension
  simp only [hwanted, htotal]
  have hsize : size ((base.toList ++ more) ++ last) = size (base.toList ++ more) + 3 := by
    rw [size_append, hlast]
  rw [if_pos (by omega), hsize, Nat.add_sub_cancel, dropBytes?_size]
  rfl

theorem isJs_of_isScriptName {file : String} (h : IsScriptName file) : isJs file = .ok true := by
  obtain ⟨base, rfl⟩ := h
  exact isJs_append base [] ['.', 'j', 's'] (by decide)

theorem isJs_of_isSourceName {file : String} (h : IsSourceName file) : isJs file = .ok false := by
  obtain ⟨base, h | h | h⟩ := h
  · rw [h]
    exact isJs_append base [] ['.', 't', 's'] (by decide)
  · rw [h]
    exact isJs_append base ['.'] ['t', 's', 'x'] (by decide)
  · rw [h]
    exact isJs_append base ['.', 'd'] ['.', 't', 's'] (by decide)

end Path

end Bundler
