/-
Paths that lead into a directory and not out of it.

A path is inner if it is relative, is written with forward slashes, and has no double dot left in normal
form (`Path.Inner`). A build makes names of files from names of files by changing how they end, and what
is inner stays inner then (`Path.Inner.with_end`): the script of a source file, the map and the
declarations beside it. The names that a build makes up have no slash, and they are inner
(`Path.inner_of_own`).

The disk follows a path name by name and does not bring it into normal form before. It comes to the same:
a file that is written to an inner path is put into the output directory (`Destination.put_of_inner`), so
what is elsewhere stays as it is (`Destination.Fills.outside`).
-/
import Bundler.Proofs.Names
import Bundler.Proofs.OutputNames
import Bundler.Proofs.Step

set_option autoImplicit false

namespace Bundler

open Text Step

/-! ## Small letters -/

namespace Text

/-- No small letter that stands for another one is among the separators or before them. -/
private theorem lowerRuns_above : ∀ r ∈ lowerRuns, 92 < Int.ofNat r.1 + r.2.2.2 := by
  decide +kernel

private theorem lt_lowerCode {n : Nat} (h : 128 ≤ n) : 92 < lowerCode n := by
  unfold lowerCode
  split
  · rename_i r hr
    have hmem := lowerRuns_above r (List.mem_of_find?_eq_some hr)
    have hstart := List.find?_some hr
    simp only [Bool.and_eq_true, decide_eq_true_eq] at hstart
    simp only [Int.ofNat_eq_natCast] at hmem ⊢
    omega
  · omega

private theorem toNat_of_ofNat {n : Nat} {c : Char} (h : c = Char.ofNat n) (hc : 0 < c.toNat) :
    c.toNat = n := by
  by_cases hvalid : n.isValidChar
  · have hchar : Char.ofNat n = Char.ofNatAux n hvalid := dif_pos hvalid
    rw [h, hchar]
    rfl
  · -- a number that is no character stands for the zero character
    have hzero : Char.ofNat n = Char.ofNat 0 := dif_neg hvalid
    rw [h, hzero] at hc
    exact absurd hc (by decide)

/-- A slash of either kind. -/
def IsSlash (c : Char) : Prop := c = '/' ∨ c = '\\'

/-- Only a slash becomes a slash when letters are made small. -/
private theorem eq_of_mem_lowerChar {c d : Char} (hd : IsSlash d) (h : d ∈ lowerChar c) : c = d := by
  unfold lowerChar at h
  split at h
  · rename_i hascii
    obtain rfl := List.mem_singleton.mp h
    have hall : ∀ n : Fin 128, (Char.ofNat n).toLower = '/' ∨ (Char.ofNat n).toLower = '\\' →
        Char.ofNat n = (Char.ofNat n).toLower := by decide +kernel
    have hc := hall ⟨c.toNat, hascii⟩
    simp only [Char.ofNat_toNat] at hc
    exact hc hd
  · rename_i hlarge
    split at h
    · rcases hd with rfl | rfl
      · exact absurd h (by decide)
      · exact absurd h (by decide)
    · have hcode := lt_lowerCode (Nat.le_of_not_lt hlarge)
      have heq := List.mem_singleton.mp h
      rcases hd with rfl | rfl
      · have hslash : '/'.toNat = lowerCode c.toNat := toNat_of_ofNat heq (by decide)
        rw [← hslash] at hcode
        exact absurd hcode (by decide)
      · have hback : '\\'.toNat = lowerCode c.toNat := toNat_of_ofNat heq (by decide)
        rw [← hback] at hcode
        exact absurd hcode (by decide)

theorem mem_of_mem_lowerFrom {d : Char} (hd : IsSlash d) :
    ∀ {cs before : List Char}, d ∈ lowerFrom before cs → d ∈ cs
  | [], _, h => absurd h List.not_mem_nil
  | c :: cs, before, h => by
    unfold lowerFrom at h
    rcases List.mem_append.mp h with hsmall | hrest
    · split at hsmall
      · -- the small letters of a sigma are none
        exfalso
        rcases hd with rfl | rfl
        · split at hsmall <;> exact absurd hsmall (by decide)
        · split at hsmall <;> exact absurd hsmall (by decide)
      · rw [eq_of_mem_lowerChar hd hsmall]
        exact List.mem_cons_self
    · exact List.mem_cons_of_mem c (mem_of_mem_lowerFrom hd hrest)

/-- Making letters small makes no slashes. -/
theorem mem_of_mem_lower {d : Char} (hd : IsSlash d) {s : String} (h : d ∈ (lower s).toList) :
    d ∈ s.toList := by
  unfold lower at h
  rw [String.toList_ofList] at h
  exact mem_of_mem_lowerFrom hd h

end Text

namespace Path

/-- A path that leads into the directory that it is read in: no double dot is left of it when it is
brought into normal form. -/
structure Inner (p : String) : Prop where
  relative : isAbsolute p = false
  forward : '\\' ∉ p.toList
  inside : above ∉ components false p.toList

variable {p q ext : String} {stack : List Component} {part : Component}

/-! ## The stack of components -/

/-- A double dot that is on the stack is never taken off. -/
theorem above_mem_push (h : above ∈ stack) (part : Component) : above ∈ push false stack part := by
  unfold push
  split
  · exact h
  · split
    · cases stack with
      | nil => exact absurd h List.not_mem_nil
      | cons last rest =>
        simp only
        split
        · exact List.mem_cons_self
        · rename_i hlast
          rcases List.mem_cons.mp h with habove | hrest
          · exact absurd (beq_iff_eq.mpr habove.symm) hlast
          · exact hrest
    · exact List.mem_cons_of_mem _ h

theorem above_mem_foldl_push (h : above ∈ stack) (parts : List Component) :
    above ∈ parts.foldl (push false) stack := by
  induction parts generalizing stack with
  | nil => exact h
  | cons part parts ih => exact ih (above_mem_push h part)

/-- Another component puts no double dot on the stack. -/
theorem above_not_mem_push (h : above ∉ stack) (hpart : part ≠ above) :
    above ∉ push false stack part := by
  unfold push
  split
  · exact h
  · rw [if_neg (by simpa using hpart)]
    intro hmem
    rcases List.mem_cons.mp hmem with habove | hrest
    · exact hpart habove.symm
    · exact h hrest

theorem mem_components {absolute : Bool} {cs : List Char} :
    part ∈ components absolute cs ↔ part ∈ (splitWhere (· == '/') cs).foldl (push absolute) [] := by
  unfold components
  exact List.mem_reverse

/-! ## Other ends -/

/-- A path stays inner when it ends otherwise, in a point and at least two more characters. -/
theorem Inner.with_end (h : Inner p) {base old : List Char} (new : List Char)
    (hp : p.toList = base ++ old) (hq : q.toList = base ++ '.' :: new) (hold : '/' ∉ old)
    (hslash : '/' ∉ new) (hback : '\\' ∉ new) (hlong : 2 ≤ new.length) : Inner q where
  relative := by
    have habsolute := h.relative
    unfold isAbsolute at habsolute ⊢
    rw [hp] at habsolute
    rw [hq]
    -- only the first two characters count, and a point is neither a slash nor a letter
    match base with
    | [] => rfl
    | [c] =>
      simp only [List.cons_append, List.nil_append, Bool.or_eq_false_iff] at habsolute ⊢
      exact ⟨habsolute.1, by simp⟩
    | c :: d :: base => simpa using habsolute
  forward := by
    have hforward := h.forward
    rw [hp] at hforward
    rw [hq]
    simp only [List.mem_append, List.mem_cons, not_or] at hforward ⊢
    exact ⟨hforward.1, by decide, hback⟩
  inside := by
    -- the pieces but for the last one are the same, and a double dot among them stays on the stack
    obtain ⟨pieces, last, hsplit⟩ := splitWhere_append_of_not_mem (· == '/') base
    have hinside := mt mem_components.mpr h.inside
    rw [hp, hsplit old fun c hc => beq_false_of_ne fun heq => hold (heq ▸ hc), List.foldl_append] at hinside
    have hpieces : above ∉ pieces.foldl (push false) [] := fun hmem =>
      hinside (above_mem_push hmem _)
    rw [mem_components, hq, hsplit ('.' :: new) ?_, List.foldl_append]
    · -- the last piece has a point with two characters behind it, so it is longer than a double dot
      refine above_not_mem_push hpieces fun heq => ?_
      have hlength := congrArg List.length heq
      simp only [List.length_append, List.length_cons, above, List.length_nil] at hlength
      omega
    · intro c hc
      rcases List.mem_cons.mp hc with rfl | hmem
      · rfl
      · exact beq_false_of_ne fun heq => hslash (heq ▸ hmem)

/-- The path of the map beside a file. -/
theorem Inner.map (h : Inner p) : Inner (p ++ ".map") :=
  h.with_end "map".toList (List.append_nil p.toList).symm
    (by rw [String.toList_append]; rfl) List.not_mem_nil (by decide) (by decide) (by decide)

/-- A text comes apart where it is cut. -/
private theorem append_of_cut :
    ∀ {n : Nat} {cs as bs : List Char}, takeBytes? n cs = some as → dropBytes? n cs = some bs →
      as ++ bs = cs
  | 0, cs, as, bs, htake, hdrop => by
    unfold takeBytes? at htake
    unfold dropBytes? at hdrop
    cases htake
    cases hdrop
    rfl
  | n + 1, [], as, bs, htake, _ => by
    unfold takeBytes? at htake
    exact absurd htake (by simp)
  | n + 1, c :: cs, as, bs, htake, hdrop => by
    unfold takeBytes? at htake
    unfold dropBytes? at hdrop
    split at htake
    · rename_i hsize
      rw [if_pos hsize] at hdrop
      obtain ⟨as', htake', rfl⟩ := Option.map_eq_some_iff.mp htake
      rw [List.cons_append, append_of_cut htake' hdrop]
    · exact absurd htake (by simp)

/-- What an extension is dropped from a path for has no slash. -/
private theorem append_of_hasExtension (hext : hasExtension p ext = .ok true)
    (hdrop : dropLastBytes p (size ext.toList) = .ok q) (hslash : '/' ∉ ext.toList.map Char.toLower) :
    ∃ old, p.toList = q.toList ++ old ∧ '/' ∉ old := by
  unfold hasExtension at hext
  unfold dropLastBytes at hdrop
  simp only at hext
  split at hext
  · cases htail : dropBytes? (size p.toList - size ext.toList) p.toList with
    | none =>
      rw [htail] at hext
      cases hext
    | some old =>
      rw [htail] at hext
      cases hkept : takeBytes? (size p.toList - size ext.toList) p.toList with
      | none =>
        simp only [hkept] at hdrop
        cases hdrop
      | some kept =>
        simp only [hkept] at hdrop
        cases hdrop
        refine ⟨old, ?_, fun hmem => hslash ?_⟩
        · rw [String.toList_ofList, append_of_cut hkept htail]
        · have hequal : eqIgnoringAsciiCase old ext.toList = true := Except.ok.inj hext
          rw [← beq_iff_eq.mp hequal]
          exact List.mem_map.mpr ⟨'/', hmem, by decide⟩
  · cases hext

private theorem hasExtension_of_isSource (h : isSource p ext = .ok true) :
    hasExtension p ext = .ok true := by
  unfold isSource at h
  obtain ⟨seen, hseen, h⟩ := (except_bind_ok_iff _ _ _).mp h
  cases seen with
  | true => exact hseen
  | false => exact absurd h (by simp [pure, Except.pure])

/-- The path of the script that is made from a source file. -/
theorem Inner.withJsExtension (h : Inner p) (hjs : Path.withJsExtension p = .ok q) : Inner q := by
  have hmade : ∀ (ext kept : String) (n : Nat), size ext.toList = n →
      '/' ∉ ext.toList.map Char.toLower → isSource p ext = .ok true → dropLastBytes p n = .ok kept →
      Inner (kept ++ ".js") := by
    rintro ext kept _ rfl hslash hsource hdrop
    obtain ⟨old, hp, hold⟩ := append_of_hasExtension (hasExtension_of_isSource hsource) hdrop hslash
    exact h.with_end "js".toList hp (by rw [String.toList_append]; rfl) hold (by decide)
      (by decide) (by decide)
  unfold Path.withJsExtension at hjs
  obtain ⟨tsx, htsx, hjs⟩ := (except_bind_ok_iff _ _ _).mp hjs
  cases tsx with
  | true =>
    obtain ⟨kept, hkept, hjs⟩ := (except_bind_ok_iff _ _ _).mp hjs
    cases hjs
    exact hmade ".tsx" kept 4 (by decide) (by decide) htsx hkept
  | false =>
    obtain ⟨ts, hts, hjs⟩ := (except_bind_ok_iff _ _ _).mp hjs
    cases ts with
    | true =>
      obtain ⟨kept, hkept, hjs⟩ := (except_bind_ok_iff _ _ _).mp hjs
      cases hjs
      exact hmade ".ts" kept 3 (by decide) (by decide) hts hkept
    | false =>
      cases hjs
      exact h

/-- What is left out with the extension has no slash. -/
private theorem append_of_stripExtension (p : String) :
    ∃ old, p.toList = (stripExtension p).toList ++ old ∧ '/' ∉ old := by
  obtain ⟨directory, name, hp, hslash, hstrip⟩ : ∃ directory name, p.toList = directory ++ name ∧
      '/' ∉ name ∧ (stripExtension p = p ∨ ∃ stem dot behind, name = stem ++ dot :: behind ∧
        stripExtension p = String.ofList (directory ++ stem)) := by
    have hname : ∀ {name : List Char}, (∀ c ∈ name, (c == '/') = false) → '/' ∉ name :=
      fun hname hmem => absurd (hname '/' hmem) (by decide)
    unfold stripExtension
    cases hsplit : splitLast? (· == '/') p.toList with
    | none =>
      refine ⟨[], p.toList, rfl, hname (of_splitLast?_eq_none hsplit), ?_⟩
      simp only
      split
      · rename_i c stem behind hdot
        obtain ⟨dot, -, hcut, -⟩ := of_splitLast?_eq_some hdot
        exact .inr ⟨c :: stem, dot, behind, hcut, rfl⟩
      · exact .inl rfl
    | some parts =>
      obtain ⟨slash, hslash, hcut, hbehind⟩ := of_splitLast?_eq_some hsplit
      obtain rfl := beq_iff_eq.mp hslash
      refine ⟨parts.1 ++ ['/'], parts.2, by rw [hcut, List.append_assoc]; rfl, hname hbehind, ?_⟩
      simp only
      split
      · rename_i c stem behind hdot
        obtain ⟨dot, -, hcut, -⟩ := of_splitLast?_eq_some hdot
        exact .inr ⟨c :: stem, dot, behind, hcut, rfl⟩
      · exact .inl rfl
  rcases hstrip with heq | ⟨stem, dot, behind, hcut, heq⟩
  · rw [heq]
    exact ⟨[], (List.append_nil _).symm, List.not_mem_nil⟩
  · refine ⟨dot :: behind, ?_, fun hmem => hslash ?_⟩
    · rw [heq, String.toList_ofList, hp, hcut, List.append_assoc]
    · rw [hcut]
      exact List.mem_append_right _ hmem

/-- The path of the declarations beside a file. -/
theorem Inner.declaration (h : Inner p) : Inner (stripExtension p ++ ".d.ts") := by
  obtain ⟨old, hp, hold⟩ := append_of_stripExtension p
  exact h.with_end "d.ts".toList hp (by rw [String.toList_append]; rfl) hold (by decide)
    (by decide) (by decide)

/-! ## Names that are made up -/

/-- A name without slashes is inner, unless it is the double dot or starts with the name of a drive. -/
theorem inner_of_no_slash (hslash : ∀ c ∈ p.toList, ¬IsSlash c) (habove : p.toList ≠ above)
    (hdrive : p.toList[1]? ≠ some ':') : Inner p where
  relative := by
    unfold isAbsolute
    split
    · rfl
    · rename_i c rest hp
      rw [hp] at hslash hdrive
      have hc : ¬IsSlash c := hslash c List.mem_cons_self
      simp only [IsSlash, not_or] at hc
      have hrest : rest.head? ≠ some ':' := by
        rw [List.head?_eq_getElem?]
        exact hdrive
      simp [hc.1, hc.2, hrest]
  forward hmem := hslash _ hmem (.inr rfl)
  inside := by
    rw [mem_components, splitWhere_of_not_mem fun c hc => beq_false_of_ne fun heq => hslash c hc (.inl heq)]
    exact above_not_mem_push List.not_mem_nil habove

/-- A short name is written in letters. -/
theorem isLetter_of_mem_word {n : Nat} {c : Char} (h : c ∈ word n) :
    ∃ k, k < 26 ∧ c = letter k := by
  induction n using word.induct with
  | case1 n hn =>
    unfold word at h
    rw [if_pos hn] at h
    exact ⟨n, hn, List.mem_singleton.mp h⟩
  | case2 n hn ih =>
    unfold word at h
    rw [if_neg hn] at h
    rcases List.mem_append.mp h with hfront | hlast
    · exact ih hfront
    · exact ⟨n % 26, Nat.mod_lt _ (by decide), List.mem_singleton.mp hlast⟩

theorem word_ne_nil (n : Nat) : word n ≠ [] := by
  unfold word
  split <;> simp

/-- No letter of a short name is a sign of a path. -/
theorem letter_ne {k : Nat} (h : k < 26) : letter k ∉ ['/', '\\', '.', ':'] := by
  unfold letter
  decide +revert

/-- An extension in small letters is empty, or a point with what follows it, and has no slash. -/
theorem lower_extension (name : String) :
    ((lower (extension name)).toList = [] ∨ ∃ more, (lower (extension name)).toList = '.' :: more) ∧
      ∀ c ∈ (lower (extension name)).toList, ¬IsSlash c := by
  have hfile : ∀ c ∈ fileNameChars name.toList, ¬IsSlash c := by
    have hnone : ∀ {c : Char}, (c == '/' || c == '\\') = false → ¬IsSlash c := by
      intro c hc
      simpa [IsSlash] using hc
    unfold fileNameChars
    split
    · rename_i before file hsplit
      obtain ⟨-, -, -, hbehind⟩ := of_splitLast?_eq_some hsplit
      exact fun c hc => hnone (hbehind c hc)
    · rename_i hsplit
      exact fun c hc => hnone (of_splitLast?_eq_none hsplit c hc)
  have hext : extension name = "" ∨ ∃ ext, extension name = String.ofList ('.' :: ext) ∧
      ∀ c ∈ ext, ¬IsSlash c := by
    unfold extension
    split
    · rename_i ext hsplit
      obtain ⟨dot, -, hcut, -⟩ := of_splitLast?_eq_some hsplit
      refine .inr ⟨ext, rfl, fun c hc => hfile c ?_⟩
      rw [hcut]
      exact List.mem_append_right _ (List.mem_cons_of_mem dot hc)
    · exact .inl rfl
  rcases hext with hnone | ⟨ext, hsome, hslash⟩
  · rw [hnone]
    exact ⟨.inl rfl, fun c hc => absurd hc List.not_mem_nil⟩
  · rw [hsome]
    refine ⟨.inr ⟨lowerFrom ['.'] ext, ?_⟩, fun c hc hcs => ?_⟩
    · unfold lower
      rw [String.toList_ofList, String.toList_ofList]
      rfl
    · have hmem := mem_of_mem_lower hcs hc
      rw [String.toList_ofList] at hmem
      rcases List.mem_cons.mp hmem with rfl | hmem
      · rcases hcs with hdot | hdot
        · exact absurd hdot (by decide)
        · exact absurd hdot (by decide)
      · exact hslash c hmem hcs

/-- A name that a build makes up leads nowhere else. -/
theorem inner_of_own (h : ShortNames.Own p) : Inner p := by
  rcases h with hreserved | ⟨n, name, rfl⟩
  · have hall : ∀ name ∈ ShortNames.reserved, isAbsolute name = false ∧ '\\' ∉ name.toList ∧
        above ∉ components false name.toList := by decide
    obtain ⟨hrelative, hforward, hinside⟩ := hall p hreserved
    exact ⟨hrelative, hforward, hinside⟩
  · obtain ⟨hdot, hslash⟩ := lower_extension name
    have hlist : (ShortNames.candidate n (lower (extension name))).toList
        = word n ++ (lower (extension name)).toList := by
      unfold ShortNames.candidate
      rw [String.toList_append, String.toList_ofList]
    have hletter : ∀ c ∈ word n, c ∉ ['/', '\\', '.', ':'] := by
      intro c hc
      obtain ⟨k, hk, rfl⟩ := isLetter_of_mem_word hc
      exact letter_ne hk
    apply inner_of_no_slash
    · intro c hc
      rw [hlist] at hc
      rcases List.mem_append.mp hc with hword | hext
      · have hc := hletter c hword
        simp only [List.mem_cons, not_or] at hc
        exact fun h => h.elim hc.1 hc.2.1
      · exact hslash c hext
    · intro habove
      obtain ⟨c, cs, hword⟩ := List.exists_cons_of_ne_nil (word_ne_nil n)
      rw [hlist, hword] at habove
      have hc := hletter c (by rw [hword]; exact List.mem_cons_self)
      rw [(List.cons.inj habove).1] at hc
      exact hc (by decide)
    · intro hdrive
      obtain ⟨c, cs, hword⟩ := List.exists_cons_of_ne_nil (word_ne_nil n)
      rw [hlist, hword] at hdrive
      cases cs with
      | nil =>
        rcases hdot with hnone | ⟨more, hmore⟩
        · rw [hnone] at hdrive
          exact absurd hdrive (by simp)
        · rw [hmore] at hdrive
          exact absurd hdrive (by simp)
      | cons d cs =>
        have hd := hletter d (by rw [hword]; simp)
        rw [Option.some.inj hdrive] at hd
        exact hd (by decide)

end Path

/-! ## On the disk -/

namespace Disk

/-- Where names lead does not depend on what is on the disk. -/
theorem follow_ok {d : Disk} {here : Place} {make : Bool} :
    ∀ {names : List String} {place place' : Place}, d.follow here make place names = .ok place' →
      place' = names.foldl next place
  | [], place, place', h => by
    cases h
    rfl
  | [name], place, place', h => by
    unfold follow at h
    obtain ⟨_, -, h⟩ := (except_bind_ok_iff _ _ _).mp h
    cases h
    rfl
  | name :: second :: names, place, place', h => by
    unfold follow at h
    obtain ⟨_, -, h⟩ := (except_bind_ok_iff _ _ _).mp h
    obtain ⟨_, -, h⟩ := (except_bind_ok_iff _ _ _).mp h
    have hrest := follow_ok h
    exact hrest

/-- A name leads where its component does, unless that leads out. -/
private theorem next_of_push (root : Place) {stack : List Path.Component} {part : Path.Component}
    (hstack : Path.above ∉ stack) (hpart : Path.above ∉ Path.push false stack part) :
    next (root ++ stack.reverse.map String.ofList) (String.ofList part)
      = root ++ (Path.push false stack part).reverse.map String.ofList := by
  have hname : ∀ s : String, (String.ofList part == s) = (part == s.toList) := fun s => by
    rw [Bool.eq_iff_iff, beq_iff_eq, beq_iff_eq, ← String.toList_inj, String.toList_ofList]
  unfold next
  unfold Path.push at hpart ⊢
  rw [hname, hname, hname]
  -- both functions look at the same three names
  change (if (part == [] || part == ['.']) = true then _ else if (part == Path.above) = true then _ else _) = _
  split
  · rfl
  · rename_i hstay
    rw [if_neg hstay] at hpart
    split
    · rename_i habove
      rw [if_pos habove] at hpart
      cases stack with
      | nil => exact absurd List.mem_cons_self hpart
      | cons last rest =>
        -- what is on the stack leads down, so it is taken off
        have hlast : ¬(last == Path.above) = true := fun heq =>
          hstack (beq_iff_eq.mp heq ▸ List.mem_cons_self)
        simp only [if_neg hlast, List.reverse_cons, List.map_append, List.map_cons, List.map_nil,
          ← List.append_assoc, List.dropLast_concat]
    · rw [List.reverse_cons, List.map_append, ← List.append_assoc]
      rfl

/-- Names lead where components do, as long as these do not lead out. -/
theorem foldl_next (root : Place) (parts : List Path.Component) :
    ∀ stack : List Path.Component, Path.above ∉ parts.foldl (Path.push false) stack →
      (parts.map String.ofList).foldl next (root ++ stack.reverse.map String.ofList)
        = root ++ (parts.foldl (Path.push false) stack).reverse.map String.ofList := by
  induction parts with
  | nil => exact fun _ _ => rfl
  | cons part parts ih =>
    intro stack h
    have hpart : Path.above ∉ Path.push false stack part := fun hmem =>
      h (Path.above_mem_foldl_push hmem parts)
    have hstack : Path.above ∉ stack := fun hmem => hpart (Path.above_mem_push hmem part)
    rw [List.map_cons, List.foldl_cons, next_of_push root hstack hpart]
    exact ih _ h

/-- Where a file is put that is created. -/
theorem create_ok {d d' : Disk} {here : Place} {path : String} {content : Bytes}
    (h : d.create here path content = .ok d') :
    d' = d.put ⟨true, (names path).foldl next (if startsWith path "/" then [] else here)⟩ content := by
  unfold create at h
  obtain ⟨place, hplace, h⟩ := (except_bind_ok_iff _ _ _).mp h
  unfold locate at hplace
  obtain ⟨_, -, hplace⟩ := (except_bind_ok_iff _ _ _).mp hplace
  rw [← follow_ok hplace]
  split at h
  · cases h
  · cases h
    rfl

end Disk

namespace Destination

variable {t : Destination} {d d' d'' : Disk} {path : String} {P Q : String → Prop}

/-- The place of the output directory. -/
def place (t : Destination) : Place :=
  (Disk.names t.root).foldl Disk.next (if startsWith (t.root ++ "/") "/" then [] else t.here)

/-- A file that is written to an inner path is put into the output directory. -/
theorem put_of_inner {content : Bytes} (h : t.put d path content = .ok d') (hpath : Path.Inner path) :
    ∃ below, d' = d.put ⟨true, t.place ++ below⟩ content := by
  have hhead : ∀ s : String, startsWith s "/" = (s.toList.head? == some '/') := by
    intro s
    unfold startsWith
    cases s.toList with
    | nil => rfl
    | cons c cs => simp [List.isPrefixOf, Bool.beq_comm]
  have hslash : startsWith path "/" = false := by
    have hrelative := hpath.relative
    unfold Path.isAbsolute at hrelative
    rw [hhead]
    cases hp : path.toList with
    | nil => rfl
    | cons c cs =>
      simp only [hp, Bool.or_eq_false_iff] at hrelative
      simpa using hrelative.1.1
  have hunder : under t.root path = t.root ++ "/" ++ path := by
    unfold under
    rw [hslash]
    rfl
  have htexts : (t.root ++ "/" ++ path).toList = t.root.toList ++ '/' :: path.toList := by
    rw [String.toList_append, String.toList_append, List.append_assoc]
    rfl
  have hnames : Disk.names (t.root ++ "/" ++ path)
      = Disk.names t.root ++ (splitWhere (· == '/') path.toList).map String.ofList := by
    unfold Disk.names
    rw [htexts, splitWhere_append_cons (by rfl), List.map_append]
  have hstart : startsWith (t.root ++ "/" ++ path) "/" = startsWith (t.root ++ "/") "/" := by
    rw [hhead, hhead, htexts, String.toList_append]
    cases t.root.toList <;> rfl
  have hbelow := Disk.foldl_next t.place _ [] (mt Path.mem_components.mpr hpath.inside)
  rw [List.reverse_nil, List.map_nil, List.append_nil] at hbelow
  unfold Destination.put at h
  refine ⟨((splitWhere (· == '/') path.toList).foldl (Path.push false) []).reverse.map String.ofList, ?_⟩
  rw [Disk.create_ok h, hunder, hnames, hstart, List.foldl_append]
  exact congrArg (fun place => d.put ⟨true, place⟩ content) hbelow

/-- Files are put on a disk, each of them to one of some paths. -/
inductive Fills (t : Destination) (P : String → Prop) (d : Disk) : Disk → Prop where
  | refl : Fills t P d d
  | put {d' d'' : Disk} {path : String} {content : Bytes} (h : Fills t P d d') (hpath : P path)
      (hput : t.put d' path content = .ok d'') : Fills t P d d''

theorem Fills.trans (h : t.Fills P d d') (h' : t.Fills P d' d'') : t.Fills P d d'' := by
  induction h' with
  | refl => exact h
  | put _ hpath hput ih => exact ih.put hpath hput

theorem Fills.mono (h : t.Fills P d d') (hPQ : ∀ path, P path → Q path) : t.Fills Q d d' := by
  induction h with
  | refl => exact .refl
  | put _ hpath hput ih => exact ih.put (hPQ _ hpath) hput

/-- What is outside of the output directory stays as it is. -/
theorem Fills.outside (h : t.Fills Path.Inner d d') {place : Place} (hplace : ¬t.place <+: place) :
    d'.files.get? ⟨true, place⟩ = d.files.get? ⟨true, place⟩ := by
  induction h with
  | refl => rfl
  | put _ hpath hput ih =>
    obtain ⟨below, rfl⟩ := put_of_inner hput hpath
    have hne : (⟨true, t.place ++ below⟩ : DiskPath) ≠ ⟨true, place⟩ := by
      intro heq
      exact hplace ⟨below, congrArg DiskPath.parts heq⟩
    simp only [Disk.put, OrderedMap.get?_insert, if_neg hne, ih]

end Destination

end Bundler
