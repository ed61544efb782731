/-
Which file the name of a resource stands for.

The text of a resource names a path (`Project.resourcePath`), and the build knows the file by that path
without the project directory (`Project.resourceName`). The directory is looked for in small letters, so
the path may spell it in letters of its own. It is cut off by the number of bytes that the directory
takes in small letters, though, and that is the right cut just if the path's own spelling takes as many
(`Path.Fits`). Where it does, exactly the directory is taken off, or nothing where the path does not lie
under it, and the cache knows the same file by the name and by the path.

A slash carries this. It is a small letter already and of no letter else the small one, and no letter
looks past it at its neighbours. So a text in small letters has its slashes where the text has them, and
what stands between two of them does not depend on the rest.
-/
import Bundler.Proofs.InnerPaths

set_option autoImplicit false

namespace Bundler

open Text

namespace Text

/-! ## Slashes and small letters -/

/-- A slash is what a letter sees last of its neighbours. -/
private theorem casedAhead_slash (as bs : List Char) :
    casedAhead (as ++ '/' :: bs) = casedAhead as := by
  have hslash : inRanges caseIgnorableRanges '/'.toNat = false := by decide +kernel
  have hcased : inRanges casedRanges '/'.toNat = false := by decide +kernel
  unfold casedAhead
  rw [List.dropWhile_append]
  cases has : as.dropWhile fun c => inRanges caseIgnorableRanges c.toNat with
  | nil =>
    rw [List.isEmpty_nil, if_pos rfl, List.dropWhile_cons_of_neg (by rw [hslash]; decide)]
    exact hcased
  | cons c cs => rfl

/-- What stands before a slash does not matter for what comes behind. -/
private theorem lowerFrom_behind (bs : List Char) :
    ∀ cs as : List Char, lowerFrom (as ++ '/' :: bs) cs = lowerFrom as cs
  | [], _ => rfl
  | c :: cs, as => by
    have ih := lowerFrom_behind bs cs (c :: as)
    rw [List.cons_append] at ih
    unfold lowerFrom
    rw [casedAhead_slash, ih]

/-- The two sides of a slash are made small apart from each other. -/
theorem lowerFrom_slash (bs : List Char) :
    ∀ as before : List Char,
      lowerFrom before (as ++ '/' :: bs) = lowerFrom before as ++ '/' :: lowerFrom [] bs
  | [], before => by
    have hslash : lowerChar '/' = ['/'] := by decide +kernel
    have hbehind := lowerFrom_behind before bs []
    rw [List.nil_append] at hbehind
    have hfirst : lowerFrom before ('/' :: bs) = lowerChar '/' ++ lowerFrom ('/' :: before) bs := rfl
    rw [List.nil_append, hfirst, hslash, hbehind]
    rfl
  | c :: as, before => by
    rw [List.cons_append, lowerFrom, casedAhead_slash, lowerFrom_slash bs as, lowerFrom,
      List.append_assoc]

/-- A slash of a text in small letters is a slash of the text. -/
theorem of_lowerFrom_slash {cs before front behind : List Char}
    (h : lowerFrom before cs = front ++ '/' :: behind) :
    ∃ as bs, cs = as ++ '/' :: bs ∧ lowerFrom before as = front ∧ lowerFrom [] bs = behind := by
  -- the text comes apart at its first slash, which is the one looked for or stands before it
  induction hlen : cs.length using Nat.strongRecOn generalizing cs before front with
  | _ n ih =>
  have hmem : '/' ∈ cs := by
    refine @mem_of_mem_lowerFrom '/' (.inl rfl) _ before ?_
    rw [h]
    exact List.mem_append_right _ List.mem_cons_self
  obtain ⟨as, bs, rfl, has⟩ := List.eq_append_cons_of_mem hmem
  rw [lowerFrom_slash] at h
  rcases List.append_eq_append_iff.mp h with ⟨more, hfront, hbehind⟩ | ⟨more, hfront, hbehind⟩
  · cases more with
    | nil =>
      refine ⟨as, bs, rfl, by simpa using hfront.symm, ?_⟩
      simpa using hbehind
    | cons c more =>
      obtain ⟨rfl, hrest⟩ := List.cons.inj hbehind
      have hshort : bs.length < n := by
        rw [← hlen, List.length_append, List.length_cons]
        omega
      obtain ⟨as', bs', rfl, hfront', hbehind'⟩ := ih bs.length hshort hrest rfl
      refine ⟨as ++ '/' :: as', bs', by simp, ?_, hbehind'⟩
      rw [lowerFrom_slash, hfront', hfront]
  · cases more with
    | nil =>
      refine ⟨as, bs, rfl, by simpa using hfront, ?_⟩
      simpa using hbehind.symm
    | cons c more =>
      -- the small letters before the first slash have no slash
      obtain ⟨rfl, -⟩ := List.cons.inj hbehind
      refine absurd (@mem_of_mem_lowerFrom '/' (.inl rfl) _ before ?_) has
      rw [hfront]
      exact List.mem_append_right _ List.mem_cons_self

theorem startsWith_iff {s head : String} : startsWith s head = true ↔ ∃ rest, s = head ++ rest := by
  unfold startsWith
  rw [List.isPrefixOf_iff_prefix]
  refine ⟨fun ⟨rest, h⟩ => ⟨String.ofList rest, ?_⟩, fun ⟨rest, h⟩ => ⟨rest.toList, ?_⟩⟩
  · apply String.toList_injective
    rw [String.toList_append, String.toList_ofList, h]
  · rw [h, String.toList_append]

/-- The pieces of a text are made of its characters. -/
theorem mem_of_mem_splitWhere (p : Char → Bool) :
    ∀ {cs piece : List Char}, piece ∈ splitWhere p cs → ∀ c ∈ piece, c ∈ cs
  | [], piece, hpiece, c, hc => by
    rw [splitWhere, List.mem_singleton] at hpiece
    rwa [hpiece] at hc
  | d :: cs, piece, hpiece, c, hc => by
    have ih : ∀ {piece : List Char}, piece ∈ splitWhere p cs → ∀ c ∈ piece, c ∈ cs :=
      mem_of_mem_splitWhere p
    unfold splitWhere at hpiece
    split at hpiece
    · rcases List.mem_cons.mp hpiece with rfl | hmem
      · exact absurd hc List.not_mem_nil
      · exact List.mem_cons_of_mem d (ih hmem c hc)
    · split at hpiece
      · obtain rfl := List.mem_singleton.mp hpiece
        rw [List.mem_singleton.mp hc]
        exact List.mem_cons_self
      · rename_i first rest hsplit
        rw [hsplit] at ih
        rcases List.mem_cons.mp hpiece with rfl | hmem
        · rcases List.mem_cons.mp hc with rfl | hfirst
          · exact List.mem_cons_self
          · exact List.mem_cons_of_mem d (ih List.mem_cons_self c hfirst)
        · exact List.mem_cons_of_mem d (ih (List.mem_cons_of_mem first hmem) c hc)

/-- A text is put together from its pieces. -/
theorem intercalate_splitWhere :
    ∀ cs : List Char, List.intercalate ['/'] (splitWhere (· == '/') cs) = cs
  | [] => rfl
  | c :: cs => by
    have ih := intercalate_splitWhere cs
    unfold splitWhere
    cases hsplit : splitWhere (· == '/') cs with
    | nil => exact absurd hsplit (splitWhere_ne_nil _ cs)
    | cons piece pieces =>
      rw [hsplit] at ih
      split
      · rename_i hslash
        rw [List.intercalate_cons_cons, ih, beq_iff_eq.mp hslash]
        rfl
      · cases pieces with
        | nil =>
          rw [List.intercalate_singleton] at ih ⊢
          rw [ih]
        | cons next pieces =>
          rw [List.intercalate_cons_cons] at ih ⊢
          rw [List.cons_append, List.cons_append, ih]

theorem intercalate_append {as bs : List (List Char)} (has : as ≠ []) (hbs : bs ≠ []) :
    List.intercalate ['/'] (as ++ bs) = List.intercalate ['/'] as ++ '/' :: List.intercalate ['/'] bs := by
  induction as with
  | nil => exact absurd rfl has
  | cons a as ih =>
    cases as with
    | nil =>
      obtain ⟨b, bs, rfl⟩ := List.exists_cons_of_ne_nil hbs
      rw [List.singleton_append, List.intercalate_cons_cons, List.intercalate_singleton,
        List.append_assoc]
      rfl
    | cons next as =>
      rw [List.cons_append, List.cons_append, List.intercalate_cons_cons, ← List.cons_append,
        ih (List.cons_ne_nil _ _), List.intercalate_cons_cons]
      simp only [List.append_assoc]

/-- The first letter of a text that starts in ASCII, in small letters. -/
theorem lowerFrom_cons_of_ascii {c : Char} (h : c.toNat < 128) (before cs : List Char) :
    lowerFrom before (c :: cs) = c.toLower :: lowerFrom (c :: before) cs := by
  have hsigma : (c == '\u03a3') = false := beq_false_of_ne fun heq => by
    rw [heq] at h
    exact absurd h (by decide)
  unfold lowerFrom lowerChar
  simp only [hsigma, h, Bool.false_eq_true, if_false, if_true, List.singleton_append]
  cases cs <;> rfl

theorem lowerFrom_eq_nil {before cs : List Char} (h : lowerFrom before cs = []) : cs = [] := by
  cases cs with
  | nil => rfl
  | cons c cs =>
    unfold lowerFrom lowerChar at h
    have hsmall := (List.append_eq_nil_iff.mp h).1
    split at hsmall
    · split at hsmall <;> cases hsmall
    · split at hsmall
      · cases hsmall
      · split at hsmall <;> cases hsmall

end Text

namespace Path

variable {absolute : Bool} {stack parts : List Component} {part : Component}

/-! ## The normal form of the normal form -/

theorem mem_push {q : Component} (h : q ∈ push absolute stack part) :
    q = part ∨ q = above ∨ q ∈ stack := by
  unfold push at h
  split at h
  · exact .inr (.inr h)
  · split at h
    · cases stack with
      | nil =>
        cases absolute with
        | true => exact absurd h List.not_mem_nil
        | false => exact .inr (.inl (List.mem_singleton.mp h))
      | cons last rest =>
        simp only at h
        split at h
        · exact .inr (List.mem_cons.mp h)
        · exact .inr (.inr (List.mem_cons_of_mem last h))
    · rcases List.mem_cons.mp h with hpart | hstack
      · exact .inl hpart
      · exact .inr (.inr hstack)

/-- The components of a path are pieces of it or double dots. -/
theorem of_mem_components {q : Component} {p : List Char} (h : q ∈ components absolute p) :
    q = above ∨ q ∈ splitWhere (· == '/') p := by
  have hfold : ∀ parts stack : List Component, q ∈ parts.foldl (push absolute) stack →
      q = above ∨ q ∈ parts ∨ q ∈ stack := by
    intro parts
    induction parts with
    | nil => exact fun stack h => .inr (.inr h)
    | cons part parts ih =>
      intro stack h
      rcases ih _ h with habove | hparts | hstack
      · exact .inl habove
      · exact .inr (.inl (List.mem_cons_of_mem part hparts))
      · rcases mem_push hstack with rfl | habove | hold
        · exact .inr (.inl List.mem_cons_self)
        · exact .inl habove
        · exact .inr (.inr hold)
  unfold components at h
  rcases hfold _ [] (List.mem_reverse.mp h) with habove | hparts | hnil
  · exact .inl habove
  · exact .inr hparts
  · exact absurd hnil List.not_mem_nil

/-- Double dots are at the bottom of the stack only, and there only in a relative path. -/
private def Bottomed (absolute : Bool) (stack : List Component) : Prop :=
  ∃ k rest, stack = rest ++ List.replicate k above ∧ above ∉ rest ∧ (absolute = true → k = 0)

private theorem Bottomed.push (h : Bottomed absolute stack) (part : Component) :
    Bottomed absolute (Path.push absolute stack part) := by
  obtain ⟨k, rest, rfl, hrest, hk⟩ := h
  unfold Path.push
  split
  · exact ⟨k, rest, rfl, hrest, hk⟩
  · split
    · cases rest with
      | nil =>
        cases k with
        | zero =>
          cases absolute with
          | true => exact ⟨0, [], rfl, List.not_mem_nil, fun _ => rfl⟩
          | false => exact ⟨1, [], rfl, List.not_mem_nil, fun h => Bool.noConfusion h⟩
        | succ k =>
          rw [List.nil_append, List.replicate_succ]
          simp only [beq_self_eq_true, if_true]
          exact ⟨k + 2, [], rfl, List.not_mem_nil, fun h => absurd (hk h) (Nat.succ_ne_zero k)⟩
      | cons last rest =>
        have hlast : (last == above) = false :=
          beq_false_of_ne fun h => hrest (h ▸ List.mem_cons_self)
        simp only [List.cons_append, hlast, Bool.false_eq_true, if_false]
        exact ⟨k, rest, rfl, fun h => hrest (List.mem_cons_of_mem last h), hk⟩
    · rename_i hpart
      refine ⟨k, part :: rest, rfl, fun h => ?_, hk⟩
      rcases List.mem_cons.mp h with rfl | h
      · exact hpart (beq_self_eq_true _)
      · exact hrest h

/-- The components of a path in normal form. -/
structure Normal (absolute : Bool) (parts : List Component) : Prop where
  isPart : ∀ part ∈ parts, IsPart part ∧ '\\' ∉ part
  /-- Double dots are in front only, and there only in a relative path. -/
  front : ∃ k rest, parts = List.replicate k above ++ rest ∧ above ∉ rest ∧ (absolute = true → k = 0)

theorem not_mem_slashed (p : List Char) : '\\' ∉ slashed p := by
  unfold slashed
  intro h
  obtain ⟨c, -, hc⟩ := List.mem_map.mp h
  split at hc
  · exact absurd hc (by decide)
  · rename_i hback
    exact hback (beq_iff_eq.mpr hc)

theorem slashed_of_not_mem {p : List Char} (h : '\\' ∉ p) : slashed p = p := by
  unfold slashed
  conv_rhs => rw [← List.map_id p]
  refine List.map_congr_left fun c hc => ?_
  have hback : (c == '\\') = false := beq_false_of_ne fun heq => h (heq ▸ hc)
  rw [hback]
  rfl

theorem normal_components (absolute : Bool) {p : List Char} (hp : '\\' ∉ p) :
    Normal absolute (components absolute p) where
  isPart part hpart := by
    refine ⟨isPart_components absolute p part hpart, fun hback => ?_⟩
    rcases of_mem_components hpart with rfl | hpiece
    · exact absurd hback (by decide)
    · exact hp (mem_of_mem_splitWhere _ hpiece _ hback)
  front := by
    have hfold : ∀ parts stack : List Component, Bottomed absolute stack →
        Bottomed absolute (parts.foldl (push absolute) stack) := by
      intro parts
      induction parts with
      | nil => exact fun stack h => h
      | cons part parts ih => exact fun stack h => ih _ (h.push part)
    obtain ⟨k, rest, hstack, hrest, hk⟩ :=
      hfold (splitWhere (· == '/') p) [] ⟨0, [], rfl, List.not_mem_nil, fun _ => rfl⟩
    refine ⟨k, rest.reverse, ?_, fun h => hrest (List.mem_reverse.mp h), hk⟩
    unfold components
    rw [hstack, List.reverse_append, List.reverse_replicate]

/-- Components that are no double dots pile up on the stack. -/
theorem foldl_push_parts (h : ∀ q ∈ parts, IsPart q ∧ q ≠ above) (stack : List Component) :
    parts.foldl (push absolute) stack = parts.reverse ++ stack := by
  induction parts generalizing stack with
  | nil => rfl
  | cons part parts ih =>
    obtain ⟨⟨hne, hdot, -⟩, habove⟩ := h part List.mem_cons_self
    have hpush : push absolute stack part = part :: stack := by
      unfold push
      rw [if_neg (by simp [hne, hdot]), if_neg (by simpa using habove)]
    rw [List.foldl_cons, hpush, ih fun q hq => h q (List.mem_cons_of_mem part hq),
      List.reverse_cons, List.append_assoc]
    rfl

/-- The stack of a path that is in normal form already. -/
theorem Normal.foldl_push (h : Normal absolute parts) :
    parts.foldl (push absolute) [] = parts.reverse := by
  obtain ⟨k, rest, hparts, hrest, hk⟩ := h.front
  have hbottom : ∀ n m : Nat, (absolute = true → n + m = 0) →
      (List.replicate n above).foldl (push absolute) (List.replicate m above)
        = List.replicate (n + m) above := by
    intro n
    induction n with
    | zero => exact fun m _ => by rw [Nat.zero_add]; rfl
    | succ n ih =>
      intro m hm
      have hrelative : absolute = false := by
        cases absolute with
        | true => exact absurd (hm rfl) (by omega)
        | false => rfl
      subst hrelative
      have hpush : push false (List.replicate m above) above = List.replicate (m + 1) above := by
        cases m with
        | zero => rfl
        | succ m =>
          rw [List.replicate_succ]
          rfl
      rw [List.replicate_succ, List.foldl_cons, hpush, ih (m + 1) fun h => Bool.noConfusion h]
      congr 1
      omega
  have hstart := hbottom k 0 hk
  rw [List.replicate_zero, Nat.add_zero] at hstart
  have hrest' : ∀ q ∈ rest, IsPart q ∧ q ≠ above := fun q hq =>
    ⟨(h.isPart q (hparts ▸ List.mem_append_right _ hq)).1, fun heq => hrest (heq ▸ hq)⟩
  rw [hparts, List.foldl_append, hstart, foldl_push_parts hrest', List.reverse_append,
    List.reverse_replicate]

/-- The text of a path in normal form. -/
def spell (absolute : Bool) (parts : List Component) : List Char :=
  if absolute then '/' :: List.intercalate ['/'] parts else List.intercalate ['/'] parts

theorem normalizeChars_eq_spell (p : List Char) :
    ∃ absolute parts, absolute = ((slashed p).head? == some '/') ∧
      parts = components absolute (slashed p) ∧ Normal absolute parts ∧
      normalizeChars p = spell absolute parts :=
  ⟨_, _, rfl, rfl, normal_components _ (not_mem_slashed p), rfl⟩

theorem Normal.not_mem_spell (h : Normal absolute parts) : '\\' ∉ spell absolute parts := by
  have hjoined : ∀ parts : List Component, (∀ part ∈ parts, '\\' ∉ part) →
      '\\' ∉ List.intercalate ['/'] parts := by
    intro parts
    induction parts with
    | nil => exact fun _ => List.not_mem_nil
    | cons part parts ih =>
      intro hparts
      have hpart := hparts part List.mem_cons_self
      cases parts with
      | nil => rwa [List.intercalate_singleton]
      | cons next parts =>
        have hrest := ih fun q hq => hparts q (List.mem_cons_of_mem part hq)
        rw [List.intercalate_cons_cons]
        simp only [List.mem_append, List.mem_singleton, not_or]
        exact ⟨⟨hpart, by decide⟩, hrest⟩
  have hparts := hjoined parts fun part hpart => (h.isPart part hpart).2
  unfold spell
  split
  · simpa using hparts
  · exact hparts

theorem Normal.head?_spell (h : Normal absolute parts) :
    ((spell absolute parts).head? == some '/') = absolute := by
  cases absolute with
  | true => rfl
  | false => exact head?_joined fun part hpart => (h.isPart part hpart).1

/-- The pieces of a path in normal form are its components, behind an empty one at the root. -/
theorem Normal.splitWhere_spell (h : Normal absolute parts) :
    splitWhere (· == '/') (spell absolute parts)
      = (if absolute then [[]] else []) ++ (if parts = [] then [[]] else parts) := by
  have hjoined := splitWhere_joined fun part hpart => (h.isPart part hpart).1
  cases absolute with
  | true =>
    rw [← hjoined]
    rfl
  | false => exact hjoined

theorem Normal.normalizeChars_spell (h : Normal absolute parts) :
    normalizeChars (spell absolute parts) = spell absolute parts := by
  have hcomponents : components absolute (spell absolute parts) = parts := by
    have hempty : push absolute [] [] = [] := rfl
    have hfold : (if parts = [] then [[]] else parts).foldl (push absolute) [] = parts.reverse := by
      split
      · rename_i hnil
        rw [hnil]
        rfl
      · exact h.foldl_push
    unfold components
    rw [h.splitWhere_spell, List.foldl_append]
    cases absolute with
    | true => simp only [if_true, List.foldl_cons, List.foldl_nil, hempty, hfold, List.reverse_reverse]
    | false =>
      simp only [Bool.false_eq_true, if_false, List.foldl_nil, hfold, List.reverse_reverse]
  unfold normalizeChars
  simp only [slashed_of_not_mem h.not_mem_spell, h.head?_spell, hcomponents]
  rfl

/-- The normal form of a path is in normal form. -/
theorem normalize_normalize (p : String) : normalize (normalize p) = normalize p := by
  obtain ⟨absolute, parts, -, -, hnormal, hspell⟩ := normalizeChars_eq_spell p.toList
  unfold normalize
  rw [String.toList_ofList, hspell, hnormal.normalizeChars_spell]

theorem toSlash_normalize (p : String) : toSlash (normalize p) = normalize p := by
  obtain ⟨absolute, parts, -, -, hnormal, hspell⟩ := normalizeChars_eq_spell p.toList
  unfold toSlash normalize
  rw [String.toList_ofList, hspell, slashed_of_not_mem hnormal.not_mem_spell]

/-- A name made of parts that are no double dots is read behind a directory as it is. -/
theorem normalizeChars_behind {dir rest : List Char} (hdir : dir ≠ []) (hback : '\\' ∉ rest)
    (hrest : ∀ q ∈ splitWhere (· == '/') rest, IsPart q ∧ q ≠ above)
    (hbase : components ((slashed dir).head? == some '/') (slashed dir) ≠ []) :
    normalizeChars (dir ++ '/' :: rest) = normalizeChars dir ++ '/' :: rest := by
  have hslashed : slashed (dir ++ '/' :: rest) = slashed dir ++ '/' :: rest := by
    have hkept : slashed ('/' :: rest) = '/' :: rest := by
      refine slashed_of_not_mem fun h => ?_
      rcases List.mem_cons.mp h with h | h
      · exact absurd h (by decide)
      · exact hback h
    have hsides : slashed (dir ++ '/' :: rest) = slashed dir ++ slashed ('/' :: rest) :=
      List.map_append
    rwa [hkept] at hsides
  have hhead : (slashed dir ++ '/' :: rest).head? = (slashed dir).head? := by
    obtain ⟨c, cs, rfl⟩ := List.exists_cons_of_ne_nil hdir
    rfl
  have hcomponents : ∀ absolute, components absolute (slashed dir ++ '/' :: rest)
      = components absolute (slashed dir) ++ splitWhere (· == '/') rest := by
    intro absolute
    unfold components
    rw [splitWhere_append_cons (p := (· == '/')) rfl, List.foldl_append, foldl_push_parts hrest,
      List.reverse_append, List.reverse_reverse]
  unfold normalizeChars
  simp only [hslashed, hhead, hcomponents]
  rw [intercalate_append hbase (splitWhere_ne_nil _ rest), intercalate_splitWhere]
  split <;> rfl

/-! ## Paths under a directory -/

/-- A path is under a directory: `front` is the directory as the path spells it, which may be in
letters of another size, and `rest` is the name behind it. -/
def Under (directory path front rest : String) : Prop :=
  path = front ++ "/" ++ rest ∧ lower front = lower directory

/-- A path without a directory: exactly the directory is taken off, or nothing. -/
inductive Without (directory path : String) : String → Prop
  | inside {front rest : String} (h : Under directory path front rest) : Without directory path rest
  | outside (h : ∀ front rest, ¬Under directory path front rest) : Without directory path path

/-- The directory takes as many bytes in the path as it takes in small letters. -/
def Fits (directory path : String) : Prop :=
  ∀ front rest, Under directory path front rest → size front.toList = size (lower directory).toList

variable {directory path front rest name : String}

theorem Under.toList_eq (h : Under directory path front rest) :
    path.toList = front.toList ++ '/' :: rest.toList := by
  rw [h.1, String.toList_append, String.toList_append, List.append_assoc]
  rfl

theorem Under.lowerFrom_eq (h : Under directory path front rest) :
    lowerFrom [] front.toList = lowerFrom [] directory.toList := by
  have hlower := congrArg String.toList h.2
  unfold lower at hlower
  rwa [String.toList_ofList, String.toList_ofList] at hlower

/-- A path spells a directory in one way only. -/
theorem Under.unique {front' rest' : String} (h : Under directory path front rest)
    (h' : Under directory path front' rest') : front = front' ∧ rest = rest' := by
  -- with more behind it, one spelling would be longer in small letters than the other
  have hlonger : ∀ {front front' rest rest' : String}, Under directory path front rest →
      Under directory path front' rest' → ∀ more, front'.toList = front.toList ++ '/' :: more →
        False := by
    intro front front' rest rest' h h' more hmore
    have hsmall := congrArg List.length (h'.lowerFrom_eq.trans h.lowerFrom_eq.symm)
    rw [hmore, lowerFrom_slash, List.length_append, List.length_cons] at hsmall
    omega
  have heq := h.toList_eq.symm.trans h'.toList_eq
  rcases List.append_eq_append_iff.mp heq with ⟨more, hfront, hrest⟩ | ⟨more, hfront, hrest⟩
  · cases more with
    | nil =>
      rw [List.append_nil] at hfront
      rw [List.nil_append] at hrest
      exact ⟨String.toList_injective hfront.symm, String.toList_injective (List.cons.inj hrest).2⟩
    | cons c more =>
      obtain ⟨rfl, -⟩ := List.cons.inj hrest
      exact (hlonger h h' more hfront).elim
  · cases more with
    | nil =>
      rw [List.append_nil] at hfront
      rw [List.nil_append] at hrest
      exact ⟨String.toList_injective hfront, String.toList_injective (List.cons.inj hrest).2.symm⟩
    | cons c more =>
      obtain ⟨rfl, -⟩ := List.cons.inj hrest
      exact (hlonger h' h more hfront).elim

/-- There is one name that a path has without a directory. -/
theorem exists_unique_without (directory path : String) : ∃! name, Without directory path name := by
  by_cases hunder : ∃ front rest, Under directory path front rest
  · obtain ⟨front, rest, hunder⟩ := hunder
    refine ⟨rest, .inside hunder, fun other hother => ?_⟩
    cases hother with
    | inside h => exact (h.unique hunder).2
    | outside h => exact absurd hunder (h front rest)
  · simp only [not_exists] at hunder
    refine ⟨path, .outside hunder, fun other hother => ?_⟩
    cases hother with
    | inside h => exact absurd h (hunder _ _)
    | outside => rfl

/-- The directory is found in front of a path just if the path is under it. -/
theorem startsWith_lower_iff :
    startsWith (lower path) (lower directory ++ "/") = true ↔
      ∃ front rest, Under directory path front rest := by
  rw [startsWith_iff]
  constructor
  · rintro ⟨more, h⟩
    have hchars := congrArg String.toList h
    unfold lower at hchars
    simp only [String.toList_append, String.toList_ofList, List.append_assoc] at hchars
    obtain ⟨as, bs, hpath, hfront, -⟩ := of_lowerFrom_slash hchars
    refine ⟨String.ofList as, String.ofList bs, ?_, ?_⟩
    · apply String.toList_injective
      simp only [String.toList_append, String.toList_ofList, List.append_assoc]
      exact hpath
    · unfold lower
      rw [String.toList_ofList, hfront]
  · rintro ⟨front, rest, hunder⟩
    refine ⟨lower rest, ?_⟩
    apply String.toList_injective
    unfold lower
    simp only [String.toList_append, String.toList_ofList, List.append_assoc]
    rw [hunder.toList_eq, lowerFrom_slash, hunder.lowerFrom_eq]
    rfl

/-- The directory is taken off right just if it takes as many bytes as in small letters. -/
theorem relativize_eq_iff (hdirectory : normalize directory = directory) (hpath : toSlash path = path)
    (hname : Without directory path name) :
    relativize directory path = .ok name ↔ Fits directory path := by
  unfold relativize
  simp only [hdirectory, hpath]
  have hsize : size (lower directory ++ "/").toList = size (lower directory).toList + 1 := by
    rw [String.toList_append, size_append]
    rfl
  cases hname with
  | outside h =>
    rw [if_neg fun hstarts => ?_]
    · exact ⟨fun _ front rest hunder => absurd hunder (h front rest), fun _ => rfl⟩
    · obtain ⟨front, rest, hunder⟩ := startsWith_lower_iff.mp hstarts
      exact h front rest hunder
  | @inside front _ h =>
    rw [if_pos (startsWith_lower_iff.mpr ⟨_, _, h⟩), hsize]
    have hends : size (front.toList ++ ['/']) = size front.toList + 1 := size_append _ _
    have hsplit : path.toList = (front.toList ++ ['/']) ++ name.toList := by
      rw [h.toList_eq, List.append_assoc]
      rfl
    constructor
    · intro hcut front' rest' h'
      obtain ⟨rfl, -⟩ := h'.unique h
      cases hdrop : dropBytes? (size (lower directory).toList + 1) path.toList with
      | none =>
        rw [hdrop] at hcut
        cases hcut
      | some out =>
        rw [hdrop] at hcut
        obtain ⟨as, hpath', has⟩ := of_dropBytes? hdrop
        have hout : name.toList = out := by
          rw [← Except.ok.inj hcut, String.toList_ofList]
        have hfront := List.append_cancel_right ((hsplit.symm.trans hpath').trans (by rw [hout]))
        rw [← hfront, hends] at has
        omega
    · intro hfits
      rw [← hfits front name h, ← hends, hsplit, dropBytes?_size]
      change Except.ok (String.ofList name.toList) = _
      rw [String.ofList_toList]

/-- A directory fits where a path spells it as it is, if it keeps its bytes in small letters. -/
theorem Fits.of_spelled (hspelled : path = directory ++ "/" ++ rest)
    (hsize : size (lower directory).toList = size directory.toList) : Fits directory path := by
  intro front rest' hunder
  obtain ⟨rfl, -⟩ := hunder.unique ⟨hspelled, rfl⟩
  exact hsize.symm

/-! ## The file behind a name -/

/-- An absolute path does not start in a point, and neither do its small letters. -/
private theorem head?_lower_ne (h : isAbsolute directory = true) :
    (lowerFrom [] directory.toList).head? ≠ some '.' := by
  have hletters : ∀ n : Fin 128, (Char.ofNat n).isAlpha = true ∨ Char.ofNat n = '/' ∨
      Char.ofNat n = '\\' → (Char.ofNat n).toLower ≠ '.' := by decide +kernel
  unfold isAbsolute at h
  split at h
  · cases h
  · rename_i c rest hchars
    have hkind : c.isAlpha = true ∨ c = '/' ∨ c = '\\' := by
      simp only [Bool.or_eq_true, Bool.and_eq_true, beq_iff_eq] at h
      rcases h with (h | h) | ⟨h, -⟩
      · exact .inr (.inl h)
      · exact .inr (.inr h)
      · exact .inl h
    have hascii : c.toNat < 128 := by
      rcases hkind with halpha | rfl | rfl
      · have hends : c.val ≤ 'Z'.val ∨ c.val ≤ 'z'.val := by
          have hletter : (decide ('A'.val ≤ c.val ∧ c.val ≤ 'Z'.val) ||
              decide ('a'.val ≤ c.val) && decide (c.val ≤ 'z'.val)) = true := halpha
          simp only [Bool.or_eq_true, Bool.and_eq_true, decide_eq_true_eq] at hletter
          exact hletter.imp And.right And.right
        rcases hends with h | h
        · exact Nat.lt_of_le_of_lt (UInt32.le_iff_toNat_le.mp h) (by decide)
        · exact Nat.lt_of_le_of_lt (UInt32.le_iff_toNat_le.mp h) (by decide)
      · decide
      · decide
    rw [hchars, lowerFrom_cons_of_ascii hascii, List.head?_cons, ne_eq, Option.some.injEq]
    have hc := hletters ⟨c.toNat, hascii⟩
    simp only [Char.ofNat_toNat] at hc
    exact hc hkind

/-- A path in normal form is spelled by components in normal form. -/
private theorem exists_spell_of_normalize (hpath : normalize path = path) :
    ∃ rooted parts, Normal rooted parts ∧ path.toList = spell rooted parts := by
  obtain ⟨rooted, parts, -, -, hnormal, hspell⟩ := normalizeChars_eq_spell path.toList
  refine ⟨rooted, parts, hnormal, ?_⟩
  have hself := congrArg String.toList hpath
  unfold normalize at hself
  rw [String.toList_ofList, hspell] at hself
  exact hself.symm

/-- Double dots stand first in a path in normal form. -/
private theorem Normal.head?_of_above (h : Normal absolute parts) (habove : above ∈ parts) :
    (spell absolute parts).head? = some '.' := by
  obtain ⟨k, more, hbottom, hmore, hk⟩ := h.front
  cases k with
  | zero =>
    rw [List.replicate_zero, List.nil_append] at hbottom
    exact absurd (hbottom ▸ habove) hmore
  | succ k =>
    have hrelative : absolute = false := by
      cases absolute with
      | true => exact absurd (hk rfl) (Nat.succ_ne_zero k)
      | false => rfl
    rw [hrelative, hbottom, List.replicate_succ, List.cons_append]
    cases List.replicate k above ++ more with
    | nil => rfl
    | cons next others => rfl

/-- An absolute directory is spelled by at least one letter, which is no point. -/
private theorem Under.head?_front (h : Under directory path front rest)
    (habsolute : isAbsolute directory = true) :
    front.toList ≠ [] ∧ front.toList.head? ≠ some '.' := by
  have hlower := h.lowerFrom_eq
  constructor
  · intro hnil
    rw [hnil] at hlower
    unfold isAbsolute at habsolute
    rw [lowerFrom_eq_nil hlower.symm] at habsolute
    cases habsolute
  · intro hpoint
    obtain ⟨cs, hcs⟩ := List.head?_eq_some_iff.mp hpoint
    refine head?_lower_ne habsolute ?_
    rw [← hlower, hcs]
    exact congrArg List.head? (lowerFrom_cons_of_ascii (by decide) [] cs)

/-- The pieces of a path under a directory: those of the directory, and those of the name behind it. -/
private theorem Under.splitWhere_eq (h : Under directory path front rest) :
    splitWhere (· == '/') path.toList
      = splitWhere (· == '/') front.toList ++ splitWhere (· == '/') rest.toList := by
  rw [h.toList_eq, splitWhere_append_cons (p := (· == '/')) rfl]

/-- A path that is under a directory with letters is not the root. -/
private theorem Under.parts_ne_nil {rooted : Bool} (h : Under directory path front rest)
    (hfront : front.toList ≠ []) (hnormal : Normal rooted parts) (hchars : path.toList = spell rooted parts) :
    parts ≠ [] := by
  intro hnil
  have hsplit := h.splitWhere_eq
  rw [hchars, hnormal.splitWhere_spell, if_pos hnil] at hsplit
  have hlengths := congrArg List.length hsplit
  have hbehind := List.length_pos_of_ne_nil (splitWhere_ne_nil (· == '/') rest.toList)
  obtain ⟨first, pieces, hpieces⟩ :=
    List.exists_cons_of_ne_nil (splitWhere_ne_nil (· == '/') front.toList)
  rw [hpieces] at hsplit hlengths
  cases rooted with
  | true =>
    simp only [List.length_append, List.length_cons, if_true, List.length_nil] at hlengths
    have hshort : pieces = [] := List.eq_nil_of_length_eq_zero (by omega)
    have hfirst : [] = first := (List.cons.inj hsplit).1
    have hwhole := intercalate_splitWhere front.toList
    rw [hpieces, hshort, ← hfirst] at hwhole
    exact hfront hwhole.symm
  | false =>
    simp only [List.length_append, List.length_cons, Bool.false_eq_true, if_false,
      List.length_nil] at hlengths
    omega

/-- What stands behind the first piece of a path in normal form that is under an absolute directory: parts,
and no double dots. -/
private theorem Under.behind (h : Under directory path front rest) (hpath : normalize path = path)
    (habsolute : isAbsolute directory = true) :
    '\\' ∉ rest.toList ∧ ∀ first more, splitWhere (· == '/') front.toList = first :: more →
      ∀ q ∈ more ++ splitWhere (· == '/') rest.toList, IsPart q ∧ q ≠ above := by
  obtain ⟨hfront, hpoint⟩ := h.head?_front habsolute
  obtain ⟨rooted, parts, hnormal, hchars⟩ := exists_spell_of_normalize hpath
  have hsplit := h.splitWhere_eq
  rw [hchars, hnormal.splitWhere_spell, if_neg (h.parts_ne_nil hfront hnormal hchars)] at hsplit
  -- double dots would come first, and the directory would start in a point
  have hparts : ∀ q ∈ parts, IsPart q ∧ q ≠ above := by
    refine fun q hq => ⟨(hnormal.isPart q hq).1, fun heq => hpoint ?_⟩
    have hhead := hnormal.head?_of_above (heq ▸ hq)
    obtain ⟨c, cs, hc⟩ := List.exists_cons_of_ne_nil hfront
    rw [← hchars, h.toList_eq, hc] at hhead
    rw [hc]
    exact hhead
  constructor
  · intro hback
    refine hnormal.not_mem_spell ?_
    rw [← hchars, h.toList_eq]
    exact List.mem_append_right _ (List.mem_cons_of_mem _ hback)
  · intro first more hfirst q hq
    rw [hfirst] at hsplit
    cases rooted with
    | true =>
      have hbehind : parts = more ++ splitWhere (· == '/') rest.toList := (List.cons.inj hsplit).2
      exact hparts q (hbehind ▸ hq)
    | false =>
      refine hparts q ?_
      simp only [Bool.false_eq_true, if_false, List.nil_append] at hsplit
      rw [hsplit]
      exact List.mem_cons_of_mem first hq

/-- No path in normal form is under the root. -/
private theorem Under.not_root (h : Under directory path front rest) (hpath : normalize path = path) :
    directory.toList ≠ ['/'] := by
  intro hroot
  have habsolute : isAbsolute directory = true := by
    unfold isAbsolute
    rw [hroot]
    rfl
  have hslash : lowerFrom [] front.toList = [] ++ '/' :: [] := by
    rw [h.lowerFrom_eq, hroot]
    exact lowerFrom_slash [] [] []
  obtain ⟨as, bs, hfront, has, hbs⟩ := of_lowerFrom_slash hslash
  rw [lowerFrom_eq_nil has, lowerFrom_eq_nil hbs] at hfront
  -- there would be an empty piece behind the root
  have hempty := (h.behind hpath habsolute).2 [] [[]] (by rw [hfront]; rfl) [] List.mem_cons_self
  exact hempty.1.1 rfl

theorem normalizeChars_slashed (p : List Char) : normalizeChars (slashed p) = normalizeChars p := by
  unfold normalizeChars
  rw [slashed_of_not_mem (not_mem_slashed p)]

/-- The path of a name behind an absolute directory is the directory and the name. -/
private theorem Under.join_eq {dir : String} (h : Under (normalize dir) path front rest)
    (hpath : normalize path = path) (habsolute : isAbsolute (normalize dir) = true)
    (hrest : isAbsolute rest = false) :
    join (toSlash dir) rest = normalize dir ++ "/" ++ rest := by
  obtain ⟨hback, hbehind⟩ := h.behind hpath habsolute
  obtain ⟨first, more, hfirst⟩ :=
    List.exists_cons_of_ne_nil (splitWhere_ne_nil (· == '/') front.toList)
  obtain ⟨absolute, parts, hhead, hcomponents, hnormal, hspell⟩ := normalizeChars_eq_spell dir.toList
  have hdirectory : (normalize dir).toList = spell absolute parts := by
    unfold normalize
    rw [String.toList_ofList, hspell]
  have hbase : parts ≠ [] := by
    rintro rfl
    cases absolute with
    | false =>
      unfold isAbsolute at habsolute
      rw [hdirectory] at habsolute
      cases habsolute
    | true => exact h.not_root hpath hdirectory
  have hdir : slashed dir.toList ≠ [] := by
    intro hnil
    rw [hnil] at hcomponents
    exact hbase hcomponents
  have hnonempty : (toSlash dir).isEmpty = false := by
    rw [Bool.eq_false_iff]
    intro hempty
    have hnil := congrArg String.toList (String.isEmpty_iff.mp hempty)
    unfold toSlash at hnil
    rw [String.toList_ofList] at hnil
    exact hdir hnil
  unfold join
  rw [hnonempty, hrest, Bool.or_self, if_neg Bool.false_ne_true]
  apply String.toList_injective
  unfold normalize toSlash
  simp only [String.toList_append, String.toList_ofList, List.append_assoc]
  change normalizeChars (slashed dir.toList ++ '/' :: rest.toList)
    = normalizeChars dir.toList ++ '/' :: rest.toList
  rw [normalizeChars_behind hdir hback (fun q hq => hbehind first more hfirst q (List.mem_append_right _ hq)) ?_,
    normalizeChars_slashed]
  rw [slashed_of_not_mem (not_mem_slashed _), ← hhead, ← hcomponents]
  exact hbase

/-- The cache knows a file by its path and by its name without the project directory. -/
theorem Without.keyOf_eq {dir : String} (h : Without (normalize dir) path name)
    (hpath : normalize path = path) (hdirectory : isAbsolute (normalize dir) = true)
    (habsolute : isAbsolute path = true) (hname : isAbsolute name = true → name = path) :
    Cache.keyOf dir name = Cache.keyOf dir path := by
  cases h with
  | outside => rfl
  | @inside front _ h =>
    cases hrelative : isAbsolute name with
    | true => rw [hname hrelative]
    | false =>
      have hjoin := h.join_eq hpath hdirectory hrelative
      unfold Cache.keyOf Cache.canonicalName
      rw [hrelative, habsolute, if_neg Bool.false_ne_true, if_pos rfl, hjoin, hpath]
      apply String.toList_injective
      unfold lower
      have hbehind : (normalize dir ++ "/" ++ name).toList
          = (normalize dir).toList ++ '/' :: name.toList := by
        rw [String.toList_append, String.toList_append, List.append_assoc]
        rfl
      rw [String.toList_ofList, String.toList_ofList, hbehind, h.toList_eq, lowerFrom_slash,
        lowerFrom_slash, h.lowerFrom_eq]

end Path

/-! ## The law of resource names -/

namespace Project

variable (p : Project) (source text : String)

/-- The path that the text of a resource names in a source file. -/
def resourcePath : String := Path.join (p.resourceDir source text) text

theorem resourceName_eq :
    p.resourceName source text = Path.relativize p.directory (p.resourcePath source text) := rfl

theorem normal_resourcePath : ∃ path, p.resourcePath source text = Path.normalize path := by
  unfold resourcePath Path.join
  split
  · exact ⟨_, rfl⟩
  · exact ⟨_, rfl⟩

/-- The name of a resource is its path without the project directory, where exactly the directory is
taken off or nothing, just if the directory takes as many bytes in the path as in small letters. The
cache knows the same file by that name and by the path, unless what is left behind the directory has
the form of an absolute path itself. -/
theorem resourceName_without :
    ∃ name, Path.Without p.directory (p.resourcePath source text) name ∧
      (∀ other, Path.Without p.directory (p.resourcePath source text) other → other = name) ∧
      (p.resourceName source text = .ok name ↔
        Path.Fits p.directory (p.resourcePath source text)) ∧
      (Path.isAbsolute p.directory = true → Path.isAbsolute (p.resourcePath source text) = true →
        (Path.isAbsolute name = true → name = p.resourcePath source text) →
        Cache.keyOf p.dir name = Cache.keyOf p.dir (p.resourcePath source text)) := by
  obtain ⟨name, hname, hunique⟩ := Path.exists_unique_without p.directory (p.resourcePath source text)
  obtain ⟨path, hpath⟩ := p.normal_resourcePath source text
  have hnormal : Path.normalize (p.resourcePath source text) = p.resourcePath source text := by
    rw [hpath, Path.normalize_normalize]
  have hslash : Path.toSlash (p.resourcePath source text) = p.resourcePath source text := by
    rw [hpath, Path.toSlash_normalize]
  refine ⟨name, hname, hunique, ?_, hname.keyOf_eq hnormal⟩
  rw [resourceName_eq]
  exact Path.relativize_eq_iff (Path.normalize_normalize p.dir) hslash hname

/-- In small letters a directory can take one byte more than in large ones, and one letter of the name
goes with it; or it takes less, and the cut falls into a letter. -/
example :
    (ofConfig .default "/\u0130").resourceName "a.ts" "x.png" = .ok ".png" ∧
      (ofConfig .default "/\u212a").resourceName "a.ts" "x.png" = .error .badCut := by
  decide +kernel

end Project

end Bundler
