/-
Laws of joined paths.

A path in normal form is a root or none, and components without empty ones and single dots, where double
dots stand in front only, and there only without a root. Joining paths is associative, and the normal
forms of two paths are joined as the paths are. A directory that something was joined to is reached again
by leaving as many directories as components were added (`Path.join_laws`).

All of this is about the stack that the components of a path are put on. Reading a path on top of what is
there already (`Path.onto`) goes through its components only, so reading two paths with a slash between
them is reading the one and then the other. The main point is that a relative path and its normal form do
the same to every stack (`Path.onto_normalize`), also where the normal form begins with double dots or is
empty: a name that was taken off by a double dot would have been put on the stack and taken off it again.

A path that starts with a letter and a colon counts as absolute although it has no root. If such a
component is inside a path, the normal form of a relative path can start with it, so the laws are about
paths without any (`Path.DriveFree`).
-/
import Mathlib.Data.List.Induction
import Mathlib.Logic.Function.Iterate
import Bundler.Proofs.ResourceNames

set_option autoImplicit false

namespace Bundler.Path

open Text

variable {absolute : Bool} {stack parts : List Component} {part : Component} {a b c p : String}

/-! ## Components -/

/-- Whether a path starts with a slash of either kind. -/
def rooted (p : String) : Bool := (slashed p.toList).head? == some '/'

/-- What a path has behind its root. -/
def behindRoot (p : String) : List Char :=
  if rooted p then (slashed p.toList).tail else slashed p.toList

/-- The components that a path is written with, behind the root. A path that is empty or the root alone
has none. -/
def partsOf (p : String) : List Component :=
  if behindRoot p = [] then [] else splitWhere (· == '/') (behindRoot p)

/-- Whether a component names a drive: it starts with a letter and a colon. -/
def isDrive : Component → Bool
  | c :: ':' :: _ => c.isAlpha
  | _ => false

/-- No component of the path names a drive. -/
def DriveFree (p : String) : Prop := ∀ q ∈ partsOf p, isDrive q = false

instance (p : String) : Decidable (DriveFree p) := inferInstanceAs (Decidable (∀ q ∈ partsOf p, _))

/-- The stack after a path was read on top of it. -/
def onto (absolute : Bool) (stack : List Component) (p : String) : List Component :=
  (partsOf p).foldl (push absolute) stack

theorem push_nil (absolute : Bool) (stack : List Component) : push absolute stack [] = stack := rfl

theorem onto_empty (absolute : Bool) (stack : List Component) : onto absolute stack "" = stack := rfl

private theorem slashed_eq (p : String) :
    slashed p.toList = (if rooted p then ['/'] else []) ++ behindRoot p := by
  unfold behindRoot rooted
  cases slashed p.toList with
  | nil => rfl
  | cons c cs =>
    by_cases hc : c = '/'
    · simp [hc]
    · simp [hc]

/-- Of the pieces between the separators only the components count. -/
theorem foldl_pieces (p : String) :
    (splitWhere (· == '/') (slashed p.toList)).foldl (push absolute) stack = onto absolute stack p := by
  have hbehind : (splitWhere (· == '/') (behindRoot p)).foldl (push absolute) stack
      = onto absolute stack p := by
    unfold onto partsOf
    split
    · rename_i hnil
      rw [hnil]
      rfl
    · rfl
  rw [slashed_eq]
  cases rooted p with
  | true =>
    rw [if_pos rfl, List.singleton_append, splitWhere, beq_self_eq_true, if_pos rfl, List.foldl_cons,
      push_nil, hbehind]
  | false => exact hbehind

/-- The normal form of a path spells the stack that it leads to. -/
theorem normalize_eq (p : String) :
    normalize p = String.ofList (spell (rooted p) (onto (rooted p) [] p).reverse) := by
  rw [← foldl_pieces]
  rfl

theorem normal_onto (p : String) : Normal absolute (onto absolute [] p).reverse := by
  rw [← foldl_pieces]
  exact normal_components absolute (not_mem_slashed p.toList)

/-! ## The text of a path in normal form -/

theorem Normal.rooted_spell (h : Normal absolute parts) :
    rooted (String.ofList (spell absolute parts)) = absolute := by
  unfold rooted
  rw [String.toList_ofList, slashed_of_not_mem h.not_mem_spell, h.head?_spell]

theorem Normal.partsOf_spell (h : Normal absolute parts) :
    partsOf (String.ofList (spell absolute parts)) = parts := by
  have hbehind : behindRoot (String.ofList (spell absolute parts)) = List.intercalate ['/'] parts := by
    unfold behindRoot
    rw [h.rooted_spell, String.toList_ofList, slashed_of_not_mem h.not_mem_spell]
    cases absolute <;> rfl
  have hsplit := splitWhere_joined fun part hpart => (h.isPart part hpart).1
  unfold partsOf
  rw [hbehind, hsplit]
  by_cases hnil : parts = []
  · rw [hnil]
    rfl
  · have hjoined : List.intercalate ['/'] parts ≠ [] := by
      intro hempty
      rw [hempty, if_neg hnil] at hsplit
      -- the one piece of an empty text is empty and so no component
      exact (h.isPart [] (hsplit ▸ List.mem_singleton_self [])).1.1 rfl
    rw [if_neg hjoined, if_neg hnil]

theorem rooted_normalize (p : String) : rooted (normalize p) = rooted p := by
  rw [normalize_eq, (normal_onto p).rooted_spell]

theorem partsOf_normalize (p : String) : partsOf (normalize p) = (onto (rooted p) [] p).reverse := by
  rw [normalize_eq, (normal_onto p).partsOf_spell]

/-! ## Reading a normal form -/

/-- A path and its normal form lead to the same from an empty stack. -/
theorem onto_normalize_nil (p : String) :
    onto (rooted p) [] (normalize p) = onto (rooted p) [] p := by
  conv_lhs => unfold onto
  rw [partsOf_normalize, (normal_onto p).foldl_push, List.reverse_reverse]

private theorem named_push (h : ∀ q ∈ stack, q ≠ [] ∧ q ≠ ['.']) (part : Component) :
    ∀ q ∈ push absolute stack part, q ≠ [] ∧ q ≠ ['.'] := by
  intro q hq
  by_cases hpart : (part == [] || part == ['.']) = true
  · rw [push.eq_def, if_pos hpart] at hq
    exact h q hq
  · rcases mem_push hq with rfl | rfl | hold
    · simpa using hpart
    · decide
    · exact h q hold

private theorem push_named (hne : part ≠ []) (hdot : part ≠ ['.']) (habove : part ≠ above) :
    push absolute stack part = part :: stack := by
  simp [push, hne, hdot, habove]

private theorem push_above_cons {last : Component} (h : last ≠ above) :
    push absolute (last :: stack) above = stack := by
  have hname : above ≠ [] ∧ above ≠ ['.'] := by decide
  simp [push, hname.1, hname.2, h]

/-- What a component does to the stack of a relative path it does to every stack that the path is read on. -/
private theorem foldl_push_false {taken : List Component} (h : ∀ q ∈ taken, q ≠ [] ∧ q ≠ ['.'])
    (part : Component) (stack : List Component) :
    (push false taken part).reverse.foldl (push absolute) stack
      = push absolute (taken.reverse.foldl (push absolute) stack) part := by
  have hput : (part :: taken).reverse.foldl (push absolute) stack
      = push absolute (taken.reverse.foldl (push absolute) stack) part := by
    rw [List.reverse_cons, List.foldl_append]
    rfl
  by_cases hskip : (part == [] || part == ['.']) = true
  · rw [push.eq_def, if_pos hskip, push.eq_def, if_pos hskip]
  · by_cases habove : part = above
    · subst habove
      cases taken with
      | nil => rfl
      | cons last rest =>
        by_cases hlast : last = above
        · rw [← hput, hlast]
          rfl
        · -- the double dot takes off what was put on the stack just before
          obtain ⟨hne, hdot⟩ := h last List.mem_cons_self
          rw [push_above_cons hlast, List.reverse_cons, List.foldl_append, List.foldl_cons,
            List.foldl_nil, push_named hne hdot hlast, push_above_cons hlast]
    · simp only [Bool.or_eq_true, beq_iff_eq, not_or] at hskip
      rw [push_named hskip.1 hskip.2 habove, hput]

/-- **A relative path does to every stack what its normal form does.** -/
theorem onto_normalize (hp : rooted p = false) (absolute : Bool) (stack : List Component) :
    onto absolute stack (normalize p) = onto absolute stack p := by
  have hall : ∀ parts : List Component,
      (∀ q ∈ parts.foldl (push false) [], q ≠ [] ∧ q ≠ ['.']) ∧
        (parts.foldl (push false) []).reverse.foldl (push absolute) stack
          = parts.foldl (push absolute) stack := by
    intro parts
    induction parts using List.reverseRecOn with
    | nil => exact ⟨List.forall_mem_nil _, rfl⟩
    | append_singleton parts part ih =>
      simp only [List.foldl_append, List.foldl_cons, List.foldl_nil]
      exact ⟨named_push ih.1 part, by rw [foldl_push_false ih.1, ih.2]⟩
  conv_lhs => unfold onto
  rw [partsOf_normalize, hp]
  exact (hall (partsOf p)).2

/-! ## Joining -/

private theorem slashed_slash (a b : String) :
    slashed (a ++ "/" ++ b).toList = slashed a.toList ++ '/' :: slashed b.toList := by
  simp only [String.toList_append, List.append_assoc]
  unfold slashed
  rw [List.map_append, List.map_append]
  rfl

private theorem rooted_slash (ha : a ≠ "") : rooted (a ++ "/" ++ b) = rooted a := by
  obtain ⟨c, cs, hcons⟩ := List.exists_cons_of_ne_nil fun h => ha (String.toList_eq_nil_iff.mp h)
  unfold rooted
  rw [slashed_slash, hcons]
  rfl

/-- Two paths with a slash between them are read one after the other. -/
theorem onto_slash (absolute : Bool) (stack : List Component) (a b : String) :
    onto absolute stack (a ++ "/" ++ b) = onto absolute (onto absolute stack a) b := by
  rw [← foldl_pieces, slashed_slash, splitWhere_append_cons (p := (· == '/')) rfl, List.foldl_append,
    foldl_pieces, foldl_pieces]

theorem isAbsolute_of_rooted (h : rooted p = true) : isAbsolute p = true := by
  unfold rooted slashed at h
  unfold isAbsolute
  cases hp : p.toList with
  | nil => simp [hp] at h
  | cons c cs =>
    rw [hp] at h
    by_cases hc : c = '\\'
    · simp [hc]
    · have hslash : c = '/' := by simpa [hc] using h
      simp [hslash]

/-- Only a drive makes a path absolute that has no root. -/
theorem DriveFree.rooted_of_isAbsolute (h : DriveFree p) (habs : isAbsolute p = true) :
    rooted p = true := by
  by_contra hroot
  rw [Bool.not_eq_true] at hroot
  unfold isAbsolute at habs
  cases hp : p.toList with
  | nil => simp [hp] at habs
  | cons c cs =>
    have hslash : c ≠ '/' ∧ c ≠ '\\' := by
      unfold rooted slashed at hroot
      rw [hp] at hroot
      refine ⟨fun hc => ?_, fun hc => ?_⟩ <;> simp [hc] at hroot
    obtain ⟨halpha, hcolon⟩ : c.isAlpha = true ∧ cs.head? = some ':' := by
      simpa [hp, hslash.1, hslash.2] using habs
    obtain ⟨rest, rfl⟩ : ∃ rest, cs = ':' :: rest := by
      cases cs with
      | nil => simp at hcolon
      | cons d rest => exact ⟨rest, by rw [Option.some.inj hcolon]⟩
    have hbehind : behindRoot p = c :: ':' :: slashed rest := by
      unfold behindRoot slashed
      rw [hroot, hp]
      simp [hslash.2]
    -- the first component starts with the letter and the colon
    obtain ⟨q, hq, hdrive⟩ : ∃ q ∈ partsOf p, isDrive q = true := by
      unfold partsOf
      rw [hbehind, if_neg (List.cons_ne_nil _ _)]
      have hc : (c == '/') = false := beq_false_of_ne hslash.1
      cases hsplit : splitWhere (· == '/') (slashed rest) with
      | nil => exact absurd hsplit (splitWhere_ne_nil _ _)
      | cons piece pieces =>
        refine ⟨c :: ':' :: piece, ?_, halpha⟩
        simp [splitWhere, hc, hsplit]
    rw [h q hq] at hdrive
    cases hdrive

theorem DriveFree.isAbsolute_eq (h : DriveFree p) : isAbsolute p = rooted p := by
  cases hroot : rooted p with
  | true => exact isAbsolute_of_rooted hroot
  | false =>
    rw [← Bool.not_eq_true]
    intro habs
    rw [h.rooted_of_isAbsolute habs] at hroot
    cases hroot

theorem rooted_of_relative (h : isAbsolute p = false) : rooted p = false := by
  rw [← Bool.not_eq_true]
  intro hroot
  rw [isAbsolute_of_rooted hroot] at h
  cases h

/-- What a relative path is joined to is read first. -/
theorem exists_join (hb : isAbsolute b = false) :
    ∃ whole, join a b = normalize whole ∧ rooted whole = rooted a ∧
      ∀ absolute stack, onto absolute stack whole = onto absolute (onto absolute stack a) b := by
  unfold join
  by_cases ha : a = ""
  · subst ha
    refine ⟨b, by simp, rooted_of_relative hb, fun absolute stack => ?_⟩
    rw [onto_empty]
  · refine ⟨a ++ "/" ++ b, ?_, rooted_slash ha, fun _ _ => onto_slash _ _ a b⟩
    rw [if_neg]
    simpa [hb] using ha

theorem join_eq (hb : isAbsolute b = false) :
    join a b = String.ofList (spell (rooted a) (onto (rooted a) (onto (rooted a) [] a) b).reverse) := by
  obtain ⟨whole, hjoin, hroot, honto⟩ := exists_join (a := a) hb
  rw [hjoin, normalize_eq, hroot, honto]

theorem rooted_join (hb : isAbsolute b = false) : rooted (join a b) = rooted a := by
  obtain ⟨whole, hjoin, hroot, -⟩ := exists_join (a := a) hb
  rw [hjoin, rooted_normalize, hroot]

theorem onto_join_nil (hb : isAbsolute b = false) :
    onto (rooted a) [] (join a b) = onto (rooted a) (onto (rooted a) [] a) b := by
  obtain ⟨whole, hjoin, hroot, honto⟩ := exists_join (a := a) hb
  rw [hjoin, ← honto, ← hroot, onto_normalize_nil]

theorem onto_join (ha : rooted a = false) (hb : isAbsolute b = false) (absolute : Bool)
    (stack : List Component) :
    onto absolute stack (join a b) = onto absolute (onto absolute stack a) b := by
  obtain ⟨whole, hjoin, hroot, honto⟩ := exists_join (a := a) hb
  rw [hjoin, ← honto, onto_normalize (hroot.trans ha)]

/-! ## Drives -/

private theorem mem_onto {q : Component} (h : q ∈ onto absolute stack p) :
    q ∈ partsOf p ∨ q = above ∨ q ∈ stack := by
  have hall : ∀ (parts stack : List Component), q ∈ parts.foldl (push absolute) stack →
      q ∈ parts ∨ q = above ∨ q ∈ stack := by
    intro parts
    induction parts with
    | nil => exact fun _ h => .inr (.inr h)
    | cons part parts ih =>
      intro stack h
      rcases ih _ h with hparts | habove | hpush
      · exact .inl (List.mem_cons_of_mem part hparts)
      · exact .inr (.inl habove)
      · rcases mem_push hpush with rfl | habove | hstack
        · exact .inl List.mem_cons_self
        · exact .inr (.inl habove)
        · exact .inr (.inr hstack)
  exact hall (partsOf p) stack h

/-- The normal form of a path without drives has none. -/
theorem DriveFree.normalize (h : DriveFree p) : DriveFree (normalize p) := by
  intro q hq
  rw [partsOf_normalize, List.mem_reverse] at hq
  rcases mem_onto hq with hpart | rfl | hnil
  · exact h q hpart
  · rfl
  · exact absurd hnil List.not_mem_nil

theorem DriveFree.join (hb : DriveFree b) (hc : DriveFree c) (hrel : isAbsolute c = false) :
    DriveFree (join b c) := by
  intro q hq
  obtain ⟨whole, hjoin, hroot, honto⟩ := exists_join (a := b) hrel
  rw [hjoin, partsOf_normalize, List.mem_reverse, honto] at hq
  rcases mem_onto hq with hpart | rfl | hstack
  · exact hc q hpart
  · rfl
  · rcases mem_onto hstack with hpart | rfl | hnil
    · exact hb q hpart
    · rfl
    · exact absurd hnil List.not_mem_nil

/-! ## The laws -/

/-- Joining relative paths first makes no difference. -/
theorem join_join (hb : DriveFree b) (hc : DriveFree c) (hrelb : isAbsolute b = false)
    (hrelc : isAbsolute c = false) : join a (join b c) = join (join a b) c := by
  have hrel : isAbsolute (join b c) = false := by
    rw [(hb.join hc hrelc).isAbsolute_eq, rooted_join hrelc, rooted_of_relative hrelb]
  rw [join_eq hrel, onto_join (rooted_of_relative hrelb) hrelc, join_eq (a := join a b) hrelc,
    rooted_join hrelb, onto_join_nil hrelb]

/-- The normal forms of two paths are joined as the paths are. -/
theorem join_normalize (hb : DriveFree b) : join a b = join (normalize a) (normalize b) := by
  cases hroot : isAbsolute b with
  | true =>
    have hroot' : isAbsolute (normalize b) = true := by
      rw [hb.normalize.isAbsolute_eq, rooted_normalize, ← hb.isAbsolute_eq, hroot]
    unfold join
    simp only [hroot, hroot', Bool.or_true, if_true]
    rw [normalize_normalize]
  | false =>
    have hroot' : isAbsolute (normalize b) = false := by
      rw [hb.normalize.isAbsolute_eq, rooted_normalize, ← hb.isAbsolute_eq, hroot]
    rw [join_eq hroot, join_eq hroot', rooted_normalize, onto_normalize_nil,
      onto_normalize (rooted_of_relative hroot)]

theorem Normal.above_not_mem (h : Normal true parts) : above ∉ parts := by
  obtain ⟨k, rest, hparts, hrest, hk⟩ := h.front
  rw [hparts, hk rfl]
  exact hrest

/-- What stands in front of a path in normal form with a root is in normal form. -/
theorem Normal.front_of_append {more : List Component} (h : Normal true (parts ++ more)) :
    Normal true parts where
  isPart part hpart := h.isPart part (List.mem_append_left more hpart)
  front := ⟨0, parts, rfl, fun hmem => h.above_not_mem (List.mem_append_left more hmem), fun _ => rfl⟩

/-- The directory of a path in normal form with a root is the path without its last component. -/
theorem Normal.dirname_spell (h : Normal true (parts ++ [part])) :
    dirname (String.ofList (spell true (parts ++ [part]))) = String.ofList (spell true parts) := by
  have hlast : ∀ d ∈ part, (d == '/') = false := by
    intro d hd
    have hslash := (h.isPart part (by simp)).1.2.2
    exact beq_false_of_ne fun heq => hslash (heq ▸ hd)
  unfold dirname dirnameChars
  rw [String.toList_ofList, slashed_of_not_mem h.not_mem_spell]
  refine congrArg String.ofList ?_
  cases parts with
  | nil =>
    have hspell : spell true ([] ++ [part]) = [] ++ '/' :: part := by
      unfold spell
      rw [if_pos rfl, List.nil_append, List.intercalate_singleton, List.nil_append]
    rw [hspell, splitLast?_append_cons (p := (· == '/')) rfl hlast]
    rfl
  | cons q qs =>
    have hspell : spell true (q :: qs ++ [part])
        = ('/' :: List.intercalate ['/'] (q :: qs)) ++ '/' :: part := by
      unfold spell
      rw [if_pos rfl, intercalate_append (List.cons_ne_nil q qs) (List.cons_ne_nil part []),
        List.intercalate_singleton]
      rfl
    rw [hspell, splitLast?_append_cons (p := (· == '/')) rfl hlast]
    rfl

/-- Leaving as many directories as there are components behind a path leads back to it. -/
theorem Normal.iterate_dirname {more : List Component} (h : Normal true (parts ++ more)) :
    dirname^[more.length] (String.ofList (spell true (parts ++ more)))
      = String.ofList (spell true parts) := by
  induction more using List.reverseRecOn with
  | nil => rw [List.append_nil]; rfl
  | append_singleton more part ih =>
    rw [← List.append_assoc] at h ⊢
    rw [List.length_append, List.length_singleton, Function.iterate_succ_apply, h.dirname_spell,
      ih h.front_of_append]

/-- A path in normal form that does not start with a double dot has none. -/
private theorem above_not_mem_partsOf (hb : normalize b = b) (hfront : (partsOf b).head? ≠ some above) :
    above ∉ partsOf b := by
  have hnormal : Normal (rooted b) (partsOf b) := by
    have hparts := partsOf_normalize b
    rw [hb] at hparts
    rw [hparts]
    exact normal_onto b
  obtain ⟨k, rest, hparts, hrest, -⟩ := hnormal.front
  rw [hparts] at hfront ⊢
  cases k with
  | zero => exact hrest
  | succ k => exact absurd rfl hfront

/-- A path in normal form that leads into a directory is spelled behind it. -/
private theorem join_inside (ha : rooted a = true) (hb : normalize b = b) (hrel : isAbsolute b = false)
    (hfront : (partsOf b).head? ≠ some above) :
    ∃ parts, Normal true (parts ++ partsOf b) ∧
      normalize a = String.ofList (spell true parts) ∧
      join a b = String.ofList (spell true (parts ++ partsOf b)) := by
  have habove := above_not_mem_partsOf hb hfront
  have hparts : ∀ q ∈ partsOf b, IsPart q ∧ q ≠ above := by
    intro q hq
    refine ⟨?_, fun heq => habove (heq ▸ hq)⟩
    have hmem := hq
    rw [← hb, partsOf_normalize] at hmem
    exact ((normal_onto b).isPart q hmem).1
  have hjoin := join_eq (a := a) hrel
  have honto : onto true (onto true [] a) b = (partsOf b).reverse ++ onto true [] a :=
    foldl_push_parts hparts _
  rw [ha, honto, List.reverse_append, List.reverse_reverse] at hjoin
  refine ⟨(onto true [] a).reverse, ?_, ?_, hjoin⟩
  · obtain ⟨whole, -, -, hwhole⟩ := exists_join (a := a) hrel
    have hnormal := @normal_onto true whole
    rwa [hwhole, honto, List.reverse_append, List.reverse_reverse] at hnormal
  · rw [normalize_eq, ha]

/-- **Leaving what was joined.** The directories above a joined path lead back to where it was joined, after
as many steps as components were added and not before. -/
theorem iterate_dirname_join (ha : rooted a = true) (hb : normalize b = b) (hrel : isAbsolute b = false)
    (hfront : (partsOf b).head? ≠ some above) :
    dirname^[(partsOf b).length] (join a b) = normalize a ∧
      ∀ k < (partsOf b).length, dirname^[k] (join a b) ≠ normalize a := by
  obtain ⟨parts, hnormal, hnorm, hjoin⟩ := join_inside ha hb hrel hfront
  rw [hnorm, hjoin]
  refine ⟨hnormal.iterate_dirname, fun k hk heq => ?_⟩
  -- the first steps take off what stands behind the components that are left
  have hsplit : partsOf b = (partsOf b).take ((partsOf b).length - k) ++
      (partsOf b).drop ((partsOf b).length - k) := (List.take_append_drop _ _).symm
  have hlen : ((partsOf b).drop ((partsOf b).length - k)).length = k := by
    rw [List.length_drop]
    omega
  have hwhole := hnormal
  rw [hsplit, ← List.append_assoc] at hwhole
  have hsteps := hwhole.iterate_dirname
  rw [hlen, List.append_assoc, ← hsplit, heq] at hsteps
  have hparts := congrArg partsOf hsteps
  rw [hwhole.front_of_append.partsOf_spell, hnormal.front_of_append.partsOf_spell] at hparts
  have hlength := congrArg List.length hparts
  rw [List.length_append, List.length_take] at hlength
  omega

/-- **The laws of joined paths**, for paths without drives: what a normal form looks like, that it is its
own, that joining is associative, that it does not see whether its paths are in normal form, and that what
was joined is left again step by step. -/
theorem join_laws (a b c : String) (ha : DriveFree a) (hb : DriveFree b) (hc : DriveFree c) :
    normalize (normalize a) = normalize a ∧
    ((∀ q ∈ partsOf (normalize a), q ≠ [] ∧ q ≠ ['.']) ∧
      ∃ k rest, partsOf (normalize a) = List.replicate k above ++ rest ∧ above ∉ rest ∧
        (isAbsolute (normalize a) = true → k = 0)) ∧
    (isAbsolute b = false → isAbsolute c = false → join a (join b c) = join (join a b) c) ∧
    join a b = join (normalize a) (normalize b) ∧
    (isAbsolute a = true → normalize b = b → isAbsolute b = false → (partsOf b).head? ≠ some above →
      dirname^[(partsOf b).length] (join a b) = normalize a ∧
        ∀ k < (partsOf b).length, dirname^[k] (join a b) ≠ normalize a) := by
  have hnormal : Normal (rooted a) (partsOf (normalize a)) := by
    rw [partsOf_normalize]
    exact normal_onto a
  refine ⟨normalize_normalize a, ⟨fun q hq => ?_, ?_⟩, join_join hb hc, join_normalize hb,
    fun habs hnorm hrel hfront =>
      iterate_dirname_join (ha.rooted_of_isAbsolute habs) hnorm hrel hfront⟩
  · exact ⟨(hnormal.isPart q hq).1.1, (hnormal.isPart q hq).1.2.1⟩
  · obtain ⟨k, rest, hparts, hrest, hk⟩ := hnormal.front
    refine ⟨k, rest, hparts, hrest, fun habs => hk ?_⟩
    rw [← rooted_normalize]
    exact ha.normalize.rooted_of_isAbsolute habs

/-- A project whose directory is spelled with detours, a file in it, and a file beside that one. -/
theorem join_laws_detour :
    let a := "/project//src/../"
    let b := "img/logo.png"
    let c := "..\\icons/./home.png"
    (DriveFree a ∧ DriveFree b ∧ DriveFree c) ∧
    (isAbsolute a = true ∧ normalize b = b ∧ isAbsolute b = false ∧ isAbsolute c = false ∧
      (partsOf b).head? ≠ some above) ∧
    (join a (join b c) = "/project/img/icons/home.png" ∧ join (join a b) c = join a (join b c)) ∧
    (dirname^[2] (join a b) = "/project" ∧ normalize a = "/project") := by
  intro a b c
  have ha : DriveFree a := by decide +kernel
  have hb : DriveFree b := by decide +kernel
  have hc : DriveFree c := by decide +kernel
  have habs : isAbsolute a = true := by decide +kernel
  have hnorm : normalize b = b := by decide +kernel
  have hrelb : isAbsolute b = false := by decide +kernel
  have hrelc : isAbsolute c = false := by decide +kernel
  have hfront : (partsOf b).head? ≠ some above := by decide +kernel
  have hlen : (partsOf b).length = 2 := by decide +kernel
  have hdir : normalize a = "/project" := by decide +kernel
  obtain ⟨-, -, hassoc, -, hleave⟩ := join_laws a b c ha hb hc
  have hsteps := (hleave habs hnorm hrelb hfront).1
  rw [hlen] at hsteps
  refine ⟨⟨ha, hb, hc⟩, ⟨habs, hnorm, hrelb, hrelc, hfront⟩, ⟨by decide +kernel, ?_⟩,
    hsteps.trans hdir, hdir⟩
  exact (hassoc hrelb hrelc).symm

end Bundler.Path
