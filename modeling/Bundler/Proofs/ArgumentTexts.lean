/-
Texts that stand as one argument of a call.

The end of a call and the commas between its arguments are looked for in the code of a whole text. Whether
a part of it keeps its place among the arguments can be told from the part alone: `walk` follows it from
code to the situation behind it and counts the brackets that it leaves open. A text is an argument if it
leads from code to code, closes what it opens and nothing else, has no comma outside of brackets, and no
blanks at its ends (`IsArgument`).

The texts of values are arguments (`Expr.isArgument_render`), as long as the texts that are kept in them
are: the spelling of a string is one literal, a number has no marks, and the texts of a list or a sum keep
to their own brackets.
-/
import Bundler.Proofs.Nodes
import Bundler.Proofs.StringValues

set_option autoImplicit false

namespace Bundler.Script

open Bundler.Text Literals

/-! ## Following a text -/

/-- Where a character leads in a situation, with a number of brackets open. Nothing is answered where it
closes a bracket and none is open, or where it is one of `bars` and stands in code outside of brackets. -/
def step (bars : Char → Bool) (place : Situation × Nat) (c : Char) (ahead : Option Char) :
    Option (Situation × Nat) :=
  let next := place.1.next c ahead
  if place.1.covers c ahead then some (next, place.2)
  else if isOpening c then some (next, place.2 + 1)
  else if isClosing c then if place.2 = 0 then none else some (next, place.2 - 1)
  else if bars c && place.2 == 0 then none
  else some (next, place.2)

/-- Where a text leads, where `ahead` is the character that follows it. -/
def walk (bars : Char → Bool) (ahead : Option Char) : Situation × Nat → List Char → Option (Situation × Nat)
  | place, [] => some place
  | place, c :: cs => (step bars place c (cs.head?.or ahead)).bind fun next => walk bars ahead next cs

/-- A character that makes no mark together with the one before it. -/
def IsMute (ahead : Option Char) : Prop := ahead ≠ some '/' ∧ ahead ≠ some '*'

instance (ahead : Option Char) : Decidable (IsMute ahead) := inferInstanceAs (Decidable (_ ∧ _))

/-- A character that does nothing in code. -/
structure IsPlain (c : Char) : Prop where
  calm : Situation.IsCalm c
  opening : isOpening c = false
  closing : isClosing c = false
  comma : (c == ',') = false

instance (c : Char) : Decidable (IsPlain c) :=
  decidable_of_iff (Situation.IsCalm c ∧ isOpening c = false ∧ isClosing c = false ∧ (c == ',') = false)
    ⟨fun h => ⟨h.1, h.2.1, h.2.2.1, h.2.2.2⟩, fun h => ⟨h.calm, h.opening, h.closing, h.comma⟩⟩

/-- The characters that do something in code. -/
def marks : List Char := ['/', '"', '\'', backquote, '(', ')', '[', ']', '\x7b', '\x7d', ',']

/-- Characters of a class without the marks do nothing in code. -/
theorem isPlain_of_class {p : Char → Bool} (hp : marks.any p = false) {c : Char} (h : p c = true) :
    IsPlain c := by
  have hc : c ∉ marks := fun hmem => List.any_eq_false.mp hp c hmem h
  simp only [marks, List.mem_cons, List.not_mem_nil, or_false, not_or] at hc
  refine ⟨⟨hc.1, ?_⟩, ?_, ?_, ?_⟩
  · simp [isQuote, hc]
  · simp [isOpening, hc]
  · simp [isClosing, hc]
  · simp [hc]

variable {bars bars' : Char → Bool} {ahead : Option Char} {place : Situation × Nat} {s s' : Situation}
  {depth depth' : Nat} {c : Char} {cs : List Char}

theorem step_eq (h : step bars (s, depth) c ahead = some (s', depth')) : s' = s.next c ahead := by
  unfold step at h
  simp only at h
  split at h
  · cases h; rfl
  split at h
  · cases h; rfl
  split at h
  · split at h
    · cases h
    · cases h; rfl
  split at h
  · cases h
  · cases h; rfl

/-- With more brackets around it a character leads to the same situation, and so it does where fewer
characters are barred. -/
theorem step_lift {k : Nat} (hbars : 0 < k ∨ ∀ c, bars' c = true → bars c = true)
    (h : step bars (s, depth) c ahead = some (s', depth')) :
    step bars' (s, depth + k) c ahead = some (s', depth' + k) := by
  unfold step at h ⊢
  simp only at h ⊢
  split at h
  · rw [if_pos ‹_›]
    cases h
    rfl
  rw [if_neg ‹_›]
  split at h
  · rw [if_pos ‹_›]
    cases h
    rw [Nat.add_right_comm]
  rw [if_neg ‹_›]
  split at h
  · rw [if_pos ‹_›]
    split at h
    · cases h
    · rw [if_neg (by omega)]
      cases h
      rw [Nat.sub_add_comm (by omega)]
  rw [if_neg ‹_›]
  split at h
  · cases h
  · rename_i hbar
    cases h
    rw [if_neg]
    intro hc
    rw [Bool.and_eq_true, beq_iff_eq] at hc
    rcases hbars with hk | hbars
    · omega
    · exact hbar (by rw [hbars c hc.1, Bool.true_and, beq_iff_eq]; omega)

theorem step_mute (h : IsMute ahead) : step bars place c ahead = step bars place c none := by
  have hslash : (ahead == some '/') = false := beq_eq_false_iff_ne.mpr h.1
  have hstar : (ahead == some '*') = false := beq_eq_false_iff_ne.mpr h.2
  have hnext : ∀ s : Situation, s.next c ahead = s.next c none := by
    intro s
    cases s with
    | code => simp [Situation.next, hslash, hstar]
    | block skip => cases skip <;> simp [Situation.next, hslash]
    | line | closing => rfl
    | quoted quote escaped => cases escaped <;> rfl
  have hcovers : place.1.covers c ahead = place.1.covers c none := by
    unfold Situation.covers
    rw [hnext]
  unfold step
  rw [hnext, hcovers]

/-- A covered character changes nothing but the situation. -/
theorem step_of_covers (h : s.covers c ahead = true) :
    step bars (s, depth) c ahead = some (s.next c ahead, depth) := if_pos h

theorem step_plain (hc : IsPlain c) (hbar : bars c = false) :
    step bars (.code, depth) c ahead = some (.code, depth) := by
  unfold step
  simp [Situation.covers_calm hc.calm, Situation.next_calm hc.calm, hc.opening, hc.closing, hbar]

theorem walk_cons : walk bars ahead place (c :: cs)
    = (step bars place c (cs.head?.or ahead)).bind fun next => walk bars ahead next cs := rfl

theorem walk_append (bs : List Char) : ∀ (as : List Char) (place : Situation × Nat),
    walk bars ahead place (as ++ bs)
      = (walk bars (bs.head?.or ahead) place as).bind fun next => walk bars ahead next bs
  | [], _ => rfl
  | a :: as, place => by
    rw [List.cons_append, walk_cons, walk_cons, List.head?_append, Option.or_assoc, Option.bind_assoc]
    simp only [walk_append bs as]

theorem walk_of_append {as bs : List Char} {place' : Situation × Nat}
    (h : walk bars (bs.head?.or ahead) place as = some place') :
    walk bars ahead place (as ++ bs) = walk bars ahead place' bs := by
  rw [walk_append, h]
  rfl

theorem walk_fst : ∀ {cs : List Char} {s : Situation} {depth : Nat},
    walk bars ahead (s, depth) cs = some (s', depth') → s' = s.after ahead cs
  | [], _, _, h => by
    cases h
    rfl
  | c :: cs, s, depth, h => by
    obtain ⟨⟨t, d⟩, hstep, h⟩ := Option.bind_eq_some_iff.mp h
    rw [Situation.after_cons, ← step_eq hstep]
    exact walk_fst h

theorem walk_lift {k : Nat} (hbars : 0 < k ∨ ∀ c, bars' c = true → bars c = true) :
    ∀ {cs : List Char} {s : Situation} {depth : Nat},
      walk bars ahead (s, depth) cs = some (s', depth') →
        walk bars' ahead (s, depth + k) cs = some (s', depth' + k)
  | [], _, _, h => by
    cases h
    rfl
  | c :: cs, s, depth, h => by
    obtain ⟨⟨t, d⟩, hstep, h⟩ := Option.bind_eq_some_iff.mp h
    rw [walk_cons, step_lift hbars hstep]
    exact walk_lift hbars h

theorem walk_mute (h : IsMute ahead) : ∀ {cs : List Char} {place : Situation × Nat},
    walk bars ahead place cs = walk bars none place cs
  | [], _ => rfl
  | c :: cs, place => by
    have hstep : step bars place c (cs.head?.or ahead) = step bars place c (cs.head?.or none) := by
      cases cs with
      | nil => exact step_mute h
      | cons d cs => rfl
    rw [walk_cons, walk_cons, hstep]
    simp only [walk_mute h]

/-- What follows a calm character in code does not matter. -/
theorem step_calm (hc : Situation.IsCalm c) :
    step bars (.code, depth) c ahead = step bars (.code, depth) c none := by
  unfold step
  simp only [Situation.covers_calm hc, Situation.next_calm hc]

theorem walk_calm : ∀ {cs : List Char} {depth : Nat}, (∀ c ∈ cs, Situation.IsCalm c) →
    walk bars ahead (.code, depth) cs = walk bars none (.code, depth) cs
  | [], _, _ => rfl
  | c :: cs, depth, h => by
    have hc := h c List.mem_cons_self
    have hcalm : ∀ a, step bars (.code, depth) c a = step bars (.code, depth) c none := fun _ => step_calm hc
    rw [walk_cons, walk_cons, hcalm, hcalm (cs.head?.or none)]
    cases hstep : step bars (.code, depth) c none with
    | none => rfl
    | some next =>
      obtain ⟨s, d⟩ := next
      rw [step_eq hstep, Situation.next_calm hc]
      exact walk_calm fun d hd => h d (List.mem_cons_of_mem _ hd)

theorem walk_plain (hbars : ∀ c, bars c = true → c = ',') :
    ∀ {cs : List Char}, (∀ c ∈ cs, IsPlain c) → walk bars ahead (.code, depth) cs = some (.code, depth)
  | [], _ => rfl
  | c :: cs, h => by
    have hc := h c List.mem_cons_self
    have hbar : bars c = false := by
      by_contra hne
      have heq := hbars c (by simpa using hne)
      exact absurd hc.comma (by rw [heq]; decide)
    rw [walk_cons, step_plain hc hbar]
    exact walk_plain hbars fun d hd => h d (List.mem_cons_of_mem _ hd)

/-! ## Quoted texts -/

section Quoted

variable {quote : Char}

theorem step_quoted {escaped : Bool} : step bars (.quoted quote escaped, depth) c ahead
    = some ((Situation.quoted quote escaped).next c ahead, depth) := step_of_covers rfl

private theorem walk_unmarked (rest : List Char) :
    ∀ {cs : List Char}, (∀ d ∈ cs, d ≠ quote ∧ d ≠ '\\' ∧ d ≠ '\n') →
      walk bars ahead (.quoted quote false, depth) (cs ++ rest)
        = walk bars ahead (.quoted quote false, depth) rest
  | [], _ => rfl
  | d :: cs, h => by
    obtain ⟨hd, hbackslash, hfeed⟩ := h d List.mem_cons_self
    have hnext : ∀ a, (Situation.quoted quote false).next d a = .quoted quote false := by
      intro a
      simp [Situation.next, hd, hbackslash, hfeed]
    rw [List.cons_append, walk_cons, step_quoted, hnext]
    exact walk_unmarked rest fun e he => h e (List.mem_cons_of_mem _ he)

/-- A reader between quotes stays there over the spelling of a text. -/
theorem walk_spells (hquote : quote = '"' ∨ quote = '\'') {body value : List Char}
    (h : Spells quote body value) (rest : List Char) :
    walk bars ahead (.quoted quote false, depth) (body ++ rest)
      = walk bars ahead (.quoted quote false, depth) rest := by
  have hescape : ∀ d rest, walk bars ahead (.quoted quote false, depth) ('\\' :: d :: rest)
      = walk bars ahead (.quoted quote false, depth) rest := by
    intro d rest
    have hbackslash : '\\' ≠ quote := by rcases hquote with rfl | rfl <;> decide
    have hnext : ∀ a, (Situation.quoted quote false).next '\\' a = .quoted quote true := by
      intro a
      simp [Situation.next, hbackslash]
    rw [walk_cons, step_quoted, hnext, Option.bind_some, walk_cons, step_quoted]
    rfl
  induction h with
  | nil => rfl
  | @cons spelling body value c hc h ih =>
    rw [List.append_assoc]
    refine Eq.trans ?_ ih
    cases hc with
    | plain hc hbackslash hfeed =>
      exact walk_unmarked (body ++ rest)
        fun d hd => List.mem_singleton.mp hd ▸ ⟨hc, hbackslash, hfeed⟩
    | letter hd h => exact hescape _ _
    | @code digits _ h =>
      rw [List.cons_append, List.cons_append, hescape]
      refine walk_unmarked (body ++ rest) fun d hd => ?_
      have hsome := isSome_of_coded? h d hd
      refine ⟨?_, ne_of_hexDigit? hsome rfl, ne_of_hexDigit? hsome rfl⟩
      rcases hquote with rfl | rfl <;> exact ne_of_hexDigit? hsome rfl

/-- A quoted text leads from code to code. -/
theorem walk_quote (s : String) :
    walk bars ahead (.code, depth) (Json.quote s).toList = some (.code, depth) := by
  have hquoted : (Json.quote s).toList = '"' :: (s.toList.flatMap Json.escapeChar ++ ['"']) :=
    String.toList_ofList
  have hopen : ∀ a, step bars (.code, depth) '"' a = some (.quoted '"' false, depth) :=
    fun _ => step_of_covers rfl
  rw [hquoted, walk_cons, hopen, Option.bind_some,
    walk_spells (.inl rfl) (spells_flatMap_escapeChar s.toList)]
  rfl

end Quoted

/-! ## Arguments -/

/-- The bar of an argument: a comma outside of brackets begins another one. -/
def commas (c : Char) : Bool := c == ','

theorem eq_of_commas (c : Char) (h : commas c = true) : c = ',' := beq_iff_eq.mp h

/-- A text that stands as one argument of a call. -/
structure IsArgument (text : List Char) : Prop where
  leads : walk commas none (.code, 0) text = some (.code, 0)
  trimmed : Trimmed text

/-- Characters that may stand anywhere make an argument. -/
structure IsWordlike (c : Char) : Prop extends IsPlain c where
  blank : isBlank c = false

theorem isArgument_of_wordlike {text : List Char} (h : ∀ c ∈ text, IsWordlike c) : IsArgument text where
  leads := walk_plain eq_of_commas fun c hc => (h c hc).toIsPlain
  trimmed := ⟨fun c hc => (h c (List.mem_of_mem_head? hc)).blank,
    fun c hc => (h c (List.mem_of_getLast? hc)).blank⟩

theorem isArgument_quote (s : String) : IsArgument (Json.quote s).toList where
  leads := walk_quote s
  trimmed := by
    have hquoted : (Json.quote s).toList = '"' :: (s.toList.flatMap Json.escapeChar ++ ['"']) :=
      String.toList_ofList
    rw [hquoted]
    refine ⟨fun _ hc => by cases hc; decide, fun c hc => ?_⟩
    rw [← List.cons_append, List.getLast?_append_of_ne_nil _ (List.cons_ne_nil _ _)] at hc
    cases hc
    decide

/-! ### Numbers -/

instance (c : Char) : Decidable (IsWordlike c) :=
  decidable_of_iff (IsPlain c ∧ isBlank c = false) ⟨fun h => ⟨h.1, h.2⟩, fun h => ⟨h.toIsPlain, h.blank⟩⟩

theorem isWordlike_of_isDigit (h : c.isDigit = true) : IsWordlike c := by
  have hall : ∀ n < 58, 48 ≤ n → IsWordlike (Char.ofNat n) := by decide
  unfold Char.isDigit at h
  simp only [Bool.and_eq_true, decide_eq_true_eq, UInt32.le_iff_toNat_le, ge_iff_le] at h
  have hlow : '0'.toNat ≤ c.toNat := h.1
  have hhigh : c.toNat ≤ '9'.toNat := h.2
  have hc := hall c.toNat (Nat.lt_succ_of_le hhigh) hlow
  rwa [Char.ofNat_toNat] at hc

theorem isWordlike_of_mem_toDigits {n : Nat} (h : c ∈ Nat.toDigits 10 n) : IsWordlike c :=
  isWordlike_of_isDigit (Nat.isDigit_of_mem_toDigits (by decide) (by decide) h)

theorem isWordlike_positional {n : Nat} {t : Int} (h : c ∈ Double.positional n t) : IsWordlike c := by
  have hzeros : ∀ k, c ∈ List.replicate k '0' → IsWordlike c := fun k hc => by
    rw [(List.mem_replicate.mp hc).2]
    decide
  unfold Double.positional Double.digitChars at h
  simp only at h
  split at h
  · rcases List.mem_append.mp h with h | h
    · exact isWordlike_of_mem_toDigits h
    · exact hzeros _ h
  split at h
  · rcases List.mem_append.mp h with h | h
    · exact isWordlike_of_mem_toDigits (List.mem_of_mem_take h)
    · rcases List.mem_cons.mp h with rfl | h
      · decide
      · exact isWordlike_of_mem_toDigits (List.mem_of_mem_drop h)
  · rw [List.cons_append, List.cons_append] at h
    rcases List.mem_cons.mp h with rfl | h
    · decide
    rcases List.mem_cons.mp h with rfl | h
    · decide
    rcases List.mem_append.mp h with h | h
    · exact hzeros _ h
    · exact isWordlike_of_mem_toDigits h

theorem isWordlike_render (x : Double) : ∀ c ∈ x.render.toList, IsWordlike c := by
  have hsign : ∀ negative, ∀ c ∈ Double.signChars negative, IsWordlike c := fun negative =>
    List.all_iff_forall_prop.mp (by cases negative <;> decide)
  have hinf : ∀ c ∈ "inf".toList, IsWordlike c := List.all_iff_forall_prop.mp (by decide)
  unfold Double.render
  intro c hc
  split at hc
  · exact List.all_iff_forall_prop.mp (by decide) c hc
  · rw [String.toList_ofList] at hc
    rcases List.mem_append.mp hc with hc | hc
    · exact hsign _ c hc
    · exact hinf c hc
  · rw [String.toList_ofList] at hc
    rcases List.mem_append.mp hc with hc | hc
    · exact hsign _ c hc
    · exact isWordlike_positional hc

theorem isWordlike_renderNumber (x : Double) : ∀ c ∈ (Expr.renderNumber x).toList, IsWordlike c := by
  have hdigits : ∀ n : Nat, (toString n).toList = Nat.toDigits 10 n := fun _ => String.toList_ofList
  intro c hc
  unfold Expr.renderNumber at hc
  split at hc
  · split at hc
    · rw [String.toList_append] at hc
      rcases List.mem_append.mp hc with hc | hc
      · split at hc
        · obtain rfl := List.mem_singleton.mp hc
          decide
        · cases hc
      · rw [hdigits] at hc
        exact isWordlike_of_mem_toDigits hc
    · exact isWordlike_render x c hc
  · exact isWordlike_render x c hc

theorem isArgument_renderNumber (x : Double) : IsArgument (Expr.renderNumber x).toList :=
  isArgument_of_wordlike (isWordlike_renderNumber x)

/-! ### Values with parts -/

/-- The texts of a list one after the other, each with a comma and a blank behind it but the last. -/
def joined (texts : List (List Char)) : List Char := [',', ' '].intercalate texts

theorem joined_cons_cons (t u : List Char) (ts : List (List Char)) :
    joined (t :: u :: ts) = t ++ (',' :: ' ' :: joined (u :: ts)) := by
  unfold joined
  rw [List.intercalate_cons_cons, List.append_assoc]
  rfl

/-- An argument leads from code to code, inside of brackets or not. -/
theorem IsArgument.walk_in {text : List Char} (h : IsArgument text)
    (hbars : ∀ c, bars c = true → c = ',') (hahead : IsMute ahead) :
    walk bars ahead (.code, depth) text = some (.code, depth) := by
  have hlift := walk_lift (k := depth)
    (.inr fun c hc => beq_iff_eq.mpr (hbars c hc) : 0 < depth ∨ ∀ c, bars c = true → commas c = true) h.leads
  rw [Nat.zero_add] at hlift
  rw [walk_mute hahead, hlift]

/-- Arguments with commas between them lead from code to code, inside of brackets or where commas are not
barred. -/
theorem walk_joined (hcomma : 0 < depth ∨ bars ',' = false) (hbars : ∀ c, bars c = true → c = ',')
    (hahead : IsMute ahead) : ∀ {texts : List (List Char)}, (∀ t ∈ texts, IsArgument t) →
      walk bars ahead (.code, depth) (joined texts) = some (.code, depth)
  | [], _ => rfl
  | [t], ht => by
    have hone : joined [t] = t := List.intercalate_singleton
    rw [hone]
    exact (ht t List.mem_cons_self).walk_in hbars hahead
  | t :: u :: ts, ht => by
    have hstep : ∀ a, step bars (.code, depth) ',' a = some (.code, depth) := by
      intro a
      have hbar : (bars ',' && depth == 0) = false := by
        rcases hcomma with hdepth | hnone
        · simp [Nat.ne_of_gt hdepth]
        · simp [hnone]
      have hcalm : Situation.IsCalm ',' := by decide
      unfold step
      simp [Situation.covers_calm hcalm, Situation.next_calm hcalm, hbar, isOpening, isClosing]
    have hblank : ∀ a, step bars (.code, depth) ' ' a = some (.code, depth) := fun a =>
      step_plain (by decide) (by
        by_contra hne
        exact absurd (hbars ' ' (by simpa using hne)) (by decide))
    have hfirst : walk bars (some ',') (.code, depth) t = some (.code, depth) :=
      (ht t List.mem_cons_self).walk_in hbars (by decide)
    rw [joined_cons_cons, walk_of_append hfirst, walk_cons, hstep, Option.bind_some, walk_cons, hblank]
    exact walk_joined hcomma hbars hahead fun v hv => ht v (List.mem_cons_of_mem _ hv)

end Bundler.Script

namespace Bundler.Expr

open Script Text

mutual

/-- The texts that are kept in an expression are arguments. -/
def Sound : Expr → Prop
  | .raw text => IsArgument text.toList
  | .lambda items => AllSound items
  | .concat left right => Sound left ∧ Sound right
  | .str _ | .num _ | .bool _ | .null => True

/-- So are those in a list of expressions. -/
def AllSound : List Expr → Prop
  | [] => True
  | e :: es => Sound e ∧ AllSound es

end

theorem allSound_iff : ∀ {es : List Expr}, AllSound es ↔ ∀ e ∈ es, Sound e
  | [] => by simp [AllSound]
  | e :: es => by simp [AllSound, allSound_iff]

theorem toList_intercalate_renderAll (es : List Expr) :
    (String.intercalate ", " (renderAll es)).toList = joined (es.map fun e => e.render.toList) := by
  have hall : renderAll es = es.map render := by
    induction es with
    | nil => rfl
    | cons e es ih => rw [renderAll, ih, List.map_cons]
  rw [String.toList_intercalate, hall, List.map_map]
  rfl

theorem render_lambda (items : List Expr) : (Expr.lambda items).render
    = "function()\x7breturn [" ++ String.intercalate ", " (renderAll items) ++ "];\x7d" := rfl

theorem render_concat (left right : Expr) :
    (Expr.concat left right).render = left.render ++ "+" ++ right.render := rfl

/-- A list of arguments in a function is an argument. -/
theorem isArgument_lambda {items : List Expr} (h : ∀ e ∈ items, IsArgument e.render.toList) :
    IsArgument (Expr.lambda items).render.toList := by
  have htext : (Expr.lambda items).render.toList = "function()\x7breturn [".toList ++
      (joined (items.map fun e => e.render.toList) ++ "];\x7d".toList) := by
    rw [render_lambda, String.toList_append, String.toList_append, toList_intercalate_renderAll,
      List.append_assoc]
  have hopen : ∀ ahead, walk commas ahead (.code, 0) "function()\x7breturn [".toList
      = some (.code, 2) := fun ahead => (walk_calm (List.all_iff_forall_prop.mp (by decide))).trans (by decide)
  have hinside : walk commas (some ']') (.code, 2) (joined (items.map fun e => e.render.toList))
      = some (.code, 2) :=
    walk_joined (.inl (by decide)) eq_of_commas (by decide) fun t ht => by
      obtain ⟨e, he, rfl⟩ := List.mem_map.mp ht
      exact h e he
  rw [htext]
  refine ⟨?_, fun c hc => ?_, fun c hc => ?_⟩
  · rw [walk_of_append (hopen _), walk_of_append hinside]
    rfl
  · cases hc
    decide
  · rw [← List.append_assoc, List.getLast?_append_of_ne_nil _ (by decide)] at hc
    cases hc
    decide

/-- The sum of two arguments is an argument. -/
theorem isArgument_concat {left right : Expr} (hl : IsArgument left.render.toList)
    (hr : IsArgument right.render.toList) : IsArgument (Expr.concat left right).render.toList := by
  have htext : (Expr.concat left right).render.toList
      = left.render.toList ++ '+' :: right.render.toList := by
    rw [render_concat, String.toList_append, String.toList_append, List.append_assoc]
    rfl
  have hleft : walk commas (some '+') (.code, 0) left.render.toList = some (.code, 0) :=
    hl.walk_in eq_of_commas (by decide)
  have hplus : ∀ ahead, step commas (.code, 0) '+' ahead = some (.code, 0) := fun _ =>
    step_plain (by decide) (by decide)
  rw [htext]
  refine ⟨?_, fun c hc => ?_, fun c hc => ?_⟩
  · rw [walk_of_append hleft, walk_cons, hplus]
    exact hr.leads
  · rw [List.head?_append] at hc
    cases hfirst : left.render.toList.head? with
    | none =>
      rw [hfirst] at hc
      cases hc
      decide
    | some d =>
      rw [hfirst] at hc
      cases hc
      exact hl.trimmed.first _ hfirst
  · cases hlast : right.render.toList.getLast? with
    | none =>
      rw [List.getLast?_eq_none_iff.mp hlast, List.getLast?_append_of_ne_nil _ (by decide)] at hc
      cases hc
      decide
    | some d =>
      rw [List.getLast?_append, List.getLast?_cons, hlast] at hc
      cases hc
      exact hr.trimmed.last _ hlast

mutual

/-- The text of an expression is an argument. -/
theorem isArgument_render : ∀ {e : Expr}, e.Sound → IsArgument e.render.toList
  | .str s, _ => isArgument_quote s
  | .num x, _ => isArgument_renderNumber x
  | .bool true, _ => isArgument_of_wordlike (List.all_iff_forall_prop.mp (by decide))
  | .bool false, _ => isArgument_of_wordlike (List.all_iff_forall_prop.mp (by decide))
  | .null, _ => isArgument_of_wordlike (List.all_iff_forall_prop.mp (by decide))
  | .raw _, h => h
  | .lambda items, h => isArgument_lambda (isArgument_renderAll h)
  | .concat _ _, h => isArgument_concat (isArgument_render h.1) (isArgument_render h.2)

theorem isArgument_renderAll : ∀ {es : List Expr}, AllSound es → ∀ e ∈ es, IsArgument e.render.toList
  | e :: es, h, e', he => by
    rcases List.mem_cons.mp he with heq | he
    · rw [heq]
      exact isArgument_render h.1
    · exact isArgument_renderAll h.2 e' he

end

end Bundler.Expr
