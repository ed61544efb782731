/-
Line breaks in what is read and written.

A script is written anew in places, and what follows such a place stays on its line just if the new text has
as many line breaks as the old one. So the line breaks of the texts are counted. A value has none: a string
is escaped, and the text of a JSON value is compact (`Json.lineBreaks_render`). An expression has those of the
texts that are kept in it, wherever it was put together (`Expr.breaks`), and a call those of its arguments.
A call that was read has no more of them than its text, since commas and the blanks around arguments are all
that is lost (`Script.breaks_le_of_read`). The statement for an import has those of the names in its list,
and all other names are read on one line (`Script.ImportPlaced.names_cases`).
-/
import Bundler.Proofs.Placement
import Mathlib.Algebra.Order.BigOperators.Group.List
import Mathlib.Algebra.Order.Ring.Nat

set_option autoImplicit false

namespace Bundler

open Text Step

namespace Text

/-! ## Line breaks -/

@[simp] theorem lineBreaks_append (as bs : List Char) :
    lineBreaks (as ++ bs) = lineBreaks as + lineBreaks bs := List.count_append

theorem lineBreaks_eq_zero_iff {cs : List Char} : lineBreaks cs = 0 ↔ '\n' ∉ cs := List.count_eq_zero

theorem lineBreaks_le_of_infix {as bs : List Char} (h : as <:+: bs) : lineBreaks as ≤ lineBreaks bs :=
  h.sublist.count_le '\n'

/-- Padding makes up for missing line breaks and takes none away. -/
theorem lineBreaks_padLines (text replaced : List Char) :
    lineBreaks (Script.padLines text replaced) = max (lineBreaks text) (lineBreaks replaced) := by
  have hpad : ∀ n, lineBreaks (List.replicate n '\n') = n := fun n => List.count_replicate_self
  unfold Script.padLines
  rw [lineBreaks_append, hpad]
  omega

/-- The line breaks of texts with a separator that has none. -/
theorem lineBreaks_intercalate {separator : List Char} (h : lineBreaks separator = 0) :
    ∀ texts : List (List Char),
      lineBreaks (separator.intercalate texts) = (texts.map lineBreaks).sum
  | [] => rfl
  | [text] => by simp
  | text :: next :: texts => by
    have hrest := lineBreaks_intercalate h (next :: texts)
    rw [List.intercalate_cons_cons, lineBreaks_append, lineBreaks_append, h, hrest]
    simp only [List.map_cons, List.sum_cons]
    omega

end Text

/-! ## Values on one line -/

/-- Nothing that stands for a character in quotes is a line break. -/
theorem Script.Spelled.not_mem {quote c : Char} {spelling : List Char} (h : Spelled quote spelling c) :
    '\n' ∉ spelling := by
  cases h with
  | plain _ _ hline => simpa using Ne.symm hline
  | letter _ h =>
    rintro (_ | ⟨_, _ | ⟨_, hmem⟩⟩)
    · cases h
    · cases hmem
  | code h =>
    rintro (_ | ⟨_, _ | ⟨_, hmem⟩⟩)
    exact ne_of_hexDigit? (isSome_of_coded? h '\n' hmem) (by decide) rfl

theorem Script.IsWordlike.ne {c : Char} (h : IsWordlike c) : c ≠ '\n' := by
  rintro rfl
  exact absurd h.blank (by decide)

namespace Json

theorem lineBreaks_quote (s : String) : lineBreaks (quote s).toList = 0 := by
  apply lineBreaks_eq_zero_iff.mpr
  unfold quote quoteChars
  rw [String.toList_ofList, List.cons_append, List.mem_cons, List.mem_append, not_or, not_or]
  refine ⟨by decide, ?_, by decide⟩
  intro hmem
  obtain ⟨c, -, hc⟩ := List.mem_flatMap.mp hmem
  exact (Script.spelled_escapeChar c).not_mem hc

theorem lineBreaks_bracket {opening closing : String} (hopening : lineBreaks opening.toList = 0)
    (hclosing : lineBreaks closing.toList = 0) {items : List String}
    (h : ∀ s ∈ items, lineBreaks s.toList = 0) :
    lineBreaks (bracket opening closing items).toList = 0 := by
  have hitems : ((items.map String.toList).map lineBreaks).sum = 0 := by
    apply List.sum_eq_zero
    intro n hn
    obtain ⟨cs, hcs, rfl⟩ := List.mem_map.mp hn
    obtain ⟨s, hs, rfl⟩ := List.mem_map.mp hcs
    exact h s hs
  unfold bracket
  rw [String.toList_append, String.toList_append, String.toList_intercalate, lineBreaks_append,
    lineBreaks_append, lineBreaks_intercalate (by decide), hopening, hclosing, hitems]

theorem isWordlike_renderData (x : Double) : ∀ c ∈ x.renderData.toList, Script.IsWordlike c := by
  have hsign : ∀ negative, ∀ c ∈ Double.signChars negative, Script.IsWordlike c := fun negative =>
    List.all_iff_forall_prop.mp (by cases negative <;> decide)
  have hzero : ∀ c ∈ "0.0".toList, Script.IsWordlike c := List.all_iff_forall_prop.mp (by decide)
  have hpoint : ∀ c ∈ ".0".toList, Script.IsWordlike c := List.all_iff_forall_prop.mp (by decide)
  have hdigits : ∀ n, ∀ c ∈ Double.digitChars n, Script.IsWordlike c := fun n c hc =>
    Script.isWordlike_of_mem_toDigits hc
  unfold Double.renderData
  intro c hc
  split at hc
  · rw [String.toList_ofList] at hc
    rcases List.mem_append.mp hc with hc | hc
    · exact hsign _ c hc
    split at hc
    · exact hzero c hc
    split at hc
    · split at hc
      · rcases List.mem_append.mp hc with hc | hc
        · exact Script.isWordlike_positional hc
        · exact hpoint c hc
      · exact Script.isWordlike_positional hc
    · simp only [List.mem_append, List.mem_cons] at hc
      rcases hc with hc | rfl | rfl | hc
      · split at hc
        · exact hdigits _ c hc
        · rcases List.mem_append.mp hc with hc | hc
          · exact hdigits _ c (List.mem_of_mem_take hc)
          · rcases List.mem_cons.mp hc with rfl | hc
            · decide
            · exact hdigits _ c (List.mem_of_mem_drop hc)
      · decide
      · split <;> decide
      · exact hdigits _ c hc
  · exact List.all_iff_forall_prop.mp (by decide) c hc

theorem lineBreaks_renderNumber (n : Number) : lineBreaks n.render.toList = 0 := by
  have hdigits : ∀ n : Nat, (toString n).toList = Nat.toDigits 10 n := fun _ => String.toList_ofList
  apply lineBreaks_eq_zero_iff.mpr
  intro hmem
  cases n with
  | natural n =>
    unfold Number.render at hmem
    rw [hdigits] at hmem
    exact (Script.isWordlike_of_mem_toDigits hmem).ne rfl
  | negative n =>
    unfold Number.render at hmem
    rw [String.toList_append, hdigits] at hmem
    rcases List.mem_append.mp hmem with hmem | hmem
    · revert hmem
      decide
    · exact (Script.isWordlike_of_mem_toDigits hmem).ne rfl
  | float x => exact (isWordlike_renderData x '\n' hmem).ne rfl

mutual

/-- The text of a value is one line. -/
theorem lineBreaks_render : ∀ v : Json, lineBreaks v.render.toList = 0
  | .null => by decide
  | .bool b => by cases b <;> decide
  | .number n => lineBreaks_renderNumber n
  | .string s => lineBreaks_quote s
  | .array items => lineBreaks_bracket (by decide) (by decide) (lineBreaks_renderItems items)
  | .object members => lineBreaks_bracket (by decide) (by decide) (lineBreaks_renderMembers members)

theorem lineBreaks_renderItems : ∀ (vs : List Json), ∀ s ∈ renderItems vs, lineBreaks s.toList = 0
  | [], s, hs => absurd hs List.not_mem_nil
  | v :: vs, s, hs => by
    rcases List.mem_cons.mp hs with rfl | hs
    · exact lineBreaks_render v
    · exact lineBreaks_renderItems vs s hs

theorem lineBreaks_renderMembers :
    ∀ (ms : List (String × Json)), ∀ s ∈ renderMembers ms, lineBreaks s.toList = 0
  | [], s, hs => absurd hs List.not_mem_nil
  | (k, v) :: ms, s, hs => by
    rcases List.mem_cons.mp hs with rfl | hs
    · rw [String.toList_append, String.toList_append, lineBreaks_append, lineBreaks_append,
        lineBreaks_quote, lineBreaks_render v]
      rfl
    · exact lineBreaks_renderMembers ms s hs

end

end Json

namespace Expr

/-- The number of line breaks in the text of an expression. -/
def breaks (e : Expr) : Nat := lineBreaks e.render.toList

/-- The number of line breaks in the texts of a list of expressions. -/
def allBreaks (es : List Expr) : Nat := (es.map breaks).sum

@[simp] theorem breaks_str (s : String) : breaks (.str s) = 0 := Json.lineBreaks_quote s

@[simp] theorem breaks_num (x : Double) : breaks (.num x) = 0 :=
  lineBreaks_eq_zero_iff.mpr fun h => (Script.isWordlike_renderNumber x '\n' h).ne rfl

@[simp] theorem breaks_bool (b : Bool) : breaks (.bool b) = 0 := by
  cases b <;> decide

@[simp] theorem breaks_null : breaks .null = 0 := by decide

/-- The literal for a JSON value is one line. -/
theorem breaks_ofJson (v : Json) : (ofJson v).breaks = 0 := by
  cases v with
  | null => exact breaks_null
  | bool b => exact breaks_bool b
  | number n => exact breaks_num _
  | string s => exact breaks_str s
  | array items => exact Json.lineBreaks_render (.array items)
  | object members => exact Json.lineBreaks_render (.object members)

@[simp] theorem allBreaks_nil : allBreaks [] = 0 := rfl

@[simp] theorem allBreaks_cons (e : Expr) (es : List Expr) : allBreaks (e :: es) = e.breaks + allBreaks es :=
  rfl

@[simp] theorem allBreaks_append (es es' : List Expr) :
    allBreaks (es ++ es') = allBreaks es + allBreaks es' := by
  unfold allBreaks
  rw [List.map_append, List.sum_append]

theorem allBreaks_replicate_null (n : Nat) : allBreaks (List.replicate n .null) = 0 := by
  unfold allBreaks
  rw [List.map_replicate, List.sum_replicate_nat, breaks_null, Nat.mul_zero]

theorem allBreaks_le_of_sublist {es es' : List Expr} (h : es.Sublist es') : allBreaks es ≤ allBreaks es' :=
  (h.map breaks).sum_le_sum fun n _ => Nat.zero_le n

theorem allBreaks_of_getElem? {es : List Expr} {i : Nat} {e : Expr} (h : es[i]? = some e) :
    allBreaks es = allBreaks (es.take i) + e.breaks + allBreaks (es.drop (i + 1)) := by
  have hdrop : es.drop i = e :: es.drop (i + 1) := by
    obtain ⟨hlt, rfl⟩ := List.getElem?_eq_some_iff.mp h
    exact List.drop_eq_getElem_cons hlt
  have hparts := allBreaks_append (es.take i) (es.drop i)
  rw [List.take_append_drop, hdrop, allBreaks_cons] at hparts
  omega

theorem lineBreaks_joined (es : List Expr) :
    lineBreaks (Script.joined (es.map fun e => e.render.toList)) = allBreaks es := by
  unfold Script.joined
  rw [lineBreaks_intercalate (by decide), List.map_map]
  rfl

@[simp] theorem breaks_lambda (items : List Expr) : breaks (.lambda items) = allBreaks items := by
  unfold breaks
  rw [render_lambda, String.toList_append, String.toList_append, toList_intercalate_renderAll,
    lineBreaks_append, lineBreaks_append, lineBreaks_joined]
  exact Nat.zero_add _

@[simp] theorem breaks_concat (left right : Expr) :
    breaks (.concat left right) = left.breaks + right.breaks := by
  unfold breaks
  rw [render_concat, String.toList_append, String.toList_append, lineBreaks_append, lineBreaks_append]
  rfl

end Expr

namespace Call

/-- The number of line breaks in the text of a call. -/
def breaks (c : Call) : Nat := lineBreaks c.render.toList

theorem breaks_eq (c : Call) : c.breaks = lineBreaks c.callee.toList + Expr.allBreaks c.args := by
  unfold breaks
  have hopen : lineBreaks ['('] = 0 := rfl
  have hclose : lineBreaks [')'] = 0 := rfl
  rw [toList_render, lineBreaks_append, ← List.singleton_append, lineBreaks_append, lineBreaks_append,
    Expr.lineBreaks_joined, hopen, hclose]
  omega

end Call

/-! ## Calls as they are read -/

namespace Script

/-- What is read of a text has no more line breaks than the text. -/
theorem breaks_readExpr_le (ls : Literals) (pos : Nat) (text : List Char) :
    (readExpr ls pos text).breaks ≤ lineBreaks text := by
  have hkept : Expr.breaks (.raw (String.ofList text)) = lineBreaks text := by
    unfold Expr.breaks Expr.render
    rw [String.toList_ofList]
  unfold readExpr
  split
  · simp
  simp only
  split
  · simp
  split
  · simp
  split
  · simp
  split
  · simp
  · exact Nat.le_of_eq hkept

/-- Cutting at commas loses no line break and makes none. -/
theorem sum_splitCommas (ls : Literals) : ∀ (cs : List Char) (pos depth : Nat),
    ((ls.splitCommas pos depth cs).map fun p => lineBreaks p.2).sum = lineBreaks cs
  | [], pos, depth => rfl
  | c :: cs, pos, depth => by
    have hextended : ∀ pieces : List Literals.Piece,
        ((Literals.extended pos [c] pieces).map fun p => lineBreaks p.2).sum
          = lineBreaks [c] + (pieces.map fun p => lineBreaks p.2).sum := by
      intro pieces
      cases pieces with
      | nil => rfl
      | cons p pieces =>
        simp only [Literals.extended, List.map_cons, List.sum_cons, lineBreaks_append, Nat.add_assoc]
    -- any other character than a comma between arguments goes to the first piece
    have hrest := fun d => sum_splitCommas ls cs (pos + c.utf8Size) d
    have hcons : lineBreaks (c :: cs) = lineBreaks [c] + lineBreaks cs := lineBreaks_append [c] cs
    rw [Literals.splitCommas_eq, hcons]
    split
    · rw [hextended, hrest]
    split
    · rw [hextended, hrest]
    split
    · rw [hextended, hrest]
    split
    · rename_i hcomma
      obtain ⟨hc, -⟩ := Bool.and_eq_true_iff.mp hcomma
      obtain rfl := beq_iff_eq.mp hc
      rw [List.map_cons, List.sum_cons, hrest]
      rfl
    · rw [hextended, hrest]

/-- The arguments have no more line breaks than what stands between the parentheses. -/
theorem allBreaks_splitArguments_le (ls : Literals) (pos : Nat) (inside : List Char) :
    Expr.allBreaks ((ls.splitArguments pos inside).map fun p => readExpr ls p.1 p.2)
      ≤ lineBreaks inside := by
  have hpieces : ∀ pieces : List Literals.Piece,
      Expr.allBreaks ((pieces.map Literals.trimPiece).map fun p => readExpr ls p.1 p.2)
        ≤ (pieces.map fun p => lineBreaks p.2).sum := by
    intro pieces
    induction pieces with
    | nil => exact Nat.le_refl 0
    | cons p pieces ih =>
      have hread := breaks_readExpr_le ls (Literals.trimPiece p).1 (Literals.trimPiece p).2
      have htrim : lineBreaks (Literals.trimPiece p).2 ≤ lineBreaks p.2 := by
        rw [Literals.trimPiece_snd]
        exact lineBreaks_le_of_infix (Literals.infix_trim p.2)
      simp only [List.map_cons, List.sum_cons, Expr.allBreaks_cons]
      omega
  have hall := hpieces (ls.splitCommas pos 0 inside)
  rw [sum_splitCommas] at hall
  unfold Literals.splitArguments
  simp only
  split
  · apply Nat.le_trans (Expr.allBreaks_le_of_sublist _) hall
    exact (List.dropLast_sublist _).map _
  · exact hall

theorem Pattern.mem_of_callee? {names : List String} {here paren : List Char} {name : String}
    (h : callee? names here = some (name, paren)) : name ∈ names := by
  obtain ⟨text, htext, h⟩ := List.exists_of_findSome?_eq_some h
  split at h
  · split at h
    · cases h
      exact htext
    · cases h
  · cases h

theorem CallRead.lineBreaks_callee {text here : List Char} {ls : Literals} {c : Call}
    (h : CallRead text ls here c) : lineBreaks c.callee.toList = 0 := by
  have hmethods : ∀ name ∈ Pattern.methods, lineBreaks ("b" ++ "." ++ name).toList = 0 := by decide
  have hfunctions : ∀ name ∈ Pattern.functions, lineBreaks name.toList = 0 := by decide
  obtain ⟨paren, -, -, hcall, -⟩ := h.found
  unfold Pattern.call? at hcall
  unfold Call.callee
  split at hcall
  · obtain ⟨⟨name, rest⟩, hname, heq⟩ := Option.map_eq_some_iff.mp hcall
    simp only [Prod.mk.injEq] at heq
    rw [← heq.1.1, ← heq.1.2]
    exact hmethods name (Pattern.mem_of_callee? hname)
  · obtain ⟨⟨name, rest⟩, hname, heq⟩ := Option.map_eq_some_iff.mp hcall
    simp only [Prod.mk.injEq] at heq
    rw [← heq.1.1, ← heq.1.2]
    exact hfunctions name (Pattern.mem_of_callee? hname)

/-- A call has no more line breaks than the text that it was read from. -/
theorem breaks_le_of_read {file source : String} {s : Script} {ds : List Diagnostic} {c : Call}
    {part : List Char} (h : read file source = .ok (s, ds)) (hc : c ∈ s.calls)
    (hpart : slice? source.toList c.span.start c.span.stop = some part) : c.breaks ≤ lineBreaks part := by
  obtain ⟨here, -, hread⟩ := exists_of_mem_calls h hc
  have hplaced := callPlaced_of_read h hc
  obtain ⟨opening, inside, behind, hinside, hstart, hstop, hargs⟩ := hplaced.inside
  have hle := allBreaks_splitArguments_le (.scan source.toList) (opening + 1) inside
  rw [← hargs] at hle
  -- what stands between the parentheses is a part of the text of the call
  obtain ⟨⟨_, hfrom⟩, ⟨behind', hto⟩, -⟩ := hplaced.span.toFits
  obtain ⟨before, rfl, hbefore⟩ := hfrom.exists_part hinside (by omega)
  have hwithin : inside <:+: part := by
    obtain ⟨last, rfl, hlast⟩ := (hinside.append inside).exists_part hto (by omega)
    have hwhole : Stands source.toList c.span.start ((before ++ inside ++ last) ++ behind') := by
      simpa only [List.append_assoc] using hfrom
    have hsize : c.span.stop = c.span.start + size (before ++ inside ++ last) := by
      rw [size_append, size_append]
      omega
    rw [hsize, hwhole.slice?] at hpart
    exact ⟨before, last, Option.some.inj hpart⟩
  have hbreaks := lineBreaks_le_of_infix hwithin
  rw [Call.breaks_eq, hread.lineBreaks_callee]
  omega

end Script

/-! ## Imports -/

/-- The names that a binding has from the text. -/
def Binding.names : Binding → List String
  | .bare => []
  | .whole name | .default name => [name]
  | .named names => names.flatMap fun n => [n.1, n.2]

namespace Script

theorem lineBreaks_importStatement (index : Nat) {b : Binding} (id : String)
    (h : ∀ name ∈ b.names, lineBreaks name.toList = 0) :
    lineBreaks (importStatement index b id).toList = 0 := by
  have hrequire : lineBreaks (requireCall id).toList = 0 := by
    unfold requireCall
    rw [String.toList_append, String.toList_append, lineBreaks_append, lineBreaks_append,
      Json.lineBreaks_quote]
    rfl
  have hholder : lineBreaks (holder index).toList = 0 := by
    have hdigits : (toString index).toList = Nat.toDigits 10 index := String.toList_ofList
    have hindex : lineBreaks (toString index).toList = 0 := by
      rw [hdigits]
      exact lineBreaks_eq_zero_iff.mpr fun hmem => (isWordlike_of_mem_toDigits hmem).ne rfl
    unfold holder
    rw [String.toList_append, lineBreaks_append, hindex]
    rfl
  cases b with
  | bare =>
    simp only [importStatement, String.toList_append, lineBreaks_append, hrequire]
    rfl
  | whole name =>
    have hname := h name List.mem_cons_self
    simp only [importStatement, String.toList_append, lineBreaks_append, hrequire, hname]
    rfl
  | default name =>
    have hname := h name List.mem_cons_self
    simp only [importStatement, String.toList_append, lineBreaks_append, hrequire, hname]
    rfl
  | named names =>
    have hdeclared : lineBreaks (String.join (names.map fun n =>
        ", " ++ n.2 ++ " = " ++ holder index ++ "." ++ n.1)).toList = 0 := by
      rw [String.toList_join]
      apply lineBreaks_eq_zero_iff.mpr
      intro hmem
      obtain ⟨text, htext, hbreak⟩ := List.mem_flatMap.mp hmem
      obtain ⟨n, hn, rfl⟩ := List.mem_map.mp htext
      have hboth : ∀ name ∈ [n.1, n.2], lineBreaks name.toList = 0 := fun name hname =>
        h name (List.mem_flatMap.mpr ⟨n, hn, hname⟩)
      have himported := hboth n.1 List.mem_cons_self
      have hlocal := hboth n.2 (List.mem_cons_of_mem _ List.mem_cons_self)
      refine lineBreaks_eq_zero_iff.mp ?_ hbreak
      simp only [String.toList_append, lineBreaks_append, hholder, himported, hlocal]
      rfl
    simp only [importStatement, String.toList_append, lineBreaks_append, hrequire, hholder]
    rw [hdeclared]
    rfl

theorem Pattern.lineBreaks_name? {cs rest : List Char} {name : String} (h : name? cs = some (name, rest)) :
    lineBreaks name.toList = 0 := by
  apply lineBreaks_eq_zero_iff.mpr
  intro hmem
  cases cs with
  | nil => cases h
  | cons c cs =>
    simp only [name?, Option.ite_none_right_eq_some, Option.some.injEq, Prod.mk.injEq] at h
    obtain ⟨hstart, hname, -⟩ := h
    rw [← hname, String.toList_ofList] at hmem
    rcases List.mem_cons.mp hmem with rfl | hmem
    · exact absurd hstart (by decide)
    · exact absurd (List.mem_takeWhile_imp hmem) (by decide)

/-- Names outside of a list are read on one line. -/
theorem Pattern.binding?_cases {cs rest : List Char} {b : Binding} (h : binding? cs = some (b, rest)) :
    (∃ names, b = .named names) ∨ ∀ name ∈ b.names, lineBreaks name.toList = 0 := by
  have hone : ∀ {name : String}, lineBreaks name.toList = 0 →
      ∀ name' ∈ [name], lineBreaks name'.toList = 0 := by
    intro name hname name' hname'
    obtain rfl := List.mem_singleton.mp hname'
    exact hname
  unfold binding? at h
  split at h
  · obtain ⟨rest₁, -, h⟩ := Option.bind_eq_some_iff.mp h
    obtain ⟨rest₂, -, h⟩ := Option.bind_eq_some_iff.mp h
    obtain ⟨rest₃, -, h⟩ := Option.bind_eq_some_iff.mp h
    obtain ⟨⟨name, rest₄⟩, hname, h⟩ := Option.bind_eq_some_iff.mp h
    cases h
    exact .inr (hone (Pattern.lineBreaks_name? hname))
  · simp only at h
    split at h
    · cases h
      exact .inl ⟨_, rfl⟩
    · cases h
  · obtain ⟨⟨name, rest'⟩, hname, heq⟩ := Option.map_eq_some_iff.mp h
    cases heq
    exact .inr (hone (Pattern.lineBreaks_name? hname))

theorem ImportPlaced.names_cases {text : List Char} {ls : Literals} {i : Import} (h : ImportPlaced text ls i) :
    (∃ names, i.binding = .named names) ∨ ∀ name ∈ i.binding.names, lineBreaks name.toList = 0 := by
  obtain ⟨here, behind, -, hfrom | hbare⟩ := h.found
  · obtain ⟨_, _, _, -, -, hbinding, -⟩ := Pattern.importFrom?_parts hfrom
    exact Pattern.binding?_cases hbinding
  · obtain ⟨_, _, _, -, -, -, hnone, -⟩ := Pattern.importBare?_parts hbare
    change i.binding = .bare at hnone
    rw [hnone]
    exact .inr fun name hname => absurd hname List.not_mem_nil

end Script

end Bundler
