/-
Values for names in a merged bundle.

The names of a merged bundle get their values when the text is complete, so not in the modules alone: the
loader, the lines around the modules and the calls that run the entries are written by the same rule. If in
every module what is opened is closed, each part of the bundle gets its values for itself
(`mergedScript_parts`): a module is written as a script of its own would be, and what is around the modules
is written with values as well. What is around them has free names of its own, which are the names that the
loader declares and the words of the language that it is written in (`frameNames`). Only if none of these has
a value, the modules alone are written anew (`mergedScript_frame`).
-/
import Bundler.Bundle.Merged
import Bundler.Proofs.Defines

set_option autoImplicit false

namespace Bundler.Bundle

open Script Text

variable {as bs cs : List Char} {defines : OrderedMap String Json} {names : List (String × String)}

/-! ## The parts of a bundle -/

/-- The text of a module as it stands in a bundle: with the names it asks for, and as lines. -/
def body (names : List (String × String)) (m : Module) : List Char :=
  let text := renamed names m
  if text.getLast? == some '\n' then text else text ++ ['\n']

/-- The line in front of a module. -/
def headLine (names : List (String × String)) (id : String) : List Char :=
  (moduleHead (Json.quote (registeredName names id)) ++ "\n").toList

/-- The line behind a module. -/
def endLine : List Char := (moduleEnd ++ "\n").toList

/-- The lines in front of all modules. -/
def openingLines : List Char := ("(function()\x7b\n" ++ loader).toList

/-- The lines behind all modules. -/
def closingLines (modules : Modules) (names : List (String × String)) (entries : List String) : List Char :=
  (starts modules names entries ++ "\x7d)();\n").toList

/-- A module as it is registered, where a function writes the lines around it and another one its text. -/
def registered (frame written : List Char → List Char) (modules : Modules) (names : List (String × String))
    (id : String) : List Char :=
  match modules.get? id with
  | none => []
  | some m => frame (headLine names id) ++ (written (body names m) ++ frame endLine)

/-- The short names in a bundle, if there are any. -/
def bundleNames (modules : Modules) (entries : List String) (mangle : Bool) : List (String × String) :=
  if mangle then shortNames modules (moduleOrder modules (entryList modules entries)) else []

/-- A bundle, where a function writes what is around the modules and another one their texts. -/
def assembled (frame written : List Char → List Char) (modules : Modules) (entries : List String)
    (mangle : Bool) : List Char :=
  let names := bundleNames modules entries mangle
  frame openingLines ++
    ((moduleOrder modules (entryList modules entries)).flatMap (registered frame written modules names) ++
      frame (closingLines modules names (entryList modules entries)))

/-- A bundle without its comments or without the lines that name a source map. -/
def finished (o : MergedOptions) (code : List Char) : String :=
  if o.compress && !o.beautify then stripComments (String.ofList code) else withoutMapComments (String.ofList code)

/-- What is written as it is. -/
abbrev unchanged (cs : List Char) : List Char := cs

theorem toList_registration (modules : Modules) (names : List (String × String)) (id : String) :
    (registration modules names id).toList = registered unchanged unchanged modules names id := by
  unfold registration registered
  cases modules.get? id with
  | none => rfl
  | some m =>
    have hbody : (String.ofList (if (renamed names m).getLast? == some '\n' then renamed names m
        else renamed names m ++ ['\n'])).toList = body names m := String.toList_ofList
    simp only [String.toList_append, hbody, headLine, endLine, unchanged, List.append_assoc]

/-- A bundle is assembled first, then its names get their values, then it is finished. -/
theorem mergedScript_eq (modules : Modules) (entries : List String) (o : MergedOptions) :
    mergedScript modules entries o = finished o
      ((tokens (assembled unchanged unchanged modules entries o.mangle)).flatMap (Token.valued o.defines)) := by
  -- for any order and names, so that neither is computed where the text is taken apart
  have hcode : ∀ (order : List String) (names : List (String × String)) (entries : List String),
      ("(function()\x7b\n" ++ loader ++ String.join (order.map (registration modules names)) ++
        starts modules names entries ++ "\x7d)();\n").toList
      = openingLines ++ (order.flatMap (registered unchanged unchanged modules names) ++
          closingLines modules names entries) := by
    intro order names entries
    have hmodules : (String.join (order.map (registration modules names))).toList
        = order.flatMap (registered unchanged unchanged modules names) := by
      rw [String.toList_join, List.flatMap_map]
      simp only [toList_registration]
    have hsplit : ∀ a b c d e : String,
        (a ++ b ++ c ++ d ++ e).toList = (a ++ b).toList ++ (c.toList ++ (d ++ e).toList) := by
      intro a b c d e
      simp only [String.toList_append, List.append_assoc]
    delta openingLines closingLines
    rw [hsplit, hmodules]
  unfold assembled
  simp only [unchanged]
  rw [bundleNames, ← hcode, ← substituteDefines_eq]
  unfold finished
  rw [String.ofList_toList]
  rfl

/-! ## What is around the modules -/

/-- The free names around the modules: words of the language, and names that the loader declares or takes
from outside. -/
def frameNames : List String :=
  [
    "function", "var", "if", "return", "for", "else", "throw", "new", "typeof", "this",
    "R", "G", "defs", "done", "norm", "from", "name", "parts", "segs", "i", "load", "m", "f", "n",
    "Error", "window", "require", "module", "exports", "global"
  ]

/-- Lines around the modules: they lead from code to code, and no point stands last in them. -/
structure IsFrame (cs : List Char) : Prop where
  lines : IsLines cs
  code : Situation.code.after none cs = .code
  point : behindPoint cs.reverse = false
  names : ∀ name ∈ freeNames cs, name ∈ frameNames

instance (cs : List Char) : Decidable (IsFrame cs) :=
  decidable_of_iff (cs.getLast? = some '\n' ∧ Situation.code.after none cs = .code ∧
      behindPoint cs.reverse = false ∧ ∀ name ∈ freeNames cs, name ∈ frameNames)
    ⟨fun h => ⟨h.1, h.2.1, h.2.2.1, h.2.2.2⟩, fun h => ⟨h.lines, h.code, h.point, h.names⟩⟩

theorem IsFrame.tokens_append (h : IsFrame as) (bs : List Char) : tokens (as ++ bs) = tokens as ++ tokens bs :=
  Script.tokens_append h.lines h.code fun hpoint => by rw [h.point] at hpoint; cases hpoint

theorem IsFrame.append (h : IsFrame as) (h' : IsFrame bs) : IsFrame (as ++ bs) where
  lines := by
    rw [IsLines, List.getLast?_append, h'.lines]
    rfl
  code := by rw [Situation.after_append, h.lines.after_eq, h.code, h'.code]
  point := by rw [List.reverse_append, behindPoint_append, h'.point, h.point, Bool.and_false, Bool.or_false]
  names := by
    intro name hname
    rw [freeNames, h.tokens_append, List.filterMap_append] at hname
    rcases List.mem_append.mp hname with hname | hname
    · exact h.names name hname
    · exact h'.names name hname

/-- The characters of a literal text are taken as they stand there. -/
private theorem isFrame_line {line : List Char} (h : IsFrame (line ++ ['\n'])) :
    IsFrame ((String.ofList line).toList ++ ['\n']) := by
  rwa [String.toList_ofList]

private theorem isFrame_broken {front back : List Char} (h : IsFrame (front ++ back ++ ['\n'])) :
    IsFrame ((String.ofList front ++ String.ofList back).toList ++ ['\n']) := by
  rwa [String.toList_append, String.toList_ofList, String.toList_ofList]

theorem isFrame_loaderLines : ∀ line ∈ loaderLines, IsFrame (line.toList ++ ['\n']) := by
  unfold loaderLines
  repeat
    refine List.forall_mem_cons.mpr ⟨?_, ?_⟩
    · with_reducible first
      | refine isFrame_line ?_
      | refine isFrame_broken ?_
      decide +kernel
  exact List.forall_mem_nil _

theorem isFrame_openingLines : IsFrame openingLines := by
  have hlines : ∀ lines : List String, (∀ line ∈ lines, IsFrame (line.toList ++ ['\n'])) →
      ∀ cs, IsFrame cs → IsFrame (cs ++ lines.flatMap fun line => line.toList ++ ['\n']) := by
    intro lines
    induction lines with
    | nil =>
      intro _ cs hcs
      rwa [List.flatMap_nil, List.append_nil]
    | cons line lines ih =>
      intro hframe cs hcs
      rw [List.flatMap_cons, ← List.append_assoc]
      exact ih (fun l hl => hframe l (List.mem_cons_of_mem line hl)) _
        (hcs.append (hframe line List.mem_cons_self))
  have hloader : loader.toList = loaderLines.flatMap fun line => line.toList ++ ['\n'] := by
    delta loader
    rw [String.toList_join, List.flatMap_map]
    simp only [String.toList_append]
    rfl
  have hopening : openingLines
      = ['(', 'f', 'u', 'n', 'c', 't', 'i', 'o', 'n', '(', ')', '\x7b', '\n']
        ++ loaderLines.flatMap fun line => line.toList ++ ['\n'] := by
    delta openingLines
    rw [String.toList_append, hloader]
    rfl
  rw [hopening]
  exact hlines loaderLines isFrame_loaderLines _ (by decide +kernel)

/-- A quoted name in a line brings no free names. -/
theorem isFrame_quote {front back : List Char} (s : String)
    (hlast : ∀ c ∈ front.getLast?, continuesName c = false)
    (hcode : Situation.code.after (some '"') front = .code)
    (hnames : ∀ name ∈ (tokensFrom (some '"') .code .fresh front).filterMap Token.free?, name ∈ frameNames)
    (hback : IsFrame back) (hline : back.all isBlank = false) :
    IsFrame (front ++ ((Json.quote s).toList ++ back)) := by
  have hquoted : (Json.quote s).toList = '"' :: (s.toList.flatMap Json.escapeChar ++ ['"']) :=
    String.toList_ofList
  have hhead : ((Json.quote s).toList ++ back).head?.or none = some '"' := by
    rw [hquoted]
    rfl
  refine ⟨?_, ?_, ?_, ?_⟩
  · rw [IsLines, List.getLast?_append, List.getLast?_append, hback.lines]
    rfl
  · -- a quoted text is walked over from code to code
    have hquote : ∀ ahead, Situation.code.after ahead (Json.quote s).toList = .code := by
      intro ahead
      have hwalk : walk commas ahead (.code, 0) (Json.quote s).toList = some (.code, 0) := walk_quote s
      exact (walk_fst hwalk).symm
    rw [Situation.after_append, hhead, hcode, Situation.after_append, hquote, hback.code]
  · rw [List.reverse_append, List.reverse_append, List.append_assoc, behindPoint_append, hback.point,
      List.all_reverse, hline]
    rfl
  · obtain ⟨before, -, heq⟩ :=
      tokensFrom_append .code .fresh none hlast (fun _ => rfl) ((Json.quote s).toList ++ back)
    rw [hhead, hcode, tokensFrom_special (special?_quote s back)] at heq
    intro name hname
    rw [freeNames, tokens_eq_tokensFrom, heq, ← tokens_eq_tokensFrom] at hname
    simp only [List.filterMap_append, List.mem_append] at hname
    rcases hname with hname | (hname | hname) | hname
    · exact hnames name hname
    · cases hname
    · -- the tokens of a literal are no names
      obtain ⟨t, ht, hfree⟩ := List.mem_filterMap.mp hname
      simp [Piece.tokens] at ht
      obtain ⟨c, -, rfl⟩ := ht
      cases hfree
    · exact hback.names name hname

theorem isFrame_headLine (names : List (String × String)) (id : String) : IsFrame (headLine names id) := by
  have hline : headLine names id = ['R', '('] ++ ((Json.quote (registeredName names id)).toList ++
      (",function(require, module, exports, global)\x7b".toList ++ ['\n'])) := by
    unfold headLine moduleHead
    simp only [String.toList_append, List.append_assoc]
    rfl
  rw [hline]
  exact isFrame_quote _ (fun c hc => by cases hc; decide) (by decide) (by decide +kernel)
    (isFrame_line (by decide +kernel)) (by decide +kernel)

theorem isFrame_startLine (id : String) : IsFrame (start id ++ "\n").toList := by
  have hline : (start id ++ "\n").toList
      = ['R', '.', 'r', '('] ++ ((Json.quote id).toList ++ [')', ';', '\n']) := by
    unfold start
    simp only [String.toList_append, List.append_assoc]
    rfl
  rw [hline]
  exact isFrame_quote _ (fun c hc => by cases hc; decide) (by decide) (by decide +kernel) (by decide +kernel)
    (by decide)

theorem isFrame_endLine : IsFrame endLine := by decide +kernel

theorem isFrame_closingLines (modules : Modules) (names : List (String × String)) (entries : List String) :
    IsFrame (closingLines modules names entries) := by
  have hlines : closingLines modules names entries
      = ((entries.filter modules.contains).flatMap fun id => (start (registeredName names id) ++ "\n").toList)
        ++ ['\x7d', ')', '(', ')', ';', '\n'] := by
    unfold closingLines starts
    rw [String.toList_append, String.toList_join, List.flatMap_map]
    rfl
  rw [hlines]
  induction entries.filter modules.contains with
  | nil =>
    have hclosing : IsFrame ['\x7d', ')', '(', ')', ';', '\n'] := by decide +kernel
    exact hclosing
  | cons id ids ih =>
    rw [List.flatMap_cons, List.append_assoc]
    exact (isFrame_startLine _).append ih

/-! ## The parts get their values one by one -/

/-- What a part of a bundle is written as. -/
def valued (defines : OrderedMap String Json) (cs : List Char) : List Char :=
  (tokens cs).flatMap (Token.valued defines)

theorem IsFrame.valued_append (h : IsFrame as) (bs : List Char) :
    valued defines (as ++ bs) = valued defines as ++ valued defines bs := by
  rw [valued, h.tokens_append, List.flatMap_append]
  rfl

/-- Lines around the modules are kept if none of their names has a value. -/
theorem IsFrame.valued_eq (h : IsFrame cs) (hnone : ∀ name ∈ frameNames, defines.get? name = none) :
    valued defines cs = cs := by
  rw [valued, flatMap_valued_of_not_free fun name hname => hnone name (h.names name hname), flatMap_tokens]

theorem isLines_body (names : List (String × String)) (m : Module) : IsLines (body names m) := by
  unfold body
  simp only
  split
  · rename_i hbreak
    exact beq_iff_eq.mp hbreak
  · exact List.getLast?_append_of_ne_nil _ (List.cons_ne_nil _ _)

/-- The literals and comments of a module end in it. -/
def Ends (names : List (String × String)) (m : Module) : Prop :=
  Situation.code.after none (body names m) = .code

instance (names : List (String × String)) (m : Module) : Decidable (Ends names m) :=
  inferInstanceAs (Decidable (_ = _))

/-- A module is written for itself, since a line that ends it starts with a brace. -/
theorem valued_body_append {m : Module} (hends : Ends names m) (rest : List Char) :
    valued defines (body names m ++ (endLine ++ rest))
      = valued defines (body names m) ++ valued defines (endLine ++ rest) := by
  have hbrace : ∀ c ∈ (endLine ++ rest).head?, isBlank c = false ∧ startsName c = false := by
    intro c hc
    have hhead : endLine.head? = some '\x7d' := by decide +kernel
    rw [List.head?_append, hhead] at hc
    cases hc
    decide
  rw [valued, tokens_append (isLines_body names m) hends fun _ => hbrace, List.flatMap_append]
  rfl

theorem valued_registered {modules : Modules} {id : String}
    (hends : ∀ m, modules.get? id = some m → Ends names m) (rest : List Char) :
    valued defines (registered unchanged unchanged modules names id ++ rest)
      = registered (valued defines) (valued defines) modules names id ++ valued defines rest := by
  unfold registered
  cases hm : modules.get? id with
  | none => rfl
  | some m =>
    simp only [unchanged, List.append_assoc]
    rw [(isFrame_headLine names id).valued_append, valued_body_append (hends m hm),
      isFrame_endLine.valued_append]

theorem valued_modules {modules : Modules} {order : List String}
    (hends : ∀ id ∈ order, ∀ m, modules.get? id = some m → Ends names m) (rest : List Char) :
    valued defines (order.flatMap (registered unchanged unchanged modules names) ++ rest)
      = order.flatMap (registered (valued defines) (valued defines) modules names) ++ valued defines rest := by
  induction order with
  | nil => rfl
  | cons id order ih =>
    rw [List.flatMap_cons, List.flatMap_cons, List.append_assoc,
      valued_registered (hends id List.mem_cons_self), ih fun i hi => hends i (List.mem_cons_of_mem id hi),
      List.append_assoc]

/-- The modules of a bundle end their literals and comments. -/
def AllEnd (modules : Modules) (entries : List String) (mangle : Bool) : Prop :=
  ∀ id ∈ moduleOrder modules (entryList modules entries), ∀ m, modules.get? id = some m →
    Ends (bundleNames modules entries mangle) m

/-- **Each part of a bundle gets its values for itself.** If every module ends its literals and comments, the
names of a merged bundle are written in each module and in each part around them as in a script of its own. -/
theorem mergedScript_parts (modules : Modules) (entries : List String) (o : MergedOptions)
    (hends : AllEnd modules entries o.mangle) :
    mergedScript modules entries o = finished o
      (assembled (valued o.defines) (valued o.defines) modules entries o.mangle) := by
  rw [mergedScript_eq]
  refine congrArg (finished o) ?_
  change valued o.defines (assembled unchanged unchanged modules entries o.mangle) = _
  unfold assembled
  simp only [unchanged]
  rw [isFrame_openingLines.valued_append, valued_modules hends]

theorem assembled_valued (modules : Modules) (entries : List String) (mangle : Bool)
    (written : List Char → List Char) (hnone : ∀ name ∈ frameNames, defines.get? name = none) :
    assembled (valued defines) written modules entries mangle
      = assembled unchanged written modules entries mangle := by
  have hregistered : registered (valued defines) written modules
      = registered unchanged written modules := by
    funext names id
    unfold registered
    cases modules.get? id with
    | none => rfl
    | some m =>
      simp only [unchanged]
      rw [(isFrame_headLine names id).valued_eq hnone, isFrame_endLine.valued_eq hnone]
  unfold assembled
  simp only [unchanged]
  rw [isFrame_openingLines.valued_eq hnone, (isFrame_closingLines _ _ _).valued_eq hnone, hregistered]

/-- **What is around the modules.** If none of the free names around the modules has a value, a merged bundle
is the one without values but for the texts of its modules, which are written as scripts of their own. -/
theorem mergedScript_frame (modules : Modules) (entries : List String) (o : MergedOptions)
    (hends : AllEnd modules entries o.mangle) (hnone : ∀ name ∈ frameNames, o.defines.get? name = none) :
    mergedScript modules entries o = finished o (assembled unchanged
        (fun text => (substituteDefines (String.ofList text) o.defines).toList) modules entries o.mangle) ∧
    mergedScript modules entries { o with defines := .empty }
      = finished o (assembled unchanged unchanged modules entries o.mangle) := by
  constructor
  · have hwritten : valued o.defines
        = fun text => (substituteDefines (String.ofList text) o.defines).toList := by
      funext text
      rw [substituteDefines_eq, String.toList_ofList]
      rfl
    rw [mergedScript_parts modules entries o hends, assembled_valued modules entries o.mangle _ hnone, hwritten]
  · rw [mergedScript_eq, flatMap_valued_of_not_free fun _ _ => rfl, flatMap_tokens]
    rfl

example : substituteDefines "function norm(from, name)" ⟨[("name", .bool true)]⟩
    = "function norm(from, true)" := by
  decide +kernel

end Bundler.Bundle
