/-
Tokens: a YAML text cut into scalars and marks.

Tokens say where lists and records start and end, also where only indentation says so. Indentation
counts outside of brackets: an item or a key that stands further right than the open list or record
opens one of its own, and what stands further left closes all that start further right.

That a scalar or a bracket starts a key shows only at the colon behind it. So the scanner remembers
the last place where a key may have started, one for each pair of open brackets, and puts the token
for the key there when the colon comes. The colon has to come on the same line and within 1024
characters. Where a line starts at the column of an open list or record, it has to come at all.

Anchors, tags, directives and block texts are not known; they are refused like everything that is
no document.
-/
import Bundler.Yaml.Scalar

set_option autoImplicit false

namespace Bundler.Yaml

/-- A token. -/
inductive Token where
  | documentStart
  | documentEnd
  /-- A list by indentation. -/
  | blockListStart
  /-- A record by indentation. -/
  | blockRecordStart
  /-- The end of a list or record by indentation. -/
  | blockEnd
  | listStart
  | listEnd
  | recordStart
  | recordEnd
  /-- The comma inside brackets. -/
  | comma
  /-- The dash in front of an item. -/
  | item
  | key
  | value
  | scalar (text : String) (plain : Bool)
  deriving DecidableEq

/-! ## The state of the scanner -/

/-- A place where a key may have started. -/
structure KeyPlace where
  /-- A key has to start there. -/
  required : Bool
  /-- The number of tokens in front of it. -/
  number : Nat
  start : PlacedChar

/-- How far the scanner has come. -/
structure Scanner where
  rest : List PlacedChar
  /-- The tokens so far. -/
  tokens : Array Token
  /-- The columns of the open lists and records by indentation, the innermost first. -/
  indents : List Nat
  /-- Where a key may have started between the innermost brackets. -/
  keyPlace : Option KeyPlace
  /-- The same for the brackets around them, the innermost first. -/
  outerKeyPlaces : List (Option KeyPlace)
  /-- Whether a key may start here. -/
  keyAllowed : Bool

namespace Scanner

/-- The scanner in front of a text. -/
def start (rest : List PlacedChar) : Scanner := ⟨rest, #[], [], none, [], true⟩

/-- Whether the scanner is inside brackets. -/
def inFlow (s : Scanner) : Bool := !s.outerKeyPlaces.isEmpty

/-- Adds a token. -/
def add (s : Scanner) (t : Token) : Scanner := { s with tokens := s.tokens.push t }

/-- Puts a token behind the first `number` tokens. -/
def insert (s : Scanner) (number : Nat) (t : Token) : Scanner :=
  { s with tokens := s.tokens.insertIdxIfInBounds number t }

/-- Says whether a key may start next. -/
def allowKey (s : Scanner) (keyAllowed : Bool) : Scanner := { s with keyAllowed }

/-! ## Indentation -/

/-- Opens a list or record at a column, if it stands further right than the open one. Its token
comes behind the first `number` tokens. -/
def openBlock (s : Scanner) (column number : Nat) (t : Token) : Scanner :=
  if s.inFlow || s.indents.head?.any (column ≤ ·) then s
  else { s.insert number t with indents := column :: s.indents }

/-- Closes the lists and records for which `isClosed` says so, the innermost first. -/
def closeBlocks (isClosed : Nat → Bool) (s : Scanner) : Scanner :=
  if s.inFlow then s
  else
    let closed := s.indents.takeWhile isClosed
    { s with
      tokens := s.tokens ++ closed.map fun _ => Token.blockEnd
      indents := s.indents.drop closed.length }

/-! ## Keys -/

/-- Gives up the place where a key may have started. It fails if a key has to be there. -/
def dropKey (s : Scanner) : Option Scanner :=
  if s.keyPlace.any (·.required) then none else some { s with keyPlace := none }

/-- Remembers this place as one where a key may start. -/
def markKey (s : Scanner) : Option Scanner :=
  match s.rest with
  | [] => none
  | p :: _ =>
    if !s.keyAllowed then some s
    else
      let required := !s.inFlow && s.indents.head? == some p.column
      s.dropKey.map fun s => { s with keyPlace := some ⟨required, s.tokens.size, p⟩ }

/-- Whether a key that started somewhere can no longer be one here. -/
def isStale (here : PlacedChar) (k : KeyPlace) : Bool :=
  k.start.line < here.line || k.start.index + 1024 < here.index

/-- A place where a key may have started, as seen from here; nothing is left of a stale one. It
fails if a key has to be there. -/
def refreshKey (here : PlacedChar) : Option KeyPlace → Option (Option KeyPlace)
  | none => some none
  | some k => if !isStale here k then some (some k) else if k.required then none else some none

/-- Gives up the places where no key can be any longer. -/
def dropStaleKeys (here : PlacedChar) (s : Scanner) : Option Scanner := do
  return { s with
    keyPlace := ← refreshKey here s.keyPlace
    outerKeyPlaces := ← s.outerKeyPlaces.mapM (refreshKey here) }

/-! ## Marks -/

/-- Goes on behind some characters. -/
def skip (s : Scanner) (count : Nat) : Scanner := { s with rest := s.rest.drop count }

/-- An opening bracket. -/
def openBracket (t : Token) (s : Scanner) : Option Scanner := do
  let s ← s.markKey
  return { (s.add t).skip 1 with
    keyPlace := none
    outerKeyPlaces := s.keyPlace :: s.outerKeyPlaces
    keyAllowed := true }

/-- A closing bracket. -/
def closeBracket (t : Token) (s : Scanner) : Option Scanner := do
  let s ← s.dropKey
  let s := ((s.add t).skip 1).allowKey false
  match s.outerKeyPlaces with
  | [] => return s
  | keyPlace :: outerKeyPlaces => return { s with keyPlace, outerKeyPlaces }

/-- A comma inside brackets. -/
def scanComma (s : Scanner) : Option Scanner := do
  return ((← s.dropKey).add .comma |>.skip 1).allowKey true

/-- A mark that opens a list or record where its line has nothing in front of it. -/
def openWith (t : Token) (p : PlacedChar) (s : Scanner) : Option Scanner :=
  if s.inFlow then some s
  else if !s.keyAllowed then none
  else some (s.openBlock p.column s.tokens.size t)

/-- The dash in front of an item. -/
def scanItem (p : PlacedChar) (s : Scanner) : Option Scanner := do
  let s ← (← s.openWith .blockListStart p).dropKey
  return ((s.add .item).skip 1).allowKey true

/-- The question mark in front of a key. -/
def scanKey (p : PlacedChar) (s : Scanner) : Option Scanner := do
  let s ← (← s.openWith .blockRecordStart p).dropKey
  return ((s.add .key).skip 1).allowKey (!s.inFlow)

/-- The colon in front of a value. It makes a key of what stands in front of it, if a key may have
started there. -/
def scanValue (p : PlacedChar) (s : Scanner) : Option Scanner := do
  match s.keyPlace with
  | some k =>
    let s := (s.insert k.number .key).openBlock k.start.column k.number .blockRecordStart
    return { ((s.add .value).skip 1).allowKey false with keyPlace := none }
  | none =>
    let s ← s.openWith .blockRecordStart p
    return ((s.add .value).skip 1).allowKey (!s.inFlow)

/-- A mark between documents. It closes all lists and records by indentation. -/
def scanDocumentMark (p : PlacedChar) (s : Scanner) : Option Scanner := do
  let s ← (s.closeBlocks fun _ => true).dropKey
  let t := if p.char == '-' then Token.documentStart else .documentEnd
  return ((s.add t).skip 3).allowKey false

/-! ## Scalars -/

/-- Takes over a scalar. Behind a line break a key may start. -/
def addScalar (s : Scanner) (plain : Bool) (r : ScalarRead) : Scanner :=
  { s.add (.scalar (String.ofList r.text) plain) with rest := r.rest, keyAllowed := r.broken }

/-- A scalar in quotes. -/
def scanQuoted (p : PlacedChar) (s : Scanner) : Option Scanner := do
  let s ← s.markKey
  return s.addScalar false (← readQuoted p.char (s.rest.drop 1))

/-- A plain scalar. Its lines start further right than the open list or record. -/
def scanPlain (s : Scanner) : Option Scanner := do
  let s ← s.markKey
  let indent := (s.indents.head?.map (· + 1)).getD 0
  return s.addScalar true (← readPlain s.inFlow indent s.rest)

/-- Whether a plain scalar can start with a character in front of others. -/
def startsPlain (flow : Bool) (c : Char) (ps : List PlacedChar) : Bool :=
  if c == '-' then !ps.head?.any fun p => isBlank p.char
  else if c == '?' || c == ':' then !flow && !endsWord ps
  else !(isBlank c || isBreak c || isFlowMark c ||
    ['#', '&', '*', '!', '|', '>', '\'', '"', '%', '@', '\x60'].contains c)

/-! ## One token after the other -/

/-- Skips blanks, comments, line breaks, and a byte order mark at the start of a line, which takes
a column. Outside of brackets a tab is no blank where a key may start, and a key may start on a new
line. -/
def skipGaps (flow : Bool) : Bool → Bool → List PlacedChar → List PlacedChar × Bool
  | _, keyAllowed, [] => ([], keyAllowed)
  | comment, keyAllowed, p :: ps =>
    if isBreak p.char then skipGaps flow false (keyAllowed || !flow) ps
    else if comment || p.char == '#' then skipGaps flow true keyAllowed ps
    else if p.char == ' ' || (p.char == '\t' && (flow || !keyAllowed)) ||
        (p.char == byteOrderMark && p.column == 0) then
      skipGaps flow false keyAllowed ps
    else (p :: ps, keyAllowed)

/-- Goes to the next token. -/
def toNext (s : Scanner) : Scanner :=
  let (rest, keyAllowed) := skipGaps s.inFlow false s.keyAllowed s.rest
  { s with rest, keyAllowed }

/-- Scans the token that starts with a character. -/
def scanAt (p : PlacedChar) (ps : List PlacedChar) (s : Scanner) : Option Scanner :=
  if p.column == 0 && p.char == '%' then none
  else if atDocumentMark (p :: ps) then s.scanDocumentMark p
  else if p.char == '[' then s.openBracket .listStart
  else if p.char == '\x7b' then s.openBracket .recordStart
  else if p.char == ']' then s.closeBracket .listEnd
  else if p.char == '\x7d' then s.closeBracket .recordEnd
  else if p.char == ',' then s.scanComma
  else if p.char == '-' && endsWord ps then s.scanItem p
  else if p.char == '?' && (s.inFlow || endsWord ps) then s.scanKey p
  else if p.char == ':' && (s.inFlow || endsWord ps) then s.scanValue p
  else if p.char == '\'' || p.char == '"' then s.scanQuoted p
  else if startsPlain s.inFlow p.char ps then s.scanPlain
  else none

/-- Scans a text to its end, with so many tokens at most. -/
def scanAll : Nat → Scanner → Option Scanner
  | 0, _ => none
  | fuel + 1, s =>
    let s := s.toNext
    match s.rest with
    | [] => (s.closeBlocks fun _ => true).dropKey
    | p :: ps => do
      let s ← s.dropStaleKeys p
      scanAll fuel (← (s.closeBlocks (p.column < ·)).scanAt p ps)

end Scanner

/-- The tokens of a text, in order. Every step takes a character, so their number bounds the
number of steps. -/
def tokens? (text : List PlacedChar) : Option (List Token) :=
  (Scanner.scanAll (text.length + 1) (.start text)).map fun s => s.tokens.toList

end Bundler.Yaml
