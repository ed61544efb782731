/-
Scalars: texts in a YAML text.

A scalar consists of words and of the gaps between them. A gap inside a line is kept as it is
written. A gap with line breaks is folded: a single break becomes a blank, of several the first is
dropped, and blanks around them do not count. Only a first break that separates lines or
paragraphs is kept with those behind it.

A plain scalar goes on until something follows that has a meaning of its own, and, outside of
brackets, until a line that starts too far left. A scalar in quotes goes on to its closing quote;
between double quotes a backslash starts an escape.
-/
import Bundler.Yaml.Character

set_option autoImplicit false

namespace Bundler.Yaml

/-! ## Gaps -/

/-- What stands between two words. -/
structure Gap where
  /-- The blanks in front of the first break. -/
  blanks : List Char
  /-- The breaks. -/
  breaks : List Char
  /-- The first break is escaped: it ends the line and counts as nothing. -/
  escaped : Bool

namespace Gap

/-- A gap before anything is read of it. -/
def start : Gap := ⟨[], [], false⟩

/-- A gap behind an escaped break. -/
def startEscaped : Gap := ⟨[], [], true⟩

/-- Whether a line ends in the gap. -/
def isBroken (g : Gap) : Bool := g.escaped || !g.breaks.isEmpty

/-- What a gap stands for. -/
def text (g : Gap) : List Char :=
  if !g.isBroken then g.blanks
  else if g.escaped then g.breaks
  else
    match g.breaks with
    | ['\n'] => [' ']
    | '\n' :: more => more
    | breaks => breaks

/-- Reads a gap. On a new line no tab may stand further left than the column `indent`. -/
def read (indent : Nat) (g : Gap) : List PlacedChar → Option (Gap × List PlacedChar)
  | [] => some (g, [])
  | p :: ps =>
    if isBreak p.char then read indent { g with breaks := g.breaks ++ [p.char] } ps
    else if !isBlank p.char then some (g, p :: ps)
    else if !g.isBroken then read indent { g with blanks := g.blanks ++ [p.char] } ps
    else if p.char == '\t' && p.column < indent then none
    else read indent g ps

end Gap

/-! ## Plain scalars -/

/-- Whether a colon in front of these characters cannot be part of a word inside brackets. -/
def breaksFlowWord : List PlacedChar → Bool
  | [] => false
  | p :: _ => isFlowMark p.char || p.char == '?'

/-- A word of a plain scalar, and what follows it. -/
def plainWord (flow : Bool) : List PlacedChar → Option (List Char × List PlacedChar)
  | [] => some ([], [])
  | p :: ps =>
    if isBlank p.char || isBreak p.char then some ([], p :: ps)
    else if flow && p.char == ':' && breaksFlowWord ps then none
    else if (p.char == ':' && endsWord ps) || (flow && isFlowMark p.char) then some ([], p :: ps)
    else (plainWord flow ps).map fun (word, rest) => (p.char :: word, rest)

/-- Whether these characters stand further left than a column. -/
def standsLeftOf (column : Nat) : List PlacedChar → Bool
  | [] => false
  | p :: _ => p.column < column

/-- What is read of a scalar: its text, whether a line has ended behind its last word, and what
follows. -/
structure ScalarRead where
  text : List Char
  broken : Bool
  rest : List PlacedChar

/-- A plain scalar from one of its words on, where `broken` says whether a line has ended in front
of the word. Lines outside of brackets start at the column `indent` or further right. -/
def plainFrom (flow : Bool) (indent : Nat) : Nat → Bool → List PlacedChar → Option ScalarRead
  | 0, _, _ => none
  | fuel + 1, broken, ps =>
    if atDocumentMark ps || (ps.head?.map (·.char)) == some '#' then some ⟨[], broken, ps⟩
    else
      match plainWord flow ps with
      | none => none
      | some ([], rest) => some ⟨[], broken, rest⟩
      | some (word, rest) =>
        if !startsGap rest then some ⟨word, false, rest⟩
        else
          match Gap.start.read indent rest with
          | none => none
          | some (gap, rest) =>
            if !flow && standsLeftOf indent rest then some ⟨word, gap.isBroken, rest⟩
            else
              (plainFrom flow indent fuel gap.isBroken rest).map fun more =>
                if more.text.isEmpty then { more with text := word }
                else { more with text := word ++ gap.text ++ more.text }

/-- A plain scalar. Every word takes a character, so their number bounds the recursion. -/
def readPlain (flow : Bool) (indent : Nat) (ps : List PlacedChar) : Option ScalarRead :=
  plainFrom flow indent (ps.length + 1) false ps

/-! ## Scalars in quotes -/

/-- The character for a number of hexadecimal digits, and what follows them. -/
def codeEscape (count : Nat) (ps : List PlacedChar) : Option (Char × List PlacedChar) := do
  let n ← natural? 16 ((ps.take count).map (·.char))
  if (ps.take count).length == count && Nat.isValidChar n then
    return (Char.ofNat n, ps.drop count)
  else none

/-- The escapes of one letter. -/
def letterEscape? (c : Char) : Option Char :=
  [('0', Char.ofNat 0), ('a', '\x07'), ('b', '\x08'), ('t', '\t'), ('\t', '\t'), ('n', '\n'),
    ('v', '\x0b'), ('f', '\x0c'), ('r', '\r'), ('e', '\x1b'), (' ', ' '), ('"', '"'), ('/', '/'),
    ('\\', '\\'), ('N', '\u0085'), ('_', '\u00a0'), ('L', '\u2028'), ('P', '\u2029')].lookup c

/-- What the characters behind a backslash stand for, and what follows them. An escaped break
takes the gap behind it along. -/
def escape? : List PlacedChar → Option (List Char × List PlacedChar)
  | [] => none
  | p :: ps =>
    if isBreak p.char then (Gap.startEscaped.read 0 ps).map fun (gap, rest) => (gap.text, rest)
    else if p.char == 'x' then (codeEscape 2 ps).map fun (c, rest) => ([c], rest)
    else if p.char == 'u' then (codeEscape 4 ps).map fun (c, rest) => ([c], rest)
    else if p.char == 'U' then (codeEscape 8 ps).map fun (c, rest) => ([c], rest)
    else (letterEscape? p.char).map fun c => ([c], ps)

/-- A scalar in quotes from a place inside it on: the text up to the closing quote, and what
follows. A quote written twice between single quotes is one. -/
def quotedFrom (quote : Char) : Nat → List PlacedChar → Option (List Char × List PlacedChar)
  | 0, _ => none
  | _, [] => none
  | fuel + 1, p :: ps =>
    let goOn (part : List Char × List PlacedChar) : Option (List Char × List PlacedChar) :=
      (quotedFrom quote fuel part.2).map fun (text, rest) => (part.1 ++ text, rest)
    if atDocumentMark (p :: ps) then none
    else if startsGap (p :: ps) then
      (Gap.start.read 0 (p :: ps)).bind fun (gap, rest) => goOn (gap.text, rest)
    else if p.char == quote then
      if quote == '\'' && (ps.head?.map (·.char)) == some quote then goOn ([quote], ps.tail)
      else some ([], ps)
    else if p.char == '\\' && quote == '"' then (escape? ps).bind goOn
    else goOn ([p.char], ps)

/-- A scalar in quotes, from behind its opening quote on. Every step takes a character, so their
number bounds the recursion. -/
def readQuoted (quote : Char) (ps : List PlacedChar) : Option ScalarRead :=
  (quotedFrom quote (ps.length + 1) ps).map fun (text, rest) => ⟨text, false, rest⟩

end Bundler.Yaml
