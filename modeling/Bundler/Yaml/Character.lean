/-
The characters of a YAML text, and where they stand.

What a character means depends on its column, and whether a key may still be followed by its colon
depends on how many lines and characters lie between them. So a text is read as a list of
characters that know their place.

A line ends with a line feed, a carriage return, both of them together, or one of the other three
breaks of Unicode. All of them are line feeds to the reader, except the separators of lines and of
paragraphs, which stay what they are. Most control characters may not stand in a text at all.
-/

set_option autoImplicit false

namespace Bundler.Yaml

/-! ## Classes -/

/-- A blank inside a line. -/
def isBlank (c : Char) : Bool := c == ' ' || c == '\t'

/-- The breaks that separate lines or paragraphs and stay what they are. -/
def isSeparator (c : Char) : Bool := c == '\u2028' || c == '\u2029'

/-- A break that ends a line. -/
def isBreak (c : Char) : Bool :=
  c == '\n' || c == '\r' || c == '\u0085' || isSeparator c

/-- The mark that may stand in front of a line. -/
def byteOrderMark : Char := '\ufeff'

/-- Whether a character may stand in a text: breaks, tabs, and all that can be shown or is at
least no control character. -/
def isAllowed (c : Char) : Bool :=
  if c.toNat < 0x80 then c == '\t' || c == '\n' || c == '\r' || (0x20 ≤ c.toNat && c.toNat < 0x7f)
  else c.toNat == 0x85 || (0xa0 ≤ c.toNat && c.toNat != 0xfffe && c.toNat != 0xffff)

/-- The characters with a meaning of their own inside brackets. -/
def isFlowMark (c : Char) : Bool :=
  c == ',' || c == '[' || c == ']' || c == '\x7b' || c == '\x7d'

/-! ## Digits -/

/-- The value of a digit in any base up to 16. -/
def digitValue? (c : Char) : Option Nat :=
  if c.isDigit then some (c.toNat - '0'.toNat)
  else if 'a' ≤ c && c ≤ 'f' then some (c.toNat - 'a'.toNat + 10)
  else if 'A' ≤ c && c ≤ 'F' then some (c.toNat - 'A'.toNat + 10)
  else none

/-- The number that digits of a base spell. -/
def natural? (base : Nat) (cs : List Char) : Option Nat :=
  if cs.isEmpty then none
  else
    cs.foldl (fun (n : Option Nat) c => do
      let d ← digitValue? c
      if d < base then return (← n) * base + d else none) (some 0)

/-! ## Places -/

/-- A character with its place: its line, its column in the line, and how many characters stand
in front of it. -/
structure PlacedChar where
  char : Char
  line : Nat
  column : Nat
  index : Nat
  deriving DecidableEq

/-- The characters of a text from a place on. A carriage return with its line feed is one break
of two characters. -/
def placeFrom (line column index : Nat) : List Char → List PlacedChar
  | [] => []
  | '\r' :: '\n' :: cs =>
    ⟨'\n', line, column, index⟩ :: placeFrom (line + 1) 0 (index + 2) cs
  | c :: cs =>
    if isSeparator c then ⟨c, line, column, index⟩ :: placeFrom (line + 1) 0 (index + 1) cs
    else if isBreak c then ⟨'\n', line, column, index⟩ :: placeFrom (line + 1) 0 (index + 1) cs
    else ⟨c, line, column, index⟩ :: placeFrom line (column + 1) (index + 1) cs

/-- The characters of a text with their places. A text with a character that may not stand in one
has none. -/
def place? (text : List Char) : Option (List PlacedChar) :=
  if text.all isAllowed then some (placeFrom 0 0 0 text) else none

/-! ## What comes next -/

/-- Whether a blank or a break comes next. -/
def startsGap : List PlacedChar → Bool
  | [] => false
  | p :: _ => isBlank p.char || isBreak p.char

/-- Whether a word ends here: at a blank, at a break, or at the end. -/
def endsWord (ps : List PlacedChar) : Bool := ps.isEmpty || startsGap ps

/-- Whether a mark between documents comes next: three dashes, or three dots, at the start of a
line and on their own. -/
def atDocumentMark : List PlacedChar → Bool
  | a :: b :: c :: ps =>
    a.column == 0 && endsWord ps && a.char == b.char && b.char == c.char &&
      (a.char == '-' || a.char == '.')
  | _ => false

end Bundler.Yaml
