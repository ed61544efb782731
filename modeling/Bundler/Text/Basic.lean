/-
Text as a list of characters, measured in the bytes of its UTF-8 form.

Every position that this library reports is a byte offset, while every rule it applies is about
characters. The two meet here: `size` says how many bytes a text takes, and a cut at a byte
offset answers `none` where the offset falls inside a character or behind the end. A cut that
answers is therefore always between two characters, and no later function has to ask again.

The rest of the file is the small stock of list operations that the scanners are written in:
splitting at a separator, at its last occurrence or at a pattern, replacing a pattern, and the
lines of a text. Each walks the list once, so each is an induction for whoever reasons about it.
-/

set_option autoImplicit false

namespace Bundler.Text

/-! ## Measuring and cutting by bytes -/

/-- The number of bytes that the characters take in UTF-8. -/
def size : List Char → Nat
  | [] => 0
  | c :: cs => c.utf8Size + size cs

/-- What is left behind the first `n` bytes, if a character ends there. -/
def dropBytes? : Nat → List Char → Option (List Char)
  | 0, cs => some cs
  | _ + 1, [] => none
  | n + 1, c :: cs =>
    if c.utf8Size ≤ n + 1 then dropBytes? (n + 1 - c.utf8Size) cs else none

/-- The characters of the first `n` bytes, if a character ends there. -/
def takeBytes? : Nat → List Char → Option (List Char)
  | 0, _ => some []
  | _ + 1, [] => none
  | n + 1, c :: cs =>
    if c.utf8Size ≤ n + 1 then (takeBytes? (n + 1 - c.utf8Size) cs).map (c :: ·) else none

/-- The characters between two byte offsets, if both lie between characters and in order. -/
def slice? (cs : List Char) (start stop : Nat) : Option (List Char) :=
  if start ≤ stop then (dropBytes? start cs).bind (takeBytes? (stop - start)) else none

/-! ## White space -/

/-- The white space of the Unicode standard: 25 characters, the no-break spaces and the line
and paragraph separators among them, the byte order mark not. -/
def isBlank (c : Char) : Bool :=
  let n := c.toNat
  (9 ≤ n && n ≤ 13) || n == 32 || n == 0x85 || n == 0xa0 || n == 0x1680 ||
    (0x2000 ≤ n && n ≤ 0x200a) || n == 0x2028 || n == 0x2029 || n == 0x202f ||
    n == 0x205f || n == 0x3000

/-- The text without the white space it starts with. -/
def trimStart (cs : List Char) : List Char :=
  cs.dropWhile isBlank

/-- The text without the white space it ends with. -/
def trimEnd (cs : List Char) : List Char :=
  (cs.reverse.dropWhile isBlank).reverse

/-- The text without the white space around it. -/
def trim (cs : List Char) : List Char :=
  trimEnd (trimStart cs)

/-- A text without the slashes it ends with. -/
def trimSlashes (s : String) : String :=
  String.ofList (s.toList.reverse.dropWhile (· == '/')).reverse

/-! ## Splitting -/

/-- The pieces between the characters that `p` accepts; a text without one is a single piece. -/
def splitWhere (p : Char → Bool) : List Char → List (List Char)
  | [] => [[]]
  | c :: cs =>
    if p c then [] :: splitWhere p cs
    else
      match splitWhere p cs with
      | [] => [[c]]
      | piece :: pieces => (c :: piece) :: pieces

/-- The text before and behind the last character that `p` accepts. -/
def splitLast? (p : Char → Bool) : List Char → Option (List Char × List Char)
  | [] => none
  | c :: cs =>
    match splitLast? p cs with
    | some (before, behind) => some (c :: before, behind)
    | none => if p c then some ([], cs) else none

/-- The text before and behind the first occurrence of a pattern. -/
def splitOnce? (pattern : List Char) : List Char → Option (List Char × List Char)
  | [] => if pattern.isEmpty then some ([], []) else none
  | c :: cs =>
    if pattern.isPrefixOf (c :: cs) then some ([], (c :: cs).drop pattern.length)
    else (splitOnce? pattern cs).map fun (before, behind) => (c :: before, behind)

/-- Whether the pattern occurs in the text. -/
def occursIn (pattern cs : List Char) : Bool :=
  (splitOnce? pattern cs).isSome

/-! ## Replacing -/

/-- Replaces the pattern from left to right; `skip` characters belong to an occurrence already
replaced, so occurrences never overlap. -/
def replaceFrom (pattern replacement : List Char) : Nat → List Char → List Char
  | _, [] => []
  | skip + 1, _ :: cs => replaceFrom pattern replacement skip cs
  | 0, c :: cs =>
    if pattern.isPrefixOf (c :: cs) then
      replacement ++ replaceFrom pattern replacement (pattern.length - 1) cs
    else c :: replaceFrom pattern replacement 0 cs

/-- Replaces every occurrence of a pattern that has at least one character. -/
def replaceAll (pattern replacement cs : List Char) : List Char :=
  replaceFrom pattern replacement 0 cs

/-! ## Lines -/

/-- The number of line breaks. -/
def lineBreaks (cs : List Char) : Nat :=
  cs.count '\n'

/-- The pieces of a text, each with the line break that ends it; the last may lack one. -/
def splitInclusive : List Char → List (List Char)
  | [] => []
  | c :: cs =>
    if c == '\n' then ['\n'] :: splitInclusive cs
    else
      match splitInclusive cs with
      | [] => [[c]]
      | piece :: pieces => (c :: piece) :: pieces

/-- A line without its ending, which is a line feed or a carriage return and a line feed. A
carriage return that no line feed follows belongs to the line. -/
def withoutLineEnd (line : List Char) : List Char :=
  match line.reverse with
  | '\n' :: '\r' :: rest => rest.reverse
  | '\n' :: rest => rest.reverse
  | _ => line

/-- The lines of a text without their endings. -/
def lines (cs : List Char) : List (List Char) :=
  (splitInclusive cs).map withoutLineEnd

/-! ## Comparing -/

/-- Equality with the case of ASCII letters set aside, and of no others. -/
def eqIgnoringAsciiCase (a b : List Char) : Bool :=
  a.map Char.toLower == b.map Char.toLower

/-- The pieces with a separator between them. -/
def join (separator : String) (pieces : List String) : String :=
  String.ofList (List.intercalate separator.toList (pieces.map String.toList))

/-- Whether `s` starts with `head`. -/
def startsWith (s head : String) : Bool :=
  head.toList.isPrefixOf s.toList

/-- Whether `s` ends with `tail`. -/
def endsWith (s tail : String) : Bool :=
  tail.toList.isSuffixOf s.toList

end Bundler.Text
