/-
Style sheets: their references and their short form.

A style sheet refers to files by `url(…)`. The sheet is cut into pieces, where a piece is either
text or one such reference with its quote and content, and the pieces make up the sheet again.
Mapping asks for a new content for the references into the project and writes everything else
as it was, other references included.

The short form leaves out comments, the blanks around punctuation, all but one of the blanks in a
row, and the semicolon before a closing brace.
-/
import Bundler.Text.Basic

set_option autoImplicit false

namespace Bundler.Stylesheet

open Bundler.Text

/-! ## References -/

/-- Whether a reference leads into the project and not to another host, into the page, or to data
that it holds itself. -/
def isInternal (url : List Char) : Bool :=
  let lower := url.map Char.toLower
  let starts (head : String) (cs : List Char) : Bool := head.toList.isPrefixOf cs
  !(url.isEmpty || starts "#" url || starts "//" url || starts "data:" lower ||
    starts "http:" lower || starts "https:" lower)

/-- A reference as a path and what follows it, from the first question or number sign on. -/
def splitSuffix (url : List Char) : List Char × List Char :=
  url.span fun c => c != '?' && c != '#'

/-- A piece of a style sheet. -/
inductive Piece where
  | text (cs : List Char)
  /-- A reference: its opening quote, its content, and the whole as it is written. -/
  | url (quote content written : List Char)
  deriving DecidableEq

/-- A quote. -/
def isQuote (c : Char) : Bool := c == '"' || c == '\''

/-- The first character if it is a quote, and the rest. -/
def takeQuote : List Char → List Char × List Char
  | [] => ([], [])
  | c :: cs => if isQuote c then ([c], cs) else ([], c :: cs)

/-- The start of every reference. -/
def urlStart : List Char := "url(".toList

/-- The reference at the start of a text: its opening quote, its content, and what follows. -/
def reference? (cs : List Char) : Option (List Char × List Char × List Char) :=
  if !urlStart.isPrefixOf cs then none
  else
    let (quote, rest) := takeQuote ((cs.drop urlStart.length).dropWhile isBlank)
    let (content, rest) := rest.span fun c => !(isQuote c || c == ')')
    let (_, rest) := takeQuote rest
    match rest.dropWhile isBlank with
    | ')' :: behind => some (quote, content, behind)
    | _ => none

/-- Puts a character in front of pieces. -/
def consChar (c : Char) : List Piece → List Piece
  | .text cs :: ps => .text (c :: cs) :: ps
  | ps => .text [c] :: ps

/-- The pieces of a text, of which `skip` characters belong to a reference before. -/
def piecesFrom : Nat → List Char → List Piece
  | _, [] => []
  | skip + 1, _ :: cs => piecesFrom skip cs
  | 0, c :: cs =>
    match reference? (c :: cs) with
    | some (quote, content, behind) =>
      let length := cs.length - behind.length
      .url quote content (c :: cs.take length) :: piecesFrom length cs
    | none => consChar c (piecesFrom 0 cs)

/-- The pieces of a style sheet. -/
def pieces (cs : List Char) : List Piece := piecesFrom 0 cs

/-- A piece with a new content if it is a reference into the project. -/
def mapPiece {m : Type → Type} [Monad m] (target : String → m String) :
    Piece → m (List Char)
  | .text cs => pure cs
  | .url quote content written => do
    let url := trim content
    if isInternal url then
      let new ← target (String.ofList url)
      return urlStart ++ quote ++ new.toList ++ quote ++ [')']
    else return written

/-- Maps the references of a style sheet in the order of the text. -/
def mapUrls {m : Type → Type} [Monad m] (css : String) (target : String → m String) :
    m String := do
  let texts ← (pieces css.toList).mapM (mapPiece target)
  return String.ofList texts.flatten

/-! ## The short form -/

/-- A text without comments, of which `skip` characters belong to one. A comment that is not
ended is none. -/
def dropComments : Nat → List Char → List Char
  | _, [] => []
  | skip + 1, _ :: cs => dropComments skip cs
  | 0, c :: cs =>
    if c == '/' && cs.head? == some '*' then
      match splitOnce? ['*', '/'] (cs.drop 1) with
      | some (inside, _) => dropComments (inside.length + 3) cs
      | none => c :: dropComments 0 cs
    else c :: dropComments 0 cs

/-- A text with one blank for every run of blanks; `inRun` says whether one was written. -/
def squeeze : Bool → List Char → List Char
  | _, [] => []
  | inRun, c :: cs =>
    if isBlank c then (if inRun then squeeze true cs else ' ' :: squeeze true cs)
    else c :: squeeze false cs

/-- Characters that need no blanks around them. -/
def isPunctuation (c : Char) : Bool :=
  c == '\x7b' || c == '\x7d' || c == ';' || c == ':' || c == ',' || c == '>'

/-- A text without the blanks around punctuation; `behind` says whether some came just before. -/
def tighten : Bool → List Char → List Char
  | _, [] => []
  | behind, c :: cs =>
    if isBlank c then
      if behind || (cs.dropWhile isBlank).head?.any isPunctuation then tighten behind cs
      else c :: tighten false cs
    else c :: tighten (isPunctuation c) cs

/-- The short form of a style sheet. -/
def minify (css : String) : String :=
  let cs := tighten false (squeeze false (dropComments 0 css.toList))
  String.ofList (trim (replaceAll [';', '\x7d'] ['\x7d'] cs))

/-- The short form of several style sheets with their references mapped. -/
def concatenate {m : Type → Type} [Monad m] (sources : List (String × String))
    (target : String → String → m String) : m String := do
  let sheets ← sources.mapM fun (name, css) => mapUrls css fun url => target url name
  return minify (String.intercalate "\n" sheets)

end Bundler.Stylesheet
