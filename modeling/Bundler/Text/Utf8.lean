/-
Bytes and text.

Files are bytes; scripts and style sheets are text. Text becomes bytes by UTF-8 in the one way
there is. Bytes become text either exactly, where they are well formed, or leniently: whatever is
not well formed becomes replacement characters, one for each longest piece that could still have
started a character. So three bytes of a four-byte character that breaks off are one replacement,
while three stray continuation bytes are three.
-/
import Bundler.Text.Basic

set_option autoImplicit false

namespace Bundler

/-- The content of a file. -/
abbrev Bytes := List UInt8

namespace Text

/-- The character that stands for bytes that are no text. -/
def replacement : Char := '\ufffd'

/-- The bytes of a text. -/
def encode (cs : List Char) : Bytes :=
  cs.flatMap String.utf8EncodeChar

/-- The bytes of a text. -/
def toBytes (s : String) : Bytes :=
  encode s.toList

/-- A byte inside a character of more than one byte. -/
def isContinuation (b : UInt8) : Bool :=
  0x80 ≤ b && b < 0xc0

/-- Whether `b` may follow the leading byte `lead`. The four exceptions keep out spellings that
are too long, the surrogates, and everything above the last code point. -/
def isSecond (lead b : UInt8) : Bool :=
  if lead == 0xe0 then 0xa0 ≤ b && b < 0xc0
  else if lead == 0xed then 0x80 ≤ b && b < 0xa0
  else if lead == 0xf0 then 0x90 ≤ b && b < 0xc0
  else if lead == 0xf4 then 0x80 ≤ b && b < 0x90
  else isContinuation b

/-- The number of continuation bytes that a leading byte asks for; `none` for a byte that leads
nothing. -/
def continuations? (b : UInt8) : Option Nat :=
  if b < 0x80 then some 0
  else if 0xc2 ≤ b && b < 0xe0 then some 1
  else if 0xe0 ≤ b && b < 0xf0 then some 2
  else if 0xf0 ≤ b && b < 0xf5 then some 3
  else none

/-- The code point that leading and continuation bytes spell. -/
def codePoint (lead : UInt8) (rest : Bytes) : Nat :=
  let start :=
    match rest.length with
    | 0 => lead.toNat
    | 1 => lead.toNat % 0x20
    | 2 => lead.toNat % 0x10
    | _ => lead.toNat % 0x08
  rest.foldl (fun n b => n * 64 + b.toNat % 64) start

/-- Reads bytes as items: a character, or `none` for a piece that is no text. `skip` bytes belong
to the item before. -/
def items : Nat → Bytes → List (Option Char)
  | _, [] => []
  | skip + 1, _ :: bs => items skip bs
  | 0, b :: bs =>
    match continuations? b with
    | none => none :: items 0 bs
    | some n =>
      let tail := bs.take n
      let good :=
        match tail with
        | [] => []
        | second :: more =>
          if isSecond b second then second :: more.takeWhile isContinuation else []
      if good.length = n then some (Char.ofNat (codePoint b good)) :: items n bs
      else none :: items good.length bs

/-- The text of well-formed bytes. -/
def decode? (bs : Bytes) : Option (List Char) :=
  (items 0 bs).foldr (fun item rest =>
    match item, rest with
    | some c, some cs => some (c :: cs)
    | _, _ => none) (some [])

/-- The text of any bytes, with replacement characters for what is no text. -/
def decodeLossy (bs : Bytes) : List Char :=
  (items 0 bs).map fun item => item.getD replacement

/-- The text of any bytes. -/
def ofBytes (bs : Bytes) : String :=
  String.ofList (decodeLossy bs)

end Text

end Bundler
