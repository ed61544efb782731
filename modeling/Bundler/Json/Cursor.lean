/-
A place in a JSON text, and the tokens that are read there.

The text is read byte by byte. A cursor holds the bytes still to come and the line and column
reached. Two places can be blamed for an error: `here`, behind what was read, and `next`, behind
the byte that was only looked at. Each token reader answers a value and the cursor behind it.

Whole numbers are read exactly as long as they fit 64 bits and become doubles beyond. A number
with a fraction or an exponent is made of its first digits, as many as fit 64 bits, times a power
of ten, in one or more roundings; the result is exact for the short numbers that people write.
-/
import Bundler.Json.Error
import Bundler.Text.Utf8

set_option autoImplicit false

namespace Bundler.Json

/-- A place in a text: what is left of it, and the line and column behind what was read. -/
structure Cursor where
  rest : Bytes
  line : Nat
  column : Nat

/-- A reader that answers a value and the cursor behind it. -/
abbrev Read (α : Type) := Except ReadError (α × Cursor)

namespace Cursor

/-- The start of a text. -/
def start (bs : Bytes) : Cursor := ⟨bs, 1, 0⟩

/-- The byte of a character of ASCII. -/
def byte (c : Char) : UInt8 := c.toNat.toUInt8

/-- The cursor behind one byte `b`, with `rest` to come. -/
def past (c : Cursor) (b : UInt8) (rest : Bytes) : Cursor :=
  if b == byte '\n' then ⟨rest, c.line + 1, 0⟩ else ⟨rest, c.line, c.column + 1⟩

/-- The cursor behind the next byte; at the end it stays. -/
def advance (c : Cursor) : Cursor :=
  match c.rest with
  | [] => c
  | b :: bs => c.past b bs

/-- The cursor behind the next `n` bytes. -/
def advanceBy : Nat → Cursor → Cursor
  | 0, c => c
  | n + 1, c => advanceBy n c.advance

/-- The byte to come. -/
def peek (c : Cursor) : Option UInt8 := c.rest.head?

/-- An error behind what was read. -/
def here (c : Cursor) (reason : Reason) : ReadError := ⟨reason, c.line, c.column⟩

/-- An error behind the byte that was looked at. -/
def next (c : Cursor) (reason : Reason) : ReadError := c.advance.here reason

/-- Whether a byte is white space between tokens. -/
def isSpace (b : UInt8) : Bool :=
  b == byte ' ' || b == byte '\n' || b == byte '\t' || b == byte '\r'

/-- Whether a byte is a decimal digit. -/
def isDigit (b : UInt8) : Bool :=
  byte '0' ≤ b && b ≤ byte '9'

/-- The cursor behind the white space. -/
def skipSpace (c : Cursor) : Cursor :=
  c.advanceBy (c.rest.takeWhile isSpace).length

/-- Reads the rest of a word whose first letter was looked at and passed. -/
def ident : List Char → Cursor → Except ReadError Cursor
  | [], c => .ok c
  | l :: ls, c =>
    match c.rest with
    | [] => .error (c.here .endInValue)
    | b :: bs =>
      if b == byte l then ident ls (c.past b bs)
      else .error ((c.past b bs).here .identExpected)

/-! ## Strings -/

/-- The value of a hexadecimal digit. -/
def hexValue? (b : UInt8) : Option Nat :=
  if isDigit b then some (b.toNat - '0'.toNat)
  else if byte 'a' ≤ b && b ≤ byte 'f' then some (b.toNat - 'a'.toNat + 10)
  else if byte 'A' ≤ b && b ≤ byte 'F' then some (b.toNat - 'A'.toNat + 10)
  else none

/-- The value of four hexadecimal digits. -/
def hexFour (c : Cursor) : Read Nat :=
  let digits := c.rest.take 4
  let behind := c.advanceBy 4
  if digits.length < 4 then .error (behind.here .endInString)
  else
    let value := digits.foldl (fun (n : Option Nat) b => do
      return (← n) * 16 + (← hexValue? b)) (some 0)
    match value with
    | some n => .ok (n, behind)
    | none => .error (behind.here .badEscape)

/-- Whether a code is the second half of a pair. -/
def isTrailing (n : Nat) : Bool := 0xdc00 ≤ n && n ≤ 0xdfff

/-- Whether a code is the first half of a pair. -/
def isLeading (n : Nat) : Bool := 0xd800 ≤ n && n ≤ 0xdbff

/-- Passes one byte that has to be `wanted`. -/
def halfMark (wanted : Char) (c : Cursor) : Except ReadError Cursor :=
  match c.rest with
  | [] => .error (c.here .endInString)
  | b :: bs =>
    if b == byte wanted then .ok (c.past b bs)
    else .error ((c.past b bs).here .shortEscape)

/-- Reads the code behind the letter of a numeric escape. Codes of a pair have to come as one. -/
def unicodeEscape (c : Cursor) : Except ReadError (Char × Cursor) := do
  let (n, c) ← c.hexFour
  if isTrailing n then throw (c.here .loneSurrogate)
  if !isLeading n then return (Char.ofNat n, c)
  let c ← halfMark '\\' c
  let c ← halfMark 'u' c
  let (m, c) ← c.hexFour
  if !isTrailing m then throw (c.here .loneSurrogate)
  return (Char.ofNat ((n - 0xd800) * 0x400 + (m - 0xdc00) + 0x10000), c)

/-- The character that a letter behind a backslash stands for. -/
def simpleEscape? (b : UInt8) : Option Char :=
  if b == byte '"' then some '"'
  else if b == byte '\\' then some '\\'
  else if b == byte '/' then some '/'
  else if b == byte 'b' then some '\x08'
  else if b == byte 'f' then some '\x0c'
  else if b == byte 'n' then some '\n'
  else if b == byte 'r' then some '\r'
  else if b == byte 't' then some '\t'
  else none

/-- Reads what stands behind a backslash. -/
def escape (c : Cursor) : Read Bytes :=
  match c.rest with
  | [] => .error (c.here .endInString)
  | b :: bs =>
    let c := c.past b bs
    if b == byte 'u' then c.unicodeEscape.map fun (ch, c) => (Text.encode [ch], c)
    else
      match simpleEscape? b with
      | some ch => .ok (Text.encode [ch], c)
      | none => .error (c.here .badEscape)

/-- Reads the bytes of a string up to its closing quote; `before` is what was read of it, newest
piece first. Every round passes at least one byte, so `fuel` beyond the length is never used. -/
def stringBytes : Nat → List Bytes → Cursor → Read Bytes
  | 0, _, c => .error (c.here .endInString)
  | fuel + 1, before, c =>
    match c.rest with
    | [] => .error (c.here .endInString)
    | b :: bs =>
      let behind := c.past b bs
      if b == byte '"' then .ok (before.reverse.flatten, behind)
      else if b == byte '\\' then
        match behind.escape with
        | .ok (piece, c) => stringBytes fuel (piece :: before) c
        | .error e => .error e
      else if b < 32 then .error (behind.here .controlCharacter)
      else stringBytes fuel ([b] :: before) behind

/-- Reads a string whose opening quote was passed. -/
def string (c : Cursor) : Read String :=
  (stringBytes (c.rest.length + 1) [] c).map fun (bs, c) => (Text.ofBytes bs, c)

/-- Passes what stands behind a backslash in a string that nobody reads. The code of a numeric
escape has to be four digits and is not looked at further. -/
def skipEscape (c : Cursor) : Except ReadError Cursor :=
  match c.rest with
  | [] => .error (c.here .endInString)
  | b :: bs =>
    let c := c.past b bs
    if b == byte 'u' then c.hexFour.map Prod.snd
    else if (simpleEscape? b).isSome then .ok c
    else .error (c.here .badEscape)

/-- Passes the rest of a string that nobody reads. -/
def skipStringFrom : Nat → Cursor → Except ReadError Cursor
  | 0, c => .error (c.here .endInString)
  | fuel + 1, c =>
    match c.rest with
    | [] => .error (c.here .endInString)
    | b :: bs =>
      let behind := c.past b bs
      if b == byte '"' then .ok behind
      else if b == byte '\\' then
        match behind.skipEscape with
        | .ok c => skipStringFrom fuel c
        | .error e => .error e
      else if b < 32 then .error (c.here .controlCharacter)
      else skipStringFrom fuel behind

/-- Passes a string whose opening quote was passed. -/
def skipString (c : Cursor) : Except ReadError Cursor :=
  skipStringFrom (c.rest.length + 1) c

/-! ## Numbers -/

/-- The first number that 64 bits do not hold. -/
def wordBound : Nat := pow2 64

/-- The digits to come. -/
def digits (c : Cursor) : Bytes := c.rest.takeWhile isDigit

/-- The cursor behind the digits. -/
def skipDigits (c : Cursor) : Cursor := c.advanceBy c.digits.length

/-- Takes digits into a number as long as it fits 64 bits: the number, and how many digits were
taken. -/
def takeDigits (n taken : Nat) : Bytes → Nat × Nat
  | [] => (n, taken)
  | b :: bs =>
    let m := n * 10 + (b.toNat - '0'.toNat)
    if m < wordBound then takeDigits m (taken + 1) bs else (n, taken)

/-- Multiplies `significand` by a power of ten, in steps of at most 308 places. -/
def powerOfTen (fuel : Nat) (f : Double) (exponent : Int) : Option Double :=
  if exponent.natAbs ≤ 308 then
    let power := Double.ofNat (pow10 exponent.natAbs)
    if 0 ≤ exponent then
      let g := f.mul power
      if g.isFinite then some g else none
    else some (f.div power)
  else if f.wholeMagnitude? == some 0 then some f
  else if 0 ≤ exponent then none
  else
    match fuel with
    | 0 => some (Double.zero false)
    | fuel + 1 => powerOfTen fuel (f.div (Double.ofNat (pow10 308))) (exponent + 308)

/-- The number `± significand · 10 ^ exponent`, read at `c`. Four steps take every number out of
the range of doubles, so more change nothing. -/
def scaled (positive : Bool) (significand : Nat) (exponent : Int) (c : Cursor) : Read Number :=
  match powerOfTen 8 (Double.ofNat significand) exponent with
  | some f => .ok (.float (if positive then f else f.negate), c)
  | none => .error (c.here .numberOutOfRange)

/-- The first exponent that is not computed with. -/
def exponentBound : Nat := pow2 31

/-- Reads an exponent whose letter is to come. -/
def exponentPart (positive : Bool) (significand : Nat) (exponent : Int) (c : Cursor) :
    Read Number :=
  let c := c.advance
  let (up, c) :=
    if c.peek == some (byte '+') then (true, c.advance)
    else if c.peek == some (byte '-') then (false, c.advance)
    else (true, c)
  match c.rest with
  | [] => .error (c.here .endInValue)
  | b :: bs =>
    if isDigit b then
      let n := (b :: bs).takeWhile isDigit |>.foldl (fun n d => n * 10 + (d.toNat - '0'.toNat)) 0
      let behind := c.skipDigits
      if n < exponentBound then
        scaled positive significand (if up then exponent + n else exponent - n) behind
      else if significand != 0 && up then
        -- the digit at which the exponent left its range is passed, those behind it are not
        let fits := c.digits.foldl (fun (s : Nat × Nat) d =>
          let m := s.1 * 10 + (d.toNat - '0'.toNat)
          if s.1 < exponentBound && m < exponentBound then (m, s.2 + 1) else (exponentBound, s.2))
          (0, 0)
        .error ((c.advanceBy (fits.2 + 1)).here .numberOutOfRange)
      else .ok (.float (Double.zero !positive), behind)
    else .error ((c.past b bs).here .badNumber)

/-- Whether an exponent starts here. -/
def atExponent (c : Cursor) : Bool :=
  c.peek == some (byte 'e') || c.peek == some (byte 'E')

/-- Reads a fraction whose point is to come. Digits beyond 64 bits are passed and have no
effect. -/
def fractionPart (positive : Bool) (significand : Nat) (exponent : Int) (c : Cursor) :
    Read Number :=
  let c := c.advance
  let (significand, taken) := takeDigits significand 0 c.digits
  if c.digits.isEmpty then
    match c.peek with
    | some _ => .error (c.next .badNumber)
    | none => .error (c.next .endInValue)
  else
    let behind := c.skipDigits
    let exponent := exponent - taken
    if behind.atExponent then behind.exponentPart positive significand exponent
    else scaled positive significand exponent behind

/-- Reads what may stand behind the whole part of a number. -/
def numberTail (positive : Bool) (significand : Nat) (exponent : Int) (c : Cursor)
    (whole : Cursor → Read Number) : Read Number :=
  if c.peek == some (byte '.') then c.fractionPart positive significand exponent
  else if c.atExponent then c.exponentPart positive significand exponent
  else whole c

/-- A whole number that fits 64 bits; a negative one that does not fit with its sign, and a
negative zero, are doubles. -/
def wholeNumber (positive : Bool) (n : Nat) : Number :=
  if positive then .natural n
  else if n = 0 then .float (Double.zero true)
  else if n ≤ pow2 63 then .negative n
  else .float (Double.ofNat n).negate

/-- Reads a number behind its sign. -/
def number (positive : Bool) (c : Cursor) : Read Number :=
  match c.rest with
  | [] => .error (c.here .endInValue)
  | b :: bs =>
    let first := c.past b bs
    if b == byte '0' then
      if (first.peek.map isDigit).getD false then .error (first.next .badNumber)
      else numberTail positive 0 0 first fun c => .ok (wholeNumber positive 0, c)
    else if isDigit b then
      let (n, taken) := takeDigits 0 0 c.digits
      let more := c.digits.length - taken
      let behind := c.skipDigits
      if more = 0 then
        numberTail positive n 0 behind fun c => .ok (wholeNumber positive n, c)
      else numberTail positive n more behind fun c => scaled positive n more c
    else .error (first.here .badNumber)

/-- Passes an exponent that nobody reads. -/
def skipExponent (c : Cursor) : Except ReadError Cursor :=
  let c := c.advance
  let c :=
    if c.peek == some (byte '+') || c.peek == some (byte '-') then c.advance else c
  match c.rest with
  | [] => .error (c.here .badNumber)
  | b :: bs => if isDigit b then .ok c.skipDigits else .error ((c.past b bs).here .badNumber)

/-- Passes a number that nobody reads, behind its sign. -/
def skipNumber (c : Cursor) : Except ReadError Cursor :=
  match c.rest with
  | [] => .error (c.here .badNumber)
  | b :: bs =>
    let first := c.past b bs
    if !isDigit b then .error (first.here .badNumber)
    else if b == byte '0' && (first.peek.map isDigit).getD false then
      .error (first.next .badNumber)
    else
      let behind := c.skipDigits
      if behind.peek == some (byte '.') then
        let fraction := behind.advance
        if fraction.digits.isEmpty then .error (fraction.next .badNumber)
        else if fraction.skipDigits.atExponent then fraction.skipDigits.skipExponent
        else .ok fraction.skipDigits
      else if behind.atExponent then behind.skipExponent
      else .ok behind

end Cursor

end Bundler.Json
