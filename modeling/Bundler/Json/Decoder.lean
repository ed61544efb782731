/-
Decoders: JSON texts read as values of a known shape.

A decoder reads one value of its type at a cursor. It is told how many levels of brackets it may
still open, which bounds its recursion and refuses texts that are nested too deeply. There are
decoders for the values themselves, for texts, flags, small numbers, optional values, lists, maps
that keep their order, names out of a fixed list, and records.

A record is given by its fields: a name, how to read it, and what its absence means. It is read
from an object, where unknown members are passed over and a member that comes twice is refused,
or from an array of its fields in order. Which of two faults is reported follows from reading
from left to right; a fault of the record as a whole is placed behind the bracket that ends it,
if the text goes on to one.
-/
import Bundler.Json.Cursor
import Bundler.OrderedMap

set_option autoImplicit false

namespace Bundler.Json

/-- Reads a value, with so many levels of brackets to open. -/
abbrev Decoder (α : Type) := Nat → Cursor → Except ReadError (α × Cursor)

namespace Decoder

open Cursor

variable {α β σ : Type}

/-! ## Starting a value -/

/-- The byte a value starts with, and the cursor in front of it. -/
def first (c : Cursor) : Except ReadError (UInt8 × Cursor) :=
  let c := c.skipSpace
  match c.peek with
  | some b => .ok (b, c)
  | none => .error (c.next .endInValue)

/-- The error at a value of another kind than expected. Single values are read to name them;
arrays and objects are only looked at. -/
def mismatch (expected : String) (c : Cursor) : ReadError :=
  let wrong (found : Found) (c : Cursor) : ReadError := c.here (.wrongType found expected)
  let word (rest : String) (found : Found) : ReadError :=
    match ident rest.toList c.advance with
    | .ok c => wrong found c
    | .error e => e
  let number (positive : Bool) (c : Cursor) : ReadError :=
    match c.number positive with
    | .ok (n, c) => wrong (.number n) c
    | .error e => e
  match c.peek with
  | none => c.next .valueExpected
  | some b =>
    if b == byte 'n' then word "ull" .null
    else if b == byte 't' then word "rue" (.bool true)
    else if b == byte 'f' then word "alse" (.bool false)
    else if b == byte '-' then number false c.advance
    else if isDigit b then number true c
    else if b == byte '"' then
      match c.advance.string with
      | .ok (s, c) => wrong (.string s) c
      | .error e => e
    else if b == byte '[' then wrong .array c
    else if b == byte '\x7b' then wrong .object c
    else c.next .valueExpected

/-! ## Items and members -/

/-- Whether another item follows, and the cursor in front of it. -/
def moreItems (isFirst : Bool) (c : Cursor) : Except ReadError (Bool × Cursor) :=
  let c := c.skipSpace
  match c.peek with
  | none => .error (c.next .endInList)
  | some b =>
    if b == byte ']' then .ok (false, c)
    else if isFirst then .ok (true, c)
    else if b == byte ',' then
      let c := c.advance.skipSpace
      match c.peek with
      | none => .error (c.next .endInValue)
      | some b =>
        if b == byte ']' then .error (c.next .trailingComma) else .ok (true, c)
    else .error (c.next .listCommaOrEnd)

/-- Whether another member follows, and the cursor in front of the quote of its key. -/
def moreMembers (isFirst : Bool) (c : Cursor) : Except ReadError (Bool × Cursor) :=
  let c := c.skipSpace
  match c.peek with
  | none => .error (c.next .endInObject)
  | some b =>
    if b == byte '\x7d' then .ok (false, c)
    else if isFirst then
      if b == byte '"' then .ok (true, c) else .error (c.next .keyNotString)
    else if b == byte ',' then
      let c := c.advance.skipSpace
      match c.peek with
      | none => .error (c.next .endInValue)
      | some b =>
        if b == byte '"' then .ok (true, c)
        else if b == byte '\x7d' then .error (c.next .trailingComma)
        else .error (c.next .keyNotString)
    else .error (c.next .objectCommaOrEnd)

/-- Passes the bracket that ends an array, or says what stands there instead; in either case
with the cursor reached. -/
def closeList (c : Cursor) : Except ReadError Unit × Cursor :=
  let c := c.skipSpace
  match c.peek with
  | none => (.error (c.next .endInList), c)
  | some b =>
    if b == byte ']' then (.ok (), c.advance)
    else if b == byte ',' then
      let c := c.advance.skipSpace
      if c.peek == some (byte ']') then (.error (c.next .trailingComma), c)
      else (.error (c.next .trailingText), c)
    else (.error (c.next .trailingText), c)

/-- Passes the brace that ends an object, or says what stands there instead; in either case with
the cursor reached. -/
def closeObject (c : Cursor) : Except ReadError Unit × Cursor :=
  let c := c.skipSpace
  match c.peek with
  | none => (.error (c.next .endInObject), c)
  | some b =>
    if b == byte '\x7d' then (.ok (), c.advance)
    else if b == byte ',' then (.error (c.next .trailingComma), c)
    else (.error (c.next .trailingText), c)

/-- Passes the colon behind a key. -/
def colon (c : Cursor) : Except ReadError Cursor :=
  let c := c.skipSpace
  match c.peek with
  | none => .error (c.next .endInObject)
  | some b => if b == byte ':' then .ok c.advance else .error (c.next .colonExpected)

/-- Reads items up to the bracket that ends the array; `before` holds those read, newest first.
Every item takes at least one byte, so `fuel` beyond the length is never used. -/
def items (item : Cursor → Except ReadError (α × Cursor)) :
    Nat → List α → Cursor → Except ReadError (List α × Cursor)
  | 0, _, c => .error (c.next .endInList)
  | fuel + 1, before, c => do
    let (more, c) ← moreItems before.isEmpty c
    if more then
      let (a, c) ← item c
      items item fuel (a :: before) c
    else return (before.reverse, c)

/-- Reads members up to the brace that ends the object, as `items` does. -/
def members (member : Cursor → Except ReadError (α × Cursor)) :
    Nat → List (String × α) → Cursor → Except ReadError (List (String × α) × Cursor)
  | 0, _, c => .error (c.next .endInObject)
  | fuel + 1, before, c => do
    let (more, c) ← moreMembers before.isEmpty c
    if more then
      let (key, c) ← c.advance.string
      let c ← colon c
      let (a, c) ← member c
      members member fuel ((key, a) :: before) c
    else return (before.reverse, c)

/-- Reads a whole array whose opening bracket is to come. -/
def arrayOf (item : Decoder α) (depth : Nat) (c : Cursor) :
    Except ReadError (List α × Cursor) := do
  match depth with
  | 0 | 1 => throw (c.next .tooDeep)
  | depth + 1 =>
    let c := c.advance
    let (as, c) ← items (item depth) (c.rest.length + 1) [] c
    let (closed, c) := closeList c
    closed
    return (as, c)

/-- Reads a whole object whose opening brace is to come. -/
def objectOf (member : Decoder α) (depth : Nat) (c : Cursor) :
    Except ReadError (List (String × α) × Cursor) := do
  match depth with
  | 0 | 1 => throw (c.next .tooDeep)
  | depth + 1 =>
    let c := c.advance
    let (ms, c) ← members (member depth) (c.rest.length + 1) [] c
    let (closed, c) := closeObject c
    closed
    return (ms, c)

/-! ## Any value -/

/-- Reads a value of any kind. -/
def value : Decoder Json
  | 0, c => .error (c.next .tooDeep)
  | depth + 1, c => do
    let (b, c) ← first c
    if b == byte 'n' then return (.null, ← ident "ull".toList c.advance)
    if b == byte 't' then return (.bool true, ← ident "rue".toList c.advance)
    if b == byte 'f' then return (.bool false, ← ident "alse".toList c.advance)
    if b == byte '-' then
      let (n, c) ← c.advance.number false
      return (.number n, c)
    if isDigit b then
      let (n, c) ← c.number true
      return (.number n, c)
    if b == byte '"' then
      let (s, c) ← c.advance.string
      return (.string s, c)
    if b == byte '[' then
      if depth = 0 then throw (c.next .tooDeep)
      let c := c.advance
      let (vs, c) ← items (value depth) (c.rest.length + 1) [] c
      let (closed, c) := closeList c
      closed
      return (.array vs, c)
    if b == byte '\x7b' then
      if depth = 0 then throw (c.next .tooDeep)
      let c := c.advance
      let (ms, c) ← members (value depth) (c.rest.length + 1) [] c
      let (closed, c) := closeObject c
      closed
      return (ofMembers ms, c)
    throw (c.next .valueExpected)

/-! ## Values that nobody reads -/

/-- A bracket that is open: of an array, or of an object. -/
inductive Frame where
  | list
  | object
  deriving DecidableEq

/-- The error for a missing comma or end. -/
def Frame.commaOrEnd : Frame → Reason
  | .list => .listCommaOrEnd
  | .object => .objectCommaOrEnd

/-- The error for a text that ends inside. -/
def Frame.endInside : Frame → Reason
  | .list => .endInList
  | .object => .endInObject

/-- The byte that closes a bracket. -/
def Frame.closing : Frame → UInt8
  | .list => byte ']'
  | .object => byte '\x7d'

/-- Passes a key and its colon. -/
def skipKey (c : Cursor) : Except ReadError Cursor := do
  let c := c.skipSpace
  match c.peek with
  | none => throw (c.next .endInObject)
  | some b =>
    if b != byte '"' then throw (c.next .keyNotString)
    let c ← c.advance.skipString
    colon c

/-- Passes a value of any kind and any depth. `opened` are the brackets around the place, and
`behind` says whether a value has just ended there or one is to come. Every two rounds pass a
byte, so `fuel` beyond twice the length is never used. -/
def skipFrom : Nat → List Frame → Bool → Cursor → Except ReadError Cursor
  | 0, _, _, c => .error (c.next .endInValue)
  | fuel + 1, opened, false, c => do
    let (b, c) ← first c
    if b == byte 'n' then skipFrom fuel opened true (← ident "ull".toList c.advance)
    else if b == byte 't' then skipFrom fuel opened true (← ident "rue".toList c.advance)
    else if b == byte 'f' then skipFrom fuel opened true (← ident "alse".toList c.advance)
    else if b == byte '-' then skipFrom fuel opened true (← c.advance.skipNumber)
    else if isDigit b then skipFrom fuel opened true (← c.skipNumber)
    else if b == byte '"' then skipFrom fuel opened true (← c.advance.skipString)
    else if b == byte '[' || b == byte '\x7b' then
      let frame : Frame := if b == byte '[' then .list else .object
      let c := c.advance.skipSpace
      match c.peek with
      | none => throw (c.next frame.endInside)
      | some b =>
        if b == frame.closing then skipFrom fuel opened true c.advance
        else if frame == .object then
          skipFrom fuel (frame :: opened) false (← skipKey c)
        else skipFrom fuel (frame :: opened) false c
    else throw (c.next .valueExpected)
  | _ + 1, [], true, c => .ok c
  | fuel + 1, frame :: opened, true, c => do
    let c := c.skipSpace
    match c.peek with
    | none => throw (c.next frame.endInside)
    | some b =>
      if b == byte ',' then
        if frame == .object then
          skipFrom fuel (frame :: opened) false (← skipKey c.advance)
        else skipFrom fuel (frame :: opened) false c.advance
      else if b == frame.closing then skipFrom fuel opened true c.advance
      else throw (c.next frame.commaOrEnd)

/-- Passes a value of any kind. -/
def skip (c : Cursor) : Except ReadError Cursor :=
  skipFrom (2 * c.rest.length + 2) [] false c

/-! ## Single values -/

/-- A text. -/
def string : Decoder String := fun _ c => do
  let (b, c) ← first c
  if b == byte '"' then c.advance.string else throw (mismatch "a string" c)

/-- A flag. -/
def bool : Decoder Bool := fun _ c => do
  let (b, c) ← first c
  if b == byte 't' then return (true, ← ident "rue".toList c.advance)
  if b == byte 'f' then return (false, ← ident "alse".toList c.advance)
  throw (mismatch "a boolean" c)

/-- A number of eight bits. -/
def byteNumber : Decoder Nat := fun _ c => do
  let (b, c) ← first c
  if b == byte '-' || isDigit b then
    let (n, c) ← if isDigit b then c.number true else c.advance.number false
    match n with
    | .natural k =>
      if k < 256 then return (k, c)
      throw (c.here (.wrongValue (.number n) "u8"))
    | .negative _ => throw (c.here (.wrongValue (.number n) "u8"))
    | .float _ => throw (c.here (.wrongType (.number n) "u8"))
  throw (mismatch "u8" c)

/-- A value or `null`. -/
def option (some' : Decoder α) : Decoder (Option α) := fun depth c => do
  let c := c.skipSpace
  if c.peek == some (byte 'n') then return (none, ← ident "ull".toList c.advance)
  let (a, c) ← some' depth c
  return (some a, c)

/-- A list of values. -/
def list (item : Decoder α) : Decoder (List α) := fun depth c => do
  let (b, c) ← first c
  if b == byte '[' then arrayOf item depth c else throw (mismatch "a sequence" c)

/-- A map in the order of its members. -/
def orderedMap (member : Decoder α) : Decoder (OrderedMap String α) := fun depth c => do
  let (b, c) ← first c
  if b == byte '\x7b' then
    let (ms, c) ← objectOf member depth c
    return (OrderedMap.ofList ms, c)
  else throw (mismatch "a map" c)

/-! ## Names out of a list -/

/-- A text that has to be one of the names. -/
def name (table : List (String × α)) : Decoder α := fun _ c => do
  let (b, c) ← first c
  if b == byte '"' then
    let (s, c) ← c.advance.string
    match table.find? fun e => e.1 == s with
    | some e => return (e.2, c)
    | none => throw (c.here (.unknownVariant s (table.map Prod.fst)))
  else throw (mismatch "variant identifier" c)

/-- Goes to the only key of an object that stands for a choice, from behind the brace. -/
def onlyKey (c : Cursor) : Except ReadError Cursor :=
  let c := c.skipSpace
  match c.peek with
  | none => throw (c.next .endInObject)
  | some b =>
    if b == byte '"' then return c
    else if b == byte '\x7d' then throw (c.next .valueExpected)
    else throw (c.next .keyNotString)

/-- A choice: its name as a text, or an object with that name as its only key and `null` as the
value. -/
def choice (table : List (String × α)) : Decoder α := fun depth c => do
  let c := c.skipSpace
  match c.peek with
  | none => throw (c.next .endInValue)
  | some b =>
    if b == byte '"' then name table depth c
    else if b == byte '\x7b' then
      match depth with
      | 0 | 1 => throw (c.next .tooDeep)
      | depth + 1 =>
        let (a, c) ← name table depth (← onlyKey c.advance)
        let c ← colon c
        let (v, c) ← first c
        if v != byte 'n' then throw (mismatch "unit" c)
        let c ← ident "ull".toList c.advance
        let c := c.skipSpace
        match c.peek with
        | none => throw (c.here .endInObject)
        | some b =>
          if b == byte '\x7d' then return (a, c.advance) else throw (c.here .valueExpected)
    else throw (c.next .valueExpected)

/-! ## Records -/

/-- A field of a record. -/
structure RecordField (σ : Type) where
  name : String
  /-- Reads the value and says how it changes the record. -/
  read : Decoder (σ → σ)
  /-- Whether an object has to have it. -/
  required : Bool
  /-- Whether an array may end before it. -/
  optional : Bool

/-- A field that keeps its default when it is absent. -/
def RecordField.withDefault (name : String) (read : Decoder α) (set : α → σ → σ) : RecordField σ :=
  { name, required := false, optional := true
    read := fun depth c => (read depth c).map fun (a, c) => (set a, c) }

/-- A field that has to be there. -/
def RecordField.mandatory (name : String) (read : Decoder α) (set : α → σ → σ) : RecordField σ :=
  { RecordField.withDefault name read set with required := true, optional := false }

/-- A record read from an object: the value, the names of the fields met, or the error together
with the cursor at which it was noticed and whether it has its place already. -/
inductive Members (σ : Type) where
  | done (record : σ) (met : List String) (c : Cursor)
  | failed (e : ReadError)
  | unplaced (reason : Reason) (c : Cursor)

/-- Reads the members of an object into a record. -/
def fieldMembers (fields : List (RecordField σ)) (depth : Nat) :
    Nat → Bool → σ → List String → Cursor → Members σ
  | 0, _, _, _, c => .failed (c.next .endInObject)
  | fuel + 1, isFirst, record, met, c =>
    match moreMembers isFirst c with
    | .error e => .failed e
    | .ok (false, c) => .done record met c
    | .ok (true, c) =>
      match c.advance.string with
      | .error e => .failed e
      | .ok (key, c) =>
        match fields.find? fun f => f.name == key with
        | some f =>
          if met.contains key then .unplaced (.duplicateField key) c
          else
            match (colon c).bind (f.read depth) with
            | .error e => .failed e
            | .ok (change, c) =>
              fieldMembers fields depth fuel false (change record) (key :: met) c
        | none =>
          match (colon c).bind skip with
          | .error e => .failed e
          | .ok c => fieldMembers fields depth fuel false record met c

/-- Reads the items of an array into the fields of a record, in their order. -/
def fieldItems (expected : String) (depth : Nat) :
    List (RecordField σ) → Nat → σ → Cursor → Members σ
  | [], _, record, c => .done record [] c
  | f :: fs, index, record, c =>
    match moreItems (index == 0) c with
    | .error e => .failed e
    | .ok (true, c) =>
      match f.read depth c with
      | .error e => .failed e
      | .ok (change, c) => fieldItems expected depth fs (index + 1) (change record) c
    | .ok (false, c) =>
      if f.optional then fieldItems expected depth fs (index + 1) record c
      else .unplaced (.wrongLength index expected) c

/-- The name of a record with the number of its fields. -/
def withElements (title : String) (n : Nat) : String :=
  title ++ " with " ++ toString n ++ (if n = 1 then " element" else " elements")

/-- Ends a record: an error of its members comes first, then one at the closing bracket, then a
required field that was not met. An error without a place gets the one behind the closing
bracket. -/
def finish (close : Cursor → Except ReadError Unit × Cursor) (missing : List String → Option String)
    (read : Members σ) : Except ReadError (σ × Cursor) :=
  match read with
  | .failed e => .error e
  | .unplaced reason c => .error ((close c).2.here reason)
  | .done record met c =>
    let (closed, behind) := close c
    match missing met with
    | some name => .error (behind.here (.missingField name))
    | none => closed.map fun _ => (record, behind)

/-- A record with the given fields, starting from the values in `start`. -/
def record (title : String) (fields : List (RecordField σ)) (start : σ) :
    Decoder σ := fun depth c => do
  let (b, c) ← first c
  if b == byte '\x7b' then
    match depth with
    | 0 | 1 => throw (c.next .tooDeep)
    | depth + 1 =>
      let inside := c.advance
      let missing (met : List String) : Option String :=
        (fields.find? fun f => f.required && !met.contains f.name).map (·.name)
      finish closeObject missing
        (fieldMembers fields depth (inside.rest.length + 1) true start [] inside)
  else if b == byte '[' then
    match depth with
    | 0 | 1 => throw (c.next .tooDeep)
    | depth + 1 =>
      finish closeList (fun _ => none)
        (fieldItems (withElements title fields.length) depth fields 0 start c.advance)
  else throw (mismatch title c)

/-! ## Whole texts -/

/-- The number of levels of brackets that a text may open, and one. -/
def depthLimit : Nat := 128

/-- Reads a whole text as one value. -/
def run (d : Decoder α) (text : String) : Except ReadError α := do
  let (a, c) ← d depthLimit (Cursor.start (Text.toBytes text))
  let c := c.skipSpace
  match c.peek with
  | none => return a
  | some _ => throw (c.next .trailingText)

end Decoder

/-- The value that a text holds. -/
def parse (text : String) : Except ReadError Json :=
  Decoder.value.run text

end Bundler.Json
