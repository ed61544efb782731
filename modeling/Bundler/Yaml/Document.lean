/-
The document that a YAML text holds.

Tokens are read as a tree, from left to right and without looking back. Between the marks of a
list or record stand its items or members, each of which may be left empty. The items of a list
may also follow the key that they belong to without a start of their own; they end at the next
key. Inside brackets an item may be a single member, which is a record of its own.

A text has one document at most. Marks between documents may stand in front of it and behind it,
but dots only behind.
-/
import Bundler.Yaml.Node
import Bundler.Yaml.Token

set_option autoImplicit false

namespace Bundler.Yaml

/-! ## Empty places -/

/-- Whether an item by indentation is empty, that is, followed by the next item or the end. In a
list without a start of its own, a key or a value follows as well. -/
def endsItem (bare : Bool) : List Token → Bool
  | .item :: _ | .blockEnd :: _ => true
  | .key :: _ | .value :: _ => bare
  | _ => false

/-- Whether a key or value by indentation is empty. -/
def endsMember : List Token → Bool
  | .key :: _ | .value :: _ | .blockEnd :: _ => true
  | _ => false

/-- Whether a comma or a closing bracket comes next. -/
def endsInBrackets (close : Token) : List Token → Bool
  | t :: _ => t == .comma || t == close
  | [] => false

/-- Whether the key of a member inside brackets is empty. -/
def endsKey (close : Token) (ts : List Token) : Bool :=
  ts.head? == some .value || endsInBrackets close ts

/-- Goes behind the comma between two items; the first item has none in front. -/
def behindComma (first : Bool) (ts : List Token) : Option (List Token) :=
  if first then some ts
  else
    match ts with
    | .comma :: ts => some ts
    | _ => none

/-! ## Nodes -/

mutual

/-- The node that starts here. Only some places take lists and records by indentation, and fewer
take items without a start of their own. -/
def node (block bare : Bool) : Nat → List Token → Option (Yaml × List Token)
  | 0, _ => none
  | fuel + 1, ts =>
    match ts with
    | .scalar text plain :: ts => some (.scalar text plain, ts)
    | .listStart :: ts => (listItems true fuel [] ts).map fun (vs, ts) => (.list vs, ts)
    | .recordStart :: ts => (recordMembers true fuel [] ts).map fun (ms, ts) => (.record ms, ts)
    | .item :: _ =>
      if bare then (blockItems true fuel [] ts).map fun (vs, ts) => (.list vs, ts) else none
    | .blockListStart :: ts =>
      if block then (blockItems false fuel [] ts).map fun (vs, ts) => (.list vs, ts) else none
    | .blockRecordStart :: ts =>
      if block then (blockMembers fuel [] ts).map fun (ms, ts) => (.record ms, ts) else none
    | _ => none

/-- A node, unless the place of it is empty. -/
def nodeUnless (isEmpty : Bool) (block bare : Bool) : Nat → List Token → Option (Yaml × List Token)
  | 0, _ => none
  | fuel + 1, ts => if isEmpty then some (nothing, ts) else node block bare fuel ts

/-- The items of a list by indentation, behind the given ones. -/
def blockItems (bare : Bool) : Nat → List Yaml → List Token → Option (List Yaml × List Token)
  | 0, _, _ => none
  | fuel + 1, items, ts =>
    match ts with
    | .item :: ts =>
      match nodeUnless (endsItem bare ts) true false fuel ts with
      | some (v, ts) => blockItems bare fuel (v :: items) ts
      | none => none
    | .blockEnd :: rest => some (items.reverse, if bare then ts else rest)
    | _ => if bare then some (items.reverse, ts) else none

/-- The members of a record by indentation, behind the given ones. -/
def blockMembers : Nat → List (Yaml × Yaml) → List Token →
    Option (List (Yaml × Yaml) × List Token)
  | 0, _, _ => none
  | fuel + 1, members, ts =>
    match ts with
    | .key :: ts =>
      match nodeUnless (endsMember ts) true true fuel ts with
      | none => none
      | some (k, ts) =>
        let value : Option (Yaml × List Token) :=
          match ts with
          | .value :: ts => nodeUnless (endsMember ts) true true fuel ts
          | _ => some (nothing, ts)
        match value with
        | none => none
        | some (v, ts) => blockMembers fuel ((k, v) :: members) ts
    | .blockEnd :: ts => some (members.reverse, ts)
    | _ => none

/-- The value behind a key inside brackets, which may be left out with its colon. -/
def flowValue (close : Token) : Nat → List Token → Option (Yaml × List Token)
  | 0, _ => none
  | fuel + 1, ts =>
    match ts with
    | .value :: ts => nodeUnless (endsInBrackets close ts) false false fuel ts
    | _ => some (nothing, ts)

/-- The items of a list in brackets, behind the given ones. -/
def listItems (first : Bool) : Nat → List Yaml → List Token → Option (List Yaml × List Token)
  | 0, _, _ => none
  | fuel + 1, items, ts =>
    match ts with
    | .listEnd :: ts => some (items.reverse, ts)
    | _ =>
      match behindComma first ts with
      | none => none
      | some (.listEnd :: ts) => some (items.reverse, ts)
      | some (.key :: ts) =>
        match pair fuel ts with
        | some (v, ts) => listItems false fuel (v :: items) ts
        | none => none
      | some ts =>
        match node false false fuel ts with
        | some (v, ts) => listItems false fuel (v :: items) ts
        | none => none

/-- A single member as an item of a list in brackets, from behind the mark of its key. Where the
key is empty, the token in its place is passed over. -/
def pair : Nat → List Token → Option (Yaml × List Token)
  | 0, _ => none
  | fuel + 1, ts =>
    let key : Option (Yaml × List Token) :=
      if endsKey .listEnd ts then some (nothing, ts.tail) else node false false fuel ts
    match key with
    | none => none
    | some (k, ts) => (flowValue .listEnd fuel ts).map fun (v, ts) => (.record [(k, v)], ts)

/-- The members of a record in brackets, behind the given ones. A node without the mark of a key
is a key without a value. -/
def recordMembers (first : Bool) : Nat → List (Yaml × Yaml) → List Token →
    Option (List (Yaml × Yaml) × List Token)
  | 0, _, _ => none
  | fuel + 1, members, ts =>
    match ts with
    | .recordEnd :: ts => some (members.reverse, ts)
    | _ =>
      match behindComma first ts with
      | none => none
      | some (.recordEnd :: ts) => some (members.reverse, ts)
      | some (.key :: ts) =>
        match nodeUnless (endsKey .recordEnd ts) false false fuel ts with
        | none => none
        | some (k, ts) =>
          match flowValue .recordEnd fuel ts with
          | some (v, ts) => recordMembers false fuel ((k, v) :: members) ts
          | none => none
      | some ts =>
        match node false false fuel ts with
        | some (k, ts) => recordMembers false fuel ((k, nothing) :: members) ts
        | none => none

end

/-! ## Documents -/

/-- Whether a document is empty, that is, followed by a mark or the end. -/
def endsDocument : List Token → Bool
  | [] | .documentStart :: _ | .documentEnd :: _ => true
  | _ => false

/-- The root of the document in a list of tokens. Without any there is an empty one. No token is
the start of more than two nested readings, which bounds the recursion. -/
def ofTokens? (ts : List Token) : Option Yaml := do
  let fuel := 3 * ts.length + 3
  let (root, rest) ←
    match ts with
    | [] => some (nothing, [])
    | .documentStart :: ts => nodeUnless (endsDocument ts) true false fuel ts
    | ts => node true false fuel ts
  if (rest.dropWhile (· == .documentEnd)).isEmpty then some root else none

/-- The document that a text holds. -/
def parse? (text : String) : Option Yaml := do
  ofTokens? (← tokens? (← place? text.toList))

end Bundler.Yaml
