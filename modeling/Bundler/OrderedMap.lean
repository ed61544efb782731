/-
Finite maps that remember the order in which their keys arrived.

What a build writes follows the order of discovery: the first file that mentions an asset decides
where it stands among the assets. A map is therefore the list of its pairs. Inserting under a key
that is there already changes the value and keeps the place; inserting under a new key appends.
Since `insert` is the only way in, the keys of a map built from `empty` are distinct.
-/

set_option autoImplicit false

namespace Bundler

/-- A finite map in order of first insertion. -/
structure OrderedMap (α β : Type) where
  /-- The pairs, oldest key first. -/
  toList : List (α × β)
  deriving DecidableEq

namespace OrderedMap

variable {α β : Type}

/-- The map without pairs. -/
def empty : OrderedMap α β := ⟨[]⟩

instance : Inhabited (OrderedMap α β) := ⟨empty⟩

/-- The keys, oldest first. -/
def keys (m : OrderedMap α β) : List α := m.toList.map Prod.fst

/-- The values in the order of their keys. -/
def values (m : OrderedMap α β) : List β := m.toList.map Prod.snd

/-- The number of pairs. -/
def size (m : OrderedMap α β) : Nat := m.toList.length

/-- Keeps the pairs that `p` accepts. -/
def filter (p : α → β → Bool) (m : OrderedMap α β) : OrderedMap α β :=
  ⟨m.toList.filter fun e => p e.1 e.2⟩

/-- Changes every value. -/
def mapValues (f : β → β) (m : OrderedMap α β) : OrderedMap α β :=
  ⟨m.toList.map fun e => (e.1, f e.2)⟩

variable [DecidableEq α]

/-- The value under a key. -/
def get? (m : OrderedMap α β) (k : α) : Option β :=
  (m.toList.find? fun e => e.1 = k).map Prod.snd

/-- The place of a key. -/
def indexOf? (m : OrderedMap α β) (k : α) : Option Nat :=
  m.toList.findIdx? fun e => e.1 = k

/-- Whether the key is there. -/
def contains (m : OrderedMap α β) (k : α) : Bool :=
  m.toList.any fun e => e.1 = k

/-- Sets the value under `k` in a list of pairs, in place or at the end. -/
def insertList (k : α) (v : β) : List (α × β) → List (α × β)
  | [] => [(k, v)]
  | e :: es => if e.1 = k then (k, v) :: es else e :: insertList k v es

/-- The map with `v` under `k`. -/
def insert (m : OrderedMap α β) (k : α) (v : β) : OrderedMap α β :=
  ⟨insertList k v m.toList⟩

/-- The map with `v` under `k` where nothing was; else the map itself. -/
def insertNew (m : OrderedMap α β) (k : α) (v : β) : OrderedMap α β :=
  if m.contains k then m else m.insert k v

/-- The map that a list of pairs builds from the left. -/
def ofList (es : List (α × β)) : OrderedMap α β :=
  es.foldl (fun m e => m.insert e.1 e.2) empty

end OrderedMap

end Bundler
