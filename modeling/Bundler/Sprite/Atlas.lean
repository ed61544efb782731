/-
The atlas: many sprites in one image.

The sprites of a build are collected as a set. Then they are placed in rows from left to right,
the highest first, and a row is ended where the next sprite would stand out over the limit. The
limit is the side of a square with the area of all sprites, or the width of the widest if that is
more. Since the sprites are sorted by their size and then by their keys, the layout depends on the
set alone and not on the order of discovery.

A sprite whose image cannot be read has no size and is left out. Positions are numbers of 32 bits;
a layout that exceeds them is a fault.
-/
import Bundler.Fault
import Bundler.Number.Root
import Bundler.Text.Utf8

set_option autoImplicit false

namespace Bundler

/-! ## Images -/

/-- The bytes that start an image file. -/
def pngSignature : Bytes := [0x89, 0x50, 0x4e, 0x47, 0x0d, 0x0a, 0x1a, 0x0a]

/-- The name of the part of an image file that holds its size. -/
def pngHeader : Bytes := [0x49, 0x48, 0x44, 0x52]

/-- The number that bytes spell, highest first. -/
def bigEndian (bs : Bytes) : Nat :=
  bs.foldl (fun n b => n * 256 + b.toNat) 0

/-- Width and height of an image, which stand at the start of its file. -/
def pngSize? (bs : Bytes) : Option (Nat × Nat) :=
  if bs.length < 24 || bs.take 8 != pngSignature || (bs.drop 12).take 4 != pngHeader then none
  else some (bigEndian ((bs.drop 16).take 4), bigEndian ((bs.drop 20).take 4))

/-! ## Sprites -/

/-- A sprite as it is asked for. Equal keys are one sprite. -/
structure SpriteKey where
  name : String
  color : Option String
  width : Option Nat
  height : Option Nat
  x : Option Nat
  y : Option Nat
  deriving DecidableEq

/-- The order of keys: field by field, an absent value first. -/
def SpriteKey.order (a b : SpriteKey) : Ordering :=
  (compare a.name b.name).then <| (compare a.color b.color).then <|
    (compare a.width b.width).then <| (compare a.height b.height).then <|
      (compare a.x b.x).then (compare a.y b.y)

/-- The area of a sprite in the image. -/
structure Placement where
  x : Nat
  y : Nat
  width : Nat
  height : Nat
  deriving DecidableEq

/-- The image of all sprites. -/
structure AtlasImage where
  width : Nat
  height : Nat
  sprites : List (SpriteKey × Placement)
  deriving DecidableEq

/-- The sprites of a build, and where they were placed last. -/
structure Atlas where
  /-- The sprites asked for, in order of discovery. -/
  current : List SpriteKey
  /-- The last layout. -/
  built : Option (List (SpriteKey × Placement))
  deriving DecidableEq

namespace Atlas

/-- An atlas before the first build. -/
def empty : Atlas := ⟨[], none⟩

instance : Inhabited Atlas := ⟨empty⟩

/-- Forgets the sprites asked for; the layout stays for comparison. -/
def begin (a : Atlas) : Atlas := { a with current := [] }

/-- Asks for a sprite. -/
def add (a : Atlas) (key : SpriteKey) : Atlas :=
  if a.current.contains key then a else { a with current := a.current ++ [key] }

/-- The area of a sprite in the last layout. -/
def query (a : Atlas) (key : SpriteKey) : Option Placement :=
  a.built.bind fun placed => placed.lookup key

/-- Whether the sprites asked for are others than those of the last layout. -/
def changed (a : Atlas) : Bool :=
  match a.built with
  | none => !a.current.isEmpty
  | some placed =>
    placed.length != a.current.length || a.current.any fun key => (placed.lookup key).isNone

/-! ## Layout -/

/-- A sprite with its width and height. -/
structure Sized where
  key : SpriteKey
  width : Nat
  height : Nat
  deriving DecidableEq

/-- The size of a sprite: what is asked for, or else what the image has from the offset on. -/
def sizedOf (key : SpriteKey) (image : Nat × Nat) : Sized :=
  { key
    width := key.width.getD (image.1 - key.x.getD 0)
    height := key.height.getD (image.2 - key.y.getD 0) }

/-- Whether a sprite is placed before another: the higher first, then the wider, then by key. -/
def before (a b : Sized) : Bool :=
  ((compare b.height a.height).then <| (compare b.width a.width).then <| a.key.order b.key)
    != .gt

/-- The first number that is no position. -/
def bound : Nat := pow2 32

/-- The sum of two positions. -/
def sum (a b : Nat) : Except Fault Nat :=
  if a + b < bound then .ok (a + b) else .error .overflow

/-- The area of sprites, which has to fit 64 bits. -/
def area (sprites : List Sized) : Except Fault Nat :=
  sprites.foldlM (fun total s =>
    let total := total + s.width * s.height
    if total < pow2 64 then .ok total else .error .overflow) 0

/-- The limit for the width of a row. -/
def rowLimit (sprites : List Sized) : Except Fault Nat := do
  let area ← area sprites
  let widest := sprites.foldl (fun w s => max w s.width) 0
  return max widest (min (bound - 1) (Double.ofNat area).sqrt.ceil)

/-- Where the next sprite goes: the end of the row so far, where the row starts, and how high it
is. -/
structure Row where
  x : Nat
  y : Nat
  height : Nat

/-- Places a sprite: its area, and where the next goes. -/
def place (limit : Nat) (row : Row) (s : Sized) : Except Fault (Placement × Row) := do
  let ends ← if 0 < row.x then (sum row.x s.width).map fun n => decide (limit < n) else pure false
  let row : Row ← if ends then pure ⟨0, ← sum row.y row.height, 0⟩ else pure row
  return (⟨row.x, row.y, s.width, s.height⟩,
    ⟨← sum row.x s.width, row.y, max row.height s.height⟩)

/-- Places sprites one after the other, and measures the image they need. -/
def layout (limit : Nat) : AtlasImage → Row → List Sized → Except Fault AtlasImage
  | image, _, [] => .ok image
  | image, row, s :: rest => do
    let (placement, row) ← place limit row s
    let bottom ← sum row.y row.height
    layout limit
      ⟨max image.width row.x, max image.height bottom, image.sprites ++ [(s.key, placement)]⟩
      row rest

/-- The image of sprites with their sizes. -/
def arrange (sprites : List Sized) : Except Fault AtlasImage := do
  let sorted := sprites.mergeSort before
  layout (← rowLimit sorted) ⟨0, 0, []⟩ ⟨0, 0, 0⟩ sorted

/-- Lays the sprites out anew, given the sizes of the images that can be read. -/
def build (a : Atlas) (sizeOf : String → Option (Nat × Nat)) :
    Except Fault (AtlasImage × Atlas) := do
  let image ← arrange (a.current.filterMap fun key => (sizeOf key.name).map (sizedOf key))
  return (image, { a with built := some image.sprites })

end Atlas

/-! ## Encoding -/

/-- What makes an image file of a layout, given the files of the single images. -/
abbrev AtlasEncoder := AtlasImage → (String → Option Bytes) → Except String Bytes

namespace AtlasEncoder

/-- A line of the listing. -/
def listingLine (s : SpriteKey × Placement) : String :=
  s.1.name ++ " " ++ toString s.2.x ++ "," ++ toString s.2.y ++ " " ++
    toString s.2.width ++ "x" ++ toString s.2.height ++ "\n"

/-- An encoder that writes the layout as a text, for builds without pixels. -/
def listing : AtlasEncoder := fun image read => do
  let head := "atlas " ++ toString image.width ++ "x" ++ toString image.height ++ "\n"
  let lines ← image.sprites.mapM fun s =>
    match read s.1.name with
    | some _ => .ok (listingLine s)
    | none => .error ("cannot read " ++ s.1.name)
  return Text.toBytes (head ++ String.join lines)

/-- An encoder that cannot write anything. -/
def refusing : AtlasEncoder := fun image _ =>
  .error ("cannot encode " ++ toString image.sprites.length ++ " sprites")

end AtlasEncoder

end Bundler
