/-
Expressions: the values that calls and constants are written with.

A build understands little of an expression. It knows a literal when it sees one, keeps all else
as the text it was, and can put together two shapes of its own: a function that returns a list,
and a sum. `render` is the text that goes into the script. A whole number below 10^15 is written
without a fraction, and that test comes before the sign, so a negative zero is written as zero.
-/
import Bundler.Json.Value

set_option autoImplicit false

namespace Bundler

/-- The value of an argument or an initializer. -/
inductive Expr where
  | str (s : String)
  | num (x : Double)
  | bool (b : Bool)
  | null
  /-- Any other expression, kept as its text. -/
  | raw (text : String)
  /-- A function without parameters that returns the list of the items. -/
  | lambda (items : List Expr)
  /-- The sum of two expressions. -/
  | concat (left right : Expr)

namespace Expr

instance : Inhabited Expr := ⟨.null⟩

/-! ## Equality -/

mutual

/-- Equality of expressions is decided part by part. -/
def decEq : (a b : Expr) → Decidable (a = b)
  | .str s, .str t => decidable_of_iff (s = t) (by simp)
  | .num x, .num y => decidable_of_iff (x = y) (by simp)
  | .bool p, .bool q => decidable_of_iff (p = q) (by simp)
  | .null, .null => .isTrue rfl
  | .raw s, .raw t => decidable_of_iff (s = t) (by simp)
  | .lambda as, .lambda bs =>
    match decEqList as bs with
    | .isTrue h => .isTrue (by rw [h])
    | .isFalse h => .isFalse (by simpa using h)
  | .concat a b, .concat c d =>
    match decEq a c, decEq b d with
    | .isTrue h, .isTrue k => .isTrue (by rw [h, k])
    | .isFalse h, _ => .isFalse (by simp [h])
    | _, .isFalse k => .isFalse (by simp [k])
  | .str _, .num _ | .str _, .bool _ | .str _, .null | .str _, .raw _ | .str _, .lambda _
  | .str _, .concat _ _ => .isFalse (by simp)
  | .num _, .str _ | .num _, .bool _ | .num _, .null | .num _, .raw _ | .num _, .lambda _
  | .num _, .concat _ _ => .isFalse (by simp)
  | .bool _, .str _ | .bool _, .num _ | .bool _, .null | .bool _, .raw _ | .bool _, .lambda _
  | .bool _, .concat _ _ => .isFalse (by simp)
  | .null, .str _ | .null, .num _ | .null, .bool _ | .null, .raw _ | .null, .lambda _
  | .null, .concat _ _ => .isFalse (by simp)
  | .raw _, .str _ | .raw _, .num _ | .raw _, .bool _ | .raw _, .null | .raw _, .lambda _
  | .raw _, .concat _ _ => .isFalse (by simp)
  | .lambda _, .str _ | .lambda _, .num _ | .lambda _, .bool _ | .lambda _, .null
  | .lambda _, .raw _ | .lambda _, .concat _ _ => .isFalse (by simp)
  | .concat _ _, .str _ | .concat _ _, .num _ | .concat _ _, .bool _ | .concat _ _, .null
  | .concat _ _, .raw _ | .concat _ _, .lambda _ => .isFalse (by simp)

/-- Equality of lists of expressions, the companion of `decEq`. -/
def decEqList : (as bs : List Expr) → Decidable (as = bs)
  | [], [] => .isTrue rfl
  | [], _ :: _ => .isFalse (by simp)
  | _ :: _, [] => .isFalse (by simp)
  | a :: as, b :: bs =>
    match decEq a b, decEqList as bs with
    | .isTrue h, .isTrue k => .isTrue (by rw [h, k])
    | .isFalse h, _ => .isFalse (by simp [h])
    | _, .isFalse k => .isFalse (by simp [k])

end

instance : DecidableEq Expr := decEq

/-! ## Views -/

/-- The text of a string literal. -/
def asString? : Expr → Option String
  | .str s => some s
  | _ => none

/-- The number of a numeric literal. -/
def asNumber? : Expr → Option Double
  | .num x => some x
  | _ => none

/-- Whether the value is known while building. -/
def isConstant : Expr → Bool
  | .str _ | .num _ | .bool _ | .null => true
  | _ => false

/-- The literal for a JSON value. Arrays and objects stay texts. -/
def ofJson : Json → Expr
  | .null => .null
  | .bool b => .bool b
  | .number n => .num n.toDouble
  | .string s => .str s
  | v => .raw v.render

/-- The literal for a natural number. -/
def ofNat (n : Nat) : Expr := .num (Double.ofNat n)

/-! ## Text -/

/-- The text of a number in a script. -/
def renderNumber (x : Double) : String :=
  match x.wholeMagnitude? with
  | some n =>
    if n < pow10 15 then (if x.isNegative && n != 0 then "-" else "") ++ toString n
    else x.render
  | none => x.render

mutual

/-- The text of an expression in a script. -/
def render : Expr → String
  | .str s => Json.quote s
  | .num x => renderNumber x
  | .bool b => if b then "true" else "false"
  | .null => "null"
  | .raw text => text
  | .lambda items =>
    "function()\x7breturn [" ++ String.intercalate ", " (renderAll items) ++ "];\x7d"
  | .concat left right => render left ++ "+" ++ render right

/-- The texts of a list of expressions. -/
def renderAll : List Expr → List String
  | [] => []
  | e :: es => render e :: renderAll es

end

end Expr

end Bundler
