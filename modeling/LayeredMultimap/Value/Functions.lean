import LayeredMultimap.Transformer
import LayeredMultimap.Value

/-!
# Named functions on values

Tests, functions and checked arithmetic on dynamic values. A test fails, and a function keeps its
input, where the type of the value is not the one it is about.
-/

namespace LayeredMultimap.Value

/-! ## Tests -/

/-- A question about a single value. -/
inductive Test where
  | even
  | positive
  | above (n : Int64)
  | below (n : Int64)
  | isStr
  | isInt
  | isList
  | longer (n : Int64)

/-- The answer of a test. Strings are measured in code points. -/
def Test.holds : Test → Value → Bool
  | .even, .int i => i % 2 == 0
  | .positive, .int i => decide (0 < i)
  | .above n, .int i => decide (n < i)
  | .below n, .int i => decide (i < n)
  | .isStr, .str _ => true
  | .isInt, .int _ => true
  | .isList, .list _ => true
  | .longer n, .str s => decide (n.toInt < s.length)
  | .longer n, .list vs => decide (n.toInt < vs.length)
  | _, _ => false

/-! ## Functions -/

def trimSpaces (s : String) : String :=
  let cut := List.dropWhile (· == ' ')
  .ofList (cut (cut s.toList).reverse).reverse

/-- A function from values to values. -/
inductive Function where
  | upper
  | lower
  | trim
  | append (s : String)
  | prepend (s : String)
  | add (n : Int64)
  | mul (n : Int64)
  | neg
  | abs
  | length
  | text
  | wrap

/-- The result of a function. Case changes affect the letters A to Z only, and arithmetic wraps at
64 bits. -/
def Function.apply : Function → Value → Value
  | .upper, .str s => .str (s.map Char.toUpper)
  | .lower, .str s => .str (s.map Char.toLower)
  | .trim, .str s => .str (trimSpaces s)
  | .append t, .str s => .str (s ++ t)
  | .prepend t, .str s => .str (t ++ s)
  | .add n, .int i => .int (i + n)
  | .mul n, .int i => .int (i * n)
  | .neg, .int i => .int (-i)
  | .abs, .int i => .int (if i < 0 then -i else i)
  | .length, .str s => .int (.ofNat s.length)
  | .length, .list vs => .int (.ofNat vs.length)
  | .text, v => .str v.text
  | .wrap, v => .list [v]
  | _, v => v

/-! ## Checked arithmetic -/

/-- Arithmetic that fails instead of wrapping. -/
inductive Arithmetic where
  | add
  | mul
  | div
  | rem

namespace Arithmetic

def name : Arithmetic → String
  | .add => "add"
  | .mul => "mul"
  | .div => "div"
  | .rem => "rem"

/-- An integer as a 64-bit one, if it is in range. -/
def fit (x : Int) : Option Int64 :=
  if Int64.minValue.toInt ≤ x ∧ x ≤ Int64.maxValue.toInt then some (.ofInt x) else none

/-- The exact result, if it is defined and in range. Division goes toward zero; a remainder is
defined where the quotient is. -/
def exact (op : Arithmetic) (i n : Int64) : Option Int64 :=
  match op with
  | .add => fit (i.toInt + n.toInt)
  | .mul => fit (i.toInt * n.toInt)
  | .div => if n = 0 then none else fit (i.toInt.tdiv n.toInt)
  | .rem =>
    if n = 0 then none
    else (fit (i.toInt.tdiv n.toInt)).bind fun _ => fit (i.toInt.tmod n.toInt)

/-- The result of an operation with a fixed right operand. -/
def apply (op : Arithmetic) (n : Int64) : Value → Except TransformFailure Value
  | .int i =>
    match op.exact i n with
    | some r => .ok (.int r)
    | none => .error ⟨op.name ++ " overflow: " ++ (Value.int i).text⟩
  | v => .error ⟨"not an integer: " ++ v.text⟩

end Arithmetic

end LayeredMultimap.Value
