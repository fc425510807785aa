import Treewalk.Decimal.Shortest

/-!
# Values

The values of the language are `nil`, the booleans, the doubles and the strings.  Only `nil` and `false` count as
false, and values of different kinds are never equal.
-/

namespace Treewalk

/-- A value of the language. -/
inductive Value where
  | nil
  | bool (b : Bool)
  | num (x : Float)
  | str (s : String)
deriving DecidableEq

namespace Value

instance : Inhabited Value := ⟨.nil⟩

/-- Everything is true but `nil` and `false`. -/
def truthy : Value → Bool
  | .nil => false
  | .bool b => b
  | _ => true

/-- Equality as the operator `==` decides it: numbers compare as doubles do, so a NaN differs from itself and the
two zeros are equal. -/
def equals : Value → Value → Bool
  | .nil, .nil => true
  | .bool a, .bool b => a == b
  | .num x, .num y => x == y
  | .str s, .str t => s == t
  | _, _ => false

end Value

/-! ### The text of a value -/

open Float.Model.UnpackedFloat (Sign)

/-- The mark in front of a number: a minus sign for a negative one. -/
def signMark : Sign → String
  | .negative => "-"
  | .positive => ""

/-- A number as `print` shows it: the fewest digits that read back, never with an exponent. -/
def numberText (x : Float) : String :=
  match x.toModel.unpack with
  | .notANumber => "NaN"
  | .infinity sign => signMark sign ++ "Infinity"
  | .zero sign => signMark sign ++ "0"
  | .finite sign _ _ _ => signMark sign ++ (Decimal.shortest x.abs).text

/-- The text that a `print` statement shows for a value. -/
def Value.text : Value → String
  | .nil => "nil"
  | .bool true => "true"
  | .bool false => "false"
  | .num x => numberText x
  | .str s => s

end Treewalk
