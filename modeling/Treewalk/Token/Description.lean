import Treewalk.Token

/-!
# Token listings

`Token.description` is the line that a token listing shows for a token.  Unlike `print`, a listing keeps a decimal
place on whole numbers and writes very large and very small numbers with an exponent.
-/

namespace Treewalk

namespace Decimal

/-- The digits of the coefficient without the zeros at its end, but at least one digit. -/
def significantDigits (d : Decimal) : List Char :=
  match ((Nat.toDigits 10 d.coefficient).reverse.dropWhile (· = '0')).reverse with
  | [] => ['0']
  | digits => digits

/-- The power of ten of the first digit. -/
def leadingExponent (d : Decimal) : Int :=
  (Nat.toDigits 10 d.coefficient).length - 1 - d.places

/-- An exponent with its sign and at least two digits. -/
def exponentText (exponent : Int) : String :=
  let digits := Nat.toDigits 10 exponent.natAbs
  (if exponent < 0 then "-" else "+") ++ String.ofList (List.replicate (2 - digits.length) '0' ++ digits)

/-- The text with an exponent: one digit before the point, the others behind it. -/
def scientificText (d : Decimal) : String :=
  let mantissa := match d.significantDigits with
    | [] => []
    | [lead] => [lead]
    | lead :: others => lead :: '.' :: others
  String.ofList mantissa ++ "e" ++ exponentText d.leadingExponent

/-- A number in a listing: positional with at least one decimal place from `10 ^ (-4)` up to `10 ^ 16`, and with an
exponent outside of this range. -/
def listingText (d : Decimal) : String :=
  if d.leadingExponent < -4 ∨ 16 ≤ d.leadingExponent then d.scientificText
  else if d.places = 0 then d.text ++ ".0"
  else d.text

end Decimal

/-- A literal as a token listing shows it. -/
def Value.listingText : Value → String
  | .nil => "None"
  | .bool true => "True"
  | .bool false => "False"
  | .str s => s
  | .num x =>
    match x.toModel.unpack with
    | .notANumber => "nan"
    | .infinity sign => signMark sign ++ "inf"
    | .zero sign => signMark sign ++ "0.0"
    | .finite sign _ _ _ => signMark sign ++ (Decimal.shortest x.abs).listingText

/-- The line that a token listing shows for a token. -/
def Token.description (t : Token) : String :=
  "Token(type=" ++ t.kind.name ++ ", lexeme='" ++ t.lexeme ++ "', literal=" ++ t.literal.listingText ++
    ", line=" ++ toString t.line ++ ")"

end Treewalk
