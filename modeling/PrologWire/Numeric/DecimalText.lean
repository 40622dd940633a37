import PrologWire.Numeric.Binary64
import PrologWire.Text.Digits

/-!
# Reading decimal texts as floats

A decimal text has digits with at most one point among them, and perhaps an exponent. It is read as
the float nearest to the number that it denotes.
-/

namespace PrologWire.Binary64

/-- A sign at the front, and the rest. -/
def signOf : List Char → Bool × List Char
  | '-' :: cs => (true, cs)
  | '+' :: cs => (false, cs)
  | cs => (false, cs)

/-- The power of ten behind the digits: the letter `e` and an integer, or nothing. -/
def exponentOf? : List Char → Option Int
  | [] => some 0
  | c :: cs =>
    let (negative, digits) := signOf cs
    if (c = 'e' ∨ c = 'E') ∧ digits ≠ [] ∧ digits.all Char.isDigit then
      let e : Int := Text.natOfDigits 0 digits
      some (if negative then -e else e)
    else none

/-- The digits before and behind the point, and what follows them. -/
def splitPoint (cs : List Char) : List Char × List Char × List Char :=
  let whole := cs.takeWhile Char.isDigit
  match cs.dropWhile Char.isDigit with
  | '.' :: rest => (whole, rest.takeWhile Char.isDigit, rest.dropWhile Char.isDigit)
  | rest => (whole, [], rest)

/-- The float nearest to `digits * 10 ^ exponent`, where `digits` has at most `count` digits. Powers
of ten that are far out of range are drawn nearer, where the result is an infinity or zero, too. -/
def ofDecimal (negative : Bool) (digits count : Nat) (exponent : Int) : Binary64 :=
  let e := max (-((count + 400 : Nat) : Int)) (min exponent 400)
  ofRatio negative (digits * Nat.pow 10 e.toNat) (Nat.pow 10 (-e).toNat)

/-- The float that a decimal text denotes. -/
def ofText? (cs : List Char) : Option Binary64 :=
  let (negative, cs) := signOf cs
  let (whole, fraction, rest) := splitPoint cs
  let digits := whole ++ fraction
  if digits = [] then none
  else (exponentOf? rest).map fun e =>
    ofDecimal negative (Text.natOfDigits 0 digits) digits.length (e - fraction.length)

end PrologWire.Binary64
