import PrologWire.Numeric.Shortest

/-!
# Texts of floats

All texts of floats here are layouts of the shortest digits. They differ in where positional
notation gives way to an exponent and in how both are spelled, which a `FloatFormat` records.
-/

namespace PrologWire

/-- The spelling of floats in one kind of text. -/
structure FloatFormat where
  /-- Powers of ten of the leading digit for which the digits are written positionally. -/
  positional : Int → Bool
  /-- Whole numbers with such a power of ten end in `.0`. -/
  pointZero : Int → Bool
  /-- A single digit before an exponent is followed by `.0`. -/
  pointBeforeExponent : Bool
  /-- Exponents that are not negative have a plus sign. -/
  plusSign : Bool
  /-- The text of every NaN. -/
  nan : String
  tie : TieRule

namespace FloatFormat

/-- Zeros, then the digits, with a point before them. -/
def zeros (n : Nat) : List Char := List.replicate n '0'

/-- Digits with the point in its place, zeros filling the gap between the two. -/
def layPositional (f : FloatFormat) (d : Decimal) : List Char :=
  let cs := d.digitChars
  if 0 ≤ d.exponent then
    cs ++ zeros d.exponent.toNat ++
      (if f.pointZero d.leadingExponent then ['.', '0'] else [])
  else
    let places := (-d.exponent).toNat
    if places < cs.length then
      cs.take (cs.length - places) ++ '.' :: cs.drop (cs.length - places)
    else '0' :: '.' :: zeros (places - cs.length) ++ cs

/-- One digit, a point if others follow, and the power of ten of the first digit. -/
def layExponent (f : FloatFormat) (d : Decimal) : List Char :=
  let e := d.leadingExponent
  let significand := match d.digitChars with
    | [] => []
    | [c] => if f.pointBeforeExponent then [c, '.', '0'] else [c]
    | c :: cs => c :: '.' :: cs
  let sign := if e < 0 then ['-'] else if f.plusSign then ['+'] else []
  significand ++ 'e' :: sign ++ Nat.toDigits 10 e.natAbs

/-- The text of a float. A NaN has no sign; `-0.0` has one. -/
def text (f : FloatFormat) (x : Binary64) : String :=
  if x.isNaN then f.nan
  else
    let sign := if x.isNegative then ['-'] else []
    if x.isInfinite then String.ofList (sign ++ ['i', 'n', 'f'])
    else
      let d := x.shortest f.tie
      String.ofList (sign ++
        if f.positional d.leadingExponent then f.layPositional d else f.layExponent d)

end FloatFormat

end PrologWire
