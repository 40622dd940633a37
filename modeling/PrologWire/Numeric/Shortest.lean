import PrologWire.Numeric.Binary64

/-!
# Shortest decimal digits of a float

Among the decimals that read back as a given float, those with the fewest digits are wanted, and
of these the nearest. A grid of decimals with one spacing meets the interval of numbers that round
to the float only if one of the two grid points next to the float lies in it, so it is enough to
try those two on ever finer grids.
-/

namespace PrologWire

/-- The decimal number `digits * 10 ^ exponent`. -/
structure Decimal where
  digits : Nat
  exponent : Int
deriving DecidableEq, Repr

namespace Decimal

/-- The digits as characters, the leading one first. -/
def digitChars (d : Decimal) : List Char := Nat.toDigits 10 d.digits

/-- The power of ten of the leading digit. -/
def leadingExponent (d : Decimal) : Int := d.exponent + d.digitChars.length - 1

/-- The same number without zeros at the end of its digits; `fuel` bounds how many are taken. -/
def stripZeros (d : Decimal) : Nat → Decimal
  | 0 => d
  | fuel + 1 =>
    if d.digits ≠ 0 ∧ d.digits % 10 = 0 then
      stripZeros ⟨d.digits / 10, d.exponent + 1⟩ fuel
    else d

end Decimal

/-- Which of two shortest decimals is taken when the float lies exactly between them. -/
inductive TieRule where
  /-- The one whose last digit is even. -/
  | toEven
  /-- The greater one. -/
  | upward
deriving DecidableEq, Repr

namespace Binary64

/-! ## The interval of numbers that round to a float

Everything is counted in units of `2^-1076`, in which the midpoints between neighbouring floats are
whole numbers. -/

/-- The absolute value of a finite float. -/
def center (x : Binary64) : Nat := 4 * x.magnitude

/-- How many of these units go into one. -/
def quartersInOne : Nat := 4 * unitsInOne

/-- The midpoint between a float and its upper neighbour. -/
def upperMidpoint (x : Binary64) : Nat := x.center + (2 <<< x.scale)

/-- The midpoint between a float and its lower neighbour, which is nearer below a power of two. -/
def lowerMidpoint (x : Binary64) : Nat :=
  x.center - ((if x.fraction = 0 ∧ 1 < x.exponentField then 1 else 2) <<< x.scale)

/-- The number `num / den` rounds to the float: it lies between the midpoints, which themselves
belong to the even one of two neighbours. -/
def covers (x : Binary64) (num den : Nat) : Bool :=
  if x.significand % 2 = 0 then x.lowerMidpoint * den ≤ num && num ≤ x.upperMidpoint * den
  else x.lowerMidpoint * den < num && num < x.upperMidpoint * den

/-! ## Search -/

/-- How many times `n` has to be multiplied by ten to be one at least, or where the fuel ends. -/
def tenfoldsToOne (n : Nat) : Nat → Nat
  | 0 => 0
  | fuel + 1 => if quartersInOne ≤ n then 0 else tenfoldsToOne (n * 10) fuel + 1

/-- The power of ten of the leading digit of a finite float other than zero. -/
def leadingExponent (x : Binary64) : Int :=
  if quartersInOne ≤ x.center then
    ((Nat.toDigits 10 (x.center / quartersInOne)).length : Int) - 1
  else -(tenfoldsToOne x.center 324 : Int)

/-- The neighbour of the float on the grid of the multiples of `10 ^ exponent` that rounds to it,
the nearer one if both do. -/
def onGrid? (tie : TieRule) (x : Binary64) (exponent : Int) : Option Nat :=
  -- one step of the grid is `up / down` units
  let up := Nat.pow 10 exponent.toNat * quartersInOne
  let down := Nat.pow 10 (-exponent).toNat
  let below := x.center * down / up
  let twice := 2 * (x.center * down % up)
  let lower := x.covers (below * up) down
  let upper := x.covers ((below + 1) * up) down
  if lower && upper then
    if twice < up then some below
    else if up < twice then some (below + 1)
    else match tie with
      | .toEven => some (if below % 2 = 0 then below else below + 1)
      | .upward => some (below + 1)
  else if lower then some below
  else if upper then some (below + 1)
  else none

/-- Tries grids with `count`, `count + 1`, … digits; seventeen digits are always enough. -/
def searchGrids (tie : TieRule) (x : Binary64) (count : Nat) : Nat → Decimal
  | 0 => ⟨0, 0⟩
  | fuel + 1 =>
    let exponent := x.leadingExponent + 1 - count
    match x.onGrid? tie exponent with
    | some digits => ⟨digits, exponent⟩
    | none => searchGrids tie x (count + 1) fuel

/-- The shortest decimal that reads back as the absolute value of a finite float, the nearest of
those. -/
def shortest (tie : TieRule) (x : Binary64) : Decimal :=
  if x.isZero then ⟨0, 0⟩ else (searchGrids tie x 1 17).stripZeros 17

end Binary64

end PrologWire
