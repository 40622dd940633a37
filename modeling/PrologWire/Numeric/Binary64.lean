/-!
# Binary floating-point numbers of 64 bits

A float is its word of bits, so that every value, each NaN among them, is told apart from every
other. The finite ones are whole multiples of the smallest positive float `2^-1074`, and all
arithmetic here is exact arithmetic on those multiples followed by one rounding.
-/

namespace PrologWire

/-- A float in the IEEE 754 binary64 format, as the word that holds it. -/
structure Binary64 where
  bits : UInt64
deriving DecidableEq, Inhabited

namespace Binary64

/-! ## Fields of the word -/

/-- The place of the sign in the word. -/
def signBit : Nat := 0x8000000000000000

/-- The last place of the exponent field, and the leading bit of the significand of a normal float,
which the word leaves out. -/
def leadingBit : Nat := 0x10000000000000

/-- The word without its sign bit. Among the non-NaN floats of one sign, a greater word is a
greater magnitude. -/
def unsignedWord (x : Binary64) : Nat := x.bits.toNat % signBit

/-- The sign bit is set. -/
def isNegative (x : Binary64) : Bool := signBit ≤ x.bits.toNat

/-- The eleven bits of the exponent field. -/
def exponentField (x : Binary64) : Nat := x.unsignedWord / leadingBit

/-- The 52 bits of the fraction field. -/
def fraction (x : Binary64) : Nat := x.unsignedWord % leadingBit

/-- The unsigned word of infinity: the exponent field is all ones, the fraction zero. -/
def infinityWord : Nat := 0x7ff0000000000000

/-- The float is no number. -/
def isNaN (x : Binary64) : Bool := infinityWord < x.unsignedWord

/-- The float is an infinity of either sign. -/
def isInfinite (x : Binary64) : Bool := x.unsignedWord = infinityWord

/-- The float is neither an infinity nor a NaN. -/
def isFinite (x : Binary64) : Bool := x.unsignedWord < infinityWord

/-- A float is zero whatever its sign bit. -/
def isZero (x : Binary64) : Bool := x.unsignedWord = 0

/-! ## The value of a finite float -/

/-- The significand as a whole number. -/
def significand (x : Binary64) : Nat :=
  if x.exponentField = 0 then x.fraction else leadingBit + x.fraction

/-- The number of binary places between the last bit of the significand and `2^-1074`. -/
def scale (x : Binary64) : Nat := x.exponentField - 1

/-- How many times `2^-1074` goes into the absolute value of a finite float. -/
def magnitude (x : Binary64) : Nat := x.significand <<< x.scale

/-- How many times `2^-1074` goes into one. -/
def unitsInOne : Nat := 1 <<< 1074

/-! ## Rounding -/

/-- The quotient rounded to the nearest whole number, a half to the even neighbour. -/
def roundDiv (num den : Nat) : Nat :=
  let q := num / den
  let twice := 2 * (num % den)
  if twice < den then q
  else if den < twice then q + 1
  else if q % 2 = 0 then q else q + 1

/-- The unsigned word of the float nearest to `num / den`. The quotient, counted in units of
`2^-1074`, keeps its 53 leading bits, and the carry out of a significand of ones runs into the
exponent field by itself. From half a unit above the greatest finite float on it is infinity. -/
def nearestWord (num den : Nat) : Nat :=
  let units := num * unitsInOne
  -- the places behind the 53 leading bits; none for small numbers
  let dropped := (units / den).log2 + 1 - 53
  min (dropped * leadingBit + roundDiv units (den <<< dropped)) infinityWord

/-- A float from its sign and unsigned word. -/
def ofSignWord (negative : Bool) (word : Nat) : Binary64 :=
  ⟨UInt64.ofNat (if negative then signBit + word else word)⟩

/-- The float nearest to the quotient `num / den`, or to its negation. -/
def ofRatio (negative : Bool) (num den : Nat) : Binary64 :=
  ofSignWord negative (nearestWord num den)

/-- The float nearest to an integer of any size; far out it is an infinity. -/
def ofInt (i : Int) : Binary64 := ofRatio (i < 0) i.natAbs 1

/-- The product of two finite floats, rounded once. -/
def mul (x y : Binary64) : Binary64 :=
  ofRatio (x.isNegative != y.isNegative) (x.magnitude * y.magnitude) (unitsInOne * unitsInOne)

/-- The quotient of two finite floats, rounded once; the divisor is not zero. -/
def div (x y : Binary64) : Binary64 :=
  ofRatio (x.isNegative != y.isNegative) x.magnitude y.magnitude

/-- The same float with its sign bit turned over. -/
def neg (x : Binary64) : Binary64 := ofSignWord (!x.isNegative) x.unsignedWord

/-! ## Order -/

/-- The rank of a float in the total order of IEEE 754: negative NaNs, negative numbers from
infinity to `-0.0`, then `0.0`, positive numbers to infinity, and positive NaNs. -/
def rank (x : Binary64) : Int :=
  if x.isNegative then -(x.unsignedWord : Int) - 1 else x.unsignedWord

/-- The comparison of values, in which a NaN compares with nothing and `-0.0` equals `0.0`. -/
def compareValue? (x y : Binary64) : Option Ordering :=
  if x.isNaN || y.isNaN then none
  else if x.isZero && y.isZero then some .eq
  else some (compare x.rank y.rank)

end Binary64

/-! ## Floats of 32 bits -/

/-- A float in the IEEE 754 binary32 format, as the word that holds it. -/
structure Binary32 where
  bits : UInt32
deriving DecidableEq, Inhabited

namespace Binary32

/-- The place of the sign in the word. -/
def signBit : Nat := 0x80000000

/-- The last place of the exponent field, and the leading bit of the significand of a normal
float. -/
def leadingBit : Nat := 0x800000

/-- How many times the smallest positive float `2^-149` goes into one. -/
def unitsInOne : Nat := 1 <<< 149

/-- The leading bit of the wider fraction, which is set in a quiet NaN. -/
def quietBit : Nat := 0x8000000000000

/-- The same number in the wider format. A NaN keeps its payload, in the leading bits, and becomes
quiet. -/
def widen (x : Binary32) : Binary64 :=
  let word := x.bits.toNat % signBit
  let negative := signBit ≤ x.bits.toNat
  let exponentField := word / leadingBit
  let fraction := word % leadingBit
  if exponentField = 255 then
    let payload := fraction <<< 29
    let quiet := if fraction = 0 then 0 else quietBit + payload % quietBit
    Binary64.ofSignWord negative (Binary64.infinityWord + quiet)
  else if exponentField = 0 then Binary64.ofRatio negative fraction unitsInOne
  else Binary64.ofRatio negative ((leadingBit + fraction) <<< (exponentField - 1)) unitsInOne

end Binary32

end PrologWire
