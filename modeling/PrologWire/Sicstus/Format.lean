import PrologWire.Numeric.FloatFormat

/-!
# The SICStus format

A sentence is a version byte and one term. Every term begins with a byte for what it is; names,
digits and ordinals follow as text up to a zero byte. In a list, neighbouring integers from 1 to 255
are written together as a run of bytes.
-/

namespace PrologWire

/-- Floats have an exponent from `10^16` on and below `10^-5`, and always a point. -/
def FloatFormat.sicstus : FloatFormat where
  positional e := -5 ≤ e && e < 16
  pointZero _ := true
  pointBeforeExponent := true
  plusSign := false
  nan := "nan"
  tie := .toEven

namespace Sicstus

/-- The byte of an ASCII character. -/
def ascii (c : Char) : UInt8 := UInt8.ofNat c.toNat

/-- Begins a sentence. -/
def versionTag : UInt8 := ascii 'D'
/-- Begins a compound. -/
def compoundTag : UInt8 := ascii 'S'
/-- Begins an atom. -/
def atomTag : UInt8 := ascii 'A'
/-- Begins an integer. -/
def integerTag : UInt8 := ascii 'I'
/-- Begins a float. -/
def floatTag : UInt8 := ascii 'F'
/-- Begins a variable. -/
def variableTag : UInt8 := ascii '_'
/-- Stands before every element of a list that is not in a run. -/
def elementTag : UInt8 := ascii '['
/-- Ends a list. -/
def endTag : UInt8 := ascii ']'
/-- Begins a run of small integers. -/
def runTag : UInt8 := ascii '"'

/-- The greatest number of arguments that the arity byte can hold. -/
def maxArity : Nat := 255

/-- A text and the zero byte behind it. -/
def zeroEnded (s : String) : List UInt8 := s.toUTF8.data.toList ++ [0]

/-- The byte of an integer that joins a run. -/
def runByte? (value : Int64) : Option UInt8 :=
  if 1 ≤ value.toInt ∧ value.toInt ≤ 255 then some (UInt8.ofNat value.toInt.toNat) else none

/-- The text of a float: the shortest digits that read back. -/
def floatText (x : Binary64) : String := FloatFormat.sicstus.text x

/-! ## Leaves -/

/-- An atom, by its name. -/
def atomBytes (name : String) : List UInt8 := atomTag :: zeroEnded name

/-- An integer, by its digits. -/
def integerBytes (digits : String) : List UInt8 := integerTag :: zeroEnded digits

/-- A float, by its text. -/
def floatBytes (x : Binary64) : List UInt8 := floatTag :: zeroEnded (floatText x)

/-- A variable, by its number in the sentence. -/
def variableBytes (ordinal : Nat) : List UInt8 := variableTag :: zeroEnded (toString ordinal)

/-- What comes before the arguments of a compound. -/
def compoundBytes (functor : String) (arity : UInt8) : List UInt8 :=
  compoundTag :: zeroEnded functor ++ [arity]

end Sicstus

end PrologWire
