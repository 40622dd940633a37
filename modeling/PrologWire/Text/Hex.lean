/-!
# Hexadecimal digits
-/

namespace PrologWire.Text

/-- The lower-case hexadecimal digits of a number, at least `width` of them. -/
def hexLower (width n : Nat) : List Char :=
  let cs := Nat.toDigits 16 n
  List.replicate (width - cs.length) '0' ++ cs

/-- The upper-case hexadecimal digits of a number, at least `width` of them. -/
def hexUpper (width n : Nat) : List Char := (hexLower width n).map Char.toUpper

end PrologWire.Text
