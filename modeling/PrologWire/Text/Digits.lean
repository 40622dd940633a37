/-!
# Decimal texts of integers

An integer is written with a minus sign if it is negative and without zeros in front; a reader takes
more than that. Two written integers can be compared without reading them: more digits mean a greater
magnitude, and of two magnitudes with as many digits the first different digit decides.
-/

namespace PrologWire.Text

/-- The value of a decimal digit. -/
def digitValue (c : Char) : Nat := c.toNat - '0'.toNat

/-- The number that decimal digits denote, continuing the digits of `acc`. -/
def natOfDigits (acc : Nat) : List Char → Nat
  | [] => acc
  | c :: cs => natOfDigits (10 * acc + digitValue c) cs

/-- The number written in decimal digits. Underscores may stand anywhere and mean nothing, so that a
text of underscores alone is zero; the text is not empty. -/
def readNat? (cs : List Char) : Option Nat :=
  let digits := cs.filter (· ≠ '_')
  if cs ≠ [] ∧ digits.all Char.isDigit then some (natOfDigits 0 digits) else none

/-- What reads integers from texts, and refuses all other texts. -/
abbrev IntegerReader := List Char → Option Int

/-- The integer written as digits behind an optional sign. -/
def readInt? : IntegerReader
  | '-' :: cs => (readNat? cs).map fun n => -(n : Int)
  | '+' :: cs => (readNat? cs).map Int.ofNat
  | cs => (readNat? cs).map Int.ofNat

/-- The number of bytes of a text in UTF-8. -/
def utf8Size (cs : List Char) : Nat := cs.foldl (fun n c => n + c.utf8Size) 0

/-- The order of two magnitudes by their digits. Texts that are no digits compare in the same way, by
their bytes. -/
def compareMagnitudes (a b : List Char) : Ordering :=
  (compare (utf8Size a) (utf8Size b)).then (compare a b)

/-- The order of two integers by their texts. -/
def compareDigits : List Char → List Char → Ordering
  | '-' :: a, '-' :: b => compareMagnitudes b a
  | '-' :: _, _ => .lt
  | _, '-' :: _ => .gt
  | a, b => compareMagnitudes a b

end PrologWire.Text
