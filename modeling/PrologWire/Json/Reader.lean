import PrologWire.Json.Value
import PrologWire.Text.Digits

/-!
# Reading JSON

A text is one value with nothing but blanks around it. Each reader takes its part off the front of
the characters and gives back the rest; it gives nothing if the part is not there.
-/

namespace PrologWire.Json

/-! ## Blanks and fixed words -/

/-- The four characters that may stand between the parts of a text. -/
def isBlank (c : Char) : Bool := c = ' ' || c = '\n' || c = '\t' || c = '\r'

/-- The rest behind the blanks at the front. -/
def skipBlanks (cs : List Char) : List Char := cs.dropWhile isBlank

/-- Takes a fixed word. -/
def word? (w : List Char) (cs : List Char) : Option (List Char) :=
  if w.isPrefixOf cs then some (cs.drop w.length) else none

/-! ## Numbers -/

/-- Digits joined to a number as long as it stays in 64 bits, and how many were left over. -/
def joinDigits (acc : Nat) : List Char → Nat × Nat
  | [] => (acc, 0)
  | c :: cs =>
    let next := 10 * acc + Text.digitValue c
    if next < UInt64.size then joinDigits next cs else (acc, cs.length + 1)

/-- The greatest power of ten that one multiplication or division takes care of. -/
def greatestPower : Nat := 308

/-- The float nearest to a power of ten. -/
def powerOfTen (e : Nat) : Binary64 := .ofInt (Nat.pow 10 e)

/-- A float times a power of ten, rounded at each step; nothing if that is out of range. `fuel`
bounds the divisions by the greatest power, of which three bring every number to zero. -/
def scale? (x : Binary64) (e : Int) : Nat → Option Binary64
  | 0 => some x
  | fuel + 1 =>
    if e.natAbs ≤ greatestPower then
      if 0 ≤ e then
        let y := x.mul (powerOfTen e.natAbs)
        if y.isInfinite then none else some y
      else some (x.div (powerOfTen e.natAbs))
    else if x.isZero then some x
    else if 0 ≤ e then none
    else scale? (x.div (powerOfTen greatestPower)) (e + greatestPower) fuel

/-- The float written as `significand * 10 ^ exponent`. -/
def decimalReal? (negative : Bool) (significand : Nat) (exponent : Int) : Option Number :=
  (scale? (.ofInt significand) exponent 5).map fun x => .real (if negative then x.neg else x)

/-- The integer written as a number without fraction and exponent. Minus zero and what is out of the
64-bit ranges is a float. -/
def wholeNumber (negative : Bool) (n : Nat) : Number :=
  if !negative then .integer n
  else if n = 0 ∨ -(n : Int) < Int64.minValue.toInt then .real (Binary64.ofInt n).neg
  else .integer (-(n : Int))

/-- The digits at the front, one at least. -/
def digits? (cs : List Char) : Option (List Char × List Char) :=
  match cs.takeWhile Char.isDigit with
  | [] => none
  | ds => some (ds, cs.dropWhile Char.isDigit)

/-- The exponent behind its letter. -/
def exponent? : List Char → Option (Int × List Char)
  | '-' :: cs => (digits? cs).map fun (ds, rest) => (-(Text.natOfDigits 0 ds : Int), rest)
  | '+' :: cs => (digits? cs).map fun (ds, rest) => (Text.natOfDigits 0 ds, rest)
  | cs => (digits? cs).map fun (ds, rest) => (Text.natOfDigits 0 ds, rest)

/-- What follows the digits of a float: an exponent or nothing. -/
def finishReal? (negative : Bool) (significand : Nat) (exponent : Int) (cs : List Char) :
    Option (Number × List Char) := do
  match cs with
  | 'e' :: cs | 'E' :: cs =>
    let (e, rest) ← exponent? cs
    some (← decimalReal? negative significand (exponent + e), rest)
  | rest => some (← decimalReal? negative significand exponent, rest)

/-- A number behind its sign. Of the digits that do not fit in 64 bits only the number counts. -/
def magnitude? (negative : Bool) (cs : List Char) : Option (Number × List Char) := do
  let (whole, rest) ← digits? cs
  if 1 < whole.length ∧ whole.head? = some '0' then none
  else
    let (n, left) := joinDigits 0 whole
    match rest with
    | '.' :: rest =>
      let (fraction, rest) ← digits? rest
      let (n, unread) := joinDigits n fraction
      -- digits left over before the point raise the exponent, digits joined behind it lower it
      finishReal? negative n (left - (fraction.length - unread : Nat)) rest
    | 'e' :: _ | 'E' :: _ => finishReal? negative n left rest
    | rest =>
      if left = 0 then some (wholeNumber negative n, rest)
      else finishReal? negative n left rest

/-- A number. -/
def number? : List Char → Option (Number × List Char)
  | '-' :: cs => magnitude? true cs
  | cs => magnitude? false cs

/-! ## Strings -/

/-- The value of a hexadecimal digit. -/
def hexValue? (c : Char) : Option Nat :=
  if c.isDigit then some (c.toNat - '0'.toNat)
  else if 'a' ≤ c ∧ c ≤ 'f' then some (c.toNat - 'a'.toNat + 10)
  else if 'A' ≤ c ∧ c ≤ 'F' then some (c.toNat - 'A'.toNat + 10)
  else none

/-- Four hexadecimal digits. -/
def hexUnit? : List Char → Option (Nat × List Char)
  | a :: b :: c :: d :: rest => do
    let unit := (((← hexValue? a) * 16 + (← hexValue? b)) * 16 + (← hexValue? c)) * 16
      + (← hexValue? d)
    some (unit, rest)
  | _ => none

/-- The character behind `\u`: one unit, or a pair of surrogates in two escapes. -/
def unicodeEscape? (cs : List Char) : Option (Char × List Char) := do
  let (unit, rest) ← hexUnit? cs
  if 0xd800 ≤ unit ∧ unit < 0xdc00 then
    match rest with
    | '\\' :: 'u' :: rest =>
      let (low, rest) ← hexUnit? rest
      if 0xdc00 ≤ low ∧ low < 0xe000 then
        some (Char.ofNat (0x10000 + (unit - 0xd800) * 0x400 + (low - 0xdc00)), rest)
      else none
    | _ => none
  else if 0xdc00 ≤ unit ∧ unit < 0xe000 then none
  else some (Char.ofNat unit, rest)

/-- The character behind a backslash. -/
def escape? : List Char → Option (Char × List Char)
  | '"' :: rest => some ('"', rest)
  | '\\' :: rest => some ('\\', rest)
  | '/' :: rest => some ('/', rest)
  | 'b' :: rest => some ('\x08', rest)
  | 'f' :: rest => some ('\x0c', rest)
  | 'n' :: rest => some ('\n', rest)
  | 'r' :: rest => some ('\r', rest)
  | 't' :: rest => some ('\t', rest)
  | 'u' :: rest => unicodeEscape? rest
  | _ => none

/-- The characters of a string up to its closing quote, behind those of `reversed`. Each of them
takes one from the fuel. -/
def stringChars? (reversed : List Char) (cs : List Char) : Nat → Option (String × List Char)
  | 0 => none
  | fuel + 1 =>
    match cs with
    | [] => none
    | '"' :: rest => some (String.ofList reversed.reverse, rest)
    | '\\' :: rest => do
      let (c, rest) ← escape? rest
      stringChars? (c :: reversed) rest fuel
    | c :: rest => if c.toNat < 0x20 then none else stringChars? (c :: reversed) rest fuel

/-! ## Values -/

/-- How many arrays and objects may stand inside each other. -/
def maxDepth : Nat := 127

mutual

/-- A value, in which `depth` more arrays and objects may be nested. Each step of reading takes one
from the fuel. -/
def value? (depth : Nat) (cs : List Char) : Nat → Option (Value × List Char)
  | 0 => none
  | fuel + 1 => do
    match skipBlanks cs with
    | '"' :: rest =>
      let (s, rest) ← stringChars? [] rest fuel
      some (.string s, rest)
    | '[' :: rest =>
      if depth = 0 then none
      else match skipBlanks rest with
        | ']' :: rest => some (.array [], rest)
        | rest =>
          let (items, rest) ← items? (depth - 1) rest fuel
          some (.array items, rest)
    | '\x7b' :: rest =>
      if depth = 0 then none
      else match skipBlanks rest with
        | '\x7d' :: rest => some (.object [], rest)
        | rest =>
          let (members, rest) ← members? (depth - 1) rest fuel
          some (.object (members.foldl (fun ms m => insertMember m.1 m.2 ms) []), rest)
    | 'n' :: rest => some (.null, ← word? ['u', 'l', 'l'] rest)
    | 't' :: rest => some (.bool true, ← word? ['r', 'u', 'e'] rest)
    | 'f' :: rest => some (.bool false, ← word? ['a', 'l', 's', 'e'] rest)
    | rest =>
      let (n, rest) ← number? rest
      some (.number n, rest)

/-- The items of an array, one at least, and its closing bracket. -/
def items? (depth : Nat) (cs : List Char) : Nat → Option (List Value × List Char)
  | 0 => none
  | fuel + 1 => do
    let (v, rest) ← value? depth cs fuel
    match skipBlanks rest with
    | ',' :: rest =>
      let (vs, rest) ← items? depth rest fuel
      some (v :: vs, rest)
    | ']' :: rest => some ([v], rest)
    | _ => none

/-- The members of an object in the order of the text, one at least, and its closing brace. -/
def members? (depth : Nat) (cs : List Char) :
    Nat → Option (List (String × Value) × List Char)
  | 0 => none
  | fuel + 1 => do
    match skipBlanks cs with
    | '"' :: rest =>
      let (key, rest) ← stringChars? [] rest fuel
      match skipBlanks rest with
      | ':' :: rest =>
        let (v, rest) ← value? depth rest fuel
        match skipBlanks rest with
        | ',' :: rest =>
          let (ms, rest) ← members? depth rest fuel
          some ((key, v) :: ms, rest)
        | '\x7d' :: rest => some ([(key, v)], rest)
        | _ => none
      | _ => none
    | _ => none

end

/-- Reads a whole text. Of two steps in a row at least one takes a character, so the fuel lasts. -/
def read? (text : String) : Option Value :=
  let cs := text.toList
  match value? maxDepth cs (2 * cs.length + 2) with
  | some (v, rest) => if (skipBlanks rest).isEmpty then some v else none
  | none => none

end PrologWire.Json
