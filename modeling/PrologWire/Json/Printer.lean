import PrologWire.Json.Value
import PrologWire.Numeric.FloatFormat
import PrologWire.Text.Hex

/-!
# JSON text of a value

The text is compact: no blanks, members in the order of their keys.
-/

namespace PrologWire

/-- Floats in JSON have an exponent with a sign from `10^16` on and below `10^-5`. JSON has no
text for a NaN or an infinity. -/
def FloatFormat.json : FloatFormat where
  positional e := -5 ≤ e && e < 16
  pointZero _ := true
  pointBeforeExponent := false
  plusSign := true
  nan := "null"
  tie := .toEven

namespace Json

/-- The form of one character of a string. -/
def escapeChar (c : Char) : List Char :=
  match c with
  | '"' => ['\\', '"']
  | '\\' => ['\\', '\\']
  | '\n' => ['\\', 'n']
  | '\r' => ['\\', 'r']
  | '\t' => ['\\', 't']
  | '\x08' => ['\\', 'b']
  | '\x0c' => ['\\', 'f']
  | c => if c.toNat < 0x20 then '\\' :: 'u' :: Text.hexLower 4 c.toNat else [c]

/-- The text of a string. -/
def quote (s : String) : List Char := '"' :: s.toList.flatMap escapeChar ++ ['"']

/-- The text of a number. -/
def Number.text : Number → List Char
  | integer value => (toString value).toList
  | real value => (FloatFormat.json.text value).toList

namespace Value

mutual

/-- The text of a value. -/
def text : Value → List Char
  | null => ['n', 'u', 'l', 'l']
  | bool true => ['t', 'r', 'u', 'e']
  | bool false => ['f', 'a', 'l', 's', 'e']
  | number n => n.text
  | string s => quote s
  | array items => '[' :: itemsText items ++ [']']
  | object members => '\x7b' :: membersText members ++ ['\x7d']

/-- The texts of the items of an array with commas between them. -/
def itemsText : List Value → List Char
  | [] => []
  | [v] => v.text
  | v :: rest => v.text ++ ',' :: itemsText rest

/-- The texts of the members of an object with commas between them. -/
def membersText : List (String × Value) → List Char
  | [] => []
  | [(k, v)] => quote k ++ ':' :: v.text
  | (k, v) :: rest => quote k ++ ':' :: v.text ++ ',' :: membersText rest

end

/-- The text of a value, as a string. -/
def render (v : Value) : String := String.ofList v.text

end Value

end Json

end PrologWire
