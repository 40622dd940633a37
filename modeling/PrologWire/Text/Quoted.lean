import PrologWire.Text.Hex
import PrologWire.Text.Printable

/-!
# Atoms and strings in Prolog text

An atom stands bare if it reads as one name, and otherwise between single quotes; a string stands
between double quotes. The two quoted forms escape different characters: a string escapes every
control character, an atom only those that would end it or break its line.
-/

namespace PrologWire.Text

/-- A letter, a digit or an underscore. -/
def isWordChar (c : Char) : Bool := c.isAlphanum || c = '_'

/-- The atom is written without quotes: it is `[]`, `{}` or a word that begins with a lower-case
letter. Letters and digits are those of ASCII. -/
def isBareAtom : List Char → Bool
  | ['[', ']'] => true
  | ['\x7b', '\x7d'] => true
  | [] => false
  | c :: cs => c.isLower && cs.all isWordChar

/-- The form of one character of a quoted atom. -/
def atomChar (c : Char) : List Char :=
  match c with
  | '\'' => ['\\', '\'']
  | '\\' => ['\\', '\\']
  | '\n' => ['\\', 'n']
  | '\t' => ['\\', 't']
  | c => [c]

/-- The Prolog text of an atom. -/
def atomText (name : List Char) : List Char :=
  if isBareAtom name then name else '\'' :: name.flatMap atomChar ++ ['\'']

/-- The form of one character of a string. -/
def stringChar (c : Char) : List Char :=
  match c with
  | '\\' => ['\\', '\\']
  | '"' => ['\\', '"']
  | '\n' => ['\\', 'n']
  | '\r' => ['\\', 'r']
  | '\t' => ['\\', 't']
  | c => if isControl c then '\\' :: 'x' :: hexUpper 2 c.toNat ++ ['\\'] else [c]

/-- The Prolog text of a string. -/
def stringText (s : List Char) : List Char := '"' :: s.flatMap stringChar ++ ['"']

end PrologWire.Text
