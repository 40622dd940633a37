import PrologWire.Text.Hex
import PrologWire.Text.Printable

/-!
# Texts quoted in messages

A message shows a text between double quotes, on one line and with every character visible.
-/

namespace PrologWire.Text

/-- The form of one character of a text in a message. -/
def messageChar (c : Char) : List Char :=
  match c with
  | '"' => ['\\', '"']
  | '\\' => ['\\', '\\']
  | '\n' => ['\\', 'n']
  | '\r' => ['\\', 'r']
  | '\t' => ['\\', 't']
  | '\x00' => ['\\', '0']
  | c =>
    if isPrintable c then [c]
    else '\\' :: 'u' :: '\x7b' :: hexLower 1 c.toNat ++ ['\x7d']

/-- A text as a message quotes it. -/
def quoteForMessage (s : String) : String :=
  String.ofList ('"' :: s.toList.flatMap messageChar ++ ['"'])

end PrologWire.Text
