import PrologWire.Text.Unseen

/-!
# Characters that can be shown as they are
-/

namespace PrologWire.Text

/-- The control characters of Unicode (category Cc). -/
def isControl (c : Char) : Bool := c.toNat < 0x20 || (0x7f ≤ c.toNat && c.toNat ≤ 0x9f)

/-- The character is shown as itself in a message. -/
def isPrintable (c : Char) : Bool := !isUnseen c.toNat

end PrologWire.Text
