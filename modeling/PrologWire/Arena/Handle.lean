import PrologWire.Numeric.Binary64

/-!
# Handles of terms

A handle is a small value that stands for a term. Integers of 64 bits, floats and short texts are
inside it; longer texts, the digits of greater integers and the parts of compounds, lists and tuples
are stretches of an arena's storage. A stretch carries the name of the epoch it was written in, by
which an arena knows whether it still holds it.
-/

namespace PrologWire

/-- The name of an arena. -/
structure ArenaId where
  number : Nat
deriving DecidableEq, Inhabited

/-- The name of an epoch of some arena. -/
structure EpochId where
  number : Nat
deriving DecidableEq, Inhabited

/-- A stretch of an arena's storage, in offsets of 32 bits. -/
structure Slice where
  epoch : EpochId
  start : UInt32
  length : UInt32
deriving DecidableEq, Inhabited

/-- What a text is the text of. -/
inductive TextKind where
  | var
  | atom
  | str
deriving DecidableEq, Repr, Inhabited

/-- What a sequence of handles is. -/
inductive NodeKind where
  | func
  | list
  | tuple
deriving DecidableEq, Repr, Inhabited

/-- A text short enough to be kept inside a handle: 14 bytes of UTF-8 at most. -/
structure ShortText where
  text : String
  fits : text.utf8ByteSize ≤ 14
deriving DecidableEq

instance : Inhabited ShortText := ⟨"", by decide⟩

/-- A handle of a term. -/
inductive Handle where
  /-- An integer of 64 bits. -/
  | int (value : Int64)
  | real (value : Binary64)
  | short (kind : TextKind) (text : ShortText)
  /-- An integer outside the 64-bit range, as decimal digits in the byte storage. -/
  | bigint (digits : Slice)
  /-- A text in the byte storage. -/
  | long (kind : TextKind) (text : Slice)
  /-- Handles in the slot storage. The first one of a compound is its functor. -/
  | node (kind : NodeKind) (slots : Slice)
deriving DecidableEq, Inhabited

/-- The kinds of terms. -/
inductive Kind where
  | int
  | bigint
  | real
  | var
  | atom
  | str
  | func
  | list
  | tuple
deriving DecidableEq, Repr, Inhabited

/-- The word for a kind. -/
def Kind.name : Kind → String
  | int => "int"
  | bigint => "bigint"
  | real => "real"
  | var => "var"
  | atom => "atom"
  | str => "str"
  | func => "func"
  | list => "list"
  | tuple => "tuple"

namespace Handle

/-- The empty list is the atom `[]`. -/
def nil : Handle := short .atom ⟨"[]", by decide⟩

/-- The empty tuple is the atom `unit`. -/
def unit : Handle := short .atom ⟨"unit", by decide⟩

/-- The kind of term a handle stands for; the empty list is a list. -/
def kind (h : Handle) : Kind :=
  if h = nil then .list
  else match h with
    | int _ => .int
    | bigint _ => .bigint
    | real _ => .real
    | short .var _ | long .var _ => .var
    | short .atom _ | long .atom _ => .atom
    | short .str _ | long .str _ => .str
    | node .func _ => .func
    | node .list _ => .list
    | node .tuple _ => .tuple

/-- The number of arguments of a compound, of elements of a tuple, and zero for all else. -/
def arity : Handle → Nat
  | node .func s => s.length.toNat - 1
  | node .tuple s => s.length.toNat
  | _ => 0

/-! ## Predicates -/

/-- The handle needs no arena. -/
def isInline : Handle → Bool
  | int _ | real _ | short _ _ => true
  | bigint _ | long _ _ | node _ _ => false

/-- A compound with arguments. -/
def isFunc : Handle → Bool
  | node .func _ => true
  | _ => false

/-- The empty list. -/
def isNil (h : Handle) : Bool := h = nil

/-- A list, the empty one included. -/
def isList : Handle → Bool
  | node .list _ => true
  | h => h = nil

/-- A tuple, the empty one included. -/
def isTuple : Handle → Bool
  | node .tuple _ => true
  | h => h = unit

/-- An integer of any size. -/
def isInt : Handle → Bool
  | int _ | bigint _ => true
  | _ => false

/-- An integer outside the 64-bit range. -/
def isBigint : Handle → Bool
  | bigint _ => true
  | _ => false

/-- A float. -/
def isReal : Handle → Bool
  | real _ => true
  | _ => false

/-- An atom; the empty list is one. -/
def isAtom : Handle → Bool
  | short .atom _ | long .atom _ => true
  | _ => false

/-- A variable. -/
def isVar : Handle → Bool
  | short .var _ | long .var _ => true
  | _ => false

/-- A string. -/
def isStr : Handle → Bool
  | short .str _ | long .str _ => true
  | _ => false

/-- An integer of any size or a float. -/
def isNumber : Handle → Bool
  | int _ | bigint _ | real _ => true
  | _ => false

end Handle

end PrologWire
