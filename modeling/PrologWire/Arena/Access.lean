import PrologWire.Arena.View
import PrologWire.Text.Digits

/-!
# Taking terms apart

Each accessor asks for a term of certain kinds and fails with the kind that it finds instead. Where
a list of names is given, a name outside it is refused; the empty list allows every name.
-/

namespace PrologWire
namespace Arena

/-- The name is among those allowed. -/
def allows (allowed : List String) (name : String) : Bool :=
  allowed.isEmpty || allowed.contains name

/-- The complaint that a term is of none of the kinds asked for. -/
def wrongKind {α : Type} (expected : List Kind) (h : Handle) : Except TermError α :=
  .error (.unexpectedKind expected h.kind)

/-! ## Numbers and strings -/

/-- The value of an integer of 64 bits. -/
def intValue (a : Arena) (h : Handle) : Except TermError Int64 := do
  match ← a.view h with
  | .leaf (.int value) => .ok value
  | _ => wrongKind [.int] h

/-- The value of the digits of an integer. -/
def integerOfDigits (digits : String) : Except TermError Int :=
  match Text.readInt? digits.toList with
  | some value => .ok value
  | none => .error (.invalidDigits digits)

/-- The value of an integer of any size. -/
def integerValue (a : Arena) (h : Handle) : Except TermError Int := do
  match ← a.view h with
  | .leaf (.int value) => .ok value.toInt
  | .leaf (.bigint digits) => integerOfDigits digits
  | _ => wrongKind [.int] h

/-- The value of a float. -/
def realValue (a : Arena) (h : Handle) : Except TermError Binary64 := do
  match ← a.view h with
  | .leaf (.real value) => .ok value
  | _ => wrongKind [.real] h

/-- The text of a string. -/
def strText (a : Arena) (h : Handle) : Except TermError String := do
  match ← a.view h with
  | .leaf (.str text) => .ok text
  | _ => wrongKind [.str] h

/-! ## Names -/

/-- The name of an atom; the empty list is the atom `[]`. -/
def atomName (a : Arena) (h : Handle) (allowed : List String) : Except TermError String := do
  let name ← (← a.view h).atomName
  if allows allowed name then .ok name else .error (.unexpectedName h)

/-- The name of a variable. -/
def varName (a : Arena) (h : Handle) (allowed : List String) : Except TermError String := do
  match ← a.view h with
  | .leaf (.var name) => if allows allowed name then .ok name else .error (.unexpectedName h)
  | _ => wrongKind [.var] h

/-- The name of a variable, of an atom or of the functor of a compound. -/
def nameOf (a : Arena) (h : Handle) : Except TermError String := do
  if h.isNil then .ok "[]"
  else match ← a.view h with
    | .leaf (.var name) | .leaf (.atom name) => .ok name
    | .func functor _ => a.atomName functor []
    | _ => wrongKind [.var, .atom, .func] h

/-! ## Parts -/

/-- The functor and the arguments of a compound; an atom is its own functor. -/
def funcParts (a : Arena) (h : Handle) (allowed : List String) :
    Except TermError (Handle × List Handle) := do
  match ← a.view h with
  | .leaf (.atom name) => if allows allowed name then .ok (h, []) else .error (.unexpectedName h)
  | .func _ [] => .error (.invalidTerm h)
  | .func functor args =>
    if allowed.isEmpty then .ok (functor, args)
    else do
      let name ← a.atomName functor []
      if allowed.contains name then .ok (functor, args) else .error (.unexpectedName h)
  | _ => wrongKind [.func] h

/-- The name of an atom or of the functor of a compound. -/
def funcName (a : Arena) (h : Handle) : Except TermError String := do
  let (functor, _) ← a.funcParts h []
  a.atomName functor []

/-- The elements of a list. -/
def listElems (a : Arena) (h : Handle) : Except TermError (List Handle) := do
  match ← a.view h with
  | .list elems => .ok elems
  | _ => wrongKind [.list] h

/-- The elements of a tuple. -/
def tupleElems (a : Arena) (h : Handle) : Except TermError (List Handle) := do
  match ← a.view h with
  | .tuple elems => .ok elems
  -- the empty tuple views as an atom
  | .leaf (.atom _) => if h = Handle.unit then .ok [] else wrongKind [.tuple] h
  | _ => wrongKind [.tuple] h

/-- Parts of which there must be a certain number. -/
def ofArity (arity : Nat) (parts : List Handle) : Except TermError (List Handle) :=
  if parts.length = arity then .ok parts else .error (.unexpectedArity arity parts.length)

/-- The functor of a compound with `arity` arguments, and these. -/
def funcPartsOf (a : Arena) (arity : Nat) (h : Handle) (allowed : List String) :
    Except TermError (Handle × List Handle) := do
  let (functor, args) ← a.funcParts h allowed
  let args ← ofArity arity args
  .ok (functor, args)

/-- The elements of a tuple of `arity` elements. -/
def tupleElemsOf (a : Arena) (arity : Nat) (h : Handle) : Except TermError (List Handle) := do
  ofArity arity (← a.tupleElems h)

end Arena
end PrologWire
