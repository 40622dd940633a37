import PrologWire.Arena.Basic

/-!
# Views

A view is one level of a term: a leaf with its number or text, or a compound, list or tuple with its
parts. In the view of a handle the parts are handles again.
-/

namespace PrologWire

/-- A term without parts. -/
inductive Leaf where
  | int (value : Int64)
  /-- An integer outside the 64-bit range, by its decimal digits. -/
  | bigint (digits : String)
  | real (value : Binary64)
  | var (name : String)
  | atom (name : String)
  | str (text : String)
deriving DecidableEq, Inhabited

namespace Leaf

/-- The leaf with a text. -/
def ofText : TextKind → String → Leaf
  | .var => var
  | .atom => atom
  | .str => str

/-- The kind of a leaf. -/
def kind : Leaf → Kind
  | int _ => .int
  | bigint _ => .bigint
  | real _ => .real
  | var _ => .var
  | atom _ => .atom
  | str _ => .str

end Leaf

/-- One level of a term whose parts are given as `α`. -/
inductive View (α : Type) where
  | leaf (l : Leaf)
  | func (functor : α) (args : List α)
  | list (elems : List α)
  | tuple (elems : List α)
deriving DecidableEq, Inhabited

namespace View

/-- The kind of a term. -/
def kind {α : Type} : View α → Kind
  | leaf l => l.kind
  | func _ _ => .func
  | list _ => .list
  | tuple _ => .tuple

/-- The name of an atom; the empty list is the atom `[]`. -/
def atomName {α : Type} : View α → Except TermError String
  | leaf (.atom name) => .ok name
  | list [] => .ok "[]"
  | v => .error (.unexpectedKind [.atom] v.kind)

/-- The name that a term has as a functor, by what a look at it shows. -/
def functorName {α : Type} : Except TermError (View α) → Except TermError String
  | .error cause => .error cause
  | .ok v => v.atomName

/-- The same level of a term with other parts. -/
def map {α β : Type} (f : α → β) : View α → View β
  | leaf l => leaf l
  | func functor args => func (f functor) (args.map f)
  | list elems => list (elems.map f)
  | tuple elems => tuple (elems.map f)

@[simp] theorem kind_map {α β : Type} (f : α → β) (v : View α) : (v.map f).kind = v.kind := by
  cases v <;> rfl

@[simp] theorem atomName_map {α β : Type} (f : α → β) (v : View α) :
    (v.map f).atomName = v.atomName := by
  cases v with
  | leaf l => cases l <;> rfl
  | func functor args => rfl
  | list elems => cases elems <;> rfl
  | tuple elems => rfl

@[simp] theorem functorName_map {α β : Type} (f : α → β) (seen : Except TermError (View α)) :
    functorName (seen.map (map f)) = functorName seen := by
  rcases seen with cause | v
  · rfl
  · exact atomName_map f v

end View

namespace Arena

/-- The error that a failed look-up means for the handle that asked for it. -/
def SliceFault.error (h : Handle) : SliceFault → TermError
  | .stale => .invalidTerm h
  | .overflow => .malformedSlice h

/-- The text in a stretch of the byte storage. -/
def textAt (a : Arena) (h : Handle) (s : Slice) : Except TermError String :=
  match a.bytesAt s with
  | .error fault => .error (fault.error h)
  | .ok bytes =>
    match String.fromUTF8? bytes with
    | some text => .ok text
    | none => .error (.malformedSlice h)

/-- One level of the term that a handle stands for. The atom `[]` views as the empty list. -/
def view (a : Arena) (h : Handle) : Except TermError (View Handle) :=
  match h with
  | .int value => .ok (.leaf (.int value))
  | .real value => .ok (.leaf (.real value))
  | .short kind text =>
    if h = Handle.nil then .ok (.list []) else .ok (.leaf (Leaf.ofText kind text.text))
  | .bigint digits => (a.textAt h digits).map fun digits => .leaf (.bigint digits)
  | .long kind text => (a.textAt h text).map fun text => .leaf (Leaf.ofText kind text)
  | .node kind slots =>
    match a.slotsAt slots, kind with
    | .error fault, _ => .error (fault.error h)
    | .ok (functor :: args), .func => .ok (.func functor args)
    | .ok [], .func => .error (.malformedSlice h)
    | .ok elems, .list => .ok (.list elems)
    | .ok elems, .tuple => .ok (.tuple elems)

/-- One level of a term that is allowed to have `depth` levels. -/
def look (a : Arena) : Nat → Handle → Except TermError (View Handle)
  | 0, h => .error (.endlessTerm h)
  | _ + 1, h => a.view h

/-- How deep a term can be that does not contain itself: on a deeper one some slot would be met
twice on the way down. -/
def maxDepth (a : Arena) : Nat := a.slots.size + 2

end Arena

end PrologWire
