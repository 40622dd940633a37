import PrologWire.Arena.Basic

/-!
# Making terms

Constructors append to the current epoch and return a handle. The parts of a compound are given as
items, each of which may itself make terms when its turn comes.
-/

namespace PrologWire

/-- What a constructor is given for one part of a term: it yields the part's handle and may append
to the arena before. -/
abbrev Item := Arena → Handle × Arena

/-- The item that yields a term made before. -/
def Item.ofHandle (h : Handle) : Item := fun a => (h, a)

namespace Arena

/-! ## Leaves -/

/-- A text of some kind: inside the handle if it is short, else appended to the byte storage. -/
def text (a : Arena) (kind : TextKind) (s : String) : Handle × Arena :=
  if h : s.utf8ByteSize ≤ 14 then (.short kind ⟨s, h⟩, a)
  else
    let (slice, a) := a.appendText s
    (.long kind slice, a)

/-- An atom. -/
def atom (a : Arena) (name : String) : Handle × Arena := a.text .atom name

/-- A variable. -/
def var (a : Arena) (name : String) : Handle × Arena := a.text .var name

/-- A string. -/
def str (a : Arena) (s : String) : Handle × Arena := a.text .str s

/-- An integer of any size: inside the handle if it has 64 bits, else its decimal digits are
appended to the byte storage. -/
def integer (a : Arena) (value : Int) : Handle × Arena :=
  if Int64.minValue.toInt ≤ value ∧ value ≤ Int64.maxValue.toInt then
    (.int (Int64.ofInt value), a)
  else
    let (slice, a) := a.appendText (toString value)
    (.bigint slice, a)

end Arena

/-- An integer of a machine type whose values have 64 signed bits at most. -/
inductive MachineInt where
  | i8 (value : Int8)
  | i16 (value : Int16)
  | i32 (value : Int32)
  | i64 (value : Int64)
  | u8 (value : UInt8)
  | u16 (value : UInt16)
  | u32 (value : UInt32)

/-- The integer in 64 bits: signed types repeat their sign, the others have zeros in front. -/
def MachineInt.widen : MachineInt → Int64
  | i8 value => value.toInt64
  | i16 value => value.toInt64
  | i32 value => value.toInt64
  | i64 value => value
  | u8 value => value.toUInt64.toInt64
  | u16 value => value.toUInt64.toInt64
  | u32 value => value.toUInt64.toInt64

/-- A machine integer is kept inside the handle. -/
def Handle.ofMachine (n : MachineInt) : Handle := .int n.widen

namespace Arena

/-! ## Compounds, lists and tuples -/

/-- Runs the items in order and appends each handle to the slot storage as it comes. -/
def pushItems (a : Arena) : List Item → Arena
  | [] => a
  | item :: rest =>
    let (h, a) := item a
    pushItems (a.pushSlot h) rest

/-- A node whose slots begin at an offset noted before the slots were appended and reach to the end
of the storage. -/
def nodeFrom (a : Arena) (kind : NodeKind) (start : Nat) : Handle × Arena :=
  (.node kind (a.sliceBetween start a.slots.size), a)

/-- A compound of a functor and the items, or the functor alone if there are no items. -/
def compound (a : Arena) (functor : Handle) (args : List Item) : Handle × Arena :=
  match args with
  | [] => (functor, a)
  | args =>
    -- slots that the items append for parts of their own fall into the stretch, too
    let start := a.slots.size
    ((a.pushSlot functor).pushItems args).nodeFrom .func start

/-- A compound with the given name; without arguments it is an atom. -/
def func (a : Arena) (name : String) (args : List Item) : Handle × Arena :=
  let (functor, a) := a.atom name
  a.compound functor args

/-- A compound whose functor is the first item, which has to yield an atom. -/
def funcOfItems (a : Arena) (items : List Item) : Except TermError Handle × Arena :=
  match items with
  | [] => (.error .missingFunctor, a)
  | first :: args =>
    let (functor, a) := first a
    if functor.isAtom then
      let (h, a) := a.compound functor args
      (.ok h, a)
    else (.error (.invalidFunctor functor), a)

/-- A list of the items. -/
def list (a : Arena) (items : List Item) : Handle × Arena :=
  match items with
  | [] => (.nil, a)
  | items =>
    let start := a.slots.size
    (a.pushItems items).nodeFrom .list start

/-- A tuple of the items. -/
def tuple (a : Arena) (items : List Item) : Handle × Arena :=
  match items with
  | [] => (.unit, a)
  | items =>
    let start := a.slots.size
    (a.pushItems items).nodeFrom .tuple start

end Arena

end PrologWire
