import PrologWire.Arena.View
import PrologWire.Numeric.FloatFormat
import PrologWire.Text.Message

/-!
# Texts of handles, views and errors

Messages about terms show what a handle holds and where it points, not the term it stands for.
-/

namespace PrologWire

/-- Floats in messages have an exponent from `10^16` on and below `10^-4`. -/
def FloatFormat.message : FloatFormat where
  positional e := -5 < e && e < 16
  pointZero _ := true
  pointBeforeExponent := false
  plusSign := false
  nan := "NaN"
  tie := .upward

/-- A field with its name. -/
def showField (name value : String) : String := name ++ ": " ++ value

/-- A constructor with unnamed arguments. -/
def showCall (name : String) (args : List String) : String :=
  name ++ "(" ++ ", ".intercalate args ++ ")"

/-- A constructor with named arguments. -/
def showRecord (name : String) (fields : List String) : String :=
  name ++ " \x7b " ++ ", ".intercalate fields ++ " \x7d"

/-- The name of an arena as messages show it. -/
def ArenaId.inspect (id : ArenaId) : String := showCall "ArenaID" ["#" ++ toString id.number]

/-- The name of an epoch as messages show it. -/
def EpochId.inspect (id : EpochId) : String := showCall "EpochID" ["#" ++ toString id.number]

namespace Handle

/-- The word for a handle that refers to text in an arena. -/
def longName : TextKind → String
  | .var => "VarRef"
  | .atom => "AtomRef"
  | .str => "StrRef"

/-- The word for a handle that refers to slots in an arena. -/
def nodeName : NodeKind → String
  | .func => "Func"
  | .list => "List"
  | .tuple => "Tuple"

/-- A handle that refers to an arena, by epoch, offset and length. -/
def showSlice (name : String) (s : Slice) : String :=
  showRecord name
    [showField "epoch_id" s.epoch.inspect, showField "index" (toString s.start.toNat),
      showField "len" (toString s.length.toNat)]

/-- A handle as messages show it. -/
def inspect : Handle → String
  | int value => showCall "Int" [toString value.toInt]
  | real value => showCall "Real" [FloatFormat.message.text value]
  | short .var t => showRecord "Var" [showField "name" (Text.quoteForMessage t.text)]
  | short .atom t => showRecord "Atom" [showField "name" (Text.quoteForMessage t.text)]
  | short .str t => showRecord "Str" [showField "value" (Text.quoteForMessage t.text)]
  | bigint s => showSlice "BigIntRef" s
  | long kind s => showSlice (longName kind) s
  | node kind s => showSlice (nodeName kind) s

end Handle

/-- Kinds in a message, with commas between them. -/
def Kind.names (kinds : List Kind) : String := ", ".intercalate (kinds.map Kind.name)

namespace TermError

/-- An error as messages show it. -/
def inspect : TermError → String
  | invalidTerm t => showCall "InvalidTerm" [t.inspect]
  | liveEpochsExceeded => "LiveEpochsExceeded"
  | invalidEpoch e => showCall "InvalidEpoch" [e.inspect]
  | missingFunctor => "MissingFunctor"
  | invalidFunctor t => showCall "InvalidFunctor" [t.inspect]
  | unexpectedKind expected found =>
    showRecord "UnexpectedKind"
      [showField "expected" (Text.quoteForMessage (Kind.names expected)),
        showField "found" (Text.quoteForMessage found.name)]
  | unexpectedArity expected found =>
    showRecord "UnexpectedArity"
      [showField "expected" (toString expected), showField "found" (toString found)]
  | unexpectedName t => showCall "UnexpectedName" [t.inspect]
  | invalidDigits digits => showCall "InvalidBigInt" [Text.quoteForMessage digits]
  | malformedSlice t => showCall "MalformedSlice" [t.inspect]
  | endlessTerm t => showCall "EndlessTerm" [t.inspect]

/-- The wording of an error. -/
def message : TermError → String
  | invalidTerm t => "Invalid term " ++ t.inspect
  | liveEpochsExceeded => "Epoch overflow"
  | invalidEpoch e => "Invalid epoch " ++ e.inspect
  | missingFunctor => "Missing functor"
  | invalidFunctor t => "Invalid functor " ++ t.inspect
  | unexpectedKind expected found =>
    s!"Type mismatch: expected {Kind.names expected}, found {found.name}"
  | unexpectedArity expected found => s!"Arity mismatch: expected {expected}, found {found}"
  | unexpectedName t => "Unexpected name in " ++ t.inspect
  | invalidDigits digits => "invalid big integer digits: " ++ digits
  | malformedSlice t => "Malformed slice in " ++ t.inspect
  | endlessTerm t => "Endless term " ++ t.inspect

end TermError

/-- A leaf as messages show it. -/
def Leaf.inspect : Leaf → String
  | int value => showCall "Int" [toString value.toInt]
  | bigint digits => showCall "BigInt" [Text.quoteForMessage digits]
  | real value => showCall "Real" [FloatFormat.message.text value]
  | var name => showCall "Var" [Text.quoteForMessage name]
  | atom name => showCall "Atom" [Text.quoteForMessage name]
  | str text => showCall "Str" [Text.quoteForMessage text]

namespace Arena

/-- A view with the views of its parts down to a depth, as messages show it. -/
def showView (a : Arena) : Nat → View Handle → String
  | 0, _ => "…"
  | depth + 1, v =>
    let part (h : Handle) : String :=
      match a.view h with
      | .ok inner => showCall "Ok" [a.showView depth inner]
      | .error cause => showCall "Err" [cause.inspect]
    let parts (hs : List Handle) : String := "[" ++ ", ".intercalate (hs.map part) ++ "]"
    match v with
    | .leaf l => l.inspect
    | .func functor args => showCall "Func" [a.id.inspect, functor.inspect, parts args]
    | .list elems => showCall "List" [a.id.inspect, parts elems]
    | .tuple elems => showCall "Tuple" [a.id.inspect, parts elems]

/-- The view of a handle, as messages show it. -/
def viewText (a : Arena) (h : Handle) : Except TermError String :=
  (a.view h).map (a.showView a.maxDepth)

end Arena

end PrologWire
