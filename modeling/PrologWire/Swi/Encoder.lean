import PrologWire.Call
import PrologWire.Swi.Format
import PrologWire.Wire.Sink
import PrologWire.Wire.VarTable

/-!
# Calls into SWI-Prolog records

The code of a term is gathered in a buffer until its full stop, because its size comes first in the
record. A compound begins with a place for its arity, one byte wide, and its functor; when it is
closed the arity goes there, and what follows moves if the arity needs more room. A lone atom,
integer or empty list goes to the sink at once.
-/

namespace PrologWire.Swi

/-- A compound or a list that has been opened and not closed. -/
inductive Context where
  | list
  /-- The tag of the compound is at `start`. -/
  | compound (start arity : Nat)
deriving DecidableEq, Inhabited

/-- Puts the varint of an arity in the place of the byte at a position of the content. -/
def patchArity (b : Buffer) (position arity : Nat) : Buffer :=
  match varint arity with
  | [byte] => b.replace position byte
  | bytes =>
    -- the length goes back to the place, and forward again over the moved bytes
    let wider := b.widen (position + 1) (bytes.length - 1)
    let length := wider.length
    ((wider.setLength position).append bytes).setLength length

/-- The encoder of a stream of sentences. -/
structure Encoder where
  config : Config
  /-- The code of the sentence so far. -/
  buffer : Buffer
  vars : VarTable
  /-- What is open, the innermost first. -/
  contexts : List Context
  /-- The words that the closed parts of the sentence take up in the receiver. -/
  words : Nat
  /-- A call of the sentence has failed. -/
  failed : Bool
  sink : Sink
deriving Inhabited

namespace Encoder

/-- An encoder at the beginning of its first sentence. -/
def new (config : Config) (sink : Sink) : Encoder :=
  ⟨config, .empty, .empty, [], 0, false, sink⟩

/-- How many compounds and lists are open. -/
def depth (e : Encoder) : Nat := e.contexts.length

/-- Forgets the sentence. -/
def reset (e : Encoder) : Encoder :=
  { e with
    buffer := e.buffer.clear
    vars := .empty
    contexts := []
    words := 0
    failed := false }

/-- Refuses a call; the sentence will be dropped at its full stop. -/
def fail (e : Encoder) (cause : WireError) : Answer × Encoder :=
  (.error cause, { e with failed := true })

/-- Appends code to the sentence. -/
def put (e : Encoder) (bs : List UInt8) : Encoder := { e with buffer := e.buffer.append bs }

/-- A leaf that comes now is a record of its own. -/
def isDirect (e : Encoder) : Bool := e.contexts.isEmpty && e.buffer.isEmpty && !e.failed

/-- Writes a record of its own to the sink. It passes through the buffer. -/
def writeDirect (e : Encoder) (record : List UInt8) : Answer × Encoder :=
  let e := e.put record
  let (complete, sink) := e.sink.write e.buffer.bytes
  (.ofSink complete, { e with sink := sink, buffer := e.buffer.clear })

/-- The header of the record of a lone atom or empty list. -/
def directAtomHeader (e : Encoder) : UInt8 := e.config.header ||| atomBit ||| groundBit

/-- The header of the record of a lone integer. -/
def directIntHeader (e : Encoder) : UInt8 := e.config.header ||| intBit ||| groundBit

/-- Makes room for one more term in the innermost context. -/
def beginTerm (e : Encoder) : Encoder :=
  match e.contexts with
  | [] => e
  | .list :: _ => { e.put [consTag] with words := e.words + consWords }
  | .compound start arity :: outer => { e with contexts := .compound start (arity + 1) :: outer }

/-- Appends an atom or an empty list that has been counted already, as a record of its own if it is
the whole sentence. -/
def putClosed (e : Encoder) (code : List UInt8) : Answer × Encoder :=
  if e.isDirect then e.writeDirect (e.directAtomHeader :: code) else (.ok (), e.put code)

/-- Begins a compound with a place for its arity. -/
def openTerm (e : Encoder) (functor : String) : Answer × Encoder :=
  if e.config.admits functor.toList then
    let e := e.beginTerm
    let start := e.buffer.length
    let e := e.put (compoundTag :: 0 :: atomBytes e.config functor.toList)
    (.ok (), { e with contexts := .compound start 0 :: e.contexts })
  else e.fail (.wideAtomsDisabled functor)

/-- Closes a compound. Without arguments it is its functor alone. -/
def closeTerm (e : Encoder) : Answer × Encoder :=
  match e.contexts with
  | .compound start 0 :: outer =>
    -- behind the tag and the place for the arity stands the functor, and nothing else
    let functor := e.buffer.drop (start + 2)
    { e with buffer := e.buffer.setLength start, contexts := outer }.putClosed functor
  | .compound start arity :: outer =>
    if start + 1 < e.buffer.length then
      (.ok (), { e with
        buffer := patchArity e.buffer (start + 1) arity
        contexts := outer
        words := e.words + arity + 1 })
    else e.fail (.buffer (.setBeyond (start + 1) e.buffer.length))
  | _ => e.fail (.mismatchedClose .term)

/-- Begins a list; nothing is written before its first element. -/
def openList (e : Encoder) : Encoder :=
  let e := e.beginTerm
  { e with contexts := .list :: e.contexts }

/-- Ends a list. An empty one has only its end. -/
def closeList (e : Encoder) : Answer × Encoder :=
  match e.contexts with
  | .list :: outer => { e with contexts := outer }.putClosed [nilTag]
  | _ => e.fail (.mismatchedClose .list)

/-- An atom. -/
def atom (e : Encoder) (name : String) : Answer × Encoder :=
  if e.config.admits name.toList then
    let code := atomBytes e.config name.toList
    if e.isDirect then e.writeDirect (e.directAtomHeader :: code)
    else (.ok (), e.beginTerm.put code)
  else e.fail (.wideAtomsDisabled name)

/-- An integer that fits into a word of the receiver. -/
def int (e : Encoder) (value : Int64) : Answer × Encoder :=
  if e.config.holdsInt value then
    if e.isDirect then e.writeDirect (e.directIntHeader :: intBytes value.toInt)
    else (.ok (), e.beginTerm.put (integerTag :: intBytes value.toInt))
  else e.fail (.integerOutOfRange value e.config.intBits)

/-- An integer of any size, which is refused outside the 64-bit range. -/
def bigint (e : Encoder) (value : Int) : Answer × Encoder :=
  match int64? value with
  | some small => e.int small
  | none => e.fail (.unsupported .bigIntegers)

/-- A float; even a lone one has a record with sizes. -/
def float (e : Encoder) (value : Binary64) : Answer × Encoder :=
  let e := e.beginTerm.put (floatTag :: floatBytes value)
  (.ok (), { e with words := e.words + e.config.wordSize.floatWords })

/-- A variable, by its number in the sentence. -/
def var (e : Encoder) (name : String) : Answer × Encoder :=
  let e := e.beginTerm
  let (ordinal, vars) := e.vars.ordinal name
  (.ok (), { e with vars := vars }.put (variableTag :: varint ordinal))

/-- Flushes the sink. -/
def flush (e : Encoder) : Answer × Encoder :=
  let (flushed, sink) := e.sink.flush
  (.ofSink flushed, { e with sink := sink })

/-- What comes before the code in a record: the header, the sizes of the code and of the term in the
receiver, and the number of variables if there are any. -/
def recordStart (e : Encoder) : List UInt8 :=
  let sizes := varint e.buffer.length ++ varint e.words
  if e.vars.size = 0 then (e.config.header ||| groundBit) :: sizes
  else e.config.header :: sizes ++ varint e.vars.size

/-- Writes the record of the sentence to the sink, as far as it lets. -/
def writeRecord (e : Encoder) : Answer × Encoder :=
  let (complete, sink) := e.sink.write e.recordStart.toArray
  if complete then
    let (complete, sink) := sink.write e.buffer.bytes
    (.ofSink complete, { e with sink := sink })
  else (.ofSink complete, { e with sink := sink })

/-- Ends the sentence: what is not written yet is written if it is whole and no call failed, and
forgotten in any case. -/
def fullStop (e : Encoder) : Answer × Encoder :=
  if e.failed then (.error .sentenceDiscarded, e.reset)
  else if e.contexts ≠ [] then (.error (.unbalanced e.depth), e.reset)
  else
    -- an empty buffer means that the sentence has gone to the sink as a record of its own
    let (answer, e) := if e.buffer.isEmpty then (.ok (), e) else e.writeRecord
    let e := e.reset
    match answer with
    | .ok () => e.flush
    | .error cause => (.error cause, e)

/-- Takes one call. -/
def call (e : Encoder) : Call → Answer × Encoder
  | .openTerm functor => e.openTerm functor
  | .closeTerm => e.closeTerm
  | .openList => (.ok (), e.openList)
  | .closeList => e.closeList
  | .emptyList => e.openList.closeList
  | .atom name => e.atom name
  | .int value => e.int value
  | .bigint value => e.bigint value
  | .float value => e.float value
  | .var name => e.var name
  | .fullStop => e.fullStop
  | .flush => e.flush

end Encoder

end PrologWire.Swi
