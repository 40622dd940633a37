import PrologWire.Call
import PrologWire.Sicstus.Format
import PrologWire.Wire.Sink
import PrologWire.Wire.VarTable

/-!
# Calls into SICStus bytes

A sentence is gathered in a buffer and goes to the sink at its full stop. What a compound begins
with is written when its first argument comes, so that a compound without arguments can still become
an atom; its arity byte is filled in when it is closed.
-/

namespace PrologWire.Sicstus

/-- A compound or a list that has been opened and not closed. -/
inductive Context where
  | list
  /-- The arity byte is at `arityPosition` as soon as there is an argument. -/
  | compound (functor : String) (arityPosition arity : Nat)
deriving DecidableEq, Inhabited

/-- The encoder of a stream of sentences. -/
structure Encoder where
  /-- The sentence so far, without its version byte. -/
  buffer : Buffer
  vars : VarTable
  /-- What is open, the innermost first. -/
  contexts : List Context
  /-- The last element of the innermost list is in a run that is not ended. -/
  inRun : Bool
  /-- A call of the sentence has failed. -/
  failed : Bool
  sink : Sink
deriving Inhabited

namespace Encoder

/-- An encoder at the beginning of its first sentence. -/
def new (sink : Sink) : Encoder := ⟨.empty, .empty, [], false, false, sink⟩

/-- How many compounds and lists are open. -/
def depth (e : Encoder) : Nat := e.contexts.length

/-- Forgets the sentence. -/
def reset (e : Encoder) : Encoder :=
  { e with
    buffer := e.buffer.clear
    vars := .empty
    contexts := []
    inRun := false
    failed := false }

/-- Refuses a call; the sentence will be dropped at its full stop. -/
def fail (e : Encoder) (cause : WireError) : Answer × Encoder :=
  (.error cause, { e with failed := true })

/-- Appends bytes to the sentence. -/
def put (e : Encoder) (bs : List UInt8) : Encoder := { e with buffer := e.buffer.append bs }

/-- Ends the run if there is one. -/
def endRun (e : Encoder) : Encoder := if e.inRun then { e.put [0] with inRun := false } else e

/-- Makes room for one more term in the innermost context. -/
def beginTerm (e : Encoder) : Encoder :=
  match e.contexts with
  | [] => e
  | .list :: _ => e.endRun.put [elementTag]
  | .compound functor _ 0 :: outer =>
    -- the first argument: the compound is no atom, so its beginning can be written
    let e := e.put (compoundTag :: zeroEnded functor)
    let position := e.buffer.length
    { e.put [0] with contexts := .compound functor position 1 :: outer }
  | .compound functor position arity :: outer =>
    { e with contexts := .compound functor position (arity + 1) :: outer }

/-- A leaf that stands for itself. -/
def leaf (e : Encoder) (bs : List UInt8) : Answer × Encoder := (.ok (), e.beginTerm.put bs)

/-- Begins a compound; nothing of it is written yet. -/
def openTerm (e : Encoder) (functor : String) : Answer × Encoder :=
  let e := e.beginTerm
  (.ok (), { e with contexts := .compound functor 0 0 :: e.contexts })

/-- Ends a compound. Without arguments it is an atom; otherwise its arity byte is filled in. -/
def closeTerm (e : Encoder) : Answer × Encoder :=
  match e.contexts with
  | .compound functor _ 0 :: outer => (.ok (), { e with contexts := outer }.put (atomBytes functor))
  | .compound functor position arity :: outer =>
    if maxArity < arity then e.fail (.arityOverflow functor arity)
    else if position < e.buffer.length then
      (.ok (), { e with
        buffer := e.buffer.replace position (UInt8.ofNat arity)
        contexts := outer })
    else e.fail (.buffer (.setBeyond position e.buffer.length))
  | _ => e.fail (.mismatchedClose .term)

/-- Begins a list; nothing is written before its first element. -/
def openList (e : Encoder) : Encoder :=
  let e := e.beginTerm
  { e with contexts := .list :: e.contexts }

/-- Ends a list, and the run in it. -/
def closeList (e : Encoder) : Answer × Encoder :=
  match e.contexts with
  | .list :: outer => (.ok (), { e with contexts := outer }.endRun.put [endTag])
  | _ => e.fail (.mismatchedClose .list)

/-- A small integer in a list joins the run before it or begins one. -/
def int (e : Encoder) (value : Int64) : Answer × Encoder :=
  match e.contexts, runByte? value with
  | .list :: _, some byte =>
    (.ok (), if e.inRun then e.put [byte] else { e.put [runTag, byte] with inRun := true })
  | _, _ => e.leaf (integerBytes (toString value.toInt))

/-- An integer of any size. -/
def bigint (e : Encoder) (value : Int) : Answer × Encoder :=
  match int64? value with
  | some small => e.int small
  | none => e.leaf (integerBytes (toString value))

/-- A variable, by its number in the sentence. -/
def var (e : Encoder) (name : String) : Answer × Encoder :=
  let e := e.beginTerm
  let (ordinal, vars) := e.vars.ordinal name
  (.ok (), { e with vars := vars }.put (variableBytes ordinal))

/-- Flushes the sink. -/
def flush (e : Encoder) : Answer × Encoder :=
  let (flushed, sink) := e.sink.flush
  (.ofSink flushed, { e with sink := sink })

/-- Writes the version byte and the sentence to the sink and flushes it, as far as it lets. -/
def writeSentence (e : Encoder) : Answer × Encoder :=
  let (complete, sink) := e.sink.write #[versionTag]
  if complete then
    let (complete, sink) := sink.write e.buffer.bytes
    let e := { e with sink := sink }
    if complete then e.flush else (.ofSink complete, e)
  else (.ofSink complete, { e with sink := sink })

/-- Ends the sentence: it is written if it is whole and no call in it failed, and forgotten in any
case. -/
def fullStop (e : Encoder) : Answer × Encoder :=
  if e.failed then (.error .sentenceDiscarded, e.reset)
  else if e.contexts ≠ [] then (.error (.unbalanced e.depth), e.reset)
  else
    let (answer, e) := e.writeSentence
    (answer, e.reset)

/-- Takes one call. -/
def call (e : Encoder) : Call → Answer × Encoder
  | .openTerm functor => e.openTerm functor
  | .closeTerm => e.closeTerm
  | .openList => (.ok (), e.openList)
  | .closeList => e.closeList
  | .emptyList => e.openList.closeList
  | .atom name => e.leaf (atomBytes name)
  | .int value => e.int value
  | .bigint value => e.bigint value
  | .float value => e.leaf (floatBytes value)
  | .var name => e.var name
  | .fullStop => e.fullStop
  | .flush => e.flush

end Encoder

end PrologWire.Sicstus
