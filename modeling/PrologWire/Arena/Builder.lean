import PrologWire.Arena.Build
import PrologWire.Call

/-!
# Calls into terms of an arena
-/

namespace PrologWire

/-- A compound or a list in the making, with the parts that it has so far in reverse. -/
inductive Frame where
  | compound (functor : String) (reversed : List Handle)
  | list (reversed : List Handle)
deriving Inhabited

/-- A consumer that builds the term of each sentence. -/
structure Builder where
  arena : Arena
  /-- What is open, the innermost first. -/
  frames : List Frame
  /-- The top-level terms of the sentence, in reverse. -/
  pending : List Handle
  /-- The terms of the sentences that ended well, in reverse. -/
  finished : List Handle
deriving Inhabited

namespace Builder

/-- A builder at the beginning of its first sentence. -/
def new (arena : Arena) : Builder := ⟨arena, [], [], []⟩

/-- The terms of the sentences that ended well. -/
def terms (b : Builder) : List Handle := b.finished.reverse

/-- Adds a term to the innermost frame, or to the sentence. -/
def add (b : Builder) (h : Handle) : Builder :=
  match b.frames with
  | .compound functor parts :: outer =>
    { b with frames := .compound functor (h :: parts) :: outer }
  | .list parts :: outer => { b with frames := .list (h :: parts) :: outer }
  | [] => { b with pending := h :: b.pending }

/-- Makes a term in the arena and adds it. -/
def make (b : Builder) (construct : Arena → Handle × Arena) : Answer × Builder :=
  match b with
  | ⟨arena, frames, pending, finished⟩ =>
    let (h, arena) := construct arena
    (.ok (), add ⟨arena, frames, pending, finished⟩ h)

/-- Items that yield handles given in reverse. -/
def items (reversed : List Handle) : List Item := (reversed.map Item.ofHandle).reverse

/-- Makes the innermost compound of its parts. -/
def closeTerm (b : Builder) : Answer × Builder :=
  match b.frames with
  | .compound functor parts :: outer =>
    { b with frames := outer }.make fun a => a.func functor (items parts)
  | _ => (.error (.mismatchedClose .term), b)

/-- Makes the innermost list of its parts. -/
def closeList (b : Builder) : Answer × Builder :=
  match b.frames with
  | .list parts :: outer => { b with frames := outer }.make fun a => a.list (items parts)
  | _ => (.error (.mismatchedClose .list), b)

/-- Ends the sentence, which has to be one term. -/
def fullStop (b : Builder) : Answer × Builder :=
  let rest := { b with frames := [], pending := [] }
  if b.frames ≠ [] then (.error (.unbalanced b.frames.length), rest)
  else match b.pending with
    | [h] => (.ok (), { rest with finished := h :: b.finished })
    | _ => (.error (.unsupported .notOneTerm), rest)

/-- Takes one call. -/
def call (b : Builder) : Call → Answer × Builder
  | .openTerm functor => (.ok (), { b with frames := .compound functor [] :: b.frames })
  | .closeTerm => b.closeTerm
  | .openList => (.ok (), { b with frames := .list [] :: b.frames })
  | .closeList => b.closeList
  | .emptyList => (.ok (), b.add .nil)
  | .atom name => b.make (·.atom name)
  | .int value => (.ok (), b.add (.int value))
  | .bigint value => b.make (·.integer value)
  | .float value => (.ok (), b.add (.real value))
  | .var name => b.make (·.var name)
  | .fullStop => b.fullStop
  | .flush => (.ok (), b)

end Builder

end PrologWire
