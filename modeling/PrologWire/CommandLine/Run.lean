import PrologWire.Arena.Display
import PrologWire.CommandLine.Options
import PrologWire.Json.Reader
import PrologWire.Json.Terms
import PrologWire.Sicstus.Encoder
import PrologWire.Sicstus.Writer
import PrologWire.Swi.Encoder

/-!
# What the commands do

A file of sentences is a JSON array, each item of which is a term. What was produced before an error
stays on the output.
-/

namespace PrologWire.CommandLine

/-- The sentences in the bytes of a file, or of no file. -/
def sentences (file : Option ByteArray) : Except WireError (List Json.Value) :=
  match file with
  | none => .error (.io .unopened)
  | some bytes =>
    match (String.fromUTF8? bytes).bind Json.read? with
    | none => .error .notJson
    | some (.array items) => .ok items
    | some found => .error (.json (.notSentences found))

/-- Gives the calls of a sentence to a consumer. -/
def streamSentence {σ : Type} (consume : σ → Call → Answer × σ) (v : Json.Value) (state : σ) :
    Answer × σ :=
  Walk.thenDo (v.emit consume state) (consume · .fullStop)

/-- Gives the calls of each sentence to a consumer, up to the first failure. -/
def streamAll {σ : Type} (consume : σ → Call → Answer × σ) :
    List Json.Value → σ → Answer × σ
  | [], state => (.ok (), state)
  | v :: rest, state =>
    match streamSentence consume v state with
    | (.ok (), state) => streamAll consume rest state
    | (.error cause, state) => (.error cause, state)

/-- Does something with the term of each sentence in an epoch of its own, which is erased behind it,
up to the first failure. `next` is the number of a name for the epoch. -/
def withTerms {σ : Type} (use : Arena → Handle → σ → Answer × σ) (next : Nat) (a : Arena) :
    List Json.Value → σ → Answer × σ
  | [], state => (.ok (), state)
  | v :: rest, state =>
    match a.beginEpoch ⟨next⟩ with
    | .error cause => (.error (.term cause), state)
    | .ok a =>
      match v.toTerm a with
      | (.error cause, _) => (.error cause, state)
      | (.ok h, a) =>
        match use a h state with
        | (.error cause, state) => (.error cause, state)
        | (.ok (), state) =>
          match a.truncate ⟨next⟩ with
          | .error cause => (.error (.term cause), state)
          | .ok a => withTerms use (next + 1) a rest state

/-- An arena for the terms of a file, whose bottom epoch has the number zero. -/
def fileArena : Arena := .create ⟨0⟩ ⟨0⟩

/-- The bytes of encoded sentences, as far as they go. -/
def encodeAll (dialect : Dialect) (config : Swi.Config) (vs : List Json.Value) :
    Answer × Array UInt8 :=
  match dialect with
  | .sicstus =>
    let (answer, e) := streamAll Sicstus.Encoder.call vs (.new .unlimited)
    (answer, e.sink.written)
  | .sicstusTree =>
    let (answer, w) := withTerms (fun a h (w : Sicstus.Writer) => w.writeTerm a h) 1 fileArena vs
      (.new .unlimited)
    (answer, w.sink.written)
  | .swi =>
    let (answer, e) := streamAll Swi.Encoder.call vs (.new config .unlimited)
    (answer, e.sink.written)

/-- One line for a term: its text, a full stop, and the end of the line. -/
def displayLine (a : Arena) (h : Handle) (lines : Array UInt8) : Answer × Array UInt8 :=
  match a.display? h with
  | some text => (.ok (), lines ++ (text ++ ".\n").toUTF8.data)
  | none => (.error (.term (.invalidTerm h)), lines)

/-- The lines for sentences, as far as they go. -/
def displayAll (vs : List Json.Value) : Answer × Array UInt8 :=
  withTerms displayLine 1 fileArena vs #[]

/-- What a run of the program leaves behind. -/
structure Outcome where
  answer : Answer
  /-- The bytes on the standard output. -/
  output : Array UInt8
  /-- The file that was written and its bytes. -/
  file : Option (String × Array UInt8)

/-- Carries out a command. `read` gives the bytes of a file if there is one, and `canWrite` tells
whether a file can be written. -/
def Command.run (read : String → Option ByteArray) (canWrite : String → Bool) :
    Command → Outcome
  | .encode dialect config terms out =>
    match sentences (read terms) with
    | .error cause => ⟨.error cause, #[], none⟩
    | .ok vs =>
      match out with
      | none =>
        let (answer, bytes) := encodeAll dialect config vs
        ⟨answer, bytes, none⟩
      | some path =>
        if canWrite path then
          let (answer, bytes) := encodeAll dialect config vs
          ⟨answer, #[], some (path, bytes)⟩
        else ⟨.error (.io .unopened), #[], none⟩
  | .display terms =>
    match sentences (read terms) with
    | .error cause => ⟨.error cause, #[], none⟩
    | .ok vs =>
      let (answer, bytes) := displayAll vs
      ⟨answer, bytes, none⟩

end PrologWire.CommandLine
