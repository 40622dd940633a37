import PrologWire.Arena.Inspect
import PrologWire.Json.Printer
import PrologWire.Wire.Buffer

/-!
# What can go wrong while a sentence is written
-/

namespace PrologWire

/-- What a JSON value is not a term for. -/
inductive JsonError where
  /-- Null and the truth values denote no term. -/
  | noTerm (found : Json.Value)
  | functorNotString (found : Json.Value)
  | argsNotArray (found : Json.Value)
  /-- A compound has members besides its functor and its arguments. -/
  | unexpectedKeys (found : Json.Value)
  /-- An object that is no compound has other than one member. -/
  | notOneTag (found : Json.Value)
  | invalidInteger (digits : String)
  | unknownTag (key : String) (found : Json.Value)
  /-- A file of sentences holds something other than an array. -/
  | notSentences (found : Json.Value)
deriving Inhabited

/-- What a term or a list that a call opens or closes is. -/
inductive Bracket where
  | term
  | list
deriving DecidableEq, Repr, Inhabited

/-- What a consumer of calls cannot do. -/
inductive Unsupported where
  /-- Integers outside the 64-bit range have no place in a record. -/
  | bigIntegers
  /-- A built sentence is one term. -/
  | notOneTerm
  /-- There is no sentence. -/
  | emptySentence
deriving DecidableEq, Repr, Inhabited

/-- What a file or a sink refuses. -/
inductive IoError where
  /-- The sink takes no more. -/
  | closed
  /-- The file cannot be opened. -/
  | unopened
deriving DecidableEq, Repr, Inhabited

/-- Why a sentence, or a call in it, failed. -/
inductive WireError where
  /-- The sentence ended with terms or lists open. -/
  | unbalanced (unclosed : Nat)
  /-- The sentence ended after a call in it had failed. -/
  | sentenceDiscarded
  /-- A closing call found nothing of its kind to close. -/
  | mismatchedClose (closed : Bracket)
  /-- A compound has more arguments than one byte can count. -/
  | arityOverflow (functor : String) (arity : Nat)
  /-- An integer does not fit into the words of the receiver. -/
  | integerOutOfRange (value : Int64) (bits : Nat)
  /-- A name has characters outside Latin-1 that were forbidden. -/
  | wideAtomsDisabled (name : String)
  /-- Terms of the kind cannot be written. -/
  | unsupportedTerm (kind : Kind)
  | unsupported (what : Unsupported)
  /-- A JSON value is no term. -/
  | json (cause : JsonError)
  /-- A text is no JSON. -/
  | notJson
  | term (cause : TermError)
  | io (cause : IoError)
  /-- A position in the buffer was out of its range. -/
  | buffer (cause : Buffer.Fault)
deriving Inhabited

/-- The wording of an error in a JSON value. -/
def JsonError.message : JsonError → String
  | noTerm v => "no term for " ++ v.render
  | functorNotString v => "functor must be a string, found " ++ v.render
  | argsNotArray v => "args must be an array, found " ++ v.render
  | unexpectedKeys v => "unexpected keys in compound " ++ v.render
  | notOneTag v => "expected one tag, found " ++ v.render
  | invalidInteger digits => "invalid integer " ++ Text.quoteForMessage digits
  | unknownTag key v => s!"unknown tag {Text.quoteForMessage key} with {v.render}"
  | notSentences v => "expected an array of sentences, found " ++ v.render

/-- The name of the call that closes a bracket. -/
def Bracket.closeName : Bracket → String
  | term => "close_term"
  | list => "close_list"

/-- The wording of what is not supported. -/
def Unsupported.message : Unsupported → String
  | bigIntegers => "big integers in SWI records"
  | notOneTerm => "sentence without exactly one term"
  | emptySentence => "empty sentence"

/-- The wording of what a file or a sink refuses. -/
def IoError.message : IoError → String
  | closed => "closed"
  | unopened => "not found"

/-- The wording of an error. -/
def WireError.message : WireError → String
  | unbalanced n => s!"sentence ended with {n} unclosed term(s) or list(s)"
  | sentenceDiscarded => "sentence discarded after an earlier error"
  | mismatchedClose b => b.closeName ++ " does not match the innermost open context"
  | arityOverflow functor arity =>
    s!"compound {functor}/{arity} exceeds the maximum arity of 255"
  | integerOutOfRange value bits => s!"integer {value.toInt} does not fit in {bits} bits"
  | wideAtomsDisabled name =>
    s!"atom {Text.quoteForMessage name} needs wide characters but wide atoms are disabled"
  | unsupportedTerm kind => "cannot encode term of kind " ++ kind.name
  | unsupported what => "unsupported operation: " ++ what.message
  | json cause => "invalid term json: " ++ cause.message
  | notJson => "not a JSON text"
  | term cause => "term error " ++ cause.inspect
  | io cause => "io error " ++ cause.message
  | buffer cause => cause.message

end PrologWire
