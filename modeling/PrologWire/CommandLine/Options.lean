import PrologWire.Swi.Config

/-!
# Arguments of the command line

An option has a long name and perhaps a letter. Its value is the next argument, or stands behind an
equals sign, or directly behind the letter. No option may be given twice.
-/

namespace PrologWire.CommandLine

/-- A way to encode sentences. -/
inductive Dialect where
  /-- SICStus, by calls. -/
  | sicstus
  /-- SICStus, by way of whole terms. -/
  | sicstusTree
  /-- SWI-Prolog, by calls. -/
  | swi
deriving DecidableEq, Repr, Inhabited

/-- What the program is asked to do. -/
inductive Command where
  /-- Encodes the sentences in the file `terms`, to the file `out` or the standard output. -/
  | encode (dialect : Dialect) (config : Swi.Config) (terms : String) (out : Option String)
  /-- Prints the sentences in the file `terms` as Prolog text. -/
  | display (terms : String)
deriving DecidableEq, Inhabited

/-! ## Splitting arguments into options -/

/-- An option of a command. -/
structure OptionSpec where
  long : String
  letter : Option Char
  /-- The option has a value, which is among these if there are any. -/
  values : Option (List String)

/-- An option that was given, by its long name, and its value. -/
abbrev Given := String × String

/-- The argument begins like an option and so is no value. -/
def looksLikeOption (arg : String) : Bool := arg.startsWith "-" && arg != "-"

/-- The option accepts the value. -/
def OptionSpec.accepts (o : OptionSpec) (value : String) : Bool :=
  match o.values with
  | some [] => true
  | some values => values.contains value
  | none => false

/-- The name and the value of an argument that has an equals sign. -/
def splitAtEquals (cs : List Char) : List Char × Option (List Char) :=
  match cs.dropWhile (· ≠ '=') with
  | [] => (cs, none)
  | _ :: value => (cs.takeWhile (· ≠ '='), some value)

/-- The option that an argument names, and the value that it brings along. -/
def recognize? (specs : List OptionSpec) (arg : String) : Option (OptionSpec × Option String) :=
  match arg.toList with
  | '-' :: '-' :: cs =>
    let (name, value) := splitAtEquals cs
    (specs.find? fun o => o.long = String.ofList name).map fun o => (o, value.map String.ofList)
  | '-' :: c :: cs =>
    let value := match cs with
      | [] => none
      | '=' :: value => some value
      | value => some value
    (specs.find? fun o => o.letter = some c).map fun o => (o, value.map String.ofList)
  | _ => none

/-- The options that arguments give, unless the arguments are wrong. A lone `--` may end them. -/
def options? (specs : List OptionSpec) (given : List Given) : List String → Option (List Given)
  | [] => some given
  | ["--"] => some given
  | arg :: rest =>
    match recognize? specs arg with
    | none => none
    | some (o, attached) =>
      if (given.lookup o.long).isSome then none
      else match o.values, attached, rest with
        | none, none, rest => options? specs ((o.long, "") :: given) rest
        | none, some _, _ => none
        | some _, some value, rest =>
          if o.accepts value then options? specs ((o.long, value) :: given) rest else none
        | some _, none, value :: rest =>
          if looksLikeOption value then none
          else if o.accepts value then options? specs ((o.long, value) :: given) rest else none
        | some _, none, [] => none

/-! ## Commands -/

/-- The file of sentences. -/
def termsOption : OptionSpec := ⟨"terms", some 't', some []⟩

/-- The options of the command that encodes. -/
def encodeOptions : List OptionSpec :=
  [⟨"dialect", some 'd', some ["sicstus", "sicstus-tree", "swi"]⟩,
    ⟨"word-size", none, some ["4", "8"]⟩,
    ⟨"endian", none, some ["little", "big"]⟩,
    ⟨"os", none, some ["windows", "other"]⟩,
    ⟨"no-wide-atoms", none, none⟩,
    termsOption,
    ⟨"out", some 'o', some []⟩]

/-- The dialect with a name. -/
def Dialect.ofName? : String → Option Dialect
  | "sicstus" => some .sicstus
  | "sicstus-tree" => some .sicstusTree
  | "swi" => some .swi
  | _ => none

/-- The receiver that options describe; what they leave open is as in the standard one. -/
def configOf (given : List Given) : Swi.Config :=
  let standard := Swi.Config.standard
  { wordSize := match given.lookup "word-size" with
      | some "4" => .four
      | some "8" => .eight
      | _ => standard.wordSize
    byteOrder := match given.lookup "endian" with
      | some "little" => .little
      | some "big" => .big
      | _ => standard.byteOrder
    system := match given.lookup "os" with
      | some "windows" => .windows
      | some "other" => .other
      | _ => standard.system
    wideAtoms := (given.lookup "no-wide-atoms").isNone }

/-- The command that arguments ask for, unless they are wrong. -/
def Command.ofArgs? : List String → Option Command
  | "encode" :: args => do
    let given ← options? encodeOptions [] args
    let dialect ← Dialect.ofName? (← given.lookup "dialect")
    some (.encode dialect (configOf given) (← given.lookup "terms") (given.lookup "out"))
  | "show" :: args => do
    let given ← options? [termsOption] [] args
    some (.display (← given.lookup "terms"))
  | _ => none

end PrologWire.CommandLine
