import PrologWire.CommandLine.Run

/-!
# The program

Reads the files that a command names, carries the command out and writes what it leaves behind. The
exit code is 0 if all went well, 1 if a sentence or a file failed, and 2 for wrong arguments.
-/

open PrologWire PrologWire.CommandLine

/-- The bytes of an open file. What cannot be read, such as a directory, holds none. -/
def readOpen (file : IO.FS.Handle) : IO ByteArray := do
  try
    file.readBinToEnd
  catch _ =>
    return ByteArray.empty

/-- The bytes of a file, if it can be opened. -/
def readFile (path : String) : IO (Option ByteArray) := do
  try
    let file ← IO.FS.Handle.mk path .read
    return some (← readOpen file)
  catch _ =>
    return none

/-- Makes an empty file, and tells whether that was possible. -/
def makeFile (path : String) : IO Bool := do
  try
    IO.FS.writeBinFile path ByteArray.empty
    return true
  catch _ =>
    return false

/-- The file of sentences that a command reads. -/
def termsPath : Command → String
  | .encode _ _ terms _ => terms
  | .display terms => terms

/-- The file that a command writes. -/
def outPath : Command → Option String
  | .encode _ _ _ out => out
  | .display _ => none

/-- Runs the command that the arguments ask for. -/
def main (args : List String) : IO UInt32 := do
  match Command.ofArgs? args with
  | none =>
    IO.eprintln "usage: encode --dialect <sicstus|sicstus-tree|swi> --terms <file> [options]"
    IO.eprintln "       show --terms <file>"
    return 2
  | some command =>
    let file ← readFile (termsPath command)
    let writable ← match outPath command, sentences file with
      | some path, .ok _ => makeFile path
      | _, _ => pure true
    let outcome := command.run (fun _ => file) (fun _ => writable)
    let stdout ← IO.getStdout
    stdout.write ⟨outcome.output⟩
    stdout.flush
    if let some (path, bytes) := outcome.file then
      IO.FS.writeBinFile path ⟨bytes⟩
    match outcome.answer with
    | .ok () => return 0
    | .error cause =>
      IO.eprintln s!"Error: {cause.message}"
      return 1
