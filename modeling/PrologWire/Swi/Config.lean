/-!
# The receiver of SWI-Prolog records

Records differ with the machine and the system that read them.
-/

namespace PrologWire.Swi

/-- The size of a machine word in bytes. -/
inductive WordSize where
  | four
  | eight
deriving DecidableEq, Repr, Inhabited

/-- The number of bytes. -/
def WordSize.bytes : WordSize → Nat
  | four => 4
  | eight => 8

/-- The order of the bytes of a number. -/
inductive ByteOrder where
  | little
  | big
deriving DecidableEq, Repr, Inhabited

/-- The operating system, which decides how characters outside Latin-1 are stored. -/
inductive System where
  | windows
  | other
deriving DecidableEq, Repr, Inhabited

/-- A receiver. -/
structure Config where
  wordSize : WordSize
  byteOrder : ByteOrder
  system : System
  /-- Names may have characters outside Latin-1. -/
  wideAtoms : Bool
deriving DecidableEq, Repr, Inhabited

namespace Config

/-- A receiver with 64-bit words in little-endian order that is no Windows system. -/
def standard : Config := ⟨.eight, .little, .other, true⟩

/-- How many bits an integer has in a word of the receiver; eight are taken by its tag. -/
def intBits (c : Config) : Nat := c.wordSize.bytes * 8 - 8

/-- The least whole number that has no place in a word of the receiver. -/
def intLimit (c : Config) : Nat := 1 <<< (c.intBits - 1)

/-- The integer fits into a word of the receiver. -/
def holdsInt (c : Config) (value : Int64) : Bool :=
  -(c.intLimit : Int) ≤ value.toInt && value.toInt < (c.intLimit : Int)

end Config

end PrologWire.Swi
