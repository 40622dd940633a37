import PrologWire.Numeric.Binary64
import PrologWire.Swi.Config

/-!
# SWI-Prolog records

A record is a header byte, the sizes that the receiver needs to make room, and code bytes that
describe the term. Sizes, arities and ordinals are varints. A lone atom, integer or empty list has a
shorter record without sizes.
-/

namespace PrologWire.Swi

/-! ## Tags -/

/-- The bits of a header for the version of the format. -/
def versionBits : UInt8 := 0x60

/-- The header bit of a record that is a lone integer. -/
def intBit : UInt8 := 0x04

/-- The header bit of a record that is a lone atom or empty list. -/
def atomBit : UInt8 := 0x08

/-- The header bit of a record without variables. -/
def groundBit : UInt8 := 0x10

/-- Begins the code of a variable. -/
def variableTag : UInt8 := 1
/-- Begins the code of an integer. -/
def integerTag : UInt8 := 4
/-- Stands before every element of a list. -/
def consTag : UInt8 := 8
/-- Ends a list. -/
def nilTag : UInt8 := 9
/-- Begins the code of an atom in Latin-1. -/
def atomTag : UInt8 := 11
/-- Begins the code of an atom with other characters. -/
def wideAtomTag : UInt8 := 12
/-- Begins the code of a compound: the tag, its arity, its functor, its arguments. -/
def compoundTag : UInt8 := 13
/-- Begins the code of a float. -/
def floatTag : UInt8 := 14

/-- The header bits for the size of words. -/
def WordSize.bits : WordSize → UInt8
  | four => 1
  | eight => 2

/-- The header of a record, without the bits that depend on the term. -/
def Config.header (c : Config) : UInt8 := c.wordSize.bits ||| versionBits

/-! ## Numbers -/

/-- The groups of seven bits of a number, the greatest first, each with the high bit set; none for
zero. -/
def continuedGroups (n : Nat) : List UInt8 :=
  if n = 0 then [] else continuedGroups (n / 128) ++ [UInt8.ofNat (128 + n % 128)]

/-- A number in groups of seven bits, the greatest first. All bytes but the last have the high bit
set. -/
def varint (n : Nat) : List UInt8 := continuedGroups (n / 128) ++ [UInt8.ofNat (n % 128)]

/-- The last `count` bytes of a number, the greatest first. -/
def bigEndian : Nat → Nat → List UInt8
  | 0, _ => []
  | count + 1, n => bigEndian count (n / 256) ++ [UInt8.ofNat (n % 256)]

/-- The last `count` bytes of a number, the smallest first. -/
def littleEndian (count n : Nat) : List UInt8 := (bigEndian count n).reverse

/-- How many bytes the two's complement of an integer needs, one at least. -/
def intSize (value : Int) : Nat :=
  let magnitude := if value < 0 then (-value - 1).toNat else value.toNat
  if magnitude = 0 then 1 else (magnitude.log2 + 2 + 7) / 8

/-- An integer as the length and the bytes of its shortest two's complement, the greatest byte
first. -/
def intBytes (value : Int) : List UInt8 :=
  let size := intSize value
  UInt8.ofNat size :: bigEndian size (value % (1 <<< (8 * size) : Nat)).toNat

/-- A float as its eight bytes, the smallest first, whatever the receiver. -/
def floatBytes (x : Binary64) : List UInt8 := littleEndian 8 x.bits.toNat

/-- The words that a float takes up in the receiver. -/
def WordSize.floatWords (w : WordSize) : Nat := (8 + w.bytes - 1) / w.bytes

/-- The words that an element adds to a list in the receiver: functor, head and tail. -/
def consWords : Nat := 3

/-! ## Atoms -/

/-- Every character has a code below 256. -/
def isLatin1 (name : List Char) : Bool := name.all fun c => c.toNat < 0x100

/-- The 16-bit units of a character: itself, or a pair of surrogates for a code from `0x10000`
on. -/
def utf16Units (c : Char) : List Nat :=
  if c.toNat < 0x10000 then [c.toNat]
  else
    let offset := c.toNat - 0x10000
    [0xd800 + offset / 0x400, 0xdc00 + offset % 0x400]

/-- The bytes of the characters of a name outside Latin-1, behind their number. -/
def wideBytes (c : Config) (name : List Char) : List UInt8 :=
  match c.system with
  | .windows =>
    let units := name.flatMap utf16Units
    varint units.length ++ units.flatMap (littleEndian 2)
  | .other =>
    varint name.length ++ name.flatMap fun ch =>
      match c.byteOrder with
      | .little => littleEndian 4 ch.toNat
      | .big => bigEndian 4 ch.toNat

/-- An atom. -/
def atomBytes (c : Config) (name : List Char) : List UInt8 :=
  if isLatin1 name then
    atomTag :: varint name.length ++ name.map fun ch => UInt8.ofNat ch.toNat
  else wideAtomTag :: wideBytes c name

/-- The receiver takes the name. -/
def Config.admits (c : Config) (name : List Char) : Bool := c.wideAtoms || isLatin1 name

end PrologWire.Swi
