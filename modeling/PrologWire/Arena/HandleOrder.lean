import PrologWire.Arena.Handle

/-!
# Comparing handles

Handles compare by what they hold: first by representation, then by value, text or place. Two
handles of one term may differ; and a float that is a NaN compares with nothing, not even itself.
-/

namespace PrologWire

/-- Stretches compare by epoch, offset and length. -/
def Slice.compareWith (s t : Slice) : Ordering :=
  (compare s.epoch.number t.epoch.number).then
    ((compare s.start.toNat t.start.toNat).then (compare s.length.toNat t.length.toNat))

/-- The bytes of a short text, filled up with zeros to the 14 bytes that it may have. -/
def ShortText.padded (t : ShortText) : List Nat :=
  t.text.toUTF8.data.toList.map UInt8.toNat ++ List.replicate (14 - t.text.utf8ByteSize) 0

/-- Short texts compare by their padded bytes, then by length. -/
def ShortText.compareWith (s t : ShortText) : Ordering :=
  (compare s.padded t.padded).then (compare s.text.utf8ByteSize t.text.utf8ByteSize)

namespace Handle

/-- The place of a representation in the order of handles. -/
def rank : Handle → Nat
  | int _ => 0
  | bigint _ => 1
  | real _ => 2
  | short .var _ => 3
  | long .var _ => 4
  | short .atom _ => 5
  | long .atom _ => 6
  | short .str _ => 7
  | long .str _ => 8
  | node .func _ => 9
  | node .list _ => 10
  | node .tuple _ => 11

/-- The order of two handles, unless a NaN is compared with a float. -/
def compare? : Handle → Handle → Option Ordering
  | int a, int b => some (compare a.toInt b.toInt)
  | real a, real b => a.compareValue? b
  | bigint a, bigint b => some (a.compareWith b)
  | short k a, short l b => some (if k = l then a.compareWith b else compare (rank (short k a))
      (rank (short l b)))
  | long k a, long l b => some (if k = l then a.compareWith b else compare (rank (long k a))
      (rank (long l b)))
  | node k a, node l b => some (if k = l then a.compareWith b else compare (rank (node k a))
      (rank (node l b)))
  | g, h => some (compare g.rank h.rank)

/-- Two handles are equal: floats by value, all else by content. -/
def equals (g h : Handle) : Bool := g.compare? h = some .eq

end Handle

end PrologWire
