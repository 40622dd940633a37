import Mathlib.Algebra.Group.Int.Defs
import Mathlib.Algebra.Group.Nat.Defs
import PrologWire.Proofs.Sentence.Term
import PrologWire.Proofs.Wire.Readers
import PrologWire.Swi.Format

/-!
# Reading the fields of a record

Varints, numbers of a fixed size, integers and names have a reader each, and a lemma which says that it
takes back what was written, whatever comes behind it.
-/

namespace PrologWire.Swi

/-! ## Numbers -/

/-- A number below 256 is a byte. -/
theorem toNat_byte {n : Nat} (h : n < 256) : (UInt8.ofNat n).toNat = n :=
  UInt8.toNat_ofNat_of_lt h

/-- A number in groups of seven bits; `high` is what was read of it already. -/
def readVarint (high : Nat) : Reader Nat
  | [] => none
  | byte :: bs =>
    if byte.toNat < 128 then some (high * 128 + byte.toNat, bs)
    else readVarint (high * 128 + (byte.toNat - 128)) bs

/-- The groups before the last one are read as the number that they make. -/
theorem readVarint_continuedGroups (n : Nat) (rest : List UInt8) :
    readVarint 0 (continuedGroups n ++ rest) = readVarint n rest := by
  induction n using Nat.strongRecOn generalizing rest with
  | ind n ih =>
    rw [continuedGroups]
    split
    · next zero =>
      subst zero
      rfl
    · -- the last group of `n` goes on with what the groups before it make
      have byte : (UInt8.ofNat (128 + n % 128)).toNat = 128 + n % 128 :=
        toNat_byte (by omega)
      rw [List.append_assoc, ih (n / 128) (by omega), List.singleton_append, readVarint, byte,
        if_neg (by omega), Nat.add_sub_cancel_left, Nat.mul_comm, Nat.div_add_mod]

theorem reads_varint (n : Nat) : Reads (readVarint 0) n (varint n) := by
  intro rest
  have byte : (UInt8.ofNat (n % 128)).toNat = n % 128 := toNat_byte (by omega)
  rw [varint, List.append_assoc, readVarint_continuedGroups, List.singleton_append, readVarint, byte,
    if_pos (by omega), Nat.mul_comm, Nat.div_add_mod]

/-- Some bytes. -/
def readBytes (count : Nat) : Reader (List UInt8) := fun bs =>
  if count ≤ bs.length then some (bs.take count, bs.drop count) else none

theorem reads_bytes (bs : List UInt8) : Reads (readBytes bs.length) bs bs := by
  intro rest
  rw [readBytes, if_pos (by simp), List.take_left, List.drop_left]

/-- The number that bytes make, the greatest first. -/
def ofBigEndian (bs : List UInt8) : Nat := bs.foldl (fun high byte => high * 256 + byte.toNat) 0

@[simp] theorem length_bigEndian (count n : Nat) : (bigEndian count n).length = count := by
  induction count generalizing n with
  | zero => rfl
  | succ count ih => rw [bigEndian, List.length_append, ih, List.length_singleton]

/-- The last bytes of a number make its remainder. -/
theorem ofBigEndian_bigEndian (count n : Nat) : ofBigEndian (bigEndian count n) = n % 256 ^ count := by
  induction count generalizing n with
  | zero => rw [Nat.pow_zero, Nat.mod_one]; rfl
  | succ count ih =>
    have byte : (UInt8.ofNat (n % 256)).toNat = n % 256 := toNat_byte (by omega)
    have high : ofBigEndian (bigEndian count (n / 256)) = n / 256 % 256 ^ count := ih _
    rw [ofBigEndian] at high ⊢
    rw [bigEndian, List.foldl_append, high, List.foldl_cons, List.foldl_nil, byte, Nat.pow_succ,
      Nat.mul_comm (256 ^ count), Nat.mod_mul]
    omega

/-- A number of a fixed size, the greatest byte first. -/
def readBigEndian (count : Nat) : Reader Nat := fun bs => do
  let (taken, bs) ← readBytes count bs
  some (ofBigEndian taken, bs)

/-- A number of a fixed size, the smallest byte first. -/
def readLittleEndian (count : Nat) : Reader Nat := fun bs => do
  let (taken, bs) ← readBytes count bs
  some (ofBigEndian taken.reverse, bs)

theorem reads_bigEndian {count n : Nat} (small : n < 256 ^ count) :
    Reads (readBigEndian count) n (bigEndian count n) := by
  intro rest
  have taken := reads_bytes (bigEndian count n) rest
  rw [length_bigEndian] at taken
  simp [readBigEndian, taken, ofBigEndian_bigEndian, Nat.mod_eq_of_lt small]

theorem reads_littleEndian {count n : Nat} (small : n < 256 ^ count) :
    Reads (readLittleEndian count) n (littleEndian count n) := by
  intro rest
  have taken := reads_bytes (littleEndian count n) rest
  rw [littleEndian, List.length_reverse, length_bigEndian] at taken
  simp [readLittleEndian, littleEndian, taken, ofBigEndian_bigEndian, Nat.mod_eq_of_lt small]

/-! ## Integers -/

/-- The integer whose two's complement of some bytes is a number. -/
def signed (size n : Nat) : Int :=
  if n < 2 ^ (8 * size - 1) then n else n - (2 ^ (8 * size) : Nat)

/-- An integer, behind the number of its bytes. -/
def readInt : Reader Int
  | [] => none
  | size :: bs => do
    let (n, bs) ← readBigEndian size.toNat bs
    some (signed size.toNat n, bs)

/-- An integer is in the signed range of its bytes. -/
theorem range_intSize (value : Int) :
    -(2 ^ (8 * intSize value - 1) : Nat) ≤ value ∧ value < (2 ^ (8 * intSize value - 1) : Nat) := by
  have magnitude (m : Nat) (size : Nat) (eq : size = if m = 0 then 1 else (m.log2 + 2 + 7) / 8) :
      m < 2 ^ (8 * size - 1) := by
    subst eq
    split
    · next zero => omega
    · exact Nat.lt_of_lt_of_le Nat.lt_log2_self (Nat.pow_le_pow_right (by decide) (by omega))
  have bound := magnitude _ _ (rfl : intSize value = _)
  split at bound
  · omega
  · omega

/-- An integer with few bits has few bytes. -/
theorem intSize_le {value : Int} {size : Nat} (positive : 0 < size)
    (range : -(2 ^ (8 * size - 1) : Nat) ≤ value ∧ value < (2 ^ (8 * size - 1) : Nat)) :
    intSize value ≤ size := by
  have magnitude (m : Nat) (small : m < 2 ^ (8 * size - 1)) :
      (if m = 0 then 1 else (m.log2 + 2 + 7) / 8) ≤ size := by
    split
    · exact positive
    · next nonzero =>
      have bits := (Nat.log2_lt nonzero).mpr small
      omega
  refine magnitude _ ?_
  split <;> omega

theorem intSize_pos (value : Int) : 0 < intSize value := by
  have magnitude (m : Nat) : 0 < if m = 0 then 1 else (m.log2 + 2 + 7) / 8 := by
    split <;> omega
  exact magnitude _

/-- The two's complement of an integer in the signed range of its bytes is read as the integer. -/
theorem signed_mod {value : Int} {size : Nat} (positive : 0 < size)
    (range : -(2 ^ (8 * size - 1) : Nat) ≤ value ∧ value < (2 ^ (8 * size - 1) : Nat)) :
    signed size (value % (1 <<< (8 * size) : Nat)).toNat = value := by
  have double : 2 ^ (8 * size) = 2 * 2 ^ (8 * size - 1) := by
    rw [← Nat.pow_succ']
    congr 1
    omega
  rw [signed, Nat.one_shiftLeft, double]
  generalize 2 ^ (8 * size - 1) = half at range
  rcases Int.lt_or_le value 0 with negative | natural
  · -- a negative integer is stored as the number that is greater by the whole range
    have wrapped : value % (2 * half : Nat) = value + (2 * half : Nat) := by
      rw [← Int.add_emod_right, Int.emod_eq_of_lt (by omega) (by omega)]
    rw [wrapped, if_neg (by omega)]
    omega
  · have same : value % (2 * half : Nat) = value := Int.emod_eq_of_lt natural (by omega)
    rw [same, if_pos (by omega)]
    omega

theorem one_shiftLeft_bytes (count : Nat) : 1 <<< (8 * count) = 256 ^ count := by
  rw [Nat.one_shiftLeft, Nat.pow_mul]

theorem reads_int {value : Int} (few : intSize value < 256) : Reads readInt value (intBytes value) := by
  intro rest
  have positive := intSize_pos value
  have small : (value % (1 <<< (8 * intSize value) : Nat)).toNat < 256 ^ intSize value := by
    have filled : 0 < 256 ^ intSize value := Nat.pow_pos (by decide)
    rw [one_shiftLeft_bytes]
    generalize 256 ^ intSize value = whole at filled
    have bound := Int.emod_lt_of_pos value (Int.natCast_pos.mpr filled)
    omega
  have taken := reads_bigEndian small rest
  simp only [readInt, intBytes, List.cons_append, toNat_byte few, taken, Option.bind_eq_bind,
    Option.bind_some, signed_mod positive (range_intSize value)]

/-! ## Names -/

/-- The characters of 16-bit units, a pair of surrogates making one character. -/
def utf16Chars : List Nat → List Char
  | [] => []
  | unit :: rest =>
    if 0xd800 ≤ unit ∧ unit < 0xdc00 then
      match rest with
      | [] => []
      | low :: rest =>
        Char.ofNat (0x10000 + (unit - 0xd800) * 0x400 + (low - 0xdc00)) :: utf16Chars rest
    else Char.ofNat unit :: utf16Chars rest

/-- A name, behind the tag that tells how its characters are stored. -/
def readName (c : Config) : Reader String
  | [] => none
  | tag :: bs =>
    if tag = atomTag then do
      let (count, bs) ← readVarint 0 bs
      let (codes, bs) ← readTimes (readBigEndian 1) count bs
      some (String.ofList (codes.map Char.ofNat), bs)
    else if tag = wideAtomTag then do
      let (count, bs) ← readVarint 0 bs
      match c.system, c.byteOrder with
      | .windows, _ =>
        let (units, bs) ← readTimes (readLittleEndian 2) count bs
        some (String.ofList (utf16Chars units), bs)
      | .other, .little =>
        let (codes, bs) ← readTimes (readLittleEndian 4) count bs
        some (String.ofList (codes.map Char.ofNat), bs)
      | .other, .big =>
        let (codes, bs) ← readTimes (readBigEndian 4) count bs
        some (String.ofList (codes.map Char.ofNat), bs)
    else none

theorem utf16Chars_cons {unit : Nat} (plain : ¬(0xd800 ≤ unit ∧ unit < 0xdc00)) (rest : List Nat) :
    utf16Chars (unit :: rest) = Char.ofNat unit :: utf16Chars rest := by
  cases rest <;> simp [utf16Chars, plain]

/-- The units of characters are read as these characters. -/
theorem utf16Chars_utf16Units (name : List Char) : utf16Chars (name.flatMap utf16Units) = name := by
  induction name with
  | nil => rfl
  | cons ch rest ih =>
    have valid : ch.toNat < 0xd800 ∨ 0xdfff < ch.toNat ∧ ch.toNat < 0x110000 := ch.valid
    rw [List.flatMap_cons, utf16Units]
    split
    · rw [List.singleton_append, utf16Chars_cons (by omega), Char.ofNat_toNat, ih]
    · -- beyond 16 bits the two units are surrogates, and the first one says so
      have high : 0xd800 ≤ 0xd800 + (ch.toNat - 0x10000) / 0x400 ∧
          0xd800 + (ch.toNat - 0x10000) / 0x400 < 0xdc00 := by omega
      have joined : 0x10000 + (0xd800 + (ch.toNat - 0x10000) / 0x400 - 0xd800) * 0x400 +
          (0xdc00 + (ch.toNat - 0x10000) % 0x400 - 0xdc00) = ch.toNat := by omega
      simp only [List.cons_append, List.nil_append, utf16Chars]
      rw [if_pos high, joined, Char.ofNat_toNat, ih]

/-- Every unit has 16 bits. -/
theorem utf16Units_lt {ch : Char} {unit : Nat} (h : unit ∈ utf16Units ch) : unit < 0x10000 := by
  have valid : ch.toNat < 0xd800 ∨ 0xdfff < ch.toNat ∧ ch.toNat < 0x110000 := ch.valid
  unfold utf16Units at h
  split at h
  · obtain rfl := List.mem_singleton.mp h
    assumption
  · simp only [List.mem_cons, List.not_mem_nil, or_false] at h
    omega

theorem map_ofNat_comp_toNat (name : List Char) : name.map (Char.ofNat ∘ Char.toNat) = name :=
  (List.map_congr_left fun ch _ => Char.ofNat_toNat ch).trans (List.map_id name)

/-- A name in Latin-1 has a byte for each character. -/
theorem reads_latin1 {name : List Char} (latin : isLatin1 name = true) :
    Reads (readTimes (readBigEndian 1) name.length) (name.map Char.toNat)
      (name.map fun ch => UInt8.ofNat ch.toNat) := by
  rw [List.map_eq_flatMap (f := fun ch : Char => UInt8.ofNat ch.toNat)]
  refine reads_times fun ch among => ?_
  have small : ch.toNat < 256 := by simpa using List.all_eq_true.mp latin ch among
  have byte := reads_bigEndian (show ch.toNat < 256 ^ 1 from small)
  rwa [bigEndian, bigEndian, List.nil_append, Nat.mod_eq_of_lt small] at byte

/-- Every code of a character fits into four bytes. -/
theorem toNat_lt_of_four_bytes (ch : Char) : ch.toNat < 256 ^ 4 := by
  have valid : ch.toNat < 0xd800 ∨ 0xdfff < ch.toNat ∧ ch.toNat < 0x110000 := ch.valid
  omega

theorem reads_name (c : Config) (name : List Char) :
    Reads (readName c) (String.ofList name) (atomBytes c name) := by
  intro rest
  rw [atomBytes]
  split
  · next latin =>
    simp [readName, reads_varint _ _, reads_latin1 latin rest, map_ofNat_comp_toNat]
  · have wide : wideAtomTag ≠ atomTag := by decide
    rcases c with ⟨wordSize, byteOrder, _ | _, wideAtoms⟩
    · have units : readTimes (readLittleEndian 2) (name.flatMap utf16Units).length
          ((name.flatMap utf16Units).flatMap (littleEndian 2) ++ rest) =
          some ((name.flatMap utf16Units).map id, rest) := by
        refine reads_times (fun unit among => ?_) rest
        obtain ⟨ch, -, among⟩ := List.mem_flatMap.mp among
        exact reads_littleEndian (show unit < 256 ^ 2 from utf16Units_lt among)
      simp [readName, wideBytes, reads_varint _ _, wide, units, utf16Chars_utf16Units,
        -List.length_flatMap]
    · rcases byteOrder with _ | _
      · have codes := reads_times (fun ch (_ : ch ∈ name) =>
          reads_littleEndian (toNat_lt_of_four_bytes ch)) rest
        simp [readName, wideBytes, reads_varint _ _, wide, codes, map_ofNat_comp_toNat]
      · have codes := reads_times (fun ch (_ : ch ∈ name) =>
          reads_bigEndian (toNat_lt_of_four_bytes ch)) rest
        simp [readName, wideBytes, reads_varint _ _, wide, codes, map_ofNat_comp_toNat]

end PrologWire.Swi
