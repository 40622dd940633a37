import Mathlib.Algebra.Group.Int.Defs
import Mathlib.Algebra.Group.Nat.Defs
import PrologWire.Proofs.Swi.Code
import PrologWire.Proofs.Swi.Fields

/-!
# Integers in the fewest bytes

The bytes of an integer are the end of its machine word, cut where the first of them still has the sign.
They are read back by going on with that sign to the left, no fewer bytes are read as the integer, and a
receiver holds an integer exactly if its bytes leave one byte of a word for the tag.
-/

namespace PrologWire.Swi

/-! ## Reading with the sign -/

/-- A byte read behind an integer. -/
def appendByte (high : Int) (byte : UInt8) : Int := high * 256 + (byte.toNat : Int)

/-- The integer that bytes make in two's complement, the greatest byte first. The first of them has the sign,
so that no bytes make no integer. -/
def signExtended? : List UInt8 → Option Int
  | [] => none
  | top :: bs => some (bs.foldl appendByte top.toInt8.toInt)

/-- The first byte counts from -128 on. -/
theorem toInt_toInt8 (byte : UInt8) :
    byte.toInt8.toInt = if byte.toNat < 128 then (byte.toNat : Int) else (byte.toNat : Int) - 256 := by
  show byte.toBitVec.toInt = _
  rw [BitVec.toInt_eq_toNat_cond]
  show (if 2 * byte.toNat < 256 then (byte.toNat : Int) else (byte.toNat : Int) - 256) = _
  split <;> split <;> omega

/-- Every byte gives eight bits more to the range of what is read. -/
theorem range_foldl_appendByte {high : Int} {half : Nat} (range : -(half : Int) ≤ high ∧ high < half)
    (bs : List UInt8) :
    -((half * 256 ^ bs.length : Nat) : Int) ≤ bs.foldl appendByte high ∧
      bs.foldl appendByte high < ((half * 256 ^ bs.length : Nat) : Int) := by
  induction bs generalizing high half with
  | nil => simpa using range
  | cons byte bs ih =>
    have small := byte.toNat_lt
    have wider : half * 256 ^ (bs.length + 1) = half * 256 * 256 ^ bs.length := by
      rw [Nat.pow_succ', Nat.mul_assoc]
    rw [List.length_cons, List.foldl_cons, wider]
    apply ih
    rw [appendByte]
    omega

/-- The first byte has one bit less for the magnitude. -/
theorem two_pow_bits (count : Nat) : 2 ^ (8 * (count + 1) - 1) = 128 * 256 ^ count := by
  rw [show 8 * (count + 1) - 1 = 7 + 8 * count by omega, Nat.pow_add, Nat.pow_mul]

/-- What bytes make is in the signed range of their bits. -/
theorem range_of_signExtended? {bs : List UInt8} {value : Int} (read : signExtended? bs = some value) :
    0 < bs.length ∧
      -(2 ^ (8 * bs.length - 1) : Nat) ≤ value ∧ value < (2 ^ (8 * bs.length - 1) : Nat) := by
  cases bs with
  | nil => cases read
  | cons top bs =>
    have small := top.toNat_lt
    have first : -((128 : Nat) : Int) ≤ top.toInt8.toInt ∧ top.toInt8.toInt < (128 : Nat) := by
      rw [toInt_toInt8]
      split <;> omega
    rw [List.length_cons, two_pow_bits, ← Option.some.inj read]
    exact ⟨Nat.succ_pos _, range_foldl_appendByte first bs⟩

/-- No fewer bytes than those that an integer needs are read as the integer. -/
theorem intSize_le_of_signExtended? {bs : List UInt8} {value : Int} (read : signExtended? bs = some value) :
    intSize value ≤ bs.length := by
  obtain ⟨filled, range⟩ := range_of_signExtended? read
  exact intSize_le filled range

theorem signExtended?_concat {bs : List UInt8} {high : Int} (read : signExtended? bs = some high)
    (byte : UInt8) : signExtended? (bs ++ [byte]) = some (appendByte high byte) := by
  cases bs with
  | nil => cases read
  | cons top bs =>
    rw [List.cons_append, signExtended?, List.foldl_append, Option.some.inj read]
    rfl

/-- An integer in the signed range of some bytes is read from the last bytes of every number that differs from
it by a multiple of their range. -/
theorem signExtended?_bigEndian {count n : Nat} {value carry : Int}
    (same : (n : Int) = value + carry * (256 ^ (count + 1) : Nat))
    (range : -((128 * 256 ^ count : Nat) : Int) ≤ value ∧ value < ((128 * 256 ^ count : Nat) : Int)) :
    signExtended? (bigEndian (count + 1) n) = some value := by
  -- the last byte is the remainder of both, and what is before it has the same multiple
  induction count generalizing n value with
  | zero =>
    have byte : (UInt8.ofNat (n % 256)).toNat = n % 256 := toNat_byte (by omega)
    have sign : (UInt8.ofNat (n % 256)).toInt8.toInt = value := by
      rw [toInt_toInt8, byte]
      split <;> omega
    exact congrArg some sign
  | succ count ih =>
    have byte : (UInt8.ofNat (n % 256)).toNat = n % 256 := toNat_byte (by omega)
    have wider : carry * (256 ^ (count + 1 + 1) : Nat) = 256 * (carry * (256 ^ (count + 1) : Nat)) := by
      rw [Nat.pow_succ', Int.natCast_mul]
      exact Int.mul_left_comm carry 256 _
    have unit : 256 ^ (count + 1) = 256 * 256 ^ count := Nat.pow_succ'
    rw [wider] at same
    rw [unit] at range
    have high : signExtended? (bigEndian (count + 1) (n / 256)) = some (value / 256) := by
      apply ih
      · omega
      · omega
    have whole : appendByte (value / 256) (UInt8.ofNat (n % 256)) = value := by
      rw [appendByte, byte]
      omega
    rw [bigEndian, signExtended?_concat high, whole]

/-! ## The end of a word -/

/-- The last bytes of a number are the same as those of its remainder. -/
theorem bigEndian_mod (count n : Nat) : bigEndian count (n % 256 ^ count) = bigEndian count n := by
  induction count generalizing n with
  | zero => rfl
  | succ count ih =>
    have above : n % 256 ^ (count + 1) / 256 = n / 256 % 256 ^ count := by
      rw [Nat.pow_succ', Nat.mod_mul_right_div_self]
    have last : n % 256 ^ (count + 1) % 256 = n % 256 :=
      Nat.mod_mod_of_dvd n ⟨256 ^ count, Nat.pow_succ'⟩
    rw [bigEndian, above, last, ih, bigEndian]

theorem drop_bigEndian (more count n : Nat) :
    (bigEndian (more + count) n).drop more = bigEndian count n := by
  induction count generalizing n with
  | zero => simp [bigEndian]
  | succ count ih =>
    have enough : more ≤ (bigEndian (more + count) (n / 256)).length := by
      rw [length_bigEndian]
      omega
    rw [← Nat.add_assoc, bigEndian, List.drop_append_of_le_length enough, ih, bigEndian]

/-! ## The size -/

/-- An integer has so few bytes exactly if it is in the signed range of their bits. -/
theorem intSize_le_iff {value : Int} {size : Nat} (positive : 0 < size) :
    intSize value ≤ size ↔
      -(2 ^ (8 * size - 1) : Nat) ≤ value ∧ value < (2 ^ (8 * size - 1) : Nat) := by
  constructor
  · intro few
    have range := range_intSize value
    have wider : 2 ^ (8 * intSize value - 1) ≤ 2 ^ (8 * size - 1) :=
      Nat.pow_le_pow_right (by decide) (by omega)
    omega
  · exact intSize_le positive

/-- A receiver holds what leaves one byte of a word for the tag. -/
theorem Config.holds_iff_intSize_le (c : Config) (value : Int) :
    c.holds value = true ↔ intSize value ≤ c.wordSize.bytes - 1 := by
  have word : 4 ≤ c.wordSize.bytes := by cases c.wordSize <;> decide
  have bits : c.intBits - 1 = 8 * (c.wordSize.bytes - 1) - 1 := by
    rw [intBits]
    omega
  rw [c.holds_iff, intSize_le_iff (by omega), bits, Int.natCast_pow]
  rfl

theorem intSize_toInt_le (value : Int64) : intSize value.toInt ≤ 8 :=
  intSize_le (by decide) ⟨value.le_toInt, value.toInt_lt⟩

/-! ## The bytes of an integer -/

@[simp] theorem length_tail_intBytes (value : Int) : (intBytes value).tail.length = intSize value :=
  length_bigEndian _ _

theorem signExtended?_intBytes (value : Int) : signExtended? (intBytes value).tail = some value := by
  have range := range_intSize value
  rw [intBytes, List.tail_cons]
  obtain ⟨count, size⟩ := Nat.exists_eq_succ_of_ne_zero (Nat.ne_of_gt (intSize_pos value))
  rw [size, Nat.succ_eq_add_one, two_pow_bits] at range
  rw [size, Nat.succ_eq_add_one, one_shiftLeft_bytes]
  -- the remainder that is written differs from the integer by the quotient times the range of the bytes
  have unit : (0 : Int) < (256 ^ (count + 1) : Nat) :=
    Int.natCast_pos.mpr (Nat.pow_pos (by decide))
  have same : ((value % (256 ^ (count + 1) : Nat)).toNat : Int) =
      value + -(value / (256 ^ (count + 1) : Nat)) * (256 ^ (count + 1) : Nat) := by
    rw [Int.toNat_of_nonneg (Int.emod_nonneg value (Int.ne_of_gt unit)), Int.emod_def, Int.neg_mul,
      Int.mul_comm]
    rfl
  exact signExtended?_bigEndian same range

/-- The word of an integer of 64 bits is the integer but for a multiple of the range. -/
theorem toNat_toUInt64 (value : Int64) :
    (value.toUInt64.toNat : Int) = value.toInt % (256 ^ 8 : Nat) := by
  have word : value.toInt =
      if 2 * value.toUInt64.toNat < 2 ^ 64 then (value.toUInt64.toNat : Int)
      else (value.toUInt64.toNat : Int) - (2 ^ 64 : Nat) :=
    BitVec.toInt_eq_toNat_cond value.toBitVec
  have small := value.toUInt64.toNat_lt
  omega

/-- The bytes of an integer of 64 bits are the end of its word. -/
theorem tail_intBytes_toInt (value : Int64) :
    (intBytes value.toInt).tail =
      (bigEndian 8 value.toUInt64.toNat).drop (8 - intSize value.toInt) := by
  have few := intSize_toInt_le value
  have places : 8 = 8 - intSize value.toInt + intSize value.toInt := by omega
  -- what is written is the remainder of the integer, and the word has the same one
  have within : ((256 ^ intSize value.toInt : Nat) : Int) ∣ (256 ^ 8 : Nat) :=
    Int.natCast_dvd_natCast.mpr (Nat.pow_dvd_pow 256 few)
  have remainder : (value.toInt % (256 ^ intSize value.toInt : Nat)).toNat =
      value.toUInt64.toNat % 256 ^ intSize value.toInt := by
    rw [← Int.emod_emod_of_dvd _ within, ← toNat_toUInt64, ← Int.natCast_emod, Int.toNat_natCast]
  have dropped := drop_bigEndian (8 - intSize value.toInt) (intSize value.toInt) value.toUInt64.toNat
  rw [← places] at dropped
  rw [dropped, intBytes, List.tail_cons, one_shiftLeft_bytes, remainder, bigEndian_mod]

/-- An integer of 64 bits is written as a length from 1 to 8 and as many bytes, the end of its word. With the
sign of the first byte they are read as the integer, no fewer bytes are, and a receiver holds the integer
exactly if they leave one byte of a word. -/
theorem intBytes_shortest (value : Int64) :
    ∃ bytes, intBytes value.toInt = UInt8.ofNat bytes.length :: bytes ∧
      1 ≤ bytes.length ∧ bytes.length ≤ 8 ∧
      bytes = (bigEndian 8 value.toUInt64.toNat).drop (8 - bytes.length) ∧
      signExtended? bytes = some value.toInt ∧
      (∀ others, signExtended? others = some value.toInt → bytes.length ≤ others.length) ∧
      ∀ c : Config, c.holdsInt value = true ↔ bytes.length ≤ c.wordSize.bytes - 1 := by
  refine ⟨(intBytes value.toInt).tail, ?_, ?_, ?_, ?_, signExtended?_intBytes _, ?_, ?_⟩ <;>
    rw [length_tail_intBytes]
  · rfl
  · exact intSize_pos _
  · exact intSize_toInt_le value
  · exact tail_intBytes_toInt value
  · exact fun others read => intSize_le_of_signExtended? read
  · exact fun c => c.holds_iff_intSize_le value.toInt

end PrologWire.Swi
