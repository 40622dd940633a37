import PrologWire.Proofs.Numeric.FloatTexts
import PrologWire.Proofs.Text.Integers
import PrologWire.Sicstus.Format

/-!
# Texts up to a zero byte

A text without a null character has no zero byte, so that its end is found again: two such texts
that are written in front of the same bytes are the same. Texts that can be read as integers are of
this kind, and so are those that integers and floats are written as. `FloatTexts` has all that is used of
the texts of floats.
-/

namespace PrologWire

/-! ## Bytes of a text -/

/-- A character other than the null character has no zero byte. -/
theorem zero_notMem_utf8EncodeChar {c : Char} (h : c ≠ '\x00') :
    (0 : UInt8) ∉ String.utf8EncodeChar c := by
  have positive : c.val.toNat ≠ 0 := by
    intro zero
    exact h (Char.ext (UInt32.toNat_inj.mp zero))
  have byte (n : Nat) (nonzero : n % 256 ≠ 0) : (0 : UInt8) ≠ UInt8.ofNat n := by
    intro same
    have values := congrArg UInt8.toNat same
    rw [UInt8.toNat_ofNat'] at values
    exact nonzero values.symm
  unfold String.utf8EncodeChar
  dsimp only
  -- one byte is the character itself, and every byte of more than one is at least 128
  split
  · simp only [List.mem_singleton]
    exact byte _ (by omega)
  · split
    · simp only [List.mem_cons, List.not_mem_nil, or_false, not_or]
      exact ⟨byte _ (by omega), byte _ (by omega)⟩
    · split
      · simp only [List.mem_cons, List.not_mem_nil, or_false, not_or]
        exact ⟨byte _ (by omega), byte _ (by omega), byte _ (by omega)⟩
      · simp only [List.mem_cons, List.not_mem_nil, or_false, not_or]
        exact ⟨byte _ (by omega), byte _ (by omega), byte _ (by omega), byte _ (by omega)⟩

/-- The bytes of a text are those of its characters. -/
theorem toUTF8_eq_flatMap (s : String) :
    s.toUTF8.data.toList = s.toList.flatMap String.utf8EncodeChar := by
  show s.toByteArray.data.toList = _
  rw [← String.utf8Encode_toList, List.utf8Encode, List.data_toByteArray]

/-- A text without a null character has no zero byte. -/
theorem zero_notMem_toUTF8 {s : String} (h : '\x00' ∉ s.toList) :
    (0 : UInt8) ∉ s.toUTF8.data.toList := by
  rw [toUTF8_eq_flatMap, List.mem_flatMap]
  rintro ⟨c, among, zero⟩
  apply zero_notMem_utf8EncodeChar _ zero
  rintro rfl
  exact h among

/-- A text without a zero byte has no null character. -/
theorem null_notMem_of_zero_notMem {s : String} (h : (0 : UInt8) ∉ s.toUTF8.data.toList) :
    '\x00' ∉ s.toList := by
  rw [toUTF8_eq_flatMap, List.mem_flatMap] at h
  exact fun among => h ⟨'\x00', among, List.mem_singleton_self 0⟩

/-! ## Texts of integers -/

namespace Text

/-- A text that can be read as an integer has no null character. -/
theorem null_notMem_of_readInt? {cs : List Char} {value : Int} (h : readInt? cs = some value) :
    '\x00' ∉ cs :=
  ((recognizes_readInt? cs value).mp h).null_notMem

/-- Digits are no null characters. -/
theorem null_notMem_toDigits (n : Nat) : '\x00' ∉ Nat.toDigits 10 n := by
  intro among
  have digit := Nat.isDigit_of_mem_toDigits (by decide) (by decide) among
  cases digit

/-- The text of an integer has no null character. -/
theorem null_notMem_toString (value : Int) : '\x00' ∉ (toString value).toList := by
  have digits (n : Nat) : '\x00' ∉ n.repr.toList := Nat.toList_repr ▸ null_notMem_toDigits n
  show '\x00' ∉ (Int.repr value).toList
  cases value with
  | ofNat n => exact digits n
  | negSucc n =>
    simp only [Int.repr, String.toList_append, List.mem_append, not_or]
    exact ⟨by decide, digits _⟩

end Text

/-! ## Texts of floats -/

namespace FloatFormat

theorem null_notMem_zeros (n : Nat) : '\x00' ∉ zeros n := by
  intro among
  cases (List.mem_replicate.mp among).2

theorem null_notMem_layPositional (f : FloatFormat) (d : Decimal) :
    '\x00' ∉ f.layPositional d := by
  have digits : '\x00' ∉ d.digitChars := Text.null_notMem_toDigits d.digits
  have front (n : Nat) : '\x00' ∉ d.digitChars.take n :=
    fun among => digits (List.mem_of_mem_take among)
  have back (n : Nat) : '\x00' ∉ d.digitChars.drop n :=
    fun among => digits (List.mem_of_mem_drop among)
  unfold layPositional
  dsimp only
  split
  · split <;> simp [digits, null_notMem_zeros]
  · split <;> simp [digits, front, back, null_notMem_zeros]

theorem null_notMem_layExponent (f : FloatFormat) (d : Decimal) : '\x00' ∉ f.layExponent d := by
  have digits : '\x00' ∉ d.digitChars := Text.null_notMem_toDigits d.digits
  have sign : '\x00' ∉ (if d.leadingExponent < 0 then ['-']
      else if f.plusSign then ['+'] else []) := by
    split
    · decide
    · split <;> decide
  unfold layExponent
  dsimp only
  rw [List.mem_append, List.mem_append, List.mem_cons, not_or, not_or, not_or]
  refine ⟨⟨?_, by decide, sign⟩, Text.null_notMem_toDigits _⟩
  split
  · exact List.not_mem_nil
  · next c single =>
    rw [single] at digits
    split <;> simpa using digits
  · next c cs _ several =>
    rw [several] at digits
    simpa using digits

/-- The text of a float has no null character. -/
theorem null_notMem_text {f : FloatFormat} (nan : '\x00' ∉ f.nan.toList) (x : Binary64) :
    '\x00' ∉ (f.text x).toList := by
  have sign : '\x00' ∉ (if x.isNegative then ['-'] else []) := by split <;> decide
  unfold text
  split
  · exact nan
  · dsimp only
    split
    · rw [String.toList_ofList, List.mem_append, not_or]
      exact ⟨sign, by decide⟩
    · rw [String.toList_ofList, List.mem_append, not_or]
      refine ⟨sign, ?_⟩
      split
      · exact null_notMem_layPositional f _
      · exact null_notMem_layExponent f _

end FloatFormat

namespace Sicstus

/-- What the texts of floats have to be like, so that floats can be told from their bytes. -/
structure FloatTexts (text : Binary64 → String) : Prop where
  null_notMem (x : Binary64) : '\x00' ∉ (text x).toList
  /-- All NaNs may have one text. -/
  eq_iff {x y : Binary64} : text x = text y ↔ x = y ∨ x.isNaN = true ∧ y.isNaN = true

theorem floatTexts_floatText : FloatTexts floatText where
  null_notMem := FloatFormat.null_notMem_text (by decide)
  eq_iff := FloatFormat.text_eq_iff rfl (by decide)

/-! ## The end of a text -/

/-- Bytes in front of the first zero byte are found again. -/
theorem append_zero_cons_inj {xs ys as bs : List UInt8} (hx : 0 ∉ xs) (hy : 0 ∉ ys) :
    xs ++ 0 :: as = ys ++ 0 :: bs ↔ xs = ys ∧ as = bs := by
  induction xs generalizing ys with
  | nil =>
    cases ys with
    | nil => simp
    | cons y ys =>
      have first : (0 : UInt8) ≠ y := fun same => hy (same ▸ List.mem_cons_self)
      simp [first]
  | cons x xs ih =>
    rw [List.mem_cons, not_or] at hx
    cases ys with
    | nil =>
      have first : x ≠ (0 : UInt8) := fun same => hx.1 same.symm
      simp [first]
    | cons y ys =>
      rw [List.mem_cons, not_or] at hy
      simp [ih hx.2 hy.2, and_assoc]

/-- Two texts without null characters that begin the same bytes are the same. -/
theorem zeroEnded_append_inj {s t : String} (hs : '\x00' ∉ s.toList) (ht : '\x00' ∉ t.toList)
    (as bs : List UInt8) : zeroEnded s ++ as = zeroEnded t ++ bs ↔ s = t ∧ as = bs := by
  have texts : s.toUTF8.data.toList = t.toUTF8.data.toList ↔ s = t := by
    show s.toByteArray.data.toList = t.toByteArray.data.toList ↔ s = t
    rw [Array.toList_inj, ← String.toByteArray_inj, ByteArray.ext_iff]
  rw [zeroEnded, zeroEnded, List.append_assoc, List.append_assoc, List.singleton_append,
    List.singleton_append, append_zero_cons_inj (zero_notMem_toUTF8 hs) (zero_notMem_toUTF8 ht),
    texts]

end Sicstus

end PrologWire
