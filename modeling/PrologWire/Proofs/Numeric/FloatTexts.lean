import PrologWire.Numeric.FloatFormat
import PrologWire.Proofs.Numeric.Decimal
import PrologWire.Proofs.Numeric.ShortestDigits

/-!
# Texts of floats are faithful

The text of a finite float is read back as its sign and the value of its shortest digits, in whichever
layout a format gives them, and no text of an infinity can be read. So finite floats with the same text
in one format are the same float.
-/

namespace PrologWire

/-! ## Digits -/

namespace Text

/-- Zeros behind digits multiply by ten each. -/
theorem natOfDigits_zeros (acc n : Nat) :
    natOfDigits acc (FloatFormat.zeros n) = acc * 10 ^ n := by
  induction n generalizing acc with
  | zero => rw [Nat.pow_zero, Nat.mul_one]; rfl
  | succ n ih =>
    have more : FloatFormat.zeros (n + 1) = '0' :: FloatFormat.zeros n := rfl
    rw [more, natOfDigits_cons, ih, Nat.pow_succ']
    show (10 * acc + 0) * _ = _
    rw [Nat.add_zero, Nat.mul_comm 10, Nat.mul_assoc]

end Text

theorem Decimal.isDigit_of_mem_digitChars {d : Decimal} {c : Char} (h : c ∈ d.digitChars) : c.isDigit :=
  Text.isDigit_of_mem_toDigits h

theorem Decimal.digitChars_ne_nil (d : Decimal) : d.digitChars ≠ [] := Nat.toDigits_ne_nil

theorem Decimal.natOfDigits_digitChars (d : Decimal) : Text.natOfDigits 0 d.digitChars = d.digits :=
  Text.natOfDigits_toDigits d.digits

/-- A float is a finite number, an infinity or no number. -/
theorem Binary64.kind_cases (x : Binary64) :
    x.isFinite = true ∨ x.isInfinite = true ∨ x.isNaN = true := by
  unfold isFinite isInfinite isNaN
  simp only [decide_eq_true_eq]
  omega

namespace FloatFormat

theorem isDigit_of_mem_zeros {n : Nat} {c : Char} (h : c ∈ zeros n) : c.isDigit := by
  obtain rfl := (List.mem_replicate.mp h).2
  rfl

theorem isDigit_of_mem_zero : ∀ c ∈ ['0'], c.isDigit := List.forall_mem_singleton.mpr rfl

/-! ## Reading -/

/-- The decimal that digits with or without a point are, and an exponent if there is one. -/
def readDecimal? (cs : List Char) : Option Decimal :=
  let (whole, fraction, rest) := Binary64.splitPoint cs
  (Binary64.exponentOf? rest).map fun e =>
    ⟨Text.natOfDigits 0 (whole ++ fraction), e - fraction.length⟩

/-- What can be an exponent does not begin with a digit or a point. -/
theorem head_of_exponentOf? {rest : List Char} {e : Int} (h : Binary64.exponentOf? rest = some e) :
    rest = [] ∨ ∃ c cs, rest = c :: cs ∧ c.isDigit = false ∧ c ≠ '.' := by
  cases rest with
  | nil => exact .inl rfl
  | cons c cs =>
    refine .inr ⟨c, cs, rfl, ?_⟩
    unfold Binary64.exponentOf? at h
    dsimp only at h
    split at h
    · next letter =>
      obtain rfl | rfl := letter.1 <;> decide
    · cases h

section

variable {whole fraction rest : List Char} {e : Int} (digits : ∀ c ∈ whole, c.isDigit)
  (exponent : Binary64.exponentOf? rest = some e)

include exponent

theorem takeWhile_append_exponent (all : ∀ c ∈ whole, c.isDigit) :
    (whole ++ rest).takeWhile Char.isDigit = whole ∧ (whole ++ rest).dropWhile Char.isDigit = rest := by
  have none : rest.takeWhile Char.isDigit = [] ∧ rest.dropWhile Char.isDigit = rest := by
    obtain rfl | ⟨c, cs, rfl, other, -⟩ := head_of_exponentOf? exponent
    · exact ⟨rfl, rfl⟩
    · simp [other]
  rw [List.takeWhile_append_of_pos all, List.dropWhile_append_of_pos all, none.1, none.2]
  simp

include digits

theorem readDecimal?_whole :
    readDecimal? (whole ++ rest) = some ⟨Text.natOfDigits 0 whole, e⟩ := by
  have parts : Binary64.splitPoint (whole ++ rest) = (whole, [], rest) := by
    obtain ⟨taken, left⟩ := takeWhile_append_exponent exponent digits
    rw [Binary64.splitPoint, taken, left]
    obtain rfl | ⟨c, cs, rfl, -, other⟩ := head_of_exponentOf? exponent
    · rfl
    · split
      · next same => exact absurd (List.cons.inj same).1 other
      · rfl
  rw [readDecimal?, parts]
  dsimp only
  rw [exponent, List.append_nil]
  simp

theorem readDecimal?_point (digits' : ∀ c ∈ fraction, c.isDigit) :
    readDecimal? (whole ++ '.' :: (fraction ++ rest)) =
      some ⟨Text.natOfDigits 0 (whole ++ fraction), e - fraction.length⟩ := by
  have parts : Binary64.splitPoint (whole ++ '.' :: (fraction ++ rest)) = (whole, fraction, rest) := by
    obtain ⟨taken, left⟩ := takeWhile_append_exponent exponent digits'
    have front : (whole ++ '.' :: (fraction ++ rest)).takeWhile Char.isDigit = whole ∧
        (whole ++ '.' :: (fraction ++ rest)).dropWhile Char.isDigit = '.' :: (fraction ++ rest) := by
      rw [List.takeWhile_append_of_pos digits, List.dropWhile_append_of_pos digits]
      simp
    rw [Binary64.splitPoint, front.1, front.2]
    show (whole, _, _) = _
    rw [taken, left]
  rw [readDecimal?, parts]
  dsimp only
  rw [exponent]
  rfl

end

/-- The power of ten behind the letter is read. -/
theorem exponentOf?_e (e : Int) (plusSign : Bool) :
    Binary64.exponentOf? ('e' :: ((if e < 0 then ['-'] else if plusSign then ['+'] else []) ++
      Nat.toDigits 10 e.natAbs)) = some e := by
  have digits : ∀ c ∈ Nat.toDigits 10 e.natAbs, c.isDigit := fun c among =>
    Text.isDigit_of_mem_toDigits among
  have sign : Binary64.signOf ((if e < 0 then ['-'] else if plusSign then ['+'] else []) ++
      Nat.toDigits 10 e.natAbs) = (decide (e < 0), Nat.toDigits 10 e.natAbs) := by
    by_cases negative : e < 0
    · rw [if_pos negative, decide_eq_true negative]
      rfl
    · rw [if_neg negative, decide_eq_false negative]
      cases plusSign with
      | true => rfl
      | false =>
        show Binary64.signOf (Nat.toDigits 10 e.natAbs) = _
        rw [Binary64.signOf.eq_def]
        split
        · next same => exact absurd same (Text.head_of_digits digits (by decide))
        · next same => exact absurd same (Text.head_of_digits digits (by decide))
        · rfl
  rw [Binary64.exponentOf?, sign]
  dsimp only
  rw [if_pos ⟨.inl rfl, Nat.toDigits_ne_nil, List.all_eq_true.mpr digits⟩, Text.natOfDigits_toDigits]
  by_cases negative : e < 0
  · rw [if_pos (decide_eq_true negative)]
    congr 1
    omega
  · rw [if_neg (by simpa using negative)]
    congr 1
    omega

/-! ## Layouts -/

/-- Digits in front of a power of ten are a number. -/
theorem units_eq {d : Decimal} {digits : Nat} {exponent : Int} {n : Nat}
    (more : digits = d.digits * 10 ^ n) (less : exponent + n = d.exponent) :
    (⟨digits, exponent⟩ : Decimal).units = d.units := by
  unfold Decimal.units
  rw [more, ← less, zpow_add₀ (by norm_num), zpow_natCast]
  push_cast
  ring

/-- Positional notation is read as the number. -/
theorem exists_read_layPositional (f : FloatFormat) (d : Decimal) :
    ∃ r, readDecimal? (f.layPositional d) = some r ∧ r.units = d.units := by
  have chars (c : Char) (h : c ∈ d.digitChars) : c.isDigit := Decimal.isDigit_of_mem_digitChars h
  have nothing : Binary64.exponentOf? [] = some 0 := rfl
  unfold layPositional
  dsimp only
  split
  · next whole =>
    -- all digits and some zeros are in front of the point
    have digits (c : Char) (h : c ∈ d.digitChars ++ zeros d.exponent.toNat) : c.isDigit := by
      rcases List.mem_append.mp h with first | second
      · exact chars c first
      · exact isDigit_of_mem_zeros second
    have value : Text.natOfDigits 0 (d.digitChars ++ zeros d.exponent.toNat) =
        d.digits * 10 ^ d.exponent.toNat := by
      rw [Text.natOfDigits_append, Decimal.natOfDigits_digitChars, Text.natOfDigits_zeros]
    split
    · have read := readDecimal?_point digits nothing isDigit_of_mem_zero
      refine ⟨_, read, units_eq (n := d.exponent.toNat + 1) ?_ ?_⟩
      · rw [Text.natOfDigits_append, value, Nat.pow_succ, ← Nat.mul_assoc]
        show 10 * _ + 0 = _
        omega
      · simp
        omega
    · have read := readDecimal?_whole digits nothing
      refine ⟨_, read, units_eq value ?_⟩
      omega
  · next below =>
    split
    · next inside =>
      -- the point is among the digits
      have front (c : Char) (h : c ∈ d.digitChars.take (d.digitChars.length - (-d.exponent).toNat)) :
          c.isDigit := chars c (List.mem_of_mem_take h)
      have back (c : Char) (h : c ∈ d.digitChars.drop (d.digitChars.length - (-d.exponent).toNat)) :
          c.isDigit := chars c (List.mem_of_mem_drop h)
      have read := readDecimal?_point front nothing back
      rw [List.append_nil] at read
      refine ⟨_, read, units_eq (n := 0) ?_ ?_⟩
      · rw [List.take_append_drop, Decimal.natOfDigits_digitChars, Nat.pow_zero, Nat.mul_one]
      · rw [List.length_drop]
        omega
    · next outside =>
      -- all digits and some zeros are behind the point
      have digits (c : Char) (h : c ∈ zeros ((-d.exponent).toNat - d.digitChars.length) ++ d.digitChars) :
          c.isDigit := by
        rcases List.mem_append.mp h with first | second
        · exact isDigit_of_mem_zeros first
        · exact chars c second
      have read := readDecimal?_point isDigit_of_mem_zero nothing digits
      rw [List.append_nil] at read
      refine ⟨_, read, units_eq (n := 0) ?_ ?_⟩
      · rw [Text.natOfDigits_append, Text.natOfDigits_append, Text.natOfDigits_zeros]
        show Text.natOfDigits (0 * _) _ = _
        rw [Nat.zero_mul, Decimal.natOfDigits_digitChars, Nat.pow_zero, Nat.mul_one]
      · rw [List.length_append, zeros, List.length_replicate]
        omega

/-- Notation with an exponent is read as the number. -/
theorem exists_read_layExponent (f : FloatFormat) (d : Decimal) :
    ∃ r, readDecimal? (f.layExponent d) = some r ∧ r.units = d.units := by
  have chars (c : Char) (h : c ∈ d.digitChars) : c.isDigit := Decimal.isDigit_of_mem_digitChars h
  have exponent := exponentOf?_e d.leadingExponent f.plusSign
  have value := d.natOfDigits_digitChars
  have leading : d.leadingExponent = d.exponent + d.digitChars.length - 1 := rfl
  unfold layExponent
  dsimp only
  rw [List.append_assoc, List.cons_append]
  split
  · next none => exact absurd none d.digitChars_ne_nil
  · next c single =>
    have digit : c.isDigit := chars c (single ▸ List.mem_cons_self)
    have alone : ∀ x ∈ [c], x.isDigit := fun x h => List.mem_singleton.mp h ▸ digit
    rw [single] at value leading
    split
    · have read := readDecimal?_point alone exponent isDigit_of_mem_zero
      refine ⟨_, read, units_eq (n := 1) ?_ ?_⟩
      · rw [Text.natOfDigits_append, value, Nat.pow_one]
        show 10 * _ + 0 = _
        omega
      · simp only [List.length_singleton] at leading ⊢
        omega
    · have read := readDecimal?_whole alone exponent
      refine ⟨_, read, units_eq (n := 0) ?_ ?_⟩
      · rw [value, Nat.pow_zero, Nat.mul_one]
      · simp only [List.length_singleton] at leading
        omega
  · next c cs _ several =>
    rw [several] at chars value leading
    have first : ∀ x ∈ [c], x.isDigit := fun x h => chars x (List.mem_singleton.mp h ▸ List.mem_cons_self)
    have read := readDecimal?_point first exponent fun x h => chars x (List.mem_cons_of_mem c h)
    refine ⟨_, read, units_eq (n := 0) ?_ ?_⟩
    · rw [List.singleton_append, value, Nat.pow_zero, Nat.mul_one]
    · rw [List.length_cons] at leading
      omega

/-! ## Texts -/

/-- The sign and the magnitude that a text is read as. -/
def readSigned? (cs : List Char) : Option (Bool × Decimal) :=
  (readDecimal? (Binary64.signOf cs).2).map ((Binary64.signOf cs).1, ·)

/-- No sign is read as a part of a decimal. -/
theorem readDecimal?_sign {c : Char} (sign : c = '-' ∨ c = '+') (cs : List Char) :
    readDecimal? (c :: cs) = none := by
  obtain rfl | rfl := sign <;> rfl

/-- In front of a decimal the sign is found, if there is one. -/
theorem signOf_append {body : List Char} {d : Decimal} (read : readDecimal? body = some d)
    (negative : Bool) :
    Binary64.signOf ((if negative then ['-'] else []) ++ body) = (negative, body) := by
  cases negative with
  | true => rfl
  | false =>
    show Binary64.signOf body = _
    rw [Binary64.signOf.eq_def]
    split
    · rw [readDecimal?_sign (.inl rfl)] at read
      cases read
    · rw [readDecimal?_sign (.inr rfl)] at read
      cases read
    · rfl

/-- Both layouts are read as the number. -/
theorem exists_read_layout (f : FloatFormat) (d : Decimal) :
    ∃ r, readDecimal? (if f.positional d.leadingExponent then f.layPositional d else f.layExponent d) =
      some r ∧ r.units = d.units := by
  split
  · exact f.exists_read_layPositional d
  · exact f.exists_read_layExponent d

/-- The text of a finite float is read as its sign and its shortest digits. -/
theorem exists_readSigned?_text (f : FloatFormat) {x : Binary64} (finite : x.isFinite = true) :
    ∃ r, readSigned? (f.text x).toList = some (x.isNegative, r) ∧
      r.units = (x.shortest f.tie).units := by
  have range := of_decide_eq_true finite
  have number : ¬x.isNaN = true := by simp [Binary64.isNaN]; omega
  have bounded : ¬x.isInfinite = true := by simp [Binary64.isInfinite]; omega
  obtain ⟨r, read, same⟩ := f.exists_read_layout (x.shortest f.tie)
  refine ⟨r, ?_, same⟩
  rw [text, if_neg number]
  dsimp only
  rw [if_neg bounded, String.toList_ofList, readSigned?, signOf_append read, read]
  rfl

/-- An infinity is its sign and a word. -/
theorem text_of_isInfinite (f : FloatFormat) {x : Binary64} (infinite : x.isInfinite = true) :
    f.text x = if x.isNegative then "-inf" else "inf" := by
  have word := of_decide_eq_true infinite
  have number : ¬x.isNaN = true := by simp [Binary64.isNaN]; omega
  rw [text, if_neg number]
  dsimp only
  rw [if_pos infinite]
  cases x.isNegative <;> rfl

/-- Finite floats with the same text are the same. -/
theorem eq_of_text_eq {f : FloatFormat} {x y : Binary64} (finiteX : x.isFinite = true)
    (finiteY : y.isFinite = true) (same : f.text x = f.text y) : x = y := by
  obtain ⟨r, readX, unitsX⟩ := f.exists_readSigned?_text finiteX
  obtain ⟨s, readY, unitsY⟩ := f.exists_readSigned?_text finiteY
  rw [same, readY] at readX
  obtain ⟨sign, rfl⟩ := Prod.mk.inj (Option.some.inj readX)
  exact Binary64.eq_of_units_eq sign.symm (unitsX.symm.trans unitsY)

/-- So are infinities with the same text. -/
theorem eq_of_text_eq_of_isInfinite {f : FloatFormat} {x y : Binary64} (infiniteX : x.isInfinite = true)
    (infiniteY : y.isInfinite = true) (same : f.text x = f.text y) : x = y := by
  rw [f.text_of_isInfinite infiniteX, f.text_of_isInfinite infiniteY] at same
  refine Binary64.eq_of_unsignedWord_eq ?_
    ((of_decide_eq_true infiniteX).trans (of_decide_eq_true infiniteY).symm)
  cases signX : x.isNegative <;> cases signY : y.isNegative <;> rw [signX, signY] at same <;> first
    | rfl
    | exact absurd same (by decide)

/-- The text of an infinity cannot be read. -/
theorem readSigned?_text_of_isInfinite (f : FloatFormat) {x : Binary64} (infinite : x.isInfinite = true) :
    readSigned? (f.text x).toList = none := by
  rw [f.text_of_isInfinite infinite]
  cases x.isNegative <;> rfl

/-- A text that cannot be read is none of a finite float. -/
theorem text_ne_of_readSigned?_eq_none {f : FloatFormat} {x : Binary64} {s : String}
    (finite : x.isFinite = true) (unread : readSigned? s.toList = none) : f.text x ≠ s := by
  rintro rfl
  obtain ⟨r, read, -⟩ := f.exists_readSigned?_text finite
  rw [unread] at read
  cases read

/-- If the text of NaNs is that of no other float, the texts of two floats are the same exactly if the floats
are, or if both are NaNs. -/
theorem text_eq_iff {f : FloatFormat} (unread : readSigned? f.nan.toList = none)
    (apart : f.nan ≠ "inf" ∧ f.nan ≠ "-inf") {x y : Binary64} :
    f.text x = f.text y ↔ x = y ∨ x.isNaN = true ∧ y.isNaN = true := by
  have named {x : Binary64} (nan : x.isNaN = true) : f.text x = f.nan := if_pos nan
  have infinity {x : Binary64} (infinite : x.isInfinite = true) : f.text x ≠ f.nan := by
    rw [f.text_of_isInfinite infinite]
    split
    · exact apart.2.symm
    · exact apart.1.symm
  constructor
  · intro same
    rcases x.kind_cases with finiteX | infiniteX | nanX
    · rcases y.kind_cases with finiteY | infiniteY | nanY
      · exact .inl (eq_of_text_eq finiteX finiteY same)
      · exact absurd same
          (text_ne_of_readSigned?_eq_none finiteX (f.readSigned?_text_of_isInfinite infiniteY))
      · exact absurd (same.trans (named nanY)) (text_ne_of_readSigned?_eq_none finiteX unread)
    · rcases y.kind_cases with finiteY | infiniteY | nanY
      · exact absurd same.symm
          (text_ne_of_readSigned?_eq_none finiteY (f.readSigned?_text_of_isInfinite infiniteX))
      · exact .inl (eq_of_text_eq_of_isInfinite infiniteX infiniteY same)
      · exact absurd (same.trans (named nanY)) (infinity infiniteX)
    · rcases y.kind_cases with finiteY | infiniteY | nanY
      · exact absurd (same.symm.trans (named nanX)) (text_ne_of_readSigned?_eq_none finiteY unread)
      · exact absurd (same.symm.trans (named nanX)) (infinity infiniteY)
      · exact .inr ⟨nanX, nanY⟩
  · rintro (rfl | ⟨nanX, nanY⟩)
    · rfl
    · rw [named nanX, named nanY]

end FloatFormat

end PrologWire
