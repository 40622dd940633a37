import PrologWire.Arena.Display
import PrologWire.Proofs.Numeric.FloatTexts

/-!
# Floats that are shown as integers

In Prolog text a finite float has no exponent, and its digits have a point unless the float is `10 ^ 16` in
magnitude or more. From there on its text is that of an integer.
-/

namespace PrologWire

/-! ## Digits without a point -/

/-- Zeros behind the digits of a number multiply it by ten each. -/
theorem Text.toDigits_mul_pow {n : Nat} (positive : 0 < n) (k : Nat) :
    Nat.toDigits 10 (n * 10 ^ k) = Nat.toDigits 10 n ++ FloatFormat.zeros k := by
  induction k with
  | zero => rw [Nat.pow_zero, Nat.mul_one, FloatFormat.zeros, List.replicate_zero, List.append_nil]
  | succ k ih =>
    have some : 0 < n * 10 ^ k := Nat.mul_pos positive (Nat.pow_pos (by decide))
    have last := Nat.toDigits_append_toDigits (b := 10) (d := 0) (by decide) some (by decide)
    have more : 10 * (n * 10 ^ k) + 0 = n * 10 ^ (k + 1) := by
      rw [Nat.add_zero, Nat.pow_succ, Nat.mul_comm 10, Nat.mul_assoc]
    rw [← more, ← last, ih, Nat.toDigits_zero, List.append_assoc, FloatFormat.zeros, FloatFormat.zeros,
      List.replicate_succ']

namespace Decimal

variable {d : Decimal}

/-- A decimal without places behind the point is a whole number. -/
theorem units_eq_natCast (whole : 0 ≤ d.exponent) :
    d.units = (d.digits * 10 ^ d.exponent.toNat * Binary64.quartersInOne : Nat) := by
  have power : (10 : ℚ) ^ d.exponent = 10 ^ d.exponent.toNat := by
    rw [← zpow_natCast, Int.toNat_of_nonneg whole]
  rw [units, power]
  push_cast
  rfl

/-- A whole number has seventeen digits or more from `10 ^ 16` on. -/
theorem leadingExponent_ge_iff (some : d.digits ≠ 0) (whole : 0 ≤ d.exponent) :
    16 ≤ d.leadingExponent ↔ 10 ^ 16 ≤ d.digits * 10 ^ d.exponent.toNat := by
  have digits := Text.toDigits_mul_pow (Nat.pos_of_ne_zero some) d.exponent.toNat
  have short := Nat.length_toDigits_le_iff (b := 10) (n := d.digits * 10 ^ d.exponent.toNat) (k := 16)
    (by decide) (by decide)
  rw [digits, List.length_append, FloatFormat.zeros, List.length_replicate] at short
  unfold leadingExponent digitChars
  omega

/-- Taking zeros from the end of the digits leaves a whole number whole. -/
theorem exponent_le_stripZeros (d : Decimal) (fuel : Nat) : d.exponent ≤ (d.stripZeros fuel).exponent := by
  induction fuel generalizing d with
  | zero => exact Int.le_refl _
  | succ fuel ih =>
    rw [stripZeros]
    split
    · exact Int.le_trans (Int.le_add_one (Int.le_refl _)) (ih _)
    · exact Int.le_refl _

end Decimal

namespace Binary64

/-! ## Floats from `10 ^ 16` on -/

/-- `10 ^ 16` as a float. -/
def tenToSixteen : Binary64 := ⟨0x4341c37937e08000⟩

theorem center_tenToSixteen : tenToSixteen.center = 10 ^ 16 * quartersInOne := by decide +kernel

/-- The magnitude of the float is `10 ^ 16` at least. -/
def isGreat (x : Binary64) : Bool := tenToSixteen.unsignedWord ≤ x.unsignedWord

/-- A number that rounds to a smaller float is smaller. -/
theorem Rounds.lt_center {x y : Binary64} {q : ℚ} (near : x.Rounds q)
    (less : x.unsignedWord < y.unsignedWord) (inside : y.lowerMidpoint < y.center) : q < y.center := by
  obtain ⟨word, next⟩ := Nat.exists_eq_succ_of_ne_zero (Nat.ne_of_gt (Nat.zero_lt_of_lt less))
  have above := near.le_upper
  rw [upperMidpoint_eq] at above
  have order : midpoint x.unsignedWord ≤ midpoint word := strictMono_midpoint.monotone (by omega)
  have rational : (midpoint x.unsignedWord : ℚ) ≤ midpoint word := Nat.cast_le.mpr order
  rw [← lowerMidpoint_eq next] at rational
  have lower : (y.lowerMidpoint : ℚ) < y.center := Nat.cast_lt.mpr inside
  linarith

/-- What rounds to a float is not below any smaller float. -/
theorem center_le_lowerMidpoint {x y : Binary64} (less : x.unsignedWord < y.unsignedWord) :
    x.center ≤ y.lowerMidpoint := by
  obtain ⟨word, next⟩ := Nat.exists_eq_succ_of_ne_zero (Nat.ne_of_gt (Nat.zero_lt_of_lt less))
  have order : midpoint x.unsignedWord ≤ midpoint word := strictMono_midpoint.monotone (by omega)
  rw [← lowerMidpoint_eq next, ← upperMidpoint_eq] at order
  exact Nat.le_trans (Nat.le_add_right _ _) order

theorem le_center_of_isGreat {x : Binary64} (great : x.isGreat = true) :
    10 ^ 16 * quartersInOne ≤ x.center := by
  rw [← center_tenToSixteen]
  rcases Nat.lt_or_eq_of_le (of_decide_eq_true great) with less | same
  · exact Nat.le_trans (center_le_lowerMidpoint less) (Nat.sub_le _ _)
  · have fields : tenToSixteen.center = x.center := by
      unfold center magnitude significand scale exponentField fraction
      rw [same]
    exact Nat.le_of_eq fields

/-- The digits of a float other than zero are not zero. -/
theorem digits_shortest_ne_zero (tie : TieRule) {x : Binary64} (nonzero : x.unsignedWord ≠ 0) :
    (x.shortest tie).digits ≠ 0 := by
  intro none
  obtain ⟨word, next⟩ := Nat.exists_eq_succ_of_ne_zero nonzero
  have low := (x.rounds_shortest tie).lower_le
  rw [Decimal.units, none, Nat.cast_zero, zero_mul, zero_mul, lowerMidpoint_eq next] at low
  have positive : 0 < midpoint word := by
    unfold midpoint
    exact Nat.mul_pos (Nat.succ_pos _) (Nat.two_pow_pos _)
  exact absurd (Nat.cast_nonpos.mp low) (Nat.ne_of_gt positive)

/-- The grids on which the digits of a great float are looked for have no places behind the point. -/
theorem exponent_searchGrids_nonneg (tie : TieRule) {x : Binary64} (great : 16 ≤ x.leadingExponent)
    {count fuel : Nat} (few : count + fuel ≤ 18) : 0 ≤ (x.searchGrids tie count fuel).exponent := by
  induction fuel generalizing count with
  | zero => exact Int.le_refl _
  | succ fuel ih =>
    rw [searchGrids]
    split
    · show 0 ≤ x.leadingExponent + 1 - (count : Int)
      omega
    · exact ih (by omega)

theorem leadingExponent_of_isGreat {x : Binary64} (great : x.isGreat = true) : 16 ≤ x.leadingExponent := by
  have least := le_center_of_isGreat great
  have quotient : 10 ^ 16 ≤ x.center / quartersInOne := (Nat.le_div_iff_mul_le quartersInOne_pos).mpr least
  have short := Nat.length_toDigits_le_iff (b := 10) (n := x.center / quartersInOne) (k := 16)
    (by decide) (by decide)
  have one : quartersInOne ≤ x.center := by omega
  unfold leadingExponent
  rw [if_pos one]
  omega

theorem exponent_of_isGreat (tie : TieRule) {x : Binary64} (great : x.isGreat = true) :
    0 ≤ (x.shortest tie).exponent := by
  unfold shortest
  split
  · exact Int.le_refl _
  · exact Int.le_trans (exponent_searchGrids_nonneg tie (leadingExponent_of_isGreat great) (by decide))
      (Decimal.exponent_le_stripZeros _ _)

theorem unsignedWord_ne_zero_of_isGreat {x : Binary64} (great : x.isGreat = true) : x.unsignedWord ≠ 0 := by
  have least : tenToSixteen.unsignedWord ≤ x.unsignedWord := of_decide_eq_true great
  have positive : 0 < tenToSixteen.unsignedWord := by decide
  omega

/-- The digits of a great float are `10 ^ 16` at least. -/
theorem le_digits_of_isGreat {x : Binary64} (great : x.isGreat = true) :
    16 ≤ (x.shortest .upward).leadingExponent := by
  have some := digits_shortest_ne_zero .upward (unsignedWord_ne_zero_of_isGreat great)
  have whole := exponent_of_isGreat .upward great
  rcases Nat.lt_or_eq_of_le (of_decide_eq_true great) with less | same
  · -- beyond `10 ^ 16` even what is rounded up to the float is not below it
    rw [Decimal.leadingExponent_ge_iff some whole]
    have low := (x.rounds_shortest .upward).lower_le
    have least : tenToSixteen.center ≤ x.lowerMidpoint := center_le_lowerMidpoint less
    rw [center_tenToSixteen] at least
    rw [Decimal.units_eq_natCast whole] at low
    exact Nat.le_of_mul_le_mul_right (Nat.le_trans least (Nat.cast_le.mp low)) quartersInOne_pos
  · -- the digits of `10 ^ 16` itself and of its negation
    by_cases negative : x.isNegative = true
    · have opposite : x = ⟨0xc341c37937e08000⟩ := eq_of_unsignedWord_eq negative same.symm
      rw [opposite]
      decide +kernel
    · have positive : x = tenToSixteen :=
        eq_of_unsignedWord_eq (Bool.eq_false_iff.mpr negative) same.symm
      rw [positive]
      decide +kernel

/-- The shortest digits of a float are seventeen or more in front of the point exactly if the float is
`10 ^ 16` in magnitude at least. -/
theorem isGreat_iff {x : Binary64} : x.isGreat = true ↔
    0 ≤ (x.shortest .upward).exponent ∧ 16 ≤ (x.shortest .upward).leadingExponent := by
  constructor
  · intro great
    exact ⟨exponent_of_isGreat .upward great, le_digits_of_isGreat great⟩
  · rintro ⟨whole, leading⟩
    by_contra less
    have smaller : x.unsignedWord < tenToSixteen.unsignedWord := by
      simpa [isGreat] using less
    have near := (x.rounds_shortest .upward).lt_center smaller (by decide +kernel)
    have nonzero : x.unsignedWord ≠ 0 := by
      intro zero
      have isZero : x.isZero = true := decide_eq_true zero
      rw [shortest, if_pos isZero] at leading
      exact absurd leading (by decide)
    have digits := (Decimal.leadingExponent_ge_iff (digits_shortest_ne_zero .upward nonzero) whole).mp leading
    rw [Decimal.units_eq_natCast whole, center_tenToSixteen, Nat.cast_lt] at near
    exact absurd (Nat.lt_of_mul_lt_mul_right near) (Nat.not_lt.mpr digits)

/-! ## Texts -/

/-- The number that the digits of a great float are: its shortest digits with zeros behind them. -/
def shownMagnitude (x : Binary64) : Nat :=
  (x.shortest .upward).digits * 10 ^ (x.shortest .upward).exponent.toNat

/-- The integer that a great float is shown as. -/
def shownInteger (x : Binary64) : Int :=
  if x.isNegative then -(x.shownMagnitude : Int) else x.shownMagnitude

/-- A finite float is shown as its sign and its digits. -/
theorem text_prolog {x : Binary64} (finite : x.isFinite = true) :
    (FloatFormat.prolog.text x).toList = (if x.isNegative then ['-'] else []) ++
      FloatFormat.prolog.layPositional (x.shortest .upward) := by
  have range := of_decide_eq_true finite
  have number : ¬x.isNaN = true := by simp [isNaN]; omega
  have bounded : ¬x.isInfinite = true := by simp [isInfinite]; omega
  rw [FloatFormat.text, if_neg number]
  dsimp only
  rw [if_neg bounded, String.toList_ofList]
  rfl

/-- The text of a great float is that of an integer. -/
theorem text_prolog_of_isGreat {x : Binary64} (finite : x.isFinite = true) (great : x.isGreat = true) :
    FloatFormat.prolog.text x = toString x.shownInteger := by
  obtain ⟨whole, leading⟩ := isGreat_iff.mp great
  have some := Nat.pos_of_ne_zero (digits_shortest_ne_zero .upward (unsignedWord_ne_zero_of_isGreat great))
  have positive : 0 < x.shownMagnitude := Nat.mul_pos some (Nat.pow_pos (by decide))
  have digits : FloatFormat.prolog.layPositional (x.shortest .upward) = Nat.toDigits 10 x.shownMagnitude := by
    have pointless : FloatFormat.prolog.pointZero (x.shortest .upward).leadingExponent = false :=
      decide_eq_false (Int.not_lt.mpr leading)
    unfold FloatFormat.layPositional
    dsimp only
    rw [if_pos whole, pointless, shownMagnitude, Text.toDigits_mul_pow some]
    exact List.append_nil _
  apply String.toList_inj.mp
  rw [text_prolog finite, digits, Text.toList_toString, shownInteger]
  by_cases negative : x.isNegative = true
  · have less : -(x.shownMagnitude : Int) < 0 := by omega
    rw [if_pos negative, if_pos negative, if_pos less, Int.natAbs_neg, Int.natAbs_natCast]
    rfl
  · have more : ¬(x.shownMagnitude : Int) < 0 := by omega
    rw [if_neg negative, if_neg negative, if_neg more, Int.natAbs_natCast]
    rfl

/-- The text of any other finite float has a point. -/
theorem point_mem_text_prolog {x : Binary64} (finite : x.isFinite = true) (small : x.isGreat = false) :
    '.' ∈ (FloatFormat.prolog.text x).toList := by
  rw [text_prolog finite]
  apply List.mem_append_right
  unfold FloatFormat.layPositional
  dsimp only
  split
  · next whole =>
    have leading : (x.shortest .upward).leadingExponent < 16 := by
      by_contra more
      rw [isGreat_iff.mpr ⟨whole, Int.not_lt.mp more⟩] at small
      cases small
    have pointed : FloatFormat.prolog.pointZero (x.shortest .upward).leadingExponent = true :=
      decide_eq_true leading
    rw [pointed]
    exact List.mem_append_right _ List.mem_cons_self
  · split
    · exact List.mem_append_right _ List.mem_cons_self
    · exact List.mem_cons_of_mem _ List.mem_cons_self

end Binary64

namespace FloatFormat

/-- The positional layout has digits and a point at most. -/
theorem isDigit_or_point_of_mem_layPositional {f : FloatFormat} {d : Decimal} {c : Char}
    (among : c ∈ f.layPositional d) : c.isDigit ∨ c = '.' := by
  have digit (x : Char) (h : x ∈ d.digitChars) : x.isDigit := Decimal.isDigit_of_mem_digitChars h
  unfold layPositional at among
  dsimp only at among
  split at among
  · rcases List.mem_append.mp among with front | back
    · rcases List.mem_append.mp front with first | second
      · exact .inl (digit c first)
      · exact .inl (isDigit_of_mem_zeros second)
    · split at back
      · rcases List.mem_cons.mp back with point | zero
        · exact .inr point
        · exact .inl (isDigit_of_mem_zero c zero)
      · cases back
  · split at among
    · rcases List.mem_append.mp among with front | back
      · exact .inl (digit c (List.mem_of_mem_take front))
      · rcases List.mem_cons.mp back with point | behind
        · exact .inr point
        · exact .inl (digit c (List.mem_of_mem_drop behind))
    · rcases List.mem_cons.mp among with zero | back
      · exact .inl (isDigit_of_mem_zero c (List.mem_singleton.mpr zero))
      · rcases List.mem_cons.mp back with point | behind
        · exact .inr point
        · rcases List.mem_append.mp behind with first | second
          · exact .inl (isDigit_of_mem_zeros first)
          · exact .inl (digit c second)

end FloatFormat

/-- The text of a finite float has digits, a point and a sign at most. -/
theorem Binary64.numeral_of_mem_text_prolog {x : Binary64} (finite : x.isFinite = true) {c : Char}
    (among : c ∈ (FloatFormat.prolog.text x).toList) : c.isDigit ∨ c = '.' ∨ c = '-' := by
  rw [text_prolog finite] at among
  rcases List.mem_append.mp among with front | back
  · split at front
    · exact .inr (.inr (List.mem_singleton.mp front))
    · cases front
  · rcases FloatFormat.isDigit_or_point_of_mem_layPositional back with digit | point
    · exact .inl digit
    · exact .inr (.inl point)

end PrologWire
