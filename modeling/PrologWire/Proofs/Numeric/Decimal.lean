import PrologWire.Numeric.DecimalText
import Mathlib.Data.List.TakeWhile

/-!
# Decimal texts of integers are faithful

The text of an integer is read back as that integer and, as a float, as the float nearest to it. Two
such texts compare as their integers do: there are no zeros in front, so that of two magnitudes the
one with more digits is greater.
-/

namespace PrologWire
namespace Text

/-! ## Digits -/

theorem natOfDigits_cons (acc : Nat) (c : Char) (cs : List Char) :
    natOfDigits acc (c :: cs) = natOfDigits (10 * acc + digitValue c) cs :=
  natOfDigits.eq_def acc (c :: cs)

theorem natOfDigits_append (acc : Nat) (as bs : List Char) :
    natOfDigits acc (as ++ bs) = natOfDigits (natOfDigits acc as) bs := by
  induction as generalizing acc with
  | nil => rfl
  | cons a as ih => rw [List.cons_append, natOfDigits_cons, natOfDigits_cons, ih]

theorem digitValue_lt {c : Char} (digit : c.isDigit) : digitValue c < 10 := by
  have range := Char.isDigit_iff_toNat.mp digit
  have last : c.toNat ≤ 57 := range.2
  show c.toNat - 48 < 10
  omega

theorem natOfDigits_eq_ofDigitChars (acc : Nat) (cs : List Char) :
    natOfDigits acc cs = Nat.ofDigitChars 10 cs acc := by
  induction cs generalizing acc with
  | nil => rfl
  | cons c cs ih =>
    rw [natOfDigits_cons, ih, Nat.ofDigitChars_cons, digitValue]

/-- The digits of a number denote it. -/
theorem natOfDigits_toDigits (n : Nat) : natOfDigits 0 (Nat.toDigits 10 n) = n := by
  rw [natOfDigits_eq_ofDigitChars, Nat.ofDigitChars_ten_toDigits]

/-- Every character of a number is a digit. -/
theorem isDigit_of_mem_toDigits {n : Nat} {c : Char} (h : c ∈ Nat.toDigits 10 n) : c.isDigit :=
  Nat.isDigit_of_mem_toDigits (by decide) (by decide) h

/-- An integer is written as the digits of its magnitude, behind a minus sign if it is negative. -/
theorem toList_toString (value : Int) :
    (toString value).toList =
      if value < 0 then '-' :: Nat.toDigits 10 value.natAbs else Nat.toDigits 10 value.natAbs := by
  show (Int.repr value).toList = _
  cases value with
  | ofNat n =>
    rw [if_neg (by simp), Int.repr, Nat.toList_repr]
    rfl
  | negSucc n =>
    rw [if_pos (Int.negSucc_lt_zero n), Int.repr, String.toList_append, Nat.toList_repr]
    rfl

/-- A text of digits does not begin with a sign. -/
theorem head_of_digits {cs : List Char} (h : ∀ c ∈ cs, c.isDigit) {sign : Char} {rest : List Char}
    (no : sign.isDigit = false) : cs ≠ sign :: rest := by
  rintro rfl
  rw [h sign List.mem_cons_self] at no
  cases no

/-! ## Reading -/

theorem readNat?_toDigits (n : Nat) : readNat? (Nat.toDigits 10 n) = some n := by
  have plain : (Nat.toDigits 10 n).filter (· ≠ '_') = Nat.toDigits 10 n := by
    apply List.filter_eq_self.mpr
    intro c among
    have digit := isDigit_of_mem_toDigits among
    rw [decide_eq_true_eq]
    rintro rfl
    cases digit
  have digits : (Nat.toDigits 10 n).all Char.isDigit :=
    List.all_eq_true.mpr fun c among => isDigit_of_mem_toDigits among
  unfold readNat?
  dsimp only
  rw [plain, if_pos ⟨Nat.toDigits_ne_nil, digits⟩, natOfDigits_toDigits]

/-- The text of an integer is read as the integer. -/
theorem readInt?_toString (value : Int) : readInt? (toString value).toList = some value := by
  rw [toList_toString]
  split
  · next negative =>
    rw [readInt?, readNat?_toDigits]
    have whole : -(value.natAbs : Int) = value := by omega
    exact congrArg some whole
  · next positive =>
    have digits (c : Char) (among : c ∈ Nat.toDigits 10 value.natAbs) :=
      isDigit_of_mem_toDigits among
    rw [readInt?.eq_def]
    split
    · next same => exact absurd same (head_of_digits digits (by decide))
    · next same => exact absurd same (head_of_digits digits (by decide))
    · rw [readNat?_toDigits]
      have whole : (value.natAbs : Int) = value := by omega
      exact congrArg some whole

/-- The text of an integer tells the integer. -/
theorem toString_inj {v w : Int} (same : toString v = toString w) : v = w := by
  have read := readInt?_toString v
  rw [same, readInt?_toString] at read
  exact (Option.some.inj read).symm

/-! ## Comparing -/

/-- Digits take one byte each. -/
theorem utf8Size_of_digits {cs : List Char} (h : ∀ c ∈ cs, c.isDigit) :
    utf8Size cs = cs.length := by
  have sum (n : Nat) : cs.foldl (fun n c => n + c.utf8Size) n = n + cs.length := by
    induction cs generalizing n with
    | nil => rfl
    | cons c cs ih =>
      have one : c.utf8Size = 1 := by
        have digit := Char.isDigit_iff_toNat.mp (h c List.mem_cons_self)
        have small : c.val.toNat ≤ 57 := digit.2
        rw [Char.utf8Size_eq_one_iff, UInt32.le_iff_toNat_le]
        exact Nat.le_trans small (by decide)
      rw [List.foldl_cons, ih (fun x among => h x (List.mem_cons_of_mem c among)), one,
        List.length_cons]
      omega
  rw [utf8Size, sum, Nat.zero_add]

/-- Two digits compare as their values do. -/
theorem compare_digit {c d : Char} (hc : c.isDigit) (hd : d.isDigit) :
    compare c d = compare (digitValue c) (digitValue d) := by
  have first := Char.isDigit_iff_toNat.mp hc
  have second := Char.isDigit_iff_toNat.mp hd
  have less : c < d ↔ digitValue c < digitValue d := by
    show c.val < d.val ↔ c.toNat - '0'.toNat < d.toNat - '0'.toNat
    rw [UInt32.lt_iff_toNat_lt]
    show c.toNat < d.toNat ↔ _
    omega
  have same : c = d ↔ digitValue c = digitValue d := by
    rw [← Char.toNat_inj]
    show c.toNat = d.toNat ↔ c.toNat - '0'.toNat = d.toNat - '0'.toNat
    omega
  show compareOfLessAndEq c d = compareOfLessAndEq (digitValue c) (digitValue d)
  simp only [compareOfLessAndEq, less, same]

/-- One more digit each decides if what stands before is the same. -/
theorem compare_mul_add {x y d e : Nat} (hd : d < 10) (he : e < 10) :
    compare (10 * x + d) (10 * y + e) = (compare x y).then (compare d e) := by
  rcases Nat.lt_trichotomy x y with less | rfl | greater
  · rw [Nat.compare_eq_lt.mpr less, Nat.compare_eq_lt.mpr (by omega)]
    rfl
  · rw [Nat.compare_eq_eq.mpr rfl, Ordering.eq_then]
    rcases Nat.lt_trichotomy d e with less | rfl | greater
    · rw [Nat.compare_eq_lt.mpr less, Nat.compare_eq_lt.mpr (by omega)]
    · rw [Nat.compare_eq_eq.mpr rfl, Nat.compare_eq_eq.mpr rfl]
    · rw [Nat.compare_eq_gt.mpr greater, Nat.compare_eq_gt.mpr (by omega)]
  · rw [Nat.compare_eq_gt.mpr greater, Nat.compare_eq_gt.mpr (by omega)]
    rfl

/-- Behind numbers that are read already, as many digits compare by the first difference. -/
theorem compare_natOfDigits {as bs : List Char} (ha : ∀ c ∈ as, c.isDigit)
    (hb : ∀ c ∈ bs, c.isDigit) (length : as.length = bs.length) (x y : Nat) :
    compare (natOfDigits x as) (natOfDigits y bs) = (compare x y).then (compare as bs) := by
  induction as generalizing bs x y with
  | nil =>
    obtain rfl := List.eq_nil_of_length_eq_zero length.symm
    show compare x y = (compare x y).then .eq
    rw [Ordering.then_eq]
  | cons a as ih =>
    cases bs with
    | nil => cases length
    | cons b bs =>
      have smallA := digitValue_lt (ha a List.mem_cons_self)
      have smallB := digitValue_lt (hb b List.mem_cons_self)
      rw [natOfDigits_cons, natOfDigits_cons,
        ih (fun c among => ha c (List.mem_cons_of_mem a among))
          (fun c among => hb c (List.mem_cons_of_mem b among)) (Nat.succ.inj length),
        compare_mul_add smallA smallB, List.compare_cons_cons,
        compare_digit (ha a List.mem_cons_self) (hb b List.mem_cons_self), Ordering.then_assoc]

/-- The digits of two numbers compare as the numbers do. -/
theorem compareMagnitudes_toDigits (m n : Nat) :
    compareMagnitudes (Nat.toDigits 10 m) (Nat.toDigits 10 n) = compare m n := by
  have digitsM (c : Char) (among : c ∈ Nat.toDigits 10 m) := isDigit_of_mem_toDigits among
  have digitsN (c : Char) (among : c ∈ Nat.toDigits 10 n) := isDigit_of_mem_toDigits among
  -- without zeros in front, more digits mean a greater number
  have longer (x y : Nat) (h : (Nat.toDigits 10 x).length < (Nat.toDigits 10 y).length) :
      x < y := by
    have below := (Nat.length_toDigits_le_iff (b := 10) (by decide) Nat.length_toDigits_pos).mp
      (Nat.le_refl (Nat.toDigits 10 x).length)
    have above := mt (Nat.length_toDigits_le_iff (b := 10) (n := y) (by decide)
      (Nat.length_toDigits_pos (b := 10) (n := x))).mpr (Nat.not_le.mpr h)
    omega
  rw [compareMagnitudes, utf8Size_of_digits digitsM, utf8Size_of_digits digitsN]
  rcases Nat.lt_trichotomy (Nat.toDigits 10 m).length (Nat.toDigits 10 n).length with
    less | same | greater
  · rw [Nat.compare_eq_lt.mpr less, Nat.compare_eq_lt.mpr (longer m n less)]
    rfl
  · have order := compare_natOfDigits digitsM digitsN same 0 0
    rw [natOfDigits_toDigits, natOfDigits_toDigits] at order
    rw [Nat.compare_eq_eq.mpr same, Ordering.eq_then, order]
    rfl
  · rw [Nat.compare_eq_gt.mpr greater, Nat.compare_eq_gt.mpr (longer n m greater)]
    rfl

theorem compareMagnitudes_swap (a b : List Char) :
    compareMagnitudes b a = (compareMagnitudes a b).swap := by
  rw [compareMagnitudes, compareMagnitudes, Ordering.swap_then, ← Std.OrientedCmp.eq_swap,
    ← Std.OrientedCmp.eq_swap]

/-- The order of two texts, which need not be digits, is reversed with them. -/
theorem compareDigits_swap (a b : List Char) : compareDigits b a = (compareDigits a b).swap := by
  fun_cases compareDigits a b with
  | case1 a b => exact compareMagnitudes_swap b a
  | case2 a b plain =>
    rw [compareDigits]
    · rfl
    · exact plain
  | case3 a b plain =>
    rw [compareDigits]
    · rfl
    · exact plain
  | case4 a b _ plainA plainB =>
    rw [compareDigits]
    · exact compareMagnitudes_swap a b
    · exact plainB
    · exact plainA
    · exact fun rest _ signed _ => plainB rest signed

/-- The texts of two integers compare as the integers do. -/
theorem compareDigits_toString (v w : Int) :
    compareDigits (toString v).toList (toString w).toList = compare v w := by
  have digitsV (c : Char) (among : c ∈ Nat.toDigits 10 v.natAbs) := isDigit_of_mem_toDigits among
  have digitsW (c : Char) (among : c ∈ Nat.toDigits 10 w.natAbs) := isDigit_of_mem_toDigits among
  rw [toList_toString, toList_toString]
  by_cases negativeV : v < 0
  · rw [if_pos negativeV]
    by_cases negativeW : w < 0
    · rw [if_pos negativeW, compareDigits, compareMagnitudes_toDigits]
      rcases Int.lt_trichotomy v w with less | rfl | greater
      · rw [Int.compare_eq_lt.mpr less, Nat.compare_eq_lt.mpr (by omega)]
      · rw [Int.compare_eq_eq.mpr rfl, Nat.compare_eq_eq.mpr rfl]
      · rw [Int.compare_eq_gt.mpr greater, Nat.compare_eq_gt.mpr (by omega)]
    · rw [if_neg negativeW, Int.compare_eq_lt.mpr (by omega), compareDigits]
      intro rest same
      exact absurd same (head_of_digits digitsW (by decide))
  · rw [if_neg negativeV]
    by_cases negativeW : w < 0
    · rw [if_pos negativeW, Int.compare_eq_gt.mpr (by omega), compareDigits]
      intro rest same
      exact absurd same (head_of_digits digitsV (by decide))
    · rw [if_neg negativeW, compareDigits]
      · rw [compareMagnitudes_toDigits]
        rcases Int.lt_trichotomy v w with less | rfl | greater
        · rw [Int.compare_eq_lt.mpr less, Nat.compare_eq_lt.mpr (by omega)]
        · rw [Int.compare_eq_eq.mpr rfl, Nat.compare_eq_eq.mpr rfl]
        · rw [Int.compare_eq_gt.mpr greater, Nat.compare_eq_gt.mpr (by omega)]
      · intro rest same
        exact absurd same (head_of_digits digitsV (by decide))
      · intro rest same
        exact absurd same (head_of_digits digitsW (by decide))
      · intro rest _ same
        exact absurd same (head_of_digits digitsV (by decide))

end Text

namespace Binary64

/-- A text of digits is read as the float nearest to the number that they denote. -/
theorem ofText?_toString (value : Int) : ofText? (toString value).toList = some (ofInt value) := by
  have digits : ∀ c ∈ Nat.toDigits 10 value.natAbs, c.isDigit :=
    fun c among => Text.isDigit_of_mem_toDigits among
  have sign : signOf (toString value).toList =
      (decide (value < 0), Nat.toDigits 10 value.natAbs) := by
    rw [Text.toList_toString]
    by_cases negative : value < 0
    · rw [if_pos negative, signOf, decide_eq_true negative]
    · rw [if_neg negative, signOf.eq_def, decide_eq_false negative]
      split
      · next same => exact absurd same (Text.head_of_digits digits (by decide))
      · next same => exact absurd same (Text.head_of_digits digits (by decide))
      · rfl
  have point : splitPoint (Nat.toDigits 10 value.natAbs) =
      (Nat.toDigits 10 value.natAbs, [], []) := by
    rw [splitPoint, List.takeWhile_eq_self_iff.mpr digits, List.dropWhile_eq_nil_iff.mpr digits]
  unfold ofText?
  rw [sign]
  dsimp only
  rw [point]
  dsimp only
  rw [List.append_nil, if_neg Nat.toDigits_ne_nil, exponentOf?, Text.natOfDigits_toDigits]
  have range :
      max (-(((Nat.toDigits 10 value.natAbs).length + 400 : Nat) : Int)) (min 0 400) = 0 := by
    omega
  show some (ofDecimal _ _ _ 0) = _
  rw [ofDecimal, range]
  show some (ofRatio _ (value.natAbs * 1) 1) = _
  rw [Nat.mul_one, ofInt]

end Binary64
end PrologWire
