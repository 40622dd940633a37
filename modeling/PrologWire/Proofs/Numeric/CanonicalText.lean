import Mathlib.Algebra.Group.Int.Defs
import Mathlib.Algebra.Group.Nat.Defs
import Mathlib.Data.List.Induction
import PrologWire.Proofs.Numeric.Decimal

/-!
# One decimal text for each integer

A canonical text has no zeros in front of other digits, no plus sign, and no minus sign before zero. Every
integer has exactly one, which is the text that an arena keeps of it if it is big, and any two of them compare
as their integers do, however long they are.
-/

namespace PrologWire.Text

/-- Digits without a zero in front of others, and the number that they denote. -/
structure IsPlainMagnitude (cs : List Char) (n : Nat) : Prop where
  digits : ∀ c ∈ cs, c.isDigit
  filled : cs ≠ []
  first : ∀ rest, cs = '0' :: rest → rest = []
  value : natOfDigits 0 cs = n

/-- The digits of the magnitude, behind a minus sign if the integer is negative. -/
inductive IsCanonical : List Char → Int → Prop where
  | natural {cs : List Char} {n : Nat} : IsPlainMagnitude cs n → IsCanonical cs n
  | negative {cs : List Char} {n : Nat} : IsPlainMagnitude cs n → n ≠ 0 → IsCanonical ('-' :: cs) (-n)

/-! ## Magnitudes -/

/-- A number with one more digit has the digits before it and this one. -/
theorem toDigits_mul_add {n d : Nat} (positive : n ≠ 0) (small : d < 10) :
    Nat.toDigits 10 (10 * n + d) = Nat.toDigits 10 n ++ [d.digitChar] := by
  rw [← Nat.toDigits_append_toDigits (by decide) (Nat.pos_of_ne_zero positive) small,
    Nat.toDigits_of_lt_base small]

theorem digitChar_digitValue {c : Char} (digit : c.isDigit) : (digitValue c).digitChar = c := by
  have range := Char.isDigit_iff_toNat.mp digit
  have first : 48 ≤ c.toNat := range.1
  rw [← Char.toNat_inj, Nat.toNat_digitChar_of_lt_ten (digitValue_lt digit)]
  show 48 + (c.toNat - 48) = c.toNat
  omega

/-- No other digits than those of a number denote it without a zero in front. -/
theorem IsPlainMagnitude.eq_toDigits {cs : List Char} {n : Nat} (h : IsPlainMagnitude cs n) :
    cs = Nat.toDigits 10 n := by
  obtain ⟨digits, filled, first, rfl⟩ := h
  induction cs using List.reverseRecOn with
  | nil => exact absurd rfl filled
  | append_singleton cs c ih =>
    have digit : c.isDigit := digits c List.mem_concat_self
    have value : natOfDigits 0 (cs ++ [c]) = 10 * natOfDigits 0 cs + digitValue c :=
      natOfDigits_append 0 cs [c]
    rw [value]
    by_cases one : cs = []
    · subst one
      have single : 10 * natOfDigits 0 [] + digitValue c = digitValue c := Nat.zero_add _
      rw [single, Nat.toDigits_of_lt_base (digitValue_lt digit), digitChar_digitValue digit]
      rfl
    · have front : cs = Nat.toDigits 10 (natOfDigits 0 cs) := by
        refine ih (fun d among => digits d (List.mem_append_left [c] among)) one ?_
        rintro rest rfl
        have nothing := first (rest ++ [c]) rfl
        exact absurd (List.append_eq_nil_iff.mp nothing).2 (List.cons_ne_nil c [])
      -- the digits in front denote zero only if they are a zero, and none stands in front
      have positive : natOfDigits 0 cs ≠ 0 := by
        intro zero
        rw [zero, Nat.toDigits_zero] at front
        rw [front] at first
        cases first [c] rfl
      rw [toDigits_mul_add positive (digitValue_lt digit), digitChar_digitValue digit, ← front]

theorem isPlainMagnitude_toDigits (n : Nat) : IsPlainMagnitude (Nat.toDigits 10 n) n where
  digits _ among := isDigit_of_mem_toDigits among
  filled := Nat.toDigits_ne_nil
  first := by
    induction n using Nat.strongRecOn with
    | ind n ih =>
      intro rest same
      by_cases small : n < 10
      · rw [Nat.toDigits_of_lt_base small] at same
        exact (List.cons.inj same).2.symm
      · -- a zero in front would be in front of the digits of the quotient, which are not a zero alone
        have positive : n / 10 ≠ 0 := by omega
        have digits := toDigits_mul_add positive (Nat.mod_lt n (by decide))
        rw [Nat.div_add_mod] at digits
        have filled : Nat.toDigits 10 (n / 10) ≠ [] := Nat.toDigits_ne_nil
        obtain ⟨c, others, front⟩ := List.exists_cons_of_ne_nil filled
        rw [digits, front, List.cons_append] at same
        obtain ⟨rfl, -⟩ := List.cons.inj same
        obtain rfl := ih (n / 10) (by omega) others front
        have zero := natOfDigits_toDigits (n / 10)
        rw [front] at zero
        exact absurd zero.symm positive
  value := natOfDigits_toDigits n

/-! ## Integers -/

/-- The canonical text of an integer is its text. -/
theorem isCanonical_iff {cs : List Char} {value : Int} :
    IsCanonical cs value ↔ cs = (toString value).toList := by
  rw [toList_toString]
  constructor
  · rintro (magnitude | ⟨magnitude, positive⟩)
    · rw [if_neg (by omega), Int.natAbs_natCast]
      exact magnitude.eq_toDigits
    · rw [if_pos (by omega), Int.natAbs_neg, Int.natAbs_natCast, ← magnitude.eq_toDigits]
  · rintro rfl
    have magnitude := isPlainMagnitude_toDigits value.natAbs
    by_cases negative : value < 0
    · have canonical := IsCanonical.negative magnitude (by omega)
      rw [Int.ofNat_natAbs_of_nonpos (by omega), Int.neg_neg] at canonical
      rwa [if_pos negative]
    · have canonical := IsCanonical.natural magnitude
      rw [Int.natAbs_of_nonneg (by omega)] at canonical
      rwa [if_neg negative]

/-- Two canonical texts, of integers of any size and sign, compare as the integers do. -/
theorem compareDigits_eq_compare {s t : List Char} {v w : Int} (left : IsCanonical s v)
    (right : IsCanonical t w) : compareDigits s t = compare v w := by
  rw [isCanonical_iff.mp left, isCanonical_iff.mp right, compareDigits_toString]

/-- Of two negative integers beyond 64 bits the one with more digits comes first. -/
theorem compareDigits_eq_compare_negative :
    IsCanonical "-100000000000000000000".toList (-100000000000000000000) ∧
      IsCanonical "-99999999999999999999".toList (-99999999999999999999) ∧
      compareDigits "-100000000000000000000".toList "-99999999999999999999".toList = .lt := by
  have left : IsCanonical "-100000000000000000000".toList (-100000000000000000000) :=
    isCanonical_iff.mpr (by decide +kernel)
  have right : IsCanonical "-99999999999999999999".toList (-99999999999999999999) :=
    isCanonical_iff.mpr (by decide +kernel)
  exact ⟨left, right, (compareDigits_eq_compare left right).trans (by decide)⟩

end PrologWire.Text
