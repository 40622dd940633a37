import PrologWire.Numeric.Binary64
import Mathlib.Algebra.Group.Nat.Defs

/-!
# Rounding keeps the order

The float nearest to a greater number is no smaller. Within one power of two the significands are
quotients by the same divisor, and from one power of two to the next the exponent makes up for the
significand.
-/

namespace PrologWire.Binary64

/-! ## Quotients -/

/-- A quotient is rounded to one of the two whole numbers next to it. -/
theorem roundDiv_cases (num den : Nat) :
    roundDiv num den = num / den ∨ roundDiv num den = num / den + 1 := by
  unfold roundDiv
  dsimp only
  split
  · exact .inl rfl
  · split
    · exact .inr rfl
    · split
      · exact .inl rfl
      · exact .inr rfl

/-- A greater number has no smaller rounded quotient. -/
theorem roundDiv_le_roundDiv {m n : Nat} (den : Nat) (h : m ≤ n) :
    roundDiv m den ≤ roundDiv n den := by
  have quotients : m / den ≤ n / den := Nat.div_le_div_right h
  rcases Nat.lt_or_eq_of_le quotients with less | same
  · have := roundDiv_cases m den
    have := roundDiv_cases n den
    omega
  · -- with the same quotient the remainders decide
    have first := Nat.div_add_mod m den
    have second := Nat.div_add_mod n den
    rw [same] at first
    have remainders : m % den ≤ n % den := by omega
    unfold roundDiv
    rw [same]
    dsimp only
    repeat' split
    all_goals omega

/-- A number below a multiple of the divisor has at most that multiple as its rounded quotient. -/
theorem roundDiv_le_of_lt {num den k : Nat} (h : num < k * den) : roundDiv num den ≤ k := by
  have below : num / den < k := Nat.div_lt_of_lt_mul (Nat.mul_comm k den ▸ h)
  have := roundDiv_cases num den
  omega

/-- From a multiple of the divisor on, the rounded quotient is at least that multiple. -/
theorem le_roundDiv_of_le {num den k : Nat} (pos : 0 < den) (h : k * den ≤ num) :
    k ≤ roundDiv num den := by
  have above : k ≤ num / den := (Nat.le_div_iff_mul_le pos).mpr h
  have := roundDiv_cases num den
  omega

/-! ## Words -/

/-- The places of a number behind its 53 leading bits. -/
def dropped (units : Nat) : Nat := units.log2 + 1 - 53

/-- The 53 leading bits of a number are less than the double of the leading bit. -/
theorem lt_of_dropped (units : Nat) : units < 2 * leadingBit * 2 ^ dropped units := by
  have bits : units < 2 ^ (units.log2 + 1) := Nat.lt_log2_self
  have more : 2 ^ (units.log2 + 1) ≤ 2 ^ (53 + dropped units) :=
    Nat.pow_le_pow_right (by decide) (by unfold dropped; omega)
  rw [Nat.pow_add 2 53] at more
  have lead : 2 * leadingBit = 2 ^ 53 := by decide
  rw [lead]
  exact Nat.lt_of_lt_of_le bits more

/-- The 53 leading bits of a number that has more are at least the leading bit. -/
theorem le_of_dropped {units : Nat} (some : 0 < dropped units) :
    leadingBit * 2 ^ dropped units ≤ units := by
  have nonzero : units ≠ 0 := by
    rintro rfl
    exact absurd some (by decide)
  have bits : 2 ^ units.log2 ≤ units := Nat.log2_self_le nonzero
  have split : units.log2 = 52 + dropped units := by
    unfold dropped at some ⊢
    omega
  rw [split, Nat.pow_add 2 52] at bits
  have lead : leadingBit = 2 ^ 52 := by decide
  rw [lead]
  exact bits

/-- More units have at least as many places behind the leading bits. -/
theorem dropped_le_dropped {m n : Nat} (h : m ≤ n) : dropped m ≤ dropped n := by
  by_cases zero : m = 0
  · subst zero
    exact Nat.zero_le _
  · have bits : m.log2 ≤ n.log2 :=
      (Nat.le_log2 (by omega)).mpr (Nat.le_trans (Nat.log2_self_le zero) h)
    unfold dropped
    omega

/-- The places behind the leading bits, and the quotient of the leading bits rounded. -/
def rounded (units den : Nat) : Nat :=
  dropped (units / den) * leadingBit + roundDiv units (den <<< dropped (units / den))

theorem nearestWord_eq (num den : Nat) :
    nearestWord num den = min (rounded (num * unitsInOne) den) infinityWord := rfl

theorem rounded_le_rounded {x y den : Nat} (pos : 0 < den) (h : x ≤ y) :
    rounded x den ≤ rounded y den := by
  unfold rounded
  have places := dropped_le_dropped (Nat.div_le_div_right (c := den) h)
  rcases Nat.lt_or_eq_of_le places with less | same
  · have low : x < 2 * leadingBit * (den <<< dropped (x / den)) := by
      have whole := (Nat.div_lt_iff_lt_mul pos).mp (lt_of_dropped (x / den))
      rwa [Nat.shiftLeft_eq, Nat.mul_comm den, ← Nat.mul_assoc]
    have high : leadingBit * (den <<< dropped (y / den)) ≤ y := by
      have whole := (Nat.le_div_iff_mul_le pos).mp (le_of_dropped (Nat.zero_lt_of_lt less))
      rwa [Nat.shiftLeft_eq, Nat.mul_comm den, ← Nat.mul_assoc]
    have shifted : 0 < den <<< dropped (y / den) := by
      rw [Nat.shiftLeft_eq]
      exact Nat.mul_pos pos (Nat.pow_pos (by decide))
    have left := roundDiv_le_of_lt low
    have right := le_roundDiv_of_le shifted high
    have step : (dropped (x / den) + 1) * leadingBit ≤ dropped (y / den) * leadingBit :=
      Nat.mul_le_mul_right _ less
    rw [Nat.add_mul, Nat.one_mul] at step
    omega
  · rw [same]
    exact Nat.add_le_add_left (roundDiv_le_roundDiv _ h) _

/-- A greater quotient has no smaller word. -/
theorem nearestWord_le_nearestWord {m n den : Nat} (pos : 0 < den) (h : m ≤ n) :
    nearestWord m den ≤ nearestWord n den := by
  have words := rounded_le_rounded pos (Nat.mul_le_mul_right unitsInOne h)
  rw [nearestWord_eq, nearestWord_eq]
  omega

theorem nearestWord_le (num den : Nat) : nearestWord num den ≤ infinityWord := Nat.min_le_right _ _

/-! ## Ranks -/

/-- A float is known by its rank. -/
theorem rank_inj {x y : Binary64} : x.rank = y.rank ↔ x = y := by
  constructor
  · intro h
    have smallX := x.bits.toNat_lt
    have smallY := y.bits.toNat_lt
    suffices words : x.bits.toNat = y.bits.toNat by
      cases x
      cases y
      exact congrArg Binary64.mk (UInt64.toNat_inj.mp words)
    unfold rank isNegative unsignedWord signBit at h
    simp only [decide_eq_true_eq] at h
    split at h <;> split at h <;> omega
  · rintro rfl
    rfl

/-- The rank of a number is its word, or the negation of the word below it. -/
theorem rank_ofSignWord (negative : Bool) {word : Nat} (h : word ≤ infinityWord) :
    (ofSignWord negative word).rank = if negative then -(word : Int) - 1 else word := by
  have small : word < signBit := Nat.lt_of_le_of_lt h (by decide)
  unfold signBit at small
  cases negative with
  | true =>
    have bits : (UInt64.ofNat (signBit + word)).toNat = signBit + word :=
      UInt64.toNat_ofNat_of_lt' (by show _ < 18446744073709551616; unfold signBit; omega)
    simp only [ofSignWord, rank, isNegative, unsignedWord, if_true, bits, decide_eq_true_eq]
    unfold signBit
    split <;> omega
  | false =>
    have bits : (UInt64.ofNat word).toNat = word :=
      UInt64.toNat_ofNat_of_lt' (by show _ < 18446744073709551616; omega)
    simp only [ofSignWord, rank, isNegative, unsignedWord, Bool.false_eq_true, if_false, bits,
      decide_eq_true_eq]
    unfold signBit
    split <;> omega

/-- The float nearest to a greater integer does not come before. -/
theorem rank_ofInt_le_rank_ofInt {v w : Int} (h : v ≤ w) : (ofInt v).rank ≤ (ofInt w).rank := by
  unfold ofInt ofRatio
  rw [rank_ofSignWord _ (nearestWord_le _ _), rank_ofSignWord _ (nearestWord_le _ _)]
  simp only [decide_eq_true_eq]
  by_cases negative : w < 0
  · rw [if_pos (by omega), if_pos negative]
    have := nearestWord_le_nearestWord (m := w.natAbs) (n := v.natAbs) Nat.one_pos (by omega)
    omega
  · rw [if_neg negative]
    by_cases below : v < 0
    · rw [if_pos below]
      omega
    · rw [if_neg below]
      have := nearestWord_le_nearestWord (m := v.natAbs) (n := w.natAbs) Nat.one_pos (by omega)
      omega

end PrologWire.Binary64
