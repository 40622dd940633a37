import Mathlib.Algebra.Order.Field.Power
import Mathlib.Data.Rat.Cast.Order
import Mathlib.Tactic.FieldSimp
import Mathlib.Tactic.Linarith
import Mathlib.Tactic.Ring
import PrologWire.Numeric.Shortest

/-!
# Shortest digits tell floats apart

Every number rounds to one float only, and the shortest digits of a float are a number that rounds to it: on
a grid of seventeen digits one of the two neighbours of the float does, because the grid is finer than the
floats are there. So floats with shortest digits of the same value are the same up to sign.
-/

namespace PrologWire

namespace Binary64

/-! ## The numbers that round to a float -/

/-- The number, in units of `2 ^ -1076`, rounds to the absolute value of the float. -/
def Rounds (x : Binary64) (q : ℚ) : Prop :=
  if x.significand % 2 = 0 then (x.lowerMidpoint : ℚ) ≤ q ∧ q ≤ x.upperMidpoint
  else (x.lowerMidpoint : ℚ) < q ∧ q < x.upperMidpoint

theorem covers_iff_rounds (x : Binary64) {num den : Nat} (pos : 0 < den) :
    x.covers num den = true ↔ x.Rounds (num / den) := by
  have positive : (0 : ℚ) < den := Nat.cast_pos.mpr pos
  unfold covers Rounds
  split
  · rw [Bool.and_eq_true, decide_eq_true_eq, decide_eq_true_eq, le_div_iff₀ positive,
      div_le_iff₀ positive]
    norm_cast
  · rw [Bool.and_eq_true, decide_eq_true_eq, decide_eq_true_eq, lt_div_iff₀ positive,
      div_lt_iff₀ positive]
    norm_cast

namespace Rounds

variable {x y : Binary64} {q : ℚ}

theorem lower_le (h : x.Rounds q) : (x.lowerMidpoint : ℚ) ≤ q := by
  unfold Rounds at h
  split at h
  · exact h.1
  · exact le_of_lt h.1

theorem le_upper (h : x.Rounds q) : q ≤ x.upperMidpoint := by
  unfold Rounds at h
  split at h
  · exact h.2
  · exact le_of_lt h.2

/-- A midpoint rounds to the even neighbour. -/
theorem even_of_eq_upper (h : x.Rounds q) (at_end : q = x.upperMidpoint) : x.significand % 2 = 0 := by
  unfold Rounds at h
  split at h
  · assumption
  · exact absurd at_end (ne_of_lt h.2)

theorem even_of_eq_lower (h : x.Rounds q) (at_end : q = x.lowerMidpoint) : x.significand % 2 = 0 := by
  unfold Rounds at h
  split at h
  · assumption
  · exact absurd at_end (ne_of_gt h.1)

end Rounds

/-! ## Midpoints -/

/-- The midpoint between the floats of a word and of the next one. -/
def midpoint (word : Nat) : Nat :=
  (4 * (if word / leadingBit = 0 then word % leadingBit else leadingBit + word % leadingBit) + 2) *
    2 ^ (word / leadingBit - 1)

theorem upperMidpoint_eq (x : Binary64) : x.upperMidpoint = midpoint x.unsignedWord := by
  rw [upperMidpoint, center, magnitude, Nat.shiftLeft_eq, Nat.shiftLeft_eq, ← Nat.mul_assoc,
    ← Nat.add_mul]
  rfl

/-- The next word has a greater fraction, or the fraction zero and a greater exponent. -/
theorem fields_succ (word : Nat) :
    ((word + 1) / leadingBit = word / leadingBit ∧ (word + 1) % leadingBit = word % leadingBit + 1) ∨
      ((word + 1) / leadingBit = word / leadingBit + 1 ∧ (word + 1) % leadingBit = 0 ∧
        word % leadingBit + 1 = leadingBit) := by
  unfold leadingBit
  omega

/-- The midpoint below a float is the one above the float before. -/
theorem lowerMidpoint_eq {x : Binary64} {word : Nat} (next : x.unsignedWord = word + 1) :
    x.lowerMidpoint = midpoint word := by
  unfold lowerMidpoint center magnitude significand scale fraction exponentField midpoint
  rw [next, Nat.shiftLeft_eq, Nat.shiftLeft_eq, ← Nat.mul_assoc, ← Nat.sub_mul]
  obtain ⟨sameExponent, fraction⟩ | ⟨exponent, fraction, full⟩ := fields_succ word
  · rw [sameExponent, fraction, if_neg (c := word % leadingBit + 1 = 0 ∧ _) (fun h => absurd h.1 (by omega))]
    congr 1
    split <;> omega
  · rw [exponent, fraction, if_neg (Nat.succ_ne_zero _)]
    by_cases small : word / leadingBit = 0
    · rw [if_neg (by omega), if_pos small, small]
      omega
    · obtain ⟨e, more⟩ := Nat.exists_eq_succ_of_ne_zero small
      rw [if_pos (by omega), if_neg small, more, Nat.succ_eq_add_one, Nat.add_sub_cancel,
        Nat.add_sub_cancel, Nat.pow_succ]
      have double : 4 * (leadingBit + 0) * 2 - 1 * 2 = 4 * (leadingBit + word % leadingBit) + 2 := by
        omega
      rw [← double, Nat.mul_comm (2 ^ e) 2, ← Nat.mul_assoc, Nat.sub_mul]

theorem midpoint_lt_succ (word : Nat) : midpoint word < midpoint (word + 1) := by
  unfold midpoint
  have positive (e : Nat) : 0 < 2 ^ e := Nat.two_pow_pos e
  obtain ⟨exponent, fraction⟩ | ⟨exponent, fraction, full⟩ := fields_succ word
  · rw [exponent, fraction]
    refine Nat.mul_lt_mul_of_pos_right ?_ (positive _)
    split <;> omega
  · rw [exponent, fraction, if_neg (Nat.succ_ne_zero _)]
    have powers : 2 ^ (word / leadingBit - 1) ≤ 2 ^ (word / leadingBit + 1 - 1) :=
      Nat.pow_le_pow_right (by decide) (by omega)
    by_cases small : word / leadingBit = 0
    · rw [if_pos small, small]
      omega
    · obtain ⟨e, more⟩ := Nat.exists_eq_succ_of_ne_zero small
      rw [if_neg small, more, Nat.succ_eq_add_one, Nat.add_sub_cancel, Nat.add_sub_cancel, Nat.pow_succ,
        Nat.mul_comm (2 ^ e) 2, ← Nat.mul_assoc]
      exact Nat.mul_lt_mul_of_pos_right (by omega) (positive e)

theorem strictMono_midpoint : StrictMono midpoint := strictMono_nat_of_lt_succ midpoint_lt_succ

/-- The last bit of the significand is that of the word. -/
theorem significand_mod_two (x : Binary64) : x.significand % 2 = x.unsignedWord % 2 := by
  unfold significand fraction exponentField leadingBit
  split <;> omega

/-- A number does not round to two floats, the first of which is smaller. -/
theorem not_rounds_of_lt {x y : Binary64} {q : ℚ} (less : x.unsignedWord < y.unsignedWord)
    (left : x.Rounds q) (right : y.Rounds q) : False := by
  obtain ⟨word, next⟩ := Nat.exists_eq_succ_of_ne_zero (Nat.ne_of_gt (Nat.zero_lt_of_lt less))
  have below := right.lower_le
  have above := left.le_upper
  rw [lowerMidpoint_eq next] at below
  rw [upperMidpoint_eq] at above
  have order : midpoint x.unsignedWord ≤ midpoint word := strictMono_midpoint.monotone (by omega)
  have rational : (midpoint x.unsignedWord : ℚ) ≤ midpoint word := Nat.cast_le.mpr order
  -- so the number is the midpoint between neighbours, of which only one is even
  have ends : (midpoint word : ℚ) = midpoint x.unsignedWord := by linarith
  have neighbours : word = x.unsignedWord := strictMono_midpoint.injective (Nat.cast_injective ends)
  have evenX := left.even_of_eq_upper (by rw [upperMidpoint_eq]; linarith)
  have evenY := right.even_of_eq_lower (by rw [lowerMidpoint_eq next]; linarith)
  rw [significand_mod_two] at evenX evenY
  omega

/-- A number rounds to one float, up to the sign. -/
theorem unsignedWord_eq_of_rounds {x y : Binary64} {q : ℚ} (left : x.Rounds q) (right : y.Rounds q) :
    x.unsignedWord = y.unsignedWord := by
  rcases Nat.lt_trichotomy x.unsignedWord y.unsignedWord with less | same | greater
  · exact (not_rounds_of_lt less left right).elim
  · exact same
  · exact (not_rounds_of_lt greater right left).elim

/-! ## Grids -/

end Binary64

/-- The number that a decimal is, in units of `2 ^ -1076`. -/
def Decimal.units (d : Decimal) : ℚ := d.digits * 10 ^ d.exponent * Binary64.quartersInOne

/-- Taking zeros from the end of the digits does not change the number. -/
theorem Decimal.units_stripZeros (d : Decimal) (fuel : Nat) : (d.stripZeros fuel).units = d.units := by
  induction fuel generalizing d with
  | zero => rfl
  | succ fuel ih =>
    rw [stripZeros]
    split
    · next zero =>
      obtain ⟨tenth, same⟩ := Nat.dvd_of_mod_eq_zero zero.2
      rw [ih, units, units, same, Nat.mul_div_cancel_left tenth (by decide),
        zpow_add_one₀ (by norm_num)]
      push_cast
      ring
    · rfl

namespace Binary64

theorem quartersInOne_pos : 0 < quartersInOne := by decide

/-- One step of a grid as a quotient of whole numbers. -/
theorem step_eq_div (exponent : Int) :
    (10 : ℚ) ^ exponent * quartersInOne =
      ((Nat.pow 10 exponent.toNat * quartersInOne : Nat) : ℚ) / (Nat.pow 10 (-exponent).toNat : Nat) := by
  obtain ⟨n, rfl | rfl⟩ := Int.eq_nat_or_neg exponent
  · have none : (-(n : Int)).toNat = 0 := by omega
    rw [none, Int.toNat_natCast, zpow_natCast]
    push_cast
    simp
  · have none : (-(n : Int)).toNat = 0 := by omega
    rw [none, neg_neg, Int.toNat_natCast, zpow_neg, zpow_natCast]
    push_cast
    rw [zero_add, one_mul, inv_mul_eq_div, Nat.pow_eq, Nat.cast_pow, Nat.cast_ofNat]

/-- What is found on a grid rounds to the float. -/
theorem rounds_of_onGrid? {tie : TieRule} {x : Binary64} {exponent : Int} {digits : Nat}
    (found : x.onGrid? tie exponent = some digits) : x.Rounds (⟨digits, exponent⟩ : Decimal).units := by
  have covered {n : Nat}
      (h : x.covers (n * (Nat.pow 10 exponent.toNat * quartersInOne)) (Nat.pow 10 (-exponent).toNat)) :
      x.Rounds (⟨n, exponent⟩ : Decimal).units := by
    have positive : 0 < Nat.pow 10 (-exponent).toNat := Nat.pow_pos (by decide)
    rw [covers_iff_rounds x positive, Nat.cast_mul, mul_div_assoc, ← step_eq_div,
      ← mul_assoc] at h
    exact h
  unfold onGrid? at found
  dsimp only at found
  split at found
  · next both =>
    rw [Bool.and_eq_true] at both
    -- both neighbours round to the float, and one of them is taken
    split at found
    · exact Option.some.inj found ▸ covered both.1
    · split at found
      · exact Option.some.inj found ▸ covered both.2
      · cases tie with
        | toEven =>
          dsimp only at found
          rw [← Option.some.inj found]
          split
          · exact covered both.1
          · exact covered both.2
        | upward => exact Option.some.inj found ▸ covered both.2
  · split at found
    · next lower => exact Option.some.inj found ▸ covered lower
    · split at found
      · next upper => exact Option.some.inj found ▸ covered upper
      · cases found

/-- A float is in the middle between its midpoints, or at two thirds of the way if its significand is the
leading bit alone. -/
theorem midpoints_cases (x : Binary64) (nonzero : x.unsignedWord ≠ 0) : ∃ unit : Nat, 0 < unit ∧
    x.center = 4 * x.significand * unit ∧ x.upperMidpoint = x.center + 2 * unit ∧
      ((x.lowerMidpoint + 2 * unit = x.center ∧ x.significand < 2 ^ 53) ∨
        (x.lowerMidpoint + unit = x.center ∧ x.significand = 2 ^ 52)) := by
  have lead : leadingBit = 2 ^ 52 := by decide
  have unit : 0 < 2 ^ x.scale := Nat.two_pow_pos _
  have center : x.center = 4 * x.significand * 2 ^ x.scale := by
    rw [center, magnitude, Nat.shiftLeft_eq, Nat.mul_assoc]
  have positive : 0 < x.significand := by
    unfold significand fraction exponentField
    split
    · next small =>
      unfold leadingBit at small ⊢
      omega
    · exact Nat.add_pos_left (by decide) _
  have more : 4 * 2 ^ x.scale ≤ x.center := by
    rw [center]
    exact Nat.mul_le_mul_right _ (by omega)
  refine ⟨2 ^ x.scale, unit, center, by rw [upperMidpoint, Nat.shiftLeft_eq], ?_⟩
  rw [lowerMidpoint, Nat.shiftLeft_eq]
  split
  · next power =>
    right
    refine ⟨by omega, ?_⟩
    rw [significand, if_neg (by omega), power.1, lead, Nat.add_zero]
  · left
    refine ⟨by omega, ?_⟩
    have below : x.fraction < leadingBit := Nat.mod_lt _ (by decide)
    unfold significand
    split <;> omega

/-- Whatever is between the midpoints is covered. -/
theorem covers_of_lt {x : Binary64} {num den : Nat} (low : x.lowerMidpoint * den < num)
    (high : num < x.upperMidpoint * den) : x.covers num den = true := by
  unfold covers
  split <;> simp only [Bool.and_eq_true, decide_eq_true_eq] <;> omega

/-- If nothing is found on a grid, neither neighbour of the float rounds to it. -/
theorem not_covers_of_onGrid?_eq_none {tie : TieRule} {x : Binary64} {exponent : Int} {up down : Nat}
    (up_eq : up = Nat.pow 10 exponent.toNat * quartersInOne) (down_eq : down = Nat.pow 10 (-exponent).toNat)
    (none : x.onGrid? tie exponent = none) :
    ¬x.covers (x.center * down / up * up) down ∧ ¬x.covers ((x.center * down / up + 1) * up) down := by
  unfold onGrid? at none
  dsimp only at none
  rw [← up_eq, ← down_eq] at none
  constructor
  · intro lower
    rw [lower] at none
    split at none
    · repeat' split at none
      all_goals cases none
    · cases none
  · intro upper
    rw [upper] at none
    repeat' split at none
    all_goals first
      | cases none; done
      | exact absurd rfl ‹¬true = true›

/-- On a grid that is fine enough one of the neighbours of the float rounds to it. -/
theorem onGrid?_ne_none {tie : TieRule} {x : Binary64} {exponent : Int} (nonzero : x.unsignedWord ≠ 0)
    (fine : (10 : ℚ) ^ (exponent + 16) * quartersInOne ≤ x.center) :
    x.onGrid? tie exponent ≠ none := by
  obtain ⟨unit, positive, center, upper, lower⟩ := x.midpoints_cases nonzero
  intro none
  obtain ⟨up, up_eq⟩ : ∃ up, up = Nat.pow 10 exponent.toNat * quartersInOne := ⟨_, rfl⟩
  obtain ⟨down, down_eq⟩ : ∃ down, down = Nat.pow 10 (-exponent).toNat := ⟨_, rfl⟩
  obtain ⟨notLower, notUpper⟩ := not_covers_of_onGrid?_eq_none up_eq down_eq none
  have down_pos : 0 < down := down_eq ▸ Nat.pow_pos (by decide)
  have up_pos : 0 < up := up_eq ▸ Nat.mul_pos (Nat.pow_pos (by decide)) quartersInOne_pos
  have steps : up * 10 ^ 16 ≤ x.center * down := by
    rw [zpow_add₀ (by norm_num), mul_right_comm, step_eq_div, ← up_eq, ← down_eq, div_mul_eq_mul_div,
      div_le_iff₀ (Nat.cast_pos.mpr down_pos)] at fine
    exact_mod_cast fine
  -- everything is a multiple of half the distance between neighbouring floats, up to a remainder
  have whole : x.center * down = 4 * x.significand * (unit * down) := by rw [center, Nat.mul_assoc]
  have high : x.upperMidpoint * down = x.center * down + 2 * (unit * down) := by
    rw [upper, Nat.add_mul, Nat.mul_assoc]
  have half : 0 < unit * down := Nat.mul_pos positive down_pos
  have parts := Nat.div_add_mod (x.center * down) up
  have rest := Nat.mod_lt (x.center * down) up_pos
  rw [Nat.mul_comm] at parts
  have next : (x.center * down / up + 1) * up = x.center * down / up * up + up := Nat.succ_mul _ _
  rcases lower with ⟨low, bits⟩ | ⟨low, bits⟩
  · have low' : x.lowerMidpoint * down + 2 * (unit * down) = x.center * down := by
      rw [← low, Nat.add_mul, Nat.mul_assoc]
    have most : 4 * x.significand * (unit * down) ≤ 4 * 2 ^ 53 * (unit * down) :=
      Nat.mul_le_mul_right _ (Nat.mul_le_mul_left 4 (Nat.le_of_lt bits))
    by_cases near : x.center * down % up < 2 * (unit * down)
    · exact notLower (covers_of_lt (by omega) (by omega))
    · exact notUpper (covers_of_lt (by omega) (by omega))
  · have low' : x.lowerMidpoint * down + unit * down = x.center * down := by
      rw [← low, Nat.add_mul]
    rw [bits] at whole
    by_cases near : x.center * down % up = 0
    · exact notLower (covers_of_lt (by omega) (by omega))
    · exact notUpper (covers_of_lt (by omega) (by omega))

/-! ## Search -/

/-- After so many times the number is one at least, if it ever is. -/
theorem le_tenfoldsToOne {n fuel : Nat} (far : quartersInOne ≤ n * 10 ^ fuel) :
    quartersInOne ≤ n * 10 ^ tenfoldsToOne n fuel := by
  induction fuel generalizing n with
  | zero => exact far
  | succ fuel ih =>
    rw [tenfoldsToOne]
    split
    · next enough => exact Nat.le_trans enough (Nat.le_mul_of_pos_right n (Nat.pow_pos (by decide)))
    · rw [Nat.pow_succ', ← Nat.mul_assoc] at far ⊢
      exact ih far

/-- A float other than zero is at least the power of ten of its leading digit. -/
theorem leadingExponent_le (x : Binary64) (nonzero : x.unsignedWord ≠ 0) :
    (10 : ℚ) ^ x.leadingExponent * quartersInOne ≤ x.center := by
  unfold leadingExponent
  split
  · next great =>
    have positive : 0 < x.center / quartersInOne := Nat.div_pos great quartersInOne_pos
    have length : 0 < (Nat.toDigits 10 (x.center / quartersInOne)).length := Nat.length_toDigits_pos
    have digits : 10 ^ ((Nat.toDigits 10 (x.center / quartersInOne)).length - 1) ≤ x.center / quartersInOne := by
      rcases Nat.eq_zero_or_pos ((Nat.toDigits 10 (x.center / quartersInOne)).length - 1) with one | more
      · rw [one]
        exact positive
      · by_contra less
        have short := (Nat.length_toDigits_le_iff (b := 10) (by decide) more).mpr (Nat.not_le.mp less)
        omega
    have product := (Nat.le_div_iff_mul_le quartersInOne_pos).mp digits
    have whole : (((Nat.toDigits 10 (x.center / quartersInOne)).length : Int) - 1) =
        (((Nat.toDigits 10 (x.center / quartersInOne)).length - 1 : Nat) : Int) := by omega
    rw [whole, zpow_natCast]
    exact_mod_cast product
  · obtain ⟨unit, positive, center, -, bounds⟩ := x.midpoints_cases nonzero
    have least : 4 ≤ x.center := by
      have some : x.center ≠ 0 := by
        rcases bounds with ⟨low, -⟩ | ⟨low, -⟩ <;> omega
      rw [center] at some ⊢
      have : 0 < x.significand * unit := Nat.pos_of_ne_zero fun zero => some (by rw [Nat.mul_assoc, zero])
      rw [Nat.mul_assoc]
      omega
    -- the search for the leading digit stops in time, for the least float is more than 10 ^ -324
    have smallest : quartersInOne ≤ 4 * 10 ^ 324 := by decide +kernel
    have far : quartersInOne ≤ x.center * 10 ^ 324 := Nat.le_trans smallest (Nat.mul_le_mul_right _ least)
    have near := le_tenfoldsToOne far
    rw [zpow_neg, zpow_natCast, inv_mul_eq_div, div_le_iff₀ (by positivity)]
    exact_mod_cast near

/-- On the grids of a float something is found that rounds to it, with seventeen digits at the latest. -/
theorem rounds_searchGrids (tie : TieRule) {x : Binary64} (nonzero : x.unsignedWord ≠ 0) {count fuel : Nat}
    (enough : count + fuel = 17) : x.Rounds (x.searchGrids tie count (fuel + 1)).units := by
  induction fuel generalizing count with
  | zero =>
    have fine : (10 : ℚ) ^ (x.leadingExponent + 1 - (17 : Nat) + 16) * quartersInOne ≤ x.center := by
      have same : x.leadingExponent + 1 - (17 : Nat) + 16 = x.leadingExponent := by omega
      rw [same]
      exact x.leadingExponent_le nonzero
    obtain rfl : count = 17 := enough
    rw [searchGrids]
    split
    · next digits found => exact rounds_of_onGrid? found
    · next none => exact absurd none (onGrid?_ne_none nonzero fine)
  | succ fuel ih =>
    rw [searchGrids]
    split
    · next digits found => exact rounds_of_onGrid? found
    · exact ih (by omega)

/-- The shortest digits of a float are a number that rounds to it. -/
theorem rounds_shortest (tie : TieRule) (x : Binary64) : x.Rounds (x.shortest tie).units := by
  unfold shortest
  split
  · next zero =>
    have word : x.unsignedWord = 0 := of_decide_eq_true zero
    have significand : x.significand = 0 := by
      unfold significand fraction exponentField
      rw [word]
      rfl
    have lower : x.lowerMidpoint = 0 := by
      unfold lowerMidpoint center magnitude
      rw [significand, Nat.zero_shiftLeft]
      exact Nat.zero_sub _
    unfold Rounds Decimal.units
    rw [significand, if_pos rfl, lower]
    simp
  · next nonzero =>
    rw [Decimal.units_stripZeros]
    exact rounds_searchGrids tie (by simpa [isZero] using nonzero) rfl

/-- A float is known by its sign and the rest of its word. -/
theorem eq_of_unsignedWord_eq {x y : Binary64} (sign : x.isNegative = y.isNegative)
    (word : x.unsignedWord = y.unsignedWord) : x = y := by
  have bits : x.bits.toNat = y.bits.toNat := by
    have smallX := x.bits.toNat_lt
    have smallY := y.bits.toNat_lt
    unfold isNegative signBit at sign
    unfold unsignedWord signBit at word
    rw [decide_eq_decide] at sign
    omega
  cases x
  cases y
  exact congrArg Binary64.mk (UInt64.toNat_inj.mp bits)

/-- Floats of the same sign whose shortest digits have the same value are the same. -/
theorem eq_of_units_eq {tie : TieRule} {x y : Binary64} (sign : x.isNegative = y.isNegative)
    (same : (x.shortest tie).units = (y.shortest tie).units) : x = y :=
  eq_of_unsignedWord_eq sign
    (unsignedWord_eq_of_rounds (x.rounds_shortest tie) (same ▸ y.rounds_shortest tie))

end Binary64

end PrologWire
