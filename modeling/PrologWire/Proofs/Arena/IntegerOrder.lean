import PrologWire.Proofs.Arena.OrderLaws
import PrologWire.Proofs.Arena.Stored

/-!
# The order of integers

Two integers compare by their values if both are outside the 64-bit range, for their digits tell all of
them. Every other pair compares by the nearest floats, so that integers of which one is greater are equal
if there is no float between them: from 2 ^ 53 on this happens to neighbours. An integer never comes
behind a greater one.
-/

namespace PrologWire

namespace Binary64

/-- The floats nearest to two integers are the same, or come in the order of the integers. -/
theorem compare_rank_ofInt (v w : Int) :
    compare (ofInt v).rank (ofInt w).rank = if ofInt v = ofInt w then .eq else compare v w := by
  split
  · next same => rw [same, Int.compare_eq_eq.mpr rfl]
  · next apart =>
    have ranks : (ofInt v).rank ≠ (ofInt w).rank := fun same => apart (rank_inj.mp same)
    rcases Int.lt_trichotomy v w with less | rfl | greater
    · have floats := rank_ofInt_le_rank_ofInt (Int.le_of_lt less)
      rw [Int.compare_eq_lt.mpr less, Int.compare_eq_lt.mpr (by omega)]
    · exact absurd rfl apart
    · have floats := rank_ofInt_le_rank_ofInt (Int.le_of_lt greater)
      rw [Int.compare_eq_gt.mpr greater, Int.compare_eq_gt.mpr (by omega)]

end Binary64

namespace Term

theorem kind_rank_integerLeaf (value : Int) : (integerLeaf value).kind.rank = 1 := by
  unfold integerLeaf
  split <;> rfl

/-- The float nearest to the leaf of an integer is the one nearest to the integer. -/
theorem nearestReal_integerLeaf (value : Int) :
    (integerLeaf value).nearestReal = .ofInt value := by
  unfold integerLeaf
  split
  · next small same => rw [Leaf.nearestReal, toInt_of_int64?_eq_some same]
  · exact Leaf.nearestReal_bigint value

/-- An integer of 64 bits is no big integer. -/
theorem isPlainNumber_integerLeaf {value : Int} (small : int64? value ≠ none) :
    (integerLeaf value).isPlainNumber := by
  unfold integerLeaf
  split
  · rfl
  · next great => exact absurd great small

/-- Two integers compare by value if both are big or the floats nearest to them differ, and are equal
otherwise. -/
theorem compareWith_integerLeaf (v w : Int) :
    (integerLeaf v).compareWith (integerLeaf w) =
      if (int64? v = none ∧ int64? w = none) ∨ Binary64.ofInt v ≠ Binary64.ofInt w then compare v w
      else .eq := by
  -- the floats decide as soon as one of the two has 64 bits
  have byFloats (plain : (integerLeaf v).compareWith (integerLeaf w) =
      compare (integerLeaf v).nearestReal.rank (integerLeaf w).nearestReal.rank) :
      (integerLeaf v).compareWith (integerLeaf w) =
        if Binary64.ofInt v = Binary64.ofInt w then .eq else compare v w := by
    rw [plain, nearestReal_integerLeaf, nearestReal_integerLeaf, Binary64.compare_rank_ofInt]
  by_cases greatV : int64? v = none
  · by_cases greatW : int64? w = none
    · rw [if_pos (.inl ⟨greatV, greatW⟩), integerLeaf, integerLeaf, greatV, greatW]
      exact Leaf.compareWith_bigint v w
    · have plain := isPlainNumber_integerLeaf greatW
      rw [byFloats (Leaf.compareWith_of_isPlainNumber (kind_rank_integerLeaf v) plain).2]
      simp only [greatW, and_false, false_or, ite_not]
  · have plain := isPlainNumber_integerLeaf greatV
    rw [byFloats (Leaf.compareWith_of_isPlainNumber (kind_rank_integerLeaf w) plain).1]
    simp only [greatV, false_and, false_or, ite_not]

end Term

namespace Arena

/-- The handle has an integer of 64 bits in itself, or it is what some earlier state of the arena made
of the integer when its digits were in reach of offsets, and the epoch that it carries has not been erased
since. -/
inductive HasInteger (a : Arena) : Handle → Int → Prop where
  | word (value : Int64) : HasInteger a (.int value) value.toInt
  | made {id : ArenaId} {bottom : EpochId} {b : Arena} {early late : List Event} {value : Int} :
    Course (create id bottom) early b → b.ids.Nodup →
    (b.integer value).2.bytes.size < UInt32.size → Course (b.integer value).2 late a →
    (∀ e, (b.integer value).1.epoch? = some e → .erased e ∉ late) →
    HasInteger a (b.integer value).1 value

/-- An integer that the arena has is a leaf. -/
theorem HasInteger.tree_eq {a : Arena} {h : Handle} {value : Int} (has : a.HasInteger h value) :
    a.tree h = .leaf (Term.integerLeaf value) := by
  cases has with
  | word value =>
    rw [Term.integerLeaf_toInt]
    rfl
  | made early distinct small late lives =>
    have orderly := early.orderly (orderly_create _ _)
    have seen : a.view _ = .ok (.ofInteger value) :=
      view_integer orderly distinct small fun e carries =>
        late.keeps ((grows_integer _ value).orderly orderly) (lives e carries)
    rw [tree, maxDepth, unfold_succ, seen]
    exact ofView_ofInteger value _

/-- Two integers compare by value or are equal. They compare by value exactly if they are the same, if
both are outside the 64-bit range, or if the floats nearest to them differ. -/
theorem compareTerms?_integers_iff {a b : Arena} {h k : Handle} {v w : Int}
    (left : a.HasInteger h v) (right : b.HasInteger k w) :
    (a.compareTerms? h b k = .ok (compare v w) ∨ a.compareTerms? h b k = .ok .eq) ∧
      (a.compareTerms? h b k = .ok (compare v w) ↔
        v = w ∨ (int64? v = none ∧ int64? w = none) ∨ Binary64.ofInt v ≠ Binary64.ofInt w) := by
  have found : a.compareTerms? h b k =
      .ok ((Term.integerLeaf v).compareWith (Term.integerLeaf w)) := by
    rw [compareTerms?_eq_compare?, left.tree_eq, right.tree_eq, Tree.compare?]
  rw [found, Term.compareWith_integerLeaf]
  split
  · next told => exact ⟨.inl rfl, fun _ => .inr told, fun _ => rfl⟩
  · next untold =>
    refine ⟨.inr rfl, fun same => .inl ?_, ?_⟩
    · exact Int.compare_eq_eq.mp (Except.ok.inj same).symm
    · rintro (rfl | told)
      · rw [Int.compare_eq_eq.mpr rfl]
      · exact absurd told untold

/-- A big integer in an arena where more epochs have come and gone since. -/
def weighed : Arena :=
  Operation.performAll [.beginEpoch ⟨2⟩, .text .str "a text in another epoch", .truncate ⟨2⟩]
    ((create ⟨0⟩ ⟨0⟩).integer 9223372036854775808).2

theorem compareTerms?_integers_at_limit :
    weighed.HasInteger (.bigint ⟨⟨0⟩, 0, 19⟩) 9223372036854775808 ∧
      (create ⟨1⟩ ⟨1⟩).HasInteger (.int 9223372036854774784) 9223372036854774784 ∧
      (create ⟨1⟩ ⟨1⟩).compareTerms? (.int 9223372036854774784) weighed
        (.bigint ⟨⟨0⟩, 0, 19⟩) = .ok .lt := by
  have big : weighed.HasInteger (.bigint ⟨⟨0⟩, 0, 19⟩) 9223372036854775808 := by
    refine .made (.stay (create ⟨0⟩ ⟨0⟩)) (by decide) (by decide +kernel)
      (Operation.course_all _ _) ?_
    intro e carries
    obtain rfl : (⟨0⟩ : EpochId) = e := Option.some.inj carries
    decide +kernel
  have small : (create ⟨1⟩ ⟨1⟩).HasInteger (.int 9223372036854774784) 9223372036854774784 :=
    .word 9223372036854774784
  refine ⟨big, small, ?_⟩
  exact (compareTerms?_integers_iff small big).2.mpr (.inr (.inr (by decide +kernel)))

/-- Two neighbours of 64 bits with no float between them are equal. -/
theorem compareTerms?_neighbours :
    (create ⟨0⟩ ⟨0⟩).HasInteger (.int 9007199254740992) 9007199254740992 ∧
      (create ⟨0⟩ ⟨0⟩).HasInteger (.int 9007199254740993) 9007199254740993 ∧
      (create ⟨0⟩ ⟨0⟩).compareTerms? (.int 9007199254740992) (create ⟨0⟩ ⟨0⟩)
        (.int 9007199254740993) = .ok .eq ∧
      compare (9007199254740992 : Int) 9007199254740993 = .lt :=
  ⟨.word 9007199254740992, .word 9007199254740993, by decide +kernel, by decide⟩

end Arena

end PrologWire
