import PrologWire.Proofs.Arena.Held
import PrologWire.Proofs.Numeric.WholeFloats
import PrologWire.Proofs.Text.Tokens

/-!
# Prolog text of leaves

The text of a leaf is one token, and its first character and its point tell what the leaf is: a number, a
variable, an atom or a string. So the text tells the leaf, except that a float from `10 ^ 16` on is shown as an
integer is.
-/

namespace PrologWire

/-! ## Leaves that are told by their texts -/

/-- An integer is shown as its decimal text. -/
theorem Term.text_integerLeaf (value : Int) : (integerLeaf value).text = (toString value).toList := by
  unfold integerLeaf
  split
  · next word narrowed => rw [Leaf.text, toInt_of_int64?_eq_some narrowed]
  · rfl

namespace Leaf

variable {l m : Leaf}

/-- Floats are finite, and variables have names of variables. -/
def Readable : Leaf → Prop
  | real x => x.isFinite = true
  | var name => Text.IsVariableName name.toList
  | _ => True

/-- The leaf is a finite float that is shown without a point. -/
def isGreat : Leaf → Bool
  | real x => x.isFinite && x.isGreat
  | _ => false

/-- The leaf with the integer that a great float is shown as in its place. -/
def levelled : Leaf → Leaf
  | real x => if x.isFinite && x.isGreat then Term.integerLeaf x.shownInteger else real x
  | l => l

/-- Leaves no two of which have the same text. -/
inductive Told : Leaf → Prop where
  | integer (value : Int) : Told (Term.integerLeaf value)
  | real {x : Binary64} : x.isFinite = true → x.isGreat = false → Told (real x)
  | var {name : String} : Text.IsVariableName name.toList → Told (var name)
  | atom {name : String} : name ≠ "[]" → Told (atom name)
  | str (text : String) : Told (str text)

/-- The integer in the place of a great float has the same text. -/
theorem text_levelled (l : Leaf) : l.levelled.text = l.text := by
  cases l with
  | real x =>
    rw [levelled]
    split
    · next great =>
      obtain ⟨finite, great⟩ := Bool.and_eq_true_iff.mp great
      rw [Term.text_integerLeaf, ← Binary64.text_prolog_of_isGreat finite great]
      rfl
    · rfl
  | _ => rfl

theorem levelled_of_isGreat_eq_false (small : l.isGreat = false) : l.levelled = l := by
  cases l with
  | real x => exact if_neg (Bool.eq_false_iff.mp small)
  | _ => rfl

/-- A readable leaf of a term that was made is told by its text once great floats are integers. -/
theorem told_levelled (sound : l.Sound) (readable : l.Readable) : l.levelled.Told := by
  cases l with
  | int value =>
    show (int value).Told
    rw [← Term.integerLeaf_toInt value]
    exact .integer value.toInt
  | bigint digits =>
    obtain ⟨value, great, rfl⟩ := sound
    have leaf : bigint (toString value) = Term.integerLeaf value := by rw [Term.integerLeaf, great]
    show (bigint (toString value)).Told
    rw [leaf]
    exact .integer value
  | real x =>
    rw [levelled]
    split
    · exact .integer x.shownInteger
    · next small =>
      have finite : x.isFinite = true := readable
      rw [finite, Bool.true_and, Bool.not_eq_true] at small
      exact .real finite small
  | var name => exact .var readable
  | atom name => exact .atom sound
  | str text => exact .str text

/-! ## Texts of leaves -/

/-- The text of an integer has digits, with a sign at most. -/
theorem numeral_of_mem_toString {value : Int} {c : Char} (among : c ∈ (toString value).toList) :
    c.isDigit = true ∨ c = '-' := by
  rw [Text.toList_toString] at among
  split at among
  · rcases List.mem_cons.mp among with rfl | digit
    · exact .inr rfl
    · exact .inl (Text.isDigit_of_mem_toDigits digit)
  · exact .inl (Text.isDigit_of_mem_toDigits among)

theorem isNumeral_of_mem_toString {value : Int} :
    ∀ c ∈ (toString value).toList, Text.isNumeral c = true := by
  intro c among
  simp only [Text.isNumeral, Bool.or_eq_true, decide_eq_true_eq]
  rcases numeral_of_mem_toString among with digit | sign
  · exact .inl (.inl digit)
  · exact .inr sign

theorem toString_ne_nil (value : Int) : (toString value).toList ≠ [] := by
  rw [Text.toList_toString]
  split
  · exact List.cons_ne_nil _ _
  · exact Nat.toDigits_ne_nil

theorem isNumeral_of_mem_text_real {x : Binary64} (finite : x.isFinite = true) :
    ∀ c ∈ (real x).text, Text.isNumeral c = true := by
  intro c among
  simp only [Text.isNumeral, Bool.or_eq_true, decide_eq_true_eq, or_assoc]
  exact Binary64.numeral_of_mem_text_prolog finite among

theorem point_mem_text_real {x : Binary64} (finite : x.isFinite = true) (small : x.isGreat = false) :
    '.' ∈ (real x).text := Binary64.point_mem_text_prolog finite small

theorem point_notMem_toString (value : Int) : '.' ∉ (toString value).toList := by
  intro among
  rcases numeral_of_mem_toString among with digit | sign
  · exact absurd digit (by decide)
  · exact absurd sign (by decide)

/-- The leaf is an atom or a string, or its text is a word. -/
theorem Told.isWord_or (told : l.Told) :
    Text.IsWord l.text ∨ (∃ name, l = .atom name ∧ name ≠ "[]") ∨ ∃ text, l = .str text := by
  cases told with
  | integer value =>
    rw [Term.text_integerLeaf]
    exact .inl (Text.isWord_of_isNumeral (toString_ne_nil value) isNumeral_of_mem_toString)
  | real finite small =>
    have some := List.ne_nil_of_mem (point_mem_text_real finite small)
    exact .inl (Text.isWord_of_isNumeral some (isNumeral_of_mem_text_real finite))
  | var named => exact .inl (Text.isWord_of_isVariableName named)
  | atom other => exact .inr (.inl ⟨_, rfl, other⟩)
  | str text => exact .inr (.inr ⟨text, rfl⟩)

/-- The text is one token. -/
theorem Told.token (told : l.Told) : Text.Token l.text := by
  rcases told.isWord_or with word | ⟨name, rfl, -⟩ | ⟨text, rfl⟩
  · exact .word word
  · exact Text.token_atomText name.toList
  · exact .string text.toList

/-- The text does not begin as that of a list does. -/
theorem Told.text_append_ne (told : l.Told) {x y : List Char} : l.text ++ x ≠ '[' :: y := by
  rcases told.isWord_or with word | ⟨name, rfl, other⟩ | ⟨text, rfl⟩
  · exact word.append_ne (.inr (.inr rfl))
  · exact Text.atomText_append_ne fun same => other (String.toList_inj.mp same)
  · intro same
    exact absurd (List.cons.inj same).1 (by decide)

/-- The kind of leaf that its text shows: big integers look like small ones. -/
def shownKind : Leaf → Kind
  | bigint _ => .int
  | l => l.kind

theorem shownKind_integerLeaf (value : Int) : (Term.integerLeaf value).shownKind = .int := by
  unfold Term.integerLeaf
  split <;> rfl

end Leaf

namespace Text

/-- The first characters of atoms. -/
def opensAtom (c : Char) : Bool := c = '\'' || c = '\x7b' || c.isLower

theorem toNat_of_opensAtom {c : Char} (opens : opensAtom c = true) :
    c.toNat = 39 ∨ 97 ≤ c.toNat ∧ c.toNat ≤ 123 := by
  simp only [opensAtom, Bool.or_eq_true, decide_eq_true_eq, isLower_iff_toNat] at opens
  obtain (rfl | rfl) | lower := opens
  · exact .inl rfl
  · exact .inr (by decide)
  · omega

/-- The kind of leaf that a text is of, by the first character and by its point. -/
def kindOf : List Char → Kind
  | [] => .var
  | c :: cs =>
    if c = '"' then .str
    else if opensAtom c then .atom
    else if isNumeral c then if '.' ∈ c :: cs then .real else .int
    else .var

/-- A number is real if it has a point. -/
theorem kindOf_of_isNumeral {cs : List Char} (some : cs ≠ []) (numerals : ∀ c ∈ cs, isNumeral c = true) :
    kindOf cs = if '.' ∈ cs then .real else .int := by
  obtain ⟨c, cs, rfl⟩ := List.exists_cons_of_ne_nil some
  have numeral := numerals c List.mem_cons_self
  have bounds := toNat_of_isNumeral numeral
  have unquoted : c ≠ '"' := by
    rintro rfl
    exact absurd numeral (by decide)
  have number : ¬opensAtom c = true := by
    intro opens
    have letter := toNat_of_opensAtom opens
    omega
  rw [kindOf, if_neg unquoted, if_neg number, if_pos numeral]

theorem kindOf_of_isVariableName {name : List Char} (named : IsVariableName name) : kindOf name = .var := by
  obtain ⟨c, cs, rfl, first, -⟩ := named
  have code := toNat_of_opensVariable first
  have unquoted : c ≠ '"' := by
    rintro rfl
    exact absurd code (by decide)
  have other : ¬opensAtom c = true := by
    intro opens
    have letter := toNat_of_opensAtom opens
    omega
  have letter : ¬isNumeral c = true := by
    intro numeral
    have bounds := toNat_of_isNumeral numeral
    omega
  rw [kindOf, if_neg unquoted, if_neg other, if_neg letter]

theorem kindOf_atomText {name : List Char} (other : name ≠ ['[', ']']) : kindOf (atomText name) = .atom := by
  have opened {c : Char} {cs : List Char} (opens : opensAtom c = true) : kindOf (c :: cs) = .atom := by
    have unquoted : c ≠ '"' := by
      rintro rfl
      exact absurd opens (by decide)
    rw [kindOf, if_neg unquoted, if_pos opens]
  unfold atomText
  split
  · next bare =>
    rcases bareAtom_cases bare with brackets | ⟨-, c, cs, rfl, first⟩
    · exact absurd brackets other
    · apply opened
      rcases first with lower | rfl
      · rw [opensAtom, lower, Bool.or_true]
      · rfl
  · exact opened rfl

end Text

namespace Leaf

variable {l m : Leaf}

theorem Told.kindOf_text (told : l.Told) : Text.kindOf l.text = l.shownKind := by
  cases told with
  | integer value =>
    rw [Term.text_integerLeaf, shownKind_integerLeaf,
      Text.kindOf_of_isNumeral (toString_ne_nil value) isNumeral_of_mem_toString,
      if_neg (point_notMem_toString value)]
  | real finite small =>
    have point := point_mem_text_real finite small
    rw [Text.kindOf_of_isNumeral (List.ne_nil_of_mem point) (isNumeral_of_mem_text_real finite), if_pos point]
    rfl
  | var named => exact Text.kindOf_of_isVariableName named
  | atom other => exact Text.kindOf_atomText fun same => other (String.toList_inj.mp same)
  | str text => rfl

theorem Told.readable (told : l.Told) : l.Readable := by
  cases told with
  | integer value =>
    unfold Term.integerLeaf
    split <;> trivial
  | real finite _ => exact finite
  | var named => exact named
  | atom _ | str _ => trivial

theorem Told.eq_integerLeaf (told : l.Told) (kind : l.shownKind = .int) :
    ∃ value, l = Term.integerLeaf value := by
  cases told with
  | integer value => exact ⟨value, rfl⟩
  | _ => cases kind

/-- The text tells the leaf. -/
theorem Told.text_inj (left : l.Told) (right : m.Told) (same : l.text = m.text) : l = m := by
  have kinds : l.shownKind = m.shownKind := by rw [← left.kindOf_text, same, right.kindOf_text]
  have readable := right.readable
  cases left with
  | integer value =>
    rw [shownKind_integerLeaf] at kinds
    obtain ⟨value', rfl⟩ := right.eq_integerLeaf kinds.symm
    rw [Term.text_integerLeaf, Term.text_integerLeaf] at same
    rw [Text.toString_inj (String.toList_inj.mp same)]
  | real finite _ =>
    cases m with
    | real y => rw [FloatFormat.eq_of_text_eq finite readable (String.toList_inj.mp same)]
    | _ => cases kinds
  | var _ =>
    cases m with
    | var name => rw [String.toList_inj.mp same]
    | _ => cases kinds
  | atom _ =>
    cases m with
    | atom name => rw [String.toList_inj.mp (Text.atomText_inj same)]
    | _ => cases kinds
  | str text =>
    cases m with
    | str text' =>
      have ended := congrArg (· ++ ([] : List Char)) same
      rw [String.toList_inj.mp (Text.stringText_append_inj ended).1]
    | _ => cases kinds

end Leaf

end PrologWire
