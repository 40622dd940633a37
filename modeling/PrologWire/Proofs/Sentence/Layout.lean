import PrologWire.Proofs.Sentence.Outline

/-!
# Where the parts of a half-written sentence stand

An encoder writes the parts of an outline one after the other: first the whole terms, then what is
open from the outside to the inside. Only the innermost of what is open may have no part in the
making. A layout tells what is written for each of these, and how a context that the encoder keeps
belongs to what is open and to the place where its bytes begin.
-/

namespace PrologWire

/-- What an encoder with contexts `κ` writes of an outline. -/
structure Layout (κ : Type) where
  /-- The bytes of whole terms. -/
  whole : List (Term Nat) → List UInt8
  /-- The bytes of something open; the flag tells whether a part of it has been begun. -/
  unclosed : Bool → Unclosed Nat → List UInt8
  /-- The context belongs to something open whose bytes begin at the offset. -/
  Fits : Nat → Bool → κ → Unclosed Nat → Prop

namespace Layout

variable {κ : Type}

/-- The bytes of an outline. -/
def bytes (l : Layout κ) (begun : Bool) (whole : List (Term Nat)) :
    List (Unclosed Nat) → List UInt8
  | [] => l.whole whole
  | u :: outer => l.bytes true whole outer ++ l.unclosed begun u

/-- The contexts belong to what is open, one by one. -/
def Located (l : Layout κ) (begun : Bool) (whole : List (Term Nat)) :
    List κ → List (Unclosed Nat) → Prop
  | [], [] => True
  | c :: cs, u :: outer =>
    l.Fits (l.bytes true whole outer).length begun c u ∧ l.Located true whole cs outer
  | _, _ => False

variable {l : Layout κ} {begun : Bool} {whole : List (Term Nat)}

/-- There are as many contexts as there are open compounds and lists. -/
theorem Located.length_eq {cs : List κ} {us : List (Unclosed Nat)}
    (h : l.Located begun whole cs us) : cs.length = us.length := by
  induction cs generalizing us begun with
  | nil =>
    cases us with
    | nil => rfl
    | cons u outer => exact h.elim
  | cons c cs ih =>
    cases us with
    | nil => exact h.elim
    | cons u outer => rw [List.length_cons, List.length_cons, ih h.2]

/-- Without anything open there is no context. -/
theorem Located.eq_nil {cs : List κ} (h : l.Located begun whole cs []) : cs = [] :=
  List.eq_nil_of_length_eq_zero h.length_eq

/-- What is innermost has the first context. -/
theorem Located.exists_cons {cs : List κ} {u : Unclosed Nat} {outer : List (Unclosed Nat)}
    (h : l.Located begun whole cs (u :: outer)) :
    ∃ c cs', cs = c :: cs' ∧ l.Fits (l.bytes true whole outer).length begun c u ∧
      l.Located true whole cs' outer := by
  cases cs with
  | nil => exact h.elim
  | cons c cs' => exact ⟨c, cs', rfl, h.1, h.2⟩

end Layout

end PrologWire
