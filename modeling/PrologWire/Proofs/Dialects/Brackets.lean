import PrologWire.Proofs.Sentence.Run

/-!
# The bracket language of calls

Which calls go together does not depend on a dialect. `Brackets` is a machine that knows only what is open and
whether a call of the sentence has failed: a closing call needs something of its kind innermost, and a full stop
needs a sentence in which no call has failed and nothing is left open. What a consumer can answer otherwise
comes from the limits of its format or from its sink; if neither stands in the way for a whole run,
its answers are those of the machine.
-/

namespace PrologWire

/-- The format has no place for what the call says. -/
def WireError.exceedsFormat : WireError → Bool
  | .arityOverflow _ _ | .integerOutOfRange _ _ | .wideAtomsDisabled _ | .unsupported _ => true
  | _ => false

/-- The call was refused because the format has no place for what it says. -/
def Answer.exceedsFormat : Answer → Bool
  | .ok () => false
  | .error cause => cause.exceedsFormat

/-- What is open in a sentence, the innermost first, and whether a call of the sentence has failed. -/
structure Brackets where
  opened : List Bracket
  failed : Bool
deriving DecidableEq, Repr

namespace Brackets

/-- At the beginning of a sentence. -/
def start : Brackets := ⟨[], false⟩

/-- Closes what is innermost, if it is of this kind. -/
def close (m : Brackets) (b : Bracket) : Answer × Brackets :=
  if m.opened.head? = some b then (.ok (), { m with opened := m.opened.tail })
  else (.error (.mismatchedClose b), { m with failed := true })

/-- What the full stop says of the sentence. -/
def verdict (m : Brackets) : Answer :=
  if m.failed then .error .sentenceDiscarded
  else if m.opened ≠ [] then .error (.unbalanced m.opened.length)
  else .ok ()

/-- Takes one call. -/
def call (m : Brackets) : Call → Answer × Brackets
  | .openTerm _ => (.ok (), { m with opened := .term :: m.opened })
  | .openList => (.ok (), { m with opened := .list :: m.opened })
  | .closeTerm => m.close .term
  | .closeList => m.close .list
  | .fullStop => (m.verdict, start)
  | _ => (.ok (), m)

theorem close_of_head {m : Brackets} {b : Bracket} {outer : List Bracket} (here : m.opened = b :: outer) :
    m.close b = (.ok (), { m with opened := outer }) := by
  rw [close, here]
  exact if_pos rfl

theorem close_of_head_ne {m : Brackets} {b : Bracket} (other : m.opened.head? ≠ some b) :
    m.close b = (.error (.mismatchedClose b), { m with failed := true }) := if_neg other

theorem call_fullStop_of_failed {m : Brackets} (failed : m.failed = true) :
    m.call .fullStop = (.error .sentenceDiscarded, start) := by
  rw [call, verdict, if_pos failed]

theorem call_fullStop_of_open {m : Brackets} (unfailed : m.failed = false) (unclosed : m.opened ≠ []) :
    m.call .fullStop = (.error (.unbalanced m.opened.length), start) := by
  rw [call, verdict, if_neg (Bool.eq_false_iff.mp unfailed), if_pos unclosed]

theorem call_fullStop_of_whole {m : Brackets} (unfailed : m.failed = false) (closed : m.opened = []) :
    m.call .fullStop = (.ok (), start) := by
  rw [call, verdict, if_neg (Bool.eq_false_iff.mp unfailed), if_neg (not_not_intro closed)]

/-- The machine has no buffer. -/
theorem call_ne_buffer (m : Brackets) (c : Call) (fault : Buffer.Fault) :
    (m.call c).1 ≠ .error (.buffer fault) := by
  have closing (b : Bracket) : (m.close b).1 ≠ .error (.buffer fault) := by
    unfold close
    split <;> exact nofun
  cases c with
  | closeTerm => exact closing .term
  | closeList => exact closing .list
  | fullStop =>
    show m.verdict ≠ _
    unfold verdict
    split
    · exact nofun
    · split <;> exact nofun
  | _ => exact nofun

/-- What can come of a call where these brackets are: the consumer does as the machine does, or the format
or the sink stands in the way. -/
inductive Outcome (m : Brackets) (c : Call) (accepting : Prop) : Answer → Brackets → Prop
  | follows {answer : Answer} {after : Brackets} (eq : m.call c = (answer, after)) :
    m.Outcome c accepting answer after
  | format {cause : WireError} (exceeds : cause.exceedsFormat = true) (after : Brackets) :
    m.Outcome c accepting (.error cause) after
  | sink (refuses : ¬accepting) (after : Brackets) : m.Outcome c accepting (.error (.io .closed)) after

namespace Outcome

variable {m after : Brackets} {c : Call} {accepting : Prop} {answer : Answer}

/-- With a sink that takes everything and within the limits of the format it is the machine's. -/
theorem call_eq (h : m.Outcome c accepting answer after) (accepts : accepting)
    (within : answer.exceedsFormat = false) : m.call c = (answer, after) := by
  cases h with
  | follows eq => exact eq
  | format exceeds => exact absurd (within.symm.trans exceeds) Bool.false_ne_true
  | sink refuses => exact absurd accepts refuses

/-- No answer tells of a position out of range. -/
theorem ne_buffer (h : m.Outcome c accepting answer after) (fault : Buffer.Fault) :
    answer ≠ .error (.buffer fault) := by
  cases h with
  | follows eq =>
    have unfaulty := m.call_ne_buffer c fault
    rw [eq] at unfaulty
    exact unfaulty
  | format exceeds =>
    intro same
    obtain rfl := Except.error.inj same
    cases exceeds
  | sink => exact nofun

end Outcome

/-- A consumer that does in each call as the machine does unless the format stands in the way does so in every
run in which it never does. -/
theorem playAll_eq {σ : Type} {consume : σ → Call → Answer × σ} (view : σ → Brackets) (Good : σ → Prop)
    (keeps : ∀ {s} c, Good s → Good (consume s c).2)
    (step : ∀ {s} c, Good s → (consume s c).1.exceedsFormat = false →
      (view s).call c = ((consume s c).1, view (consume s c).2))
    {s : σ} (good : Good s) {calls : List Call}
    (within : ∀ entry ∈ (playAll consume s calls).1, entry.2.exceedsFormat = false) :
    playAll call (view s) calls =
      ((playAll consume s calls).1, view (playAll consume s calls).2) := by
  induction calls generalizing s with
  | nil => rfl
  | cons c rest ih =>
    rw [playAll_cons, List.forall_mem_cons] at within
    rw [playAll_cons, playAll_cons, step c good within.1, ih (keeps c good) within.2]

end Brackets

end PrologWire
