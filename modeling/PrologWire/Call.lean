import PrologWire.Error

/-!
# Terms as sequences of calls

A producer describes a sentence by calls in the order in which the text of the term would be read:
an opening call, the parts, a closing call, and at the end a full stop. Consumers turn the calls
into bytes or into terms as they come.
-/

namespace PrologWire

/-- One call to a consumer. -/
inductive Call where
  /-- Begins a compound; without arguments it ends up as an atom. -/
  | openTerm (functor : String)
  | closeTerm
  | openList
  | closeList
  | emptyList
  | atom (name : String)
  | int (value : Int64)
  /-- An integer of any size. -/
  | bigint (value : Int)
  | float (value : Binary64)
  /-- Equal names in one sentence are one variable. -/
  | var (name : String)
  /-- Ends the sentence. -/
  | fullStop
  /-- Asks the receiver to pass on what it has got. -/
  | flush
deriving DecidableEq, Inhabited

/-- What a consumer says to a call. -/
abbrev Answer := Except WireError Unit

/-- The answer to a call that has to write to a sink or to flush it, by whether that was
possible. -/
def Answer.ofSink (possible : Bool) : Answer :=
  if possible then .ok () else .error (.io .closed)

/-- An integer of 64 bits, if it is one. -/
def int64? (value : Int) : Option Int64 :=
  if Int64.minValue.toInt ≤ value ∧ value ≤ Int64.maxValue.toInt then some (Int64.ofInt value)
  else none

/-- What a producer does: calls, and perhaps a failure of its own when they are done. -/
structure Script where
  calls : List Call
  failure : Option WireError
deriving Inhabited

namespace Script

/-- No calls. -/
def empty : Script := ⟨[], none⟩

/-- One call. -/
def call (c : Call) : Script := ⟨[c], none⟩

/-- A failure without calls. -/
def fail (e : WireError) : Script := ⟨[], some e⟩

/-- One script after the other. A failure of the first is the end. -/
def append (s t : Script) : Script :=
  match s.failure with
  | some _ => s
  | none => ⟨s.calls ++ t.calls, t.failure⟩

instance : Append Script := ⟨append⟩

/-- What remains to be answered when all calls have been made. -/
def lastAnswer (s : Script) : Answer :=
  match s.failure with
  | some e => .error e
  | none => .ok ()

/-- Makes calls to a consumer up to the first that fails; if none does, the answer is `last`. -/
def makeCalls {σ : Type} (consume : σ → Call → Answer × σ) (last : Answer) :
    List Call → σ → Answer × σ
  | [], state => (last, state)
  | c :: rest, state =>
    match consume state c with
    | (.ok (), state) => makeCalls consume last rest state
    | (.error e, state) => (.error e, state)

/-- Plays a script to a consumer. -/
def run {σ : Type} (consume : σ → Call → Answer × σ) (s : Script) (state : σ) : Answer × σ :=
  makeCalls consume s.lastAnswer s.calls state

/-! ## Scripts in a row -/

@[simp] theorem run_empty {σ : Type} (consume : σ → Call → Answer × σ) (state : σ) :
    empty.run consume state = (.ok (), state) := rfl

@[simp] theorem run_call {σ : Type} (consume : σ → Call → Answer × σ) (c : Call) (state : σ) :
    (call c).run consume state = consume state c := by
  simp only [run, call, lastAnswer, makeCalls]
  rcases consume state c with ⟨answer | answer, after⟩ <;> rfl

@[simp] theorem run_fail {σ : Type} (consume : σ → Call → Answer × σ) (e : WireError)
    (state : σ) : (fail e).run consume state = (.error e, state) := rfl

/-- Calls in a row are made in two parts, the second if the first went well. -/
theorem makeCalls_append {σ : Type} (consume : σ → Call → Answer × σ) (last : Answer)
    (xs ys : List Call) (state : σ) :
    makeCalls consume last (xs ++ ys) state =
      match makeCalls consume (.ok ()) xs state with
      | (.ok (), state) => makeCalls consume last ys state
      | (.error e, state) => (.error e, state) := by
  induction xs generalizing state with
  | nil => rfl
  | cons c rest ih =>
    simp only [List.cons_append, makeCalls]
    rcases consume state c with ⟨answer | answer, after⟩
    · rfl
    · exact ih after

/-- A failure at the end of some calls is the answer unless one of the calls fails. -/
theorem makeCalls_error {σ : Type} (consume : σ → Call → Answer × σ) (e : WireError)
    (xs : List Call) (state : σ) :
    makeCalls consume (.error e) xs state =
      match makeCalls consume (.ok ()) xs state with
      | (.ok (), state) => (.error e, state)
      | (.error e', state) => (.error e', state) := by
  induction xs generalizing state with
  | nil => rfl
  | cons c rest ih =>
    simp only [makeCalls]
    rcases consume state c with ⟨answer | answer, after⟩
    · rfl
    · exact ih after

/-- Playing two scripts in a row is playing the first and then, if it went well, the second. -/
theorem run_append {σ : Type} (consume : σ → Call → Answer × σ) (s t : Script) (state : σ) :
    (s ++ t).run consume state =
      match s.run consume state with
      | (.ok (), state) => t.run consume state
      | (.error e, state) => (.error e, state) := by
  obtain ⟨calls, failure⟩ := s
  cases failure with
  | none => exact makeCalls_append consume _ calls t.calls state
  | some e =>
    show makeCalls consume (.error e) calls state = _
    simp only [run, lastAnswer, makeCalls_error]
    rcases makeCalls consume (.ok ()) calls state with ⟨answer | answer, after⟩ <;> rfl

end Script

end PrologWire
