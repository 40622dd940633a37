import PrologWire.Proofs.Sentence.Numbering
import PrologWire.Proofs.Sentence.Run
import PrologWire.Proofs.Sicstus.Gathered

/-!
# The calls of a sentence one by one

`Progress` says that an encoder is where the outline of a sentence is: its table has the names so
far, and whatever names come later, it has gathered what their numbers in the whole sentence give.
`Progress.call_ok` and `Progress.call_error` say what a call does to that: it succeeds if the outline
can go on with it and no compound is closed with too many arguments, and a call that fails changes
nothing but the mark of failure.
-/

namespace PrologWire.Sicstus

/-! ## Arities in an outline -/

/-- No compound that is closed has more arguments than the arity byte can count. -/
def fitsSoFar {ν : Type} (o : Outline ν) : Bool := o.all fits fun _ => true

/-- Going on does not mend an arity. -/
theorem fitsSoFar_of_step {o o' : Outline String} {c : Call} (h : o.step c = some o')
    (small : fitsSoFar o' = true) : fitsSoFar o = true := by
  refine Outline.all_of_step (fun name args fit => ?_) (fun elems fit => ?_) h small
  · rw [fits, Bool.and_eq_true, fitsAll_eq_all] at fit
    exact ⟨rfl, fit.2⟩
  · rwa [fits, fitsAll_eq_all] at fit

namespace Encoder

/-! ## Steps of a sentence -/

/-- The encoder is where an outline is. -/
def Progress (e : Encoder) (o : Outline String) : Prop :=
  PrologWire.Progress e.vars.names (e.Holds false) o

namespace Progress

variable {e e' : Encoder} {o o' : Outline String}

/-- Without variables a step is one for every numbering. -/
theorem of_holds (h : e.Progress o) (vars : e'.vars = e.vars) (same : o'.vars = o.vars)
    (holds : ∀ f : String → Nat, e.Holds false (o.map f) → e'.Holds false (o'.map f)) :
    e'.Progress o' := by
  rw [Encoder.Progress, vars]
  exact h.step same holds

/-- A step without variables that succeeds for every numbering. -/
theorem of_succeeds {r : Answer × Encoder} (h : e.Progress o) (same : o'.vars = o.vars)
    (succeeds : ∀ f : String → Nat, e.Holds false (o.map f) →
      ∃ e', r = (.ok (), e') ∧ e'.Holds false (o'.map f) ∧ e'.vars = e.vars) :
    ∃ e', r = (.ok (), e') ∧ e'.Progress o' :=
  PrologWire.Progress.of_succeeds Encoder.vars (Holds false) h same succeeds

/-- An encoder that has gathered nothing is where a sentence begins. -/
theorem start (buffer : e.buffer.content = []) (vars : e.vars = .empty) (contexts : e.contexts = [])
    (run : e.inRun = false) : e.Progress .empty where
  names_eq := by rw [vars]; rfl
  gathered _ := ⟨buffer, contexts ▸ trivial, run⟩

/-- A leaf without variables that joins no run. -/
theorem leaf (h : e.Progress o) {t : Term String} {bs : List UInt8}
    (ground : t.vars = []) (written : ∀ f : String → Nat, code (t.map f) = bs)
    (alone : ∀ f : String → Nat, smallElement? (t.map f) = none) :
    (e.leaf bs).2.Progress (o.add t) := by
  refine h.of_holds (by simp [Encoder.leaf, put]) (by simp [ground]) fun f holds => ?_
  rw [Outline.map_add, ← written f]
  exact holds.leaf (joins?_eq_none (alone f))

/-- A variable, whose number is its place in the whole sentence. -/
theorem var (h : e.Progress o) (name : String) : (e.var name).2.Progress (o.add (.var name)) := by
  have vars : (e.var name).2.vars = (e.vars.ordinal name).2 := by
    rw [← vars_beginTerm e]
    rfl
  rw [Encoder.Progress, vars]
  refine PrologWire.Progress.var h name fun o holds => ?_
  obtain ⟨content, located, inRun⟩ :=
    holds.leaf (t := .var (e.vars.ordinal name).1) (joins?_eq_none rfl)
  simp only [Encoder.var, vars_beginTerm]
  exact ⟨content, located, inRun⟩

end Progress

/-! ## Calls -/

/-- Within a sentence a call either goes well and leaves the sink alone, or is refused, whatever the
sink is. -/
theorem call_within (e : Encoder) {c : Call} (going : c ≠ .fullStop) (quiet : c ≠ .flush) :
    (∃ e', e.call c = (.ok (), e') ∧ e'.failed = e.failed ∧ e'.sink = e.sink) ∨
      ∃ cause, e.call c = e.fail cause := by
  have leaf (bs : List UInt8) : (e.leaf bs).2.failed = e.failed ∧ (e.leaf bs).2.sink = e.sink := by
    simp [Encoder.leaf, put]
  have int (value : Int64) : ∃ e', e.int value = (.ok (), e') ∧ e'.failed = e.failed ∧
      e'.sink = e.sink := by
    rw [Encoder.int]
    split
    · exact ⟨_, rfl, by split <;> exact ⟨rfl, rfl⟩⟩
    · exact ⟨_, rfl, leaf _⟩
  cases c with
  | openTerm functor => exact .inl ⟨_, rfl, failed_beginTerm e, sink_beginTerm e⟩
  | closeTerm =>
    rw [call, closeTerm]
    split
    · exact .inl ⟨_, rfl, rfl, rfl⟩
    · split
      · exact .inr ⟨_, rfl⟩
      · split
        · exact .inl ⟨_, rfl, rfl, rfl⟩
        · exact .inr ⟨_, rfl⟩
    · exact .inr ⟨_, rfl⟩
  | openList => exact .inl ⟨_, rfl, failed_beginTerm e, sink_beginTerm e⟩
  | closeList =>
    rw [call, closeList]
    split
    · exact .inl ⟨_, rfl, by simp [put], by simp [put]⟩
    · exact .inr ⟨_, rfl⟩
  | emptyList => exact .inl ⟨_, rfl, by simp [put, openList], by simp [put, openList]⟩
  | atom name => exact .inl ⟨_, rfl, leaf _⟩
  | int value => exact .inl (int value)
  | bigint value =>
    rw [call, bigint]
    split
    · exact .inl (int _)
    · exact .inl ⟨_, rfl, leaf _⟩
  | float value => exact .inl ⟨_, rfl, leaf _⟩
  | var name => exact .inl ⟨_, rfl, failed_beginTerm e, sink_beginTerm e⟩
  | fullStop => exact absurd rfl going
  | flush => exact absurd rfl quiet

/-- A call that is no full stop either goes well and leaves what is on the sink, or is refused. -/
theorem call_cases (e : Encoder) (accepts : e.sink.Accepting) {c : Call} (going : c ≠ .fullStop) :
    (∃ e', e.call c = (.ok (), e') ∧ e'.failed = e.failed ∧ e'.sink.content = e.sink.content ∧
      e'.sink.Accepting) ∨ ∃ cause, e.call c = e.fail cause := by
  by_cases flushes : c = .flush
  · obtain ⟨sink', eq, content, accepts'⟩ := accepts.flush
    refine .inl ⟨{ e with sink := sink' }, ?_, rfl, content, accepts'⟩
    rw [flushes, call, flush, eq]
    rfl
  · obtain ⟨e', eq, failed, sink⟩ | refused := e.call_within going flushes
    · exact .inl ⟨e', eq, failed, congrArg Sink.content sink, sink ▸ accepts⟩
    · exact .inr refused

/-- A call that an outline can go on with succeeds unless it closes a compound with too many
arguments; only the flush needs the sink for it. -/
theorem Progress.call_ok {e : Encoder} {o o' : Outline String} {c : Call} (h : e.Progress o)
    (accepts : c = .flush → e.sink.Accepting) (goes : o.step c = some o') (small : fitsSoFar o' = true) :
    ∃ e', e.call c = (.ok (), e') ∧ e'.Progress o' := by
  cases c with
  | openTerm functor =>
    obtain rfl := Option.some.inj goes
    exact ⟨_, rfl, h.of_holds (vars_beginTerm e) (by simp) fun f holds => holds.openTerm functor⟩
  | closeTerm =>
    obtain ⟨whole, functor, parts, outer, rfl, rfl⟩ := Outline.closeTerm?_eq_some goes
    have few : parts.length ≤ maxArity := by
      rw [fitsSoFar, Outline.all_add, fits] at small
      simp_all
    refine h.of_succeeds (Outline.vars_closeTerm? goes) fun f holds => ?_
    rw [Outline.map_add, Term.map_compound]
    exact holds.closeTerm (by rwa [List.length_map])
  | openList =>
    obtain rfl := Option.some.inj goes
    exact ⟨_, rfl, h.of_holds (vars_beginTerm e) (by simp) fun f holds => holds.openList⟩
  | closeList =>
    obtain ⟨whole, parts, outer, rfl, rfl⟩ := Outline.closeList?_eq_some goes
    refine h.of_succeeds (Outline.vars_closeList? goes) fun f holds => ?_
    rw [Outline.map_add, Term.map_list]
    exact holds.closeList
  | emptyList =>
    obtain rfl := Option.some.inj goes
    refine h.of_succeeds (by simp [Term.vars, Term.varsAll]) fun f holds => ?_
    obtain ⟨e', eq, holds', vars⟩ := holds.openList.closeList
    exact ⟨e', eq, by simpa [Term.map_list] using holds', vars.trans (vars_beginTerm e)⟩
  | atom name =>
    obtain rfl := Option.some.inj goes
    exact ⟨_, rfl, h.leaf rfl (fun f => rfl) fun f => rfl⟩
  | int value =>
    obtain rfl := Option.some.inj goes
    refine h.of_succeeds (by simp [Term.vars]) fun f holds => ?_
    rw [Outline.map_add]
    exact holds.int value
  | bigint value =>
    obtain rfl := Option.some.inj goes
    rw [call, bigint]
    split
    · next small same =>
      refine h.of_succeeds (by simp [Term.vars]) fun f holds => ?_
      rw [Outline.map_add, ← toInt_of_int64?_eq_some same]
      exact holds.int small
    · next beyond =>
      exact ⟨_, rfl, h.leaf rfl (fun f => rfl) fun f => smallElement?_of_int64?_eq_none beyond⟩
  | float value =>
    obtain rfl := Option.some.inj goes
    exact ⟨_, rfl, h.leaf rfl (fun f => rfl) fun f => rfl⟩
  | var name =>
    obtain rfl := Option.some.inj goes
    exact ⟨_, rfl, h.var name⟩
  | fullStop => cases goes
  | flush =>
    obtain rfl := Option.some.inj goes
    obtain ⟨sink', eq, -, -⟩ := (accepts rfl).flush
    refine ⟨{ e with sink := sink' }, ?_, h.of_holds rfl rfl fun f holds => ⟨holds.1, holds.2, holds.3⟩⟩
    rw [call, flush, eq]
    rfl

/-- Any other call is refused. -/
theorem Progress.call_error {e : Encoder} {o : Outline String} {c : Call} (h : e.Progress o)
    (small : fitsSoFar o = true) (going : c ≠ .fullStop)
    (stuck : ∀ o', o.step c = some o' → fitsSoFar o' = false) : ∃ cause, e.call c = e.fail cause := by
  obtain ⟨f, holds⟩ := h.exists_gathered
  cases c with
  | closeTerm =>
    obtain ⟨whole, _ | ⟨⟨functor, parts⟩ | parts, outer⟩⟩ := o
    · have outermost := holds.located.eq_nil
      exact ⟨_, by rw [call, closeTerm, outermost]⟩
    · have many : maxArity < parts.length := by
        have exceeds := stuck _ rfl
        rw [fitsSoFar, Outline.all_add, fits, fitsAll_eq_all] at exceeds
        rw [fitsSoFar, Outline.all_cons_compound, Bool.true_and, Bool.and_eq_true] at small
        rw [small.1, small.2, Bool.and_true, Bool.true_and, decide_eq_false_iff_not] at exceeds
        exact Nat.not_le.mp exceeds
      exact ⟨_, holds.closeTerm_of_maxArity_lt (by rwa [List.length_map])⟩
    · obtain ⟨c, cs, same, fits, -⟩ := holds.located.exists_cons
      obtain rfl := fits.of_list
      exact ⟨_, by rw [call, closeTerm, same]⟩
  | closeList =>
    obtain ⟨whole, _ | ⟨⟨functor, parts⟩ | parts, outer⟩⟩ := o
    · have outermost := holds.located.eq_nil
      exact ⟨_, by rw [call, closeList, outermost]⟩
    · obtain ⟨c, cs, same, fits, -⟩ := holds.located.exists_cons
      obtain ⟨position, rfl, -⟩ := fits.of_compound
      exact ⟨_, by rw [call, closeList, same]⟩
    · have exceeds := stuck _ rfl
      rw [fitsSoFar, Outline.all_add, fits, fitsAll_eq_all] at exceeds
      rw [fitsSoFar, Outline.all_cons_list, exceeds] at small
      cases small
  | fullStop => exact absurd rfl going
  | _ =>
    have exceeds := stuck _ rfl
    rw [fitsSoFar] at small exceeds
    simp [small, fits, fitsAll] at exceeds

/-- The encoder is where an outline is, and the sink has the sentences before this one. -/
structure At (sent : List UInt8) (e : Encoder) (o : Outline String) : Prop where
  progress : e.Progress o
  small : fitsSoFar o = true
  unfailed : e.failed = false
  accepts : e.sink.Accepting
  content : e.sink.content = sent

/-- The encoder has refused a call of the sentence, and the sink has the sentences before this one. -/
structure Refused (sent : List UInt8) (e : Encoder) : Prop where
  failed : e.failed = true
  accepts : e.sink.Accepting
  content : e.sink.content = sent

/-- The encoder goes on with everything but a compound with too many arguments, and before the full
stop nothing comes to the sink. -/
theorem keepsUp (sent : List UInt8) : KeepsUp call (At sent) fitsSoFar (Refused sent) where
  takes_of_at h := h.small
  takes_of_step := fitsSoFar_of_step
  call_ok {e o o' c} h goes small := by
    have going : c ≠ .fullStop := by
      rintro rfl
      cases goes
    obtain ⟨e', eq, progress⟩ := h.progress.call_ok (fun _ => h.accepts) goes small
    obtain ⟨e'', eq', failed, content, accepts⟩ | ⟨cause, eq'⟩ := e.call_cases h.accepts going
    · obtain rfl := (Prod.mk.inj (eq.symm.trans eq')).2
      exact ⟨e', eq, progress, small, failed.trans h.unfailed, accepts, content.trans h.content⟩
    · cases eq.symm.trans eq'
  call_error {e o c} h going stuck := by
    obtain ⟨cause, eq⟩ := h.progress.call_error h.small going stuck
    exact ⟨cause, _, eq, rfl, h.accepts, h.content⟩
  failed_call {e c} h going := by
    obtain ⟨e', eq, failed, content, accepts⟩ | ⟨cause, eq⟩ := e.call_cases h.accepts going
    · rw [eq]
      exact ⟨failed.trans h.failed, accepts, content.trans h.content⟩
    · rw [eq]
      exact ⟨rfl, h.accepts, h.content⟩

end Encoder

end PrologWire.Sicstus
