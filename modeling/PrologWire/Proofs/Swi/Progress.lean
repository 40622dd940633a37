import PrologWire.Proofs.Sentence.Numbering
import PrologWire.Proofs.Sentence.Run
import PrologWire.Proofs.Swi.Gathered

/-!
# The calls of a sentence one by one

`Progress` says that an encoder is where the outline of a sentence is: its table has the names so
far, and whatever names come later, it has gathered what their numbers in the whole sentence give.
`keepsUp` says that a call succeeds if the outline can go on with it and the receiver takes what it
brings.
-/

namespace PrologWire.Swi

/-- The receiver takes all that there is in an outline. -/
def takesSoFar {ν : Type} (c : Config) (o : Outline ν) : Bool :=
  o.all (takes c) fun name => c.admits name.toList

/-- An integer outside 64 bits has no place in a word of any receiver. -/
theorem holds_eq_false_of_int64?_eq_none {value : Int} (h : int64? value = none) (c : Config) :
    c.holds value = false := by
  unfold int64? at h
  split at h
  · cases h
  · next beyond =>
    rw [Int64.toInt_minValue, Int64.toInt_maxValue] at beyond
    have limit : c.intLimit ≤ 2 ^ 55 := by
      rw [Config.intLimit, Config.intBits]
      cases c.wordSize <;> decide
    refine Bool.eq_false_iff.mpr fun small => beyond ?_
    rw [Config.holds, Bool.and_eq_true, decide_eq_true_eq, decide_eq_true_eq] at small
    omega

namespace Encoder

/-- The encoder is where an outline is. -/
def Progress (c : Config) (sent : List UInt8) (e : Encoder) (o : Outline String) : Prop :=
  PrologWire.Progress e.vars.names (Holds c sent false e) o

namespace Progress

variable {c : Config} {sent : List UInt8} {e e' : Encoder} {o o' : Outline String}

/-- The encoder is the one for `c`. -/
theorem config_eq (h : Progress c sent e o) : e.config = c := by
  obtain ⟨f, holds⟩ := h.exists_gathered
  exact holds.config

/-- Without variables a step is one for every numbering. -/
theorem of_holds (h : Progress c sent e o) (vars : e'.vars = e.vars) (same : o'.vars = o.vars)
    (holds : ∀ f : String → Nat, Holds c sent false e (o.map f) →
      Holds c sent false e' (o'.map f)) : Progress c sent e' o' := by
  rw [Encoder.Progress, vars]
  exact h.step same holds

/-- A step without variables that succeeds for every numbering. -/
theorem of_succeeds {r : Answer × Encoder} (h : Progress c sent e o) (same : o'.vars = o.vars)
    (succeeds : ∀ f : String → Nat, Holds c sent false e (o.map f) →
      ∃ e', r = (.ok (), e') ∧ Holds c sent false e' (o'.map f) ∧ e'.vars = e.vars) :
    ∃ e', r = (.ok (), e') ∧ Progress c sent e' o' :=
  PrologWire.Progress.of_succeeds Encoder.vars (Holds c sent false) h same succeeds

/-- An integer that fits into a word of the receiver. -/
theorem int (h : Progress c sent e o) {value : Int64} (small : c.holds value.toInt = true) :
    ∃ e', e.int value = (.ok (), e') ∧ Progress c sent e' (o.add (.integer value.toInt)) := by
  refine h.of_succeeds (by simp [Term.vars]) fun f holds => ?_
  have fits : e.config.holdsInt value = true := h.config_eq ▸ small
  rw [Encoder.int, if_pos fits, Outline.map_add, directIntHeader, h.config_eq]
  exact holds.lone (t := .integer value.toInt) rfl

/-- A variable, whose number is its place in the whole sentence. -/
theorem var (h : Progress c sent e o) (name : String) :
    Progress c sent (e.var name).2 (o.add (.var name)) := by
  have vars : (e.var name).2.vars = (e.vars.ordinal name).2 := by
    rw [← vars_beginTerm e]
    rfl
  rw [Encoder.Progress, vars]
  refine PrologWire.Progress.var h name fun o holds => ?_
  obtain ⟨config, content, located, counted, unfailed, accepts, delivered⟩ :=
    holds.variable (e.vars.ordinal name).1
  simp only [Encoder.var, vars_beginTerm]
  exact ⟨config, content, located, counted, unfailed, accepts, delivered⟩

end Progress

/-! ## Calls -/

variable {c : Config} {sent : List UInt8}

/-- A call that an outline can go on with succeeds if the receiver takes what it brings. -/
theorem Progress.call_ok {e : Encoder} {o o' : Outline String} {x : Call}
    (h : Progress c sent e o) (goes : o.step x = some o') (taken : takesSoFar c o' = true) :
    ∃ e', e.call x = (.ok (), e') ∧ Progress c sent e' o' := by
  cases x with
  | openTerm functor =>
    obtain rfl := Option.some.inj goes
    rw [takesSoFar, Outline.all_push_compound, Bool.and_eq_true] at taken
    exact h.of_succeeds (by simp) fun f holds => holds.openTerm taken.2
  | closeTerm =>
    obtain ⟨whole, functor, parts, outer, rfl, rfl⟩ := Outline.closeTerm?_eq_some goes
    refine h.of_succeeds (Outline.vars_closeTerm? goes) fun f holds => ?_
    rw [Outline.map_add, Term.map_compound]
    rcases parts with _ | ⟨part, parts⟩
    · exact holds.closeTerm_nil
    · exact holds.closeTerm_cons
  | openList =>
    obtain rfl := Option.some.inj goes
    exact ⟨_, rfl, h.of_holds (vars_beginTerm e) (by simp) fun f holds => holds.openList⟩
  | closeList =>
    obtain ⟨whole, parts, outer, rfl, rfl⟩ := Outline.closeList?_eq_some goes
    refine h.of_succeeds (Outline.vars_closeList? goes) fun f holds => ?_
    rw [Outline.map_add, Term.map_list]
    exact holds.closeList
  | emptyList =>
    obtain rfl := Option.some.inj goes
    refine h.of_succeeds (by simp [Term.vars, Term.varsAll]) fun f holds => ?_
    obtain ⟨e', eq, holds', vars⟩ := holds.openList.closeList
    exact ⟨e', eq, by simpa [Term.map_list] using holds', vars.trans (vars_beginTerm e)⟩
  | atom name =>
    obtain rfl := Option.some.inj goes
    rw [takesSoFar, Outline.all_add, takes_atom, Bool.and_eq_true] at taken
    refine h.of_succeeds (by simp [Term.vars]) fun f holds => ?_
    rw [call, atom, h.config_eq, if_pos taken.2, Outline.map_add, directAtomHeader, h.config_eq]
    exact holds.lone (t := .atom name) rfl
  | int value =>
    obtain rfl := Option.some.inj goes
    rw [takesSoFar, Outline.all_add, takes_integer, Bool.and_eq_true] at taken
    exact h.int taken.2
  | bigint value =>
    obtain rfl := Option.some.inj goes
    rw [takesSoFar, Outline.all_add, takes_integer, Bool.and_eq_true] at taken
    rw [call, bigint]
    split
    · next small same =>
      rw [← toInt_of_int64?_eq_some same] at taken ⊢
      exact h.int taken.2
    · next beyond =>
      rw [holds_eq_false_of_int64?_eq_none beyond] at taken
      cases taken.2
  | float value =>
    obtain rfl := Option.some.inj goes
    refine ⟨_, rfl, h.of_holds (vars_float e value) (by simp [Term.vars]) fun f holds => ?_⟩
    rw [Outline.map_add]
    exact holds.float value
  | var name =>
    obtain rfl := Option.some.inj goes
    exact ⟨_, rfl, h.var name⟩
  | fullStop => cases goes
  | flush =>
    obtain rfl := Option.some.inj goes
    obtain ⟨f, holds⟩ := h.exists_gathered
    obtain ⟨sink', eq, content, accepts⟩ := holds.accepts.flush
    refine ⟨{ e with sink := sink' }, ?_, h.of_holds rfl rfl fun f holds => ?_⟩
    · rw [call, flush, eq]
      rfl
    · obtain ⟨config, gathered, located, counted, unfailed, -, delivered⟩ := holds
      exact ⟨config, gathered, located, counted, unfailed, accepts, content.trans delivered⟩

/-- Any other call is refused. -/
theorem Progress.call_error {e : Encoder} {o : Outline String} {x : Call}
    (h : Progress c sent e o) (taken : takesSoFar c o = true) (going : x ≠ .fullStop)
    (stuck : ∀ o', o.step x = some o' → takesSoFar c o' = false) :
    ∃ cause, e.call x = e.fail cause := by
  obtain ⟨f, holds⟩ := h.exists_gathered
  have int (value : Int64) (large : c.holds value.toInt = false) :
      ∃ cause, e.int value = e.fail cause := by
    have beyond : ¬e.config.holdsInt value = true := by
      rw [h.config_eq]
      exact Bool.eq_false_iff.mp large
    exact ⟨_, by rw [Encoder.int, if_neg beyond]⟩
  cases x with
  | openTerm functor =>
    have refused := stuck _ rfl
    rw [takesSoFar] at taken refused
    rw [Outline.all_push_compound, taken, Bool.true_and] at refused
    exact ⟨_, by rw [call, openTerm, h.config_eq, if_neg (Bool.eq_false_iff.mp refused)]⟩
  | closeTerm =>
    obtain ⟨whole, _ | ⟨⟨functor, parts⟩ | parts, outer⟩⟩ := o
    · have outermost := holds.located.eq_nil
      exact ⟨_, by rw [call, closeTerm, outermost]⟩
    · have refused := stuck _ rfl
      rw [takesSoFar] at taken refused
      rw [Outline.all_add, takes_compound, ← Outline.all_cons_compound, taken] at refused
      cases refused
    · obtain ⟨y, ys, same, fits, -⟩ := holds.located.exists_cons
      obtain rfl := fits.of_list
      exact ⟨_, by rw [call, closeTerm, same]⟩
  | closeList =>
    obtain ⟨whole, _ | ⟨⟨functor, parts⟩ | parts, outer⟩⟩ := o
    · have outermost := holds.located.eq_nil
      exact ⟨_, by rw [call, closeList, outermost]⟩
    · obtain ⟨y, ys, same, fits, -⟩ := holds.located.exists_cons
      obtain rfl := fits.of_compound
      exact ⟨_, by rw [call, closeList, same]⟩
    · have refused := stuck _ rfl
      rw [takesSoFar] at taken refused
      rw [Outline.all_add, takes_list, ← Outline.all_cons_list, taken] at refused
      cases refused
  | atom name =>
    have refused := stuck _ rfl
    rw [takesSoFar] at taken refused
    rw [Outline.all_add, taken, takes_atom, Bool.true_and] at refused
    exact ⟨_, by rw [call, atom, h.config_eq, if_neg (Bool.eq_false_iff.mp refused)]⟩
  | int value =>
    have refused := stuck _ rfl
    rw [takesSoFar] at taken refused
    rw [Outline.all_add, taken, takes_integer, Bool.true_and] at refused
    exact int value refused
  | bigint value =>
    have refused := stuck _ rfl
    rw [takesSoFar] at taken refused
    rw [Outline.all_add, taken, takes_integer, Bool.true_and] at refused
    rw [call, bigint]
    split
    · next small same =>
      rw [← toInt_of_int64?_eq_some same] at refused
      exact int small refused
    · exact ⟨_, rfl⟩
  | fullStop => exact absurd rfl going
  | _ =>
    have refused := stuck _ rfl
    rw [takesSoFar] at taken refused
    simp [taken] at refused

@[simp] theorem failed_beginTerm (e : Encoder) : e.beginTerm.failed = e.failed := by
  unfold beginTerm
  split <;> rfl

@[simp] theorem failed_putClosed (e : Encoder) (bs : List UInt8) :
    (e.putClosed bs).2.failed = e.failed := by
  unfold putClosed
  split <;> rfl

/-- A failure lasts until the full stop. -/
theorem failed_call {e : Encoder} {x : Call} (failed : e.failed = true) (going : x ≠ .fullStop) :
    (e.call x).2.failed = true := by
  have int (value : Int64) : (e.int value).2.failed = true := by
    unfold Encoder.int
    split
    · split
      · exact failed
      · exact (failed_beginTerm e).trans failed
    · rfl
  have closeList (e : Encoder) (failed : e.failed = true) : e.closeList.2.failed = true := by
    unfold Encoder.closeList
    split
    · exact (failed_putClosed _ _).trans failed
    · rfl
  cases x with
  | openTerm functor =>
    rw [call, openTerm]
    split
    · exact (failed_beginTerm e).trans failed
    · rfl
  | closeTerm =>
    rw [call, closeTerm]
    split
    · exact (failed_putClosed _ _).trans failed
    · split
      · exact failed
      · rfl
    · rfl
  | openList => exact (failed_beginTerm e).trans failed
  | closeList => exact closeList e failed
  | emptyList => exact closeList e.openList ((failed_beginTerm e).trans failed)
  | atom name =>
    rw [call, atom]
    split
    · dsimp only
      split
      · exact failed
      · exact (failed_beginTerm e).trans failed
    · rfl
  | int value => exact int value
  | bigint value =>
    rw [call, bigint]
    split
    · exact int _
    · rfl
  | float value =>
    simp only [call, float, put]
    exact (failed_beginTerm e).trans failed
  | var name => exact (failed_beginTerm e).trans failed
  | fullStop => exact absurd rfl going
  | flush => exact failed

/-- The encoder goes on with what the receiver takes, and with nothing else. -/
theorem keepsUp (c : Config) (sent : List UInt8) :
    KeepsUp call (fun e o => Progress c sent e o ∧ takesSoFar c o = true) (takesSoFar c)
      (·.failed = true) where
  takes_of_at h := h.2
  takes_of_step goes taken := by
    refine Outline.all_of_step (fun name args all => ?_) (fun elems all => ?_) goes taken
    · rwa [takes_compound, Bool.and_eq_true] at all
    · rwa [takes_list] at all
  call_ok h goes taken := by
    obtain ⟨e', eq, progress⟩ := h.1.call_ok goes taken
    exact ⟨e', eq, progress, taken⟩
  call_error h going stuck := by
    obtain ⟨cause, eq⟩ := h.1.call_error h.2 going stuck
    exact ⟨cause, _, eq, rfl⟩
  failed_call := failed_call

end Encoder

end PrologWire.Swi
