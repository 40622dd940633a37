import PrologWire.Proofs.Sentence.Outline

/-!
# One spelling for every term

Different calls can describe the same term in an arena: a compound that is closed without arguments is an
atom, an atom `[]` is the empty list, and an integer of any size may have 64 bits. `rewritten` turns these
into each other from the right to the left, and leaves of any calls for a term the calls that `Term.calls`
has for it.
-/

namespace PrologWire

/-! ## Rewriting calls -/

namespace Call

/-- The same in calls that no consumer is without: an empty list is opened and closed. To pass on what was
received is no part of a term. -/
def spelled : Call → List Call
  | .emptyList => [.openList, .closeList]
  | .flush => []
  | c => [c]

/-- The calls for an atom; the atom `[]` is an empty list. -/
def ofName (name : String) : List Call :=
  if name = "[]" then [.openList, .closeList] else [.atom name]

/-- The call for an integer, which is the one for 64 bits if it has so many. -/
def ofInteger (value : Int) : Call :=
  match int64? value with
  | some small => .int small
  | none => .bigint value

/-- Puts a call before others that are rewritten already. -/
def amend : Call → List Call → List Call
  | .openTerm functor, .closeTerm :: rest => ofName functor ++ rest
  | .atom name, rest => ofName name ++ rest
  | .bigint value, rest => ofInteger value :: rest
  | c, rest => c :: rest

/-- The calls with an atom for every compound that is closed without arguments, an empty list for every
atom `[]`, and the call for 64 bits for every integer that has so many. -/
def rewritten (calls : List Call) : List Call := calls.foldr amend []

theorem ofInteger_toInt (value : Int64) : ofInteger value.toInt = .int value := by
  rw [ofInteger, int64?_toInt]

/-- No closing call comes first. -/
theorem exists_ofName_eq_cons (name : String) : ∃ c rest, ofName name = c :: rest ∧ c ≠ .closeTerm := by
  unfold ofName
  split
  · exact ⟨_, _, rfl, Call.noConfusion⟩
  · exact ⟨_, _, rfl, Call.noConfusion⟩

/-- A compound with something in it stays open. -/
theorem amend_openTerm_of_ne (functor : String) {c : Call} (other : c ≠ .closeTerm) (rest : List Call) :
    amend (.openTerm functor) (c :: rest) = .openTerm functor :: c :: rest := by
  cases c with
  | closeTerm => exact absurd rfl other
  | _ => rfl

end Call

namespace Term

mutual

/-- The calls for a term in an arena. -/
def calls : Term String → List Call
  | atom name => Call.ofName name
  | integer value => [Call.ofInteger value]
  | float value => [.float value]
  | var name => [.var name]
  | compound functor args =>
    if args.isEmpty then Call.ofName functor
    else .openTerm functor :: (callsAll args ++ [.closeTerm])
  | list elems => .openList :: (callsAll elems ++ [.closeList])

/-- The calls for terms, one after the other. -/
def callsAll : List (Term String) → List Call
  | [] => []
  | t :: rest => t.calls ++ callsAll rest

end

theorem callsAll_append (ts us : List (Term String)) :
    callsAll (ts ++ us) = callsAll ts ++ callsAll us := by
  induction ts with
  | nil => rfl
  | cons t rest ih => rw [List.cons_append, callsAll, ih, callsAll, List.append_assoc]

/-- The calls for a term begin with one that closes no compound. -/
theorem exists_calls_eq_cons (t : Term String) : ∃ c rest, t.calls = c :: rest ∧ c ≠ .closeTerm := by
  cases t with
  | atom name => exact Call.exists_ofName_eq_cons name
  | integer value =>
    rw [calls, Call.ofInteger]
    split
    · exact ⟨_, _, rfl, Call.noConfusion⟩
    · exact ⟨_, _, rfl, Call.noConfusion⟩
  | compound functor args =>
    rw [calls]
    split
    · exact Call.exists_ofName_eq_cons functor
    · exact ⟨_, _, rfl, Call.noConfusion⟩
  | float value | var name | list elems => exact ⟨_, _, rfl, Call.noConfusion⟩

/-- What is opened and closed around arguments are the calls for the compound. -/
theorem amend_openTerm (functor : String) (args : List (Term String)) (rest : List Call) :
    Call.amend (.openTerm functor) (callsAll args ++ .closeTerm :: rest) =
      (compound functor args).calls ++ rest := by
  cases args with
  | nil => rfl
  | cons t others =>
    obtain ⟨c, more, first, other⟩ := t.exists_calls_eq_cons
    rw [calls, callsAll, first]
    show Call.amend _ (c :: (more ++ callsAll others ++ .closeTerm :: rest)) = _
    rw [Call.amend_openTerm_of_ne functor other]
    simp

end Term

/-! ## Rewriting the rest of a sentence -/

namespace Unclosed

/-- The call that opened it. -/
def opening : Unclosed String → Call
  | compound functor _ => .openTerm functor
  | list _ => .openList

/-- The calls so far of what is open, the innermost first, before rewritten ones. -/
def before : List (Unclosed String) → List Call → List Call
  | [], rest => rest
  | u :: outer, rest => before outer (u.opening.amend (Term.callsAll u.parts ++ rest))

end Unclosed

namespace Outline

/-- The calls so far before rewritten ones. -/
def before (o : Outline String) (rest : List Call) : List Call :=
  Term.callsAll o.whole ++ Unclosed.before o.unclosed rest

/-- One more whole term is before the rest. -/
theorem before_add (o : Outline String) (t : Term String) (rest : List Call) :
    (o.add t).before rest = o.before (t.calls ++ rest) := by
  obtain ⟨whole, _ | ⟨u, outer⟩⟩ := o
  · show Term.callsAll (whole ++ [t]) ++ rest = Term.callsAll whole ++ (t.calls ++ rest)
    rw [Term.callsAll_append, Term.callsAll, Term.callsAll, List.append_nil, List.append_assoc]
  · show Term.callsAll whole ++ Unclosed.before outer ((u.add t).opening.amend _) =
      Term.callsAll whole ++ Unclosed.before outer (u.opening.amend _)
    rw [Unclosed.parts_add, Term.callsAll_append, Term.callsAll, Term.callsAll, List.append_nil,
      List.append_assoc]
    cases u <;> rfl

/-- To go on by a call is to rewrite one call more. -/
theorem before_step {o o' : Outline String} {c : Call} (steps : o.step c = some o')
    (rest : List Call) : o'.before rest = o.before (c.spelled.foldr Call.amend rest) := by
  cases c with
  | openTerm functor | openList =>
    -- the call stands before the rest by the definition of what is open
    obtain rfl := Option.some.inj steps
    rfl
  | closeTerm =>
    obtain ⟨whole, functor, parts, outer, rfl, rfl⟩ := closeTerm?_eq_some steps
    rw [before_add, ← Term.amend_openTerm]
    rfl
  | closeList =>
    obtain ⟨whole, parts, outer, rfl, rfl⟩ := closeList?_eq_some steps
    rw [before_add, Term.calls, List.cons_append, List.append_assoc]
    rfl
  | int value =>
    obtain rfl := Option.some.inj steps
    rw [before_add, Term.calls, Call.ofInteger_toInt]
    rfl
  | emptyList | atom name | bigint value | float value | var name =>
    obtain rfl := Option.some.inj steps
    exact before_add o _ rest
  | fullStop => cases steps
  | flush =>
    obtain rfl := Option.some.inj steps
    rfl

theorem before_follow {o o' : Outline String} {cs : List Call} (follows : o.follow cs = some o')
    (rest : List Call) : o'.before rest = o.before ((cs.flatMap Call.spelled).foldr Call.amend rest) := by
  induction cs generalizing o with
  | nil =>
    obtain rfl := Option.some.inj follows
    rfl
  | cons c later ih =>
    rw [follow] at follows
    split at follows
    · next after steps =>
      rw [ih follows, before_step steps, List.flatMap_cons, List.foldr_append]
    · cases follows

end Outline

/-- Of all calls for a term the same are left when they are rewritten. -/
theorem Call.rewritten_of_ofCalls? {cs : List Call} {t : Term String}
    (describes : Term.ofCalls? cs = some [t]) : rewritten (cs.flatMap spelled) = t.calls := by
  have all := Outline.before_follow (Term.ofCalls?_eq_some.mp describes) []
  show (cs.flatMap spelled).foldr amend [] = _
  have whole : Outline.before ⟨[t], []⟩ [] = t.calls := by
    show t.calls ++ [] ++ [] = _
    rw [List.append_nil, List.append_nil]
  rw [← whole, all]
  rfl

end PrologWire
