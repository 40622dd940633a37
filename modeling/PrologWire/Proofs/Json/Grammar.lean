import PrologWire.Json.Terms
import PrologWire.Proofs.Arena.Terms
import PrologWire.Proofs.Sentence.Run

/-!
# The terms that JSON values denote

`Value.term?` is the grammar: which values denote terms, and which. The script of a value makes the
calls of its term, whatever stands before them, or ends in a failure if the value denotes none. The
grammar and the scripts are recursions of the same shape, so that one lemma for scripts in a row and one
for a script between two calls are all that the comparison needs.
-/

namespace PrologWire

/-! ## What scripts denote -/

/-- The script makes the calls of the terms and has no failure; or it has one, if there are no terms.
It never makes a full stop. -/
def Script.Denotes (s : Script) : Option (List (Term String)) → Prop
  | some ts => s.failure = none ∧ ∀ o : Outline String, o.follow s.calls = some (ts.foldl .add o)
  | none => s.failure ≠ none ∧ Call.fullStop ∉ s.calls

namespace Script

theorem denotes_empty : empty.Denotes (some []) := ⟨rfl, fun _ => rfl⟩

theorem denotes_fail (cause : WireError) : (fail cause).Denotes none :=
  ⟨Option.some_ne_none cause, List.not_mem_nil⟩

/-- A call that adds a term. -/
theorem denotes_call {c : Call} {t : Term String} (adds : ∀ o : Outline String, o.step c = some (o.add t)) :
    (call c).Denotes (some [t]) := by
  refine ⟨rfl, fun o => ?_⟩
  have one := o.follow_concat [] c
  exact one.trans (adds o)

namespace Denotes

variable {s t : Script} {ts us : List (Term String)} {terms : Option (List (Term String))}

theorem fullStop_not_mem (h : s.Denotes terms) : Call.fullStop ∉ s.calls := by
  cases terms with
  | none => exact h.2
  | some ts => exact Outline.fullStop_not_mem (h.2 .empty)

/-- After a failure nothing comes. -/
theorem append_none (h : s.Denotes none) (t : Script) : (s ++ t).Denotes none := by
  obtain ⟨calls, _ | cause⟩ := s
  · exact absurd rfl h.1
  · exact h

/-- The terms of two scripts in a row. -/
theorem append (h : s.Denotes (some ts)) (h' : t.Denotes terms) :
    (s ++ t).Denotes (terms.map (ts ++ ·)) := by
  have calls := calls_append h.1 t
  cases terms with
  | some us =>
    refine ⟨(failure_append s t).mpr ⟨h.1, h'.1⟩, fun o => ?_⟩
    rw [calls, Outline.follow_append, h.2, List.foldl_append]
    exact h'.2 _
  | none =>
    refine ⟨fun whole => h'.1 ((failure_append s t).mp whole).2, ?_⟩
    rw [calls, List.mem_append, not_or]
    exact ⟨h.fullStop_not_mem, h'.2⟩

/-- Terms between two calls, of which the first opens something that the second closes around them. -/
theorem between {opening closing : Call} {around : List (Term String) → Term String}
    (first : opening ≠ .fullStop)
    (closes : ∀ o : Outline String, ∃ inside, o.step opening = some inside ∧
      ∀ ts, (ts.foldl Outline.add inside).step closing = some (o.add (around ts)))
    (h : s.Denotes terms) :
    (call opening ++ s ++ call closing).Denotes (terms.map fun ts => [around ts]) := by
  have opened : (call opening ++ s).calls = opening :: s.calls := calls_append rfl s
  cases terms with
  | none =>
    -- the closing call is not made
    have failed : (call opening ++ s).Denotes none := by
      refine ⟨fun whole => h.1 ((failure_append _ s).mp whole).2, ?_⟩
      rw [opened, List.mem_cons, not_or]
      exact ⟨first.symm, h.2⟩
    exact failed.append_none _
  | some ts =>
    have whole : (call opening ++ s).failure = none := (failure_append _ s).mpr ⟨rfl, h.1⟩
    refine ⟨(failure_append _ _).mpr ⟨whole, rfl⟩, fun o => ?_⟩
    obtain ⟨inside, opens, closed⟩ := closes o
    have before : o.follow (opening :: s.calls) = some (ts.foldl Outline.add inside) := by
      rw [Outline.follow, opens]
      exact h.2 inside
    rw [calls_append whole, opened]
    show o.follow (opening :: s.calls ++ [closing]) = _
    rw [Outline.follow_concat, before]
    exact closed ts

/-- Playing a script to a consumer that keeps up with outlines either goes well and leaves the consumer
where the terms of the script are whole, or fails, and then there are no such terms or they cannot be
written. -/
theorem run_cases {σ : Type} {consume : σ → Call → Answer × σ} {At : σ → Outline String → Prop}
    {takes : Outline String → Bool} {Failed : σ → Prop} (k : KeepsUp consume At takes Failed)
    (h : s.Denotes terms) {state : σ} {o : Outline String} (here : At state o) :
    (∃ ts after, terms = some ts ∧ s.run consume state = (.ok (), after) ∧
      At after (ts.foldl .add o)) ∨
    ∃ cause after, s.run consume state = (.error cause, after) ∧
      (Failed after ∨ ∃ o', At after o') ∧
      ∀ ts, terms = some ts → takes (ts.foldl .add o) = false := by
  obtain ⟨o', after, follows, eq, there⟩ | ⟨cause, after, eq, failed, useless⟩ :=
    k.makeCalls_cases here h.fullStop_not_mem s.lastAnswer
  · cases terms with
    | some ts =>
      obtain rfl := Option.some.inj ((h.2 o).symm.trans follows)
      refine .inl ⟨ts, after, rfl, ?_, there⟩
      rw [run, eq, lastAnswer, h.1]
    | none =>
      -- all calls went well, but the script has a failure of its own
      obtain ⟨cause, failure⟩ := Option.ne_none_iff_exists'.mp h.1
      refine .inr ⟨cause, after, ?_, .inr ⟨o', there⟩, ?_⟩
      · rw [run, eq, lastAnswer, failure]
      · intro ts denotes
        cases denotes
  · refine .inr ⟨cause, after, eq, .inl failed, ?_⟩
    rintro ts rfl
    exact useless _ (h.2 o)

/-- A list of terms. -/
theorem list (h : s.Denotes terms) :
    (call .openList ++ s ++ call .closeList).Denotes (terms.map fun ts => [.list ts]) := by
  refine h.between Call.noConfusion fun o => ⟨o.push (.list []), rfl, fun ts => ?_⟩
  rw [Outline.push, Outline.foldl_add_list]
  rfl

/-- A compound of terms. -/
theorem compound (h : s.Denotes terms) (functor : String) :
    (call (.openTerm functor) ++ s ++ call .closeTerm).Denotes
      (terms.map fun ts => [.compound functor ts]) := by
  refine h.between Call.noConfusion fun o => ⟨o.push (.compound functor []), rfl, fun ts => ?_⟩
  rw [Outline.push, Outline.foldl_add_compound]
  rfl

end Denotes

end Script

/-! ## The grammar -/

namespace Json

/-- The term of a number. -/
def Number.term : Number → Term String
  | integer value => .integer value
  | real value => .float value

/-- The term of a value with a tag, if it has one. -/
def tagged? (key : String) (value : Value) : Option (Term String) :=
  match key, value with
  | "var", .string name => some (.var name)
  | "atom", .string name => some (.atom name)
  | "int", .string digits => (Text.readInt? digits.toList).map .integer
  | "int", .number (.integer i) => some (.integer i)
  | "float", .number n => some (.float n.toReal)
  | _, _ => none

/-- A compound; without arguments it is an atom. -/
def compoundOrAtom (functor : String) (args : List (Term String)) : Term String :=
  if args.isEmpty then .atom functor else .compound functor args

namespace Value

mutual

/-- The term that a value denotes, if it denotes one. -/
def term? : Value → Option (Term String)
  | null => none
  | bool _ => none
  | number n => some n.term
  | string s => some (.atom s)
  | array items => (termAll? items).map .list
  | object members =>
    match member? "func" members with
    | none =>
      match members with
      | [(key, value)] => tagged? key value
      | _ => none
    | some (string functor) =>
      if onlyCompoundKeys members then (argTerms? members).map (compoundOrAtom functor) else none
    | some _ => none

/-- The terms that values denote, if each denotes one. -/
def termAll? : List Value → Option (List (Term String))
  | [] => some []
  | v :: rest =>
    match v.term? with
    | some t => (termAll? rest).map (t :: ·)
    | none => none

/-- The arguments among the members of an object. Where there are none, the object has no arguments. -/
def argTerms? : List (String × Value) → Option (List (Term String))
  | [] => some []
  | (key, value) :: rest =>
    if key = "args" then
      match value with
      | array items => termAll? items
      | _ => none
    else argTerms? rest

end

end Value

/-! ## Scripts follow the grammar -/

theorem denotes_number (n : Number) : (Script.call n.call).Denotes (some [n.term]) := by
  cases n with
  | real value => exact Script.denotes_call fun o => rfl
  | integer value =>
    apply Script.denotes_call
    intro o
    rw [Number.call, Number.term]
    split
    · next small same =>
      rw [← toInt_of_int64?_eq_some same]
      rfl
    · rfl

/-- A value with a tag. -/
theorem denotes_tagged (key : String) (value : Value) :
    (callOrRefuse (tagged key value)).Denotes ((tagged? key value).map ([·])) := by
  fun_cases tagged key value with
  | case1 name => exact Script.denotes_call fun o => rfl
  | case2 name => exact Script.denotes_call fun o => rfl
  | case3 digits i read =>
    rw [tagged?, read]
    exact Script.denotes_call fun o => rfl
  | case4 digits unread =>
    rw [tagged?, unread]
    exact Script.denotes_fail _
  | case5 i => exact denotes_number (.integer i)
  | case6 n => exact Script.denotes_call fun o => rfl
  | case7 key value =>
    rw [tagged?]
    · exact Script.denotes_fail _
    all_goals assumption

/-- What there is of the arguments of an object: a failure, none, or the calls for
one or more. -/
def ArgsDenote : Except JsonError (Option Script) → Option (List (Term String)) → Prop
  | .error _, terms => terms = none
  | .ok none, terms => terms = some []
  | .ok (some s), terms => s.Denotes terms ∧ terms ≠ some []

namespace Value

/-- The terms of one value or more are one or more. -/
theorem termAll?_cons_ne (v : Value) (rest : List Value) : termAll? (v :: rest) ≠ some [] := by
  rw [termAll?]
  rcases v.term? with _ | t
  · exact nofun
  · rcases termAll? rest with _ | ts <;> exact nofun

/-- A compound with one argument or more is no atom. -/
theorem denotes_compoundOrAtom (functor : String) {s : Script} {terms : Option (List (Term String))}
    (parts : s.Denotes terms) (parted : terms ≠ some []) :
    (.call (.openTerm functor) ++ s ++ .call .closeTerm : Script).Denotes
      ((terms.map (compoundOrAtom functor)).map ([·])) := by
  have whole := parts.compound functor
  rcases terms with _ | _ | ⟨t, ts⟩
  · exact whole
  · exact absurd rfl parted
  · exact whole

/-- An object, whose arguments are known. -/
theorem denotes_object {members : List (String × Value)}
    (args : ArgsDenote (argsScript members) (argTerms? members)) :
    (object members).script.Denotes ((object members).term?.map ([·])) := by
  rw [script.eq_def, term?.eq_def]
  dsimp only
  rcases member? "func" members with _ | found
  · -- no functor: the only member is a tag with its value
    rcases members with _ | ⟨⟨key, value⟩, _ | ⟨second, rest⟩⟩
    · exact Script.denotes_fail _
    · exact denotes_tagged key value
    · exact Script.denotes_fail _
  · cases found with
    | string functor =>
      revert args
      rcases argsScript members with found | _ | s
      · intro args
        have none : argTerms? members = none := args
        rw [none]
        rcases onlyCompoundKeys members with _ | _ <;> exact Script.denotes_fail _
      · intro args
        have none : argTerms? members = some [] := args
        rw [none]
        rcases onlyCompoundKeys members with _ | _
        · exact Script.denotes_fail _
        · exact Script.denotes_call fun o => rfl
      · rintro ⟨parts, parted⟩
        rcases onlyCompoundKeys members with _ | _
        · exact Script.denotes_fail _
        · exact denotes_compoundOrAtom functor parts parted
    | _ => exact Script.denotes_fail _

mutual

/-- The script of a value makes the calls of its term, or fails if it denotes none. -/
theorem denotes_script : ∀ v : Value, v.script.Denotes (v.term?.map ([·]))
  | null => Script.denotes_fail _
  | bool _ => Script.denotes_fail _
  | number n => denotes_number n
  | string s => Script.denotes_call fun o => rfl
  | array [] => Script.denotes_call fun o => rfl
  | array (v :: rest) => by
    have parts := (denotes_scriptAll (v :: rest)).list
    rw [script, term?, Option.map_map]
    · exact parts
    · exact nofun
  | object members => denotes_object (denotes_argsScript members)

/-- The scripts of values in a row. -/
theorem denotes_scriptAll : ∀ vs : List Value, (scriptAll vs).Denotes (termAll? vs)
  | [] => Script.denotes_empty
  | v :: rest => by
    have first := denotes_script v
    have others := denotes_scriptAll rest
    rw [scriptAll, termAll?]
    cases term : v.term? with
    | none =>
      rw [term] at first
      exact first.append_none _
    | some t =>
      rw [term] at first
      exact first.append others

/-- The arguments among the members of an object. -/
theorem denotes_argsScript : ∀ members : List (String × Value),
    ArgsDenote (argsScript members) (argTerms? members)
  | [] => rfl
  | (key, value) :: rest => by
    have others := denotes_argsScript rest
    rw [argsScript.eq_def, argTerms?.eq_def]
    dsimp only
    by_cases named : key = "args"
    · rw [if_pos named, if_pos named]
      cases value with
      | array items =>
        cases items with
        | nil => rfl
        | cons v vs => exact ⟨denotes_scriptAll (v :: vs), termAll?_cons_ne v vs⟩
      | _ => rfl
    · rw [if_neg named, if_neg named]
      exact others

end

end Value

end Json

end PrologWire
