import PrologWire.Arena.Calls
import PrologWire.Proofs.Sentence.Outline

/-!
# The term of a tree

A tree stands for a term if nothing in it is broken, a string or a tuple, and the digits of its big
integers can be read. `Tree.script` makes the calls of this term, and ends in a failure if there is
none.
-/

namespace PrologWire

/-- The term that a leaf stands for. -/
def Leaf.term? : Leaf → Option (Term String)
  | int value => some (.integer value.toInt)
  | bigint digits => (Text.readInt? digits.toList).map .integer
  | real value => some (.float value)
  | var name => some (.var name)
  | atom name => some (.atom name)
  | str _ => none

namespace Tree

mutual

/-- The term that a tree stands for. -/
def term? : Tree → Option (Term String)
  | leaf l => l.term?
  | list elems => (termAll? elems).map .list
  | func functor args =>
    match functor.functorName with
    | .ok name => (termAll? args).map (.compound name)
    | .error _ => none
  | tuple _ => none
  | broken _ => none

/-- The terms that trees stand for, if each stands for one. -/
def termAll? : List Tree → Option (List (Term String))
  | [] => some []
  | t :: rest =>
    match t.term?, termAll? rest with
    | some u, some us => some (u :: us)
    | _, _ => none

end

/-- A tree with a term in a row of trees with terms. -/
theorem termAll?_cons_eq_some {t : Tree} {rest : List Tree} {us : List (Term String)} :
    termAll? (t :: rest) = some us ↔
      ∃ u us', t.term? = some u ∧ termAll? rest = some us' ∧ us = u :: us' := by
  rw [termAll?]
  constructor
  · intro h
    split at h
    · next u us' first others => exact ⟨u, us', first, others, (Option.some.inj h).symm⟩
    · cases h
  · rintro ⟨u, us', first, others, rfl⟩
    rw [first, others]

/-- Every tree of a row has its term. -/
theorem length_eq_of_termAll? {ts : List Tree} {us : List (Term String)}
    (h : termAll? ts = some us) : us.length = ts.length := by
  induction ts generalizing us with
  | nil =>
    obtain rfl := Option.some.inj h
    rfl
  | cons t rest ih =>
    obtain ⟨u, us', -, others, rfl⟩ := termAll?_cons_eq_some.mp h
    rw [List.length_cons, List.length_cons, ih others]

end Tree

/-! ## Scripts in a row -/

namespace Script

theorem failure_append (s t : Script) :
    (s ++ t).failure = none ↔ s.failure = none ∧ t.failure = none := by
  show (append s t).failure = none ↔ _
  unfold append
  split
  · next cause failed => simp [failed]
  · next unfailed => simp [unfailed]

theorem calls_append {s : Script} (h : s.failure = none) (t : Script) :
    (s ++ t).calls = s.calls ++ t.calls := by
  show (append s t).calls = _
  rw [append, h]

/-- Scripts in a row make no other calls. -/
theorem mem_calls_append {s t : Script} {c : Call} (h : c ∈ (s ++ t).calls) :
    c ∈ s.calls ∨ c ∈ t.calls := by
  by_cases unfailed : s.failure = none
  · rw [calls_append unfailed] at h
    exact List.mem_append.mp h
  · left
    change c ∈ (append s t).calls at h
    unfold append at h
    split at h
    · exact h
    · exact absurd ‹s.failure = none› unfailed

end Script

/-! ## The script of a tree -/

namespace Outline

variable {ν : Type}

/-- Terms in something that was opened last are its parts. -/
theorem foldl_add_compound (whole : List (Term ν)) (name : String) (parts ts : List (Term ν))
    (outer : List (Unclosed ν)) :
    ts.foldl add ⟨whole, .compound name parts :: outer⟩ =
      ⟨whole, .compound name (parts ++ ts) :: outer⟩ := by
  induction ts generalizing parts with
  | nil => rw [List.foldl_nil, List.append_nil]
  | cons t rest ih =>
    rw [List.foldl_cons]
    exact (ih _).trans (by rw [List.append_assoc, List.singleton_append])

theorem foldl_add_list (whole parts ts : List (Term ν)) (outer : List (Unclosed ν)) :
    ts.foldl add ⟨whole, .list parts :: outer⟩ = ⟨whole, .list (parts ++ ts) :: outer⟩ := by
  induction ts generalizing parts with
  | nil => rw [List.foldl_nil, List.append_nil]
  | cons t rest ih =>
    rw [List.foldl_cons]
    exact (ih _).trans (by rw [List.append_assoc, List.singleton_append])

end Outline

namespace Tree

mutual

/-- A script fails at its end if and only if there is no term. -/
theorem failure_script_eq_none : ∀ t : Tree, t.script.failure = none ↔ t.term?.isSome = true
  | leaf l => by
    cases l with
    | bigint digits =>
      rw [script, term?, Leaf.call, Leaf.term?, Arena.integerOfDigits]
      rcases Text.readInt? digits.toList with _ | value <;> simp [Script.fail, Script.call]
    | _ => simp [script, term?, Leaf.call, Leaf.term?, Script.fail, Script.call]
  | list [] => by simp [script, term?, termAll?, Script.call]
  | list (t :: rest) => by
    have parts := failure_scriptAll_eq_none (t :: rest)
    rw [script, term?, Script.failure_append, Script.failure_append, parts, Option.isSome_map]
    · simp [Script.call]
    · exact nofun
  | func functor args => by
    have parts := failure_scriptAll_eq_none args
    rw [script, term?]
    rcases functor.functorName with cause | name
    · simp [Script.fail]
    · simp [Script.failure_append, parts, Script.call]
  | tuple _ => by simp [script, term?, Script.fail]
  | broken _ => by simp [script, term?, Script.fail]

theorem failure_scriptAll_eq_none : ∀ ts : List Tree,
    (scriptAll ts).failure = none ↔ (termAll? ts).isSome = true
  | [] => by simp [scriptAll, termAll?, Script.empty]
  | t :: rest => by
    rw [scriptAll, Script.failure_append, failure_script_eq_none t, failure_scriptAll_eq_none rest,
      termAll?]
    rcases t.term? with _ | u <;> rcases termAll? rest with _ | us <;> simp

end

mutual

/-- The calls of a script add the term. -/
theorem follow_script : ∀ {t : Tree} {u : Term String}, t.term? = some u →
    ∀ o : Outline String, o.follow t.script.calls = some (o.add u)
  | leaf l, u, h => by
    intro o
    cases l with
    | bigint digits =>
      rw [term?, Leaf.term?] at h
      obtain ⟨value, read, rfl⟩ := Option.map_eq_some_iff.mp h
      rw [script, Leaf.call, Arena.integerOfDigits, read]
      rfl
    | str text => cases h
    | _ =>
      obtain rfl := Option.some.inj h
      rfl
  | list [], u, h => by
    intro o
    obtain rfl := Option.some.inj h
    rfl
  | list (t :: rest), u, h => by
    intro o
    -- the calls of the elements stand between those that open and close the list
    rw [term?] at h
    obtain ⟨us, parts, rfl⟩ := Option.map_eq_some_iff.mp h
    have made : (scriptAll (t :: rest)).failure = none :=
      (failure_scriptAll_eq_none _).mpr (Option.isSome_of_mem parts)
    have opened : (Script.call .openList ++ scriptAll (t :: rest)).failure = none :=
      (Script.failure_append _ _).mpr ⟨rfl, made⟩
    have between : (o.push (.list [])).follow (scriptAll (t :: rest)).calls =
        some ⟨o.whole, .list us :: o.unclosed⟩ := by
      rw [follow_scriptAll parts, Outline.push, Outline.foldl_add_list, List.nil_append]
    rw [script, Script.calls_append opened, Script.calls_append (by rfl), Outline.follow_append]
    · show (match (o.push (.list [])).follow (scriptAll (t :: rest)).calls with
        | some o => o.follow [.closeList]
        | none => none) = _
      rw [between]
      rfl
    · exact nofun
  | func functor args, u, h => by
    intro o
    rw [term?] at h
    rcases named : functor.functorName with cause | name
    · rw [named] at h
      cases h
    · rw [named] at h
      obtain ⟨us, parts, rfl⟩ := Option.map_eq_some_iff.mp h
      have made : (scriptAll args).failure = none :=
        (failure_scriptAll_eq_none _).mpr (Option.isSome_of_mem parts)
      have opened : (Script.call (.openTerm name) ++ scriptAll args).failure = none :=
        (Script.failure_append _ _).mpr ⟨rfl, made⟩
      have between : (o.push (.compound name [])).follow (scriptAll args).calls =
          some ⟨o.whole, .compound name us :: o.unclosed⟩ := by
        rw [follow_scriptAll parts, Outline.push, Outline.foldl_add_compound, List.nil_append]
      rw [script, named]
      show o.follow (Script.call (.openTerm name) ++ scriptAll args ++ .call .closeTerm).calls = _
      rw [Script.calls_append opened, Script.calls_append (by rfl), Outline.follow_append]
      show (match (o.push (.compound name [])).follow (scriptAll args).calls with
        | some o => o.follow [.closeTerm]
        | none => none) = _
      rw [between]
      rfl
  | tuple _, _, h => by cases h
  | broken _, _, h => by cases h

/-- The calls of scripts in a row add the terms in order. -/
theorem follow_scriptAll : ∀ {ts : List Tree} {us : List (Term String)}, termAll? ts = some us →
    ∀ o : Outline String, o.follow (scriptAll ts).calls = some (us.foldl .add o)
  | [], us, h => by
    intro o
    obtain rfl := Option.some.inj h
    rfl
  | t :: rest, us, h => by
    intro o
    obtain ⟨u, us', first, others, rfl⟩ := termAll?_cons_eq_some.mp h
    have made : t.script.failure = none :=
      (failure_script_eq_none t).mpr (Option.isSome_of_mem first)
    rw [scriptAll, Script.calls_append made, Outline.follow_append, follow_script first]
    exact follow_scriptAll others _

end

mutual

/-- A script makes no full stop. -/
theorem fullStop_not_mem_script : ∀ t : Tree, Call.fullStop ∉ t.script.calls
  | leaf l => by
    rw [script]
    cases l with
    | bigint digits =>
      rw [Leaf.call]
      rcases Arena.integerOfDigits digits with cause | value <;> simp [Script.fail, Script.call]
    | _ => simp [Leaf.call, Script.fail, Script.call]
  | list [] => by simp [script, Script.call]
  | list (t :: rest) => by
    intro made
    rw [script] at made
    · rcases Script.mem_calls_append made with first | last
      · rcases Script.mem_calls_append first with opening | parts
        · cases List.mem_singleton.mp opening
        · exact fullStop_not_mem_scriptAll (t :: rest) parts
      · cases List.mem_singleton.mp last
    · exact nofun
  | func functor args => by
    intro made
    rw [script] at made
    split at made
    · rcases Script.mem_calls_append made with first | last
      · rcases Script.mem_calls_append first with opening | parts
        · cases List.mem_singleton.mp opening
        · exact fullStop_not_mem_scriptAll args parts
      · cases List.mem_singleton.mp last
    · cases made
  | tuple _ => by simp [script, Script.fail]
  | broken _ => by simp [script, Script.fail]

theorem fullStop_not_mem_scriptAll : ∀ ts : List Tree, Call.fullStop ∉ (scriptAll ts).calls
  | [] => by simp [scriptAll, Script.empty]
  | t :: rest => by
    intro made
    rw [scriptAll] at made
    rcases Script.mem_calls_append made with first | others
    · exact fullStop_not_mem_script t first
    · exact fullStop_not_mem_scriptAll rest others

end

end Tree

end PrologWire
