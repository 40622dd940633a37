import PrologWire.Arena.Access
import PrologWire.Arena.Walk
import PrologWire.Call

/-!
# The calls that describe a term

Strings and tuples have no place in the wire formats and are refused where they stand.
`Tree.script` has the calls for a term; `Arena.printTerm` makes the calls for the term that a handle
stands for as it comes to them, and `printTerm_eq_run_script` says that these are the calls for its
tree.
-/

namespace PrologWire

/-- The call for a term without parts. -/
def Leaf.call : Leaf → Except WireError Call
  | int value => .ok (.int value)
  | bigint digits =>
    match Arena.integerOfDigits digits with
    | .ok value => .ok (.bigint value)
    | .error cause => .error (.term cause)
  | real value => .ok (.float value)
  | var name => .ok (.var name)
  | atom name => .ok (.atom name)
  | str _ => .error (.unsupportedTerm .str)

/-! ## The calls for a tree -/

namespace Tree

mutual

/-- The calls for a term, from the left to the right. -/
def script : Tree → Script
  | leaf l =>
    match l.call with
    | .ok c => .call c
    | .error cause => .fail cause
  | list [] => .call .emptyList
  | list elems => .call .openList ++ scriptAll elems ++ .call .closeList
  | func functor args =>
    match functor.functorName with
    | .ok name => .call (.openTerm name) ++ scriptAll args ++ .call .closeTerm
    | .error cause => .fail (.term cause)
  | tuple _ => .fail (.unsupportedTerm .tuple)
  | broken cause => .fail (.term cause)

/-- The calls for terms, one after the other. -/
def scriptAll : List Tree → Script
  | [] => .empty
  | t :: rest => t.script ++ scriptAll rest

end

end Tree

/-! ## Making the calls -/

namespace Print

/-- The visits of parts between two calls. -/
def between (opening closing : Call) (hs : List Handle) : List (Step Call) :=
  .put opening :: (hs.map Step.visit ++ [.put closing])

/-- The calls at one level of a term. -/
def steps (look : Handle → Except TermError (View Handle)) :
    View Handle → Except WireError (List (Step Call))
  | .leaf l =>
    match l.call with
    | .ok c => .ok [.put c]
    | .error cause => .error cause
  | .list [] => .ok [.put .emptyList]
  | .list elems => .ok (between .openList .closeList elems)
  | .func functor args =>
    match View.functorName (look functor) with
    | .ok name => .ok (between (.openTerm name) .closeTerm args)
    | .error cause => .error (.term cause)
  | .tuple _ => .error (.unsupportedTerm .tuple)

variable {σ : Type}

/-- The walk that makes the calls for a term to a consumer. -/
def walk (consume : σ → Call → Answer × σ) : Walk σ Call WireError where
  unresolved := .term
  steps := steps
  put c s := consume s c

/-- One script after the other, as a walk that goes on. -/
theorem run_append_eq_thenDo (consume : σ → Call → Answer × σ) (s t : Script) :
    (s ++ t).run consume = fun state => Walk.thenDo (s.run consume state) (t.run consume) := by
  funext state
  rw [Script.run_append]
  rcases s.run consume state with ⟨cause | done, after⟩ <;> rfl

/-- A script of one call hands it to the consumer. -/
theorem run_call_eq (consume : σ → Call → Answer × σ) (c : Call) :
    (Script.call c).run consume = fun state => consume state c := by
  funext state
  exact Script.run_call consume c state

/-- Visiting parts makes their calls. -/
theorem perform_visits (consume : σ → Call → Answer × σ) {go : Handle → σ → Answer × σ}
    {f : Handle → Tree} (each : ∀ h s, go h s = (f h).script.run consume s) (hs : List Handle) :
    (walk consume).perform go (hs.map Step.visit) =
      (Tree.scriptAll (hs.map f)).run consume := by
  induction hs with
  | nil => rfl
  | cons h rest ih =>
    funext s
    rw [List.map_cons, List.map_cons, Walk.perform, Tree.scriptAll, run_append_eq_thenDo, ih, each]

/-- Visiting parts between two calls makes these and theirs. -/
theorem perform_between (consume : σ → Call → Answer × σ) {go : Handle → σ → Answer × σ}
    {f : Handle → Tree} (each : ∀ h s, go h s = (f h).script.run consume s)
    (opening closing : Call) (hs : List Handle) (s : σ) :
    (walk consume).perform go (between opening closing hs) s =
      (Script.call opening ++ Tree.scriptAll (hs.map f) ++ .call closing).run consume s := by
  have last : (walk consume).perform go [.put closing] = fun s => consume s closing := by
    funext s
    exact Walk.thenDo_done _
  have first (s : σ) : (walk consume).put opening s = consume s opening := rfl
  rw [between, Walk.perform, Walk.perform_append, perform_visits consume each, last, first,
    run_append_eq_thenDo, run_append_eq_thenDo, run_call_eq, run_call_eq]
  exact (Walk.thenDo_thenDo (consume s opening) _ _).symm

/-- Walking a term makes the calls for its tree. -/
theorem descend_eq_run_script (consume : σ → Call → Answer × σ) (a : Arena) (depth : Nat)
    (h : Handle) (s : σ) :
    (walk consume).descend a depth h s = (a.unfold depth h).script.run consume s := by
  induction depth generalizing h s with
  | zero => rfl
  | succ depth each =>
    rw [Walk.descend, Walk.expand, Arena.unfold_succ]
    rcases a.view h with cause | v
    · rfl
    · cases v with
      | leaf l =>
        show _ = (Tree.script (.leaf l)).run consume s
        dsimp only
        rw [Tree.script, show (walk consume).steps = steps from rfl, steps]
        rcases l.call with cause | c
        · rfl
        · rw [run_call_eq]
          exact Walk.thenDo_done _
      | list elems =>
        cases elems with
        | nil =>
          exact (Walk.thenDo_done _).trans (Script.run_call consume .emptyList s).symm
        | cons first rest => exact perform_between consume each .openList .closeList _ s
      | tuple elems => rfl
      | func functor args =>
        show _ = (Tree.script (.func (a.unfold depth functor)
          (args.map (a.unfold depth)))).run consume s
        dsimp only
        rw [Tree.script, Arena.functorName_unfold, show (walk consume).steps = steps from rfl, steps]
        rcases View.functorName (a.look depth functor) with cause | name
        · rfl
        · exact perform_between consume each (.openTerm name) .closeTerm args s

end Print

/-- Makes the calls for the term that a handle stands for to a consumer, up to the first failure. -/
def Arena.printTerm {σ : Type} (a : Arena) (h : Handle) (consume : σ → Call → Answer × σ) (s : σ) :
    Answer × σ :=
  (Print.walk consume).start a h s

/-- The calls for the term that a handle stands for are those for its tree. -/
theorem Arena.printTerm_eq_run_script {σ : Type} (a : Arena) (h : Handle)
    (consume : σ → Call → Answer × σ) (s : σ) :
    a.printTerm h consume s = (a.tree h).script.run consume s := by
  rw [printTerm, Walk.start_eq_descend, Print.descend_eq_run_script, tree]

end PrologWire
