import PrologWire.Arena.Walk
import PrologWire.Numeric.FloatFormat
import PrologWire.Text.Quoted

/-!
# Prolog text of terms

`Tree.text?` is the text of a term; `Arena.display?` writes the text of the term that a handle stands
for from the left to the right, and `display?_eq_text?` says that this is the text of its tree.
-/

namespace PrologWire

/-- Floats in Prolog text are written out without exponents, and whole numbers below `10^16` end in
`.0`. -/
def FloatFormat.prolog : FloatFormat where
  positional _ := true
  pointZero e := e < 16
  pointBeforeExponent := false
  plusSign := false
  nan := "NaN"
  tie := .upward

/-- The Prolog text of a term without parts. -/
def Leaf.text : Leaf → List Char
  | int value => (toString value.toInt).toList
  | bigint digits => digits.toList
  | real value => (FloatFormat.prolog.text value).toList
  | var name => name.toList
  | atom name => Text.atomText name.toList
  | str text => Text.stringText text.toList

/-! ## The text of a tree -/

namespace Tree

mutual

/-- The Prolog text of a term all of whose subterms resolve. -/
def text? : Tree → Option (List Char)
  | leaf l => some l.text
  | func functor args =>
    match functor.functorName with
    | .error _ => none
    | .ok name =>
      (joined? args).map fun inner => Text.atomText name.toList ++ ['('] ++ inner ++ [')']
  | list elems => (joined? elems).map fun inner => ['['] ++ inner ++ [']']
  | tuple elems => (joined? elems).map fun inner => ['('] ++ inner ++ [')']
  | broken _ => none

/-- The texts of terms with a comma and a space between them. -/
def joined? : List Tree → Option (List Char)
  | [] => some []
  | [t] => t.text?
  | t :: rest => do
    let first ← t.text?
    let others ← joined? rest
    some (first ++ ',' :: ' ' :: others)

end

end Tree

/-! ## Writing the text -/

namespace Display

/-- The visits of parts with a comma and a space between them, and the closing bracket. -/
def parts (close : String) (hs : List Handle) : List (Step String) :=
  (hs.map Step.visit).intersperse (.put ", ") ++ [.put close]

/-- What is to be written at one level of a term. -/
def steps (look : Handle → Except TermError (View Handle)) :
    View Handle → Except TermError (List (Step String))
  | .leaf l => .ok [.put (String.ofList l.text)]
  | .func functor args =>
    match View.functorName (look functor) with
    | .error cause => .error cause
    | .ok name => .ok (.put (String.ofList (Text.atomText name.toList ++ ['('])) :: parts ")" args)
  | .list elems => .ok (.put "[" :: parts "]" elems)
  | .tuple elems => .ok (.put "(" :: parts ")" elems)

/-- The walk that appends the text of a term. -/
def walk : Walk String String TermError where
  unresolved cause := cause
  steps := steps
  put piece out := (.ok (), out ++ piece)

/-- The outcome of a walk that appends a text, if there is one, and fails otherwise. -/
def Appended (out : String) (text : Option (List Char)) (r : Except TermError Unit × String) :
    Prop :=
  match text with
  | some cs => r = (.ok (), out ++ String.ofList cs)
  | none => ∃ cause after, r = (.error cause, after)

/-- Going on after a text with another text appends both. -/
theorem Appended.thenDo {out : String} {text more : Option (List Char)}
    {r : Except TermError Unit × String} {next : String → Except TermError Unit × String}
    (first : Appended out text r) (second : ∀ out, Appended out more (next out)) :
    Appended out (text.bind fun cs => more.map (cs ++ ·)) (Walk.thenDo r next) := by
  cases text with
  | none =>
    obtain ⟨cause, after, rfl⟩ := first
    exact ⟨cause, after, rfl⟩
  | some cs =>
    obtain rfl := first
    have both := second (out ++ String.ofList cs)
    cases more with
    | none => exact both
    | some ds =>
      refine both.trans ?_
      rw [String.append_assoc, ← String.ofList_append]

/-- Putting down a text appends it. -/
theorem appended_put (text : List Char) (out : String) :
    Appended out (some text) (walk.put (String.ofList text) out) := rfl

/-- Visiting parts appends their texts with commas between them. -/
theorem appended_joined {go : Handle → String → Except TermError Unit × String}
    {f : Handle → Tree} (each : ∀ h out, Appended out (f h).text? (go h out)) (hs : List Handle)
    (out : String) :
    Appended out (Tree.joined? (hs.map f))
      (walk.perform go ((hs.map Step.visit).intersperse (.put ", ")) out) := by
  induction hs generalizing out with
  | nil => simp [Tree.joined?, Appended, Walk.perform]
  | cons h rest ih =>
    cases rest with
    | nil => simpa [Tree.joined?, Walk.perform] using each h out
    | cons k rest =>
      have all := (each h out).thenDo fun out => (appended_put [',', ' '] out).thenDo ih
      simpa [Tree.joined?, Walk.perform, Option.map_eq_bind, Option.bind_assoc, Function.comp_def]
        using all

/-- Visiting the parts of a term between brackets appends the texts of all of it. -/
theorem appended_parts {go : Handle → String → Except TermError Unit × String}
    {f : Handle → Tree} (each : ∀ h out, Appended out (f h).text? (go h out)) (hs : List Handle)
    (opening closing : List Char) (out : String) :
    Appended out ((Tree.joined? (hs.map f)).map fun inner => opening ++ inner ++ closing)
      (walk.perform go (.put (String.ofList opening) :: parts (String.ofList closing) hs) out) := by
  have all := (appended_put opening out).thenDo fun out =>
    (appended_joined each hs out).thenDo (appended_put closing)
  simpa only [parts, Walk.perform, Walk.perform_append, Walk.thenDo_done, Option.map_eq_bind,
    Option.bind_assoc, Option.bind_some, Function.comp_def, List.append_assoc] using all

/-- Walking a term appends the text of its tree. -/
theorem appended_descend (a : Arena) (depth : Nat) (h : Handle) (out : String) :
    Appended out (a.unfold depth h).text? (walk.descend a depth h out) := by
  induction depth generalizing h out with
  | zero => exact ⟨_, _, rfl⟩
  | succ depth each =>
    rw [Walk.descend, Walk.expand, Arena.unfold_succ]
    rcases a.view h with cause | v
    · exact ⟨_, _, rfl⟩
    · cases v with
      | leaf l => exact appended_put l.text out
      | list elems => exact appended_parts each elems ['['] [']'] out
      | tuple elems => exact appended_parts each elems ['('] [')'] out
      | func functor args =>
        show Appended out (Tree.text? (.func (a.unfold depth functor) (args.map (a.unfold depth)))) _
        dsimp only
        rw [Tree.text?, Arena.functorName_unfold, show walk.steps = steps from rfl, steps]
        rcases View.functorName (a.look depth functor) with cause | name
        · exact ⟨_, _, rfl⟩
        · exact appended_parts each args (Text.atomText name.toList ++ ['(']) [')'] out

end Display

/-- The Prolog text of the term that a handle stands for. -/
def Arena.display? (a : Arena) (h : Handle) : Option String :=
  match Display.walk.start a h "" with
  | (.ok (), out) => some out
  | (.error _, _) => none

/-- The text of the term that a handle stands for is that of its tree. -/
theorem Arena.display?_eq_text? (a : Arena) (h : Handle) :
    a.display? h = (a.tree h).text?.map String.ofList := by
  have walked := Display.appended_descend a a.maxDepth h ""
  rw [display?, Walk.start_eq_descend, tree]
  revert walked
  rcases (a.unfold a.maxDepth h).text? with _ | cs
  · rintro ⟨cause, after, fails⟩
    rw [fails]
    rfl
  · intro done
    rw [done, String.empty_append]
    rfl

end PrologWire
