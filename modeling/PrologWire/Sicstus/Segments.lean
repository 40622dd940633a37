import PrologWire.Arena.View
import PrologWire.Sicstus.Format

/-!
# Lists in segments

In a list, neighbouring small integers are written together as a run, and every other element stands
by itself. `segmentsOf` cuts a list in this way by recursion, and statements are about it. The writer
looks at the elements from the last to the first, since what it pushes last is written first, so that
it finds the bytes of a run in reverse. `Grouping` does so and ends at the first element that does not
resolve; `Grouping.ofElements_eq` says that this is the last one in the list, and that the segments are
the same if there is none.
-/

namespace PrologWire.Sicstus

variable {α β γ δ : Type}

/-- The byte of a list element that joins a run, by what a look at it shows. -/
def smallByte? : Except TermError (View α) → Option UInt8
  | .ok (.leaf (.int value)) => runByte? value
  | _ => none

/-- Why the last of the parts that do not resolve does not, if there is one. -/
def lastUnresolved? (look : α → Except TermError β) : List α → Option TermError
  | [] => none
  | x :: rest =>
    match lastUnresolved? look rest, look x with
    | some cause, _ => some cause
    | none, .error cause => some cause
    | none, .ok _ => none

/-! ## By recursion -/

/-- A part of a list that is written as one. -/
inductive Segment (α : Type) where
  /-- Small integers, none of which has a small integer as its neighbour outside the run. -/
  | run (bs : List UInt8)
  /-- One element that is no small integer. -/
  | single (x : α)

/-- A small integer before other elements; next to a run it belongs to the run. -/
def joinRun (byte : UInt8) : List (Segment α) → List (Segment α)
  | .run bs :: rest => .run (byte :: bs) :: rest
  | rest => .run [byte] :: rest

/-- A list cut into segments. -/
def segmentsOf (small? : α → Option UInt8) : List α → List (Segment α)
  | [] => []
  | x :: rest =>
    match small? x with
    | some byte => joinRun byte (segmentsOf small? rest)
    | none => .single x :: segmentsOf small? rest

/-- The segment with another element in the place of its own. -/
def Segment.map (f : α → γ) : Segment α → Segment γ
  | run bs => run bs
  | single x => single (f x)

theorem joinRun_map (f : α → γ) (byte : UInt8) (segments : List (Segment α)) :
    (joinRun byte segments).map (.map f) = joinRun byte (segments.map (.map f)) := by
  rcases segments with _ | ⟨bs | x, rest⟩ <;> rfl

/-- Replacing the elements of a list does not change where it is cut. -/
theorem segmentsOf_map {small? : α → Option UInt8} (small?' : γ → Option UInt8) (f : α → γ)
    (same : ∀ x, small?' (f x) = small? x) (elems : List α) :
    segmentsOf small?' (elems.map f) = (segmentsOf small? elems).map (.map f) := by
  induction elems with
  | nil => rfl
  | cons x rest ih =>
    rw [List.map_cons, segmentsOf, segmentsOf, same, ih]
    cases small? x with
    | none => rfl
    | some byte => exact (joinRun_map f byte _).symm

/-- Replacing the parts of a term does not change whether it joins a run. -/
theorem smallByte?_map (f : α → β) (seen : Except TermError (View α)) :
    smallByte? (seen.map (View.map f)) = smallByte? seen := by
  rcases seen with cause | v
  · rfl
  · cases v with
    | leaf l => cases l <;> rfl
    | func functor args => rfl
    | list elems => rfl
    | tuple elems => rfl

/-- Whether parts resolve does not depend on what they resolve to. -/
theorem lastUnresolved?_map {look : α → Except TermError γ} {look' : β → Except TermError δ}
    (f : α → β) (g : γ → δ) (same : ∀ x, look' (f x) = (look x).map g) (xs : List α) :
    lastUnresolved? look' (xs.map f) = lastUnresolved? look xs := by
  induction xs with
  | nil => rfl
  | cons x rest ih =>
    rw [List.map_cons, lastUnresolved?, lastUnresolved?, ih, same]
    cases lastUnresolved? look rest with
    | some cause => rfl
    | none => rcases look x with cause | seen <;> rfl

/-! ## From the right -/

/-- What going through the elements from the last to the first has come to. -/
structure Grouping (α : Type) where
  /-- The segments that nothing can be added to, in the order of the list. -/
  ended : List (Segment α)
  /-- The bytes of the run that the next element may belong to, in the order in which they were found. -/
  codes : Array UInt8

namespace Grouping

/-- The segments, with the bytes of the run put in the order of the list. -/
def segments (g : Grouping α) : List (Segment α) :=
  if g.codes.isEmpty then g.ended else .run g.codes.toList.reverse :: g.ended

/-- Goes on with the element before those that were seen. -/
def add (g : Grouping α) (x : α) : Option UInt8 → Grouping α
  | some byte => { g with codes := g.codes.push byte }
  | none => ⟨.single x :: g.segments, #[]⟩

/-- Looks at one element. -/
def step (look : α → Except TermError (View β)) (g : Grouping α) (x : α) :
    Except TermError (Grouping α) :=
  match look x with
  | .error cause => .error cause
  | .ok v => .ok (g.add x (smallByte? (.ok v)))

/-- Goes through the elements of a list from the last to the first. -/
def ofElements (look : α → Except TermError (View β)) (elems : List α) :
    Except TermError (List (Segment α)) :=
  (elems.reverse.foldlM (step look) ⟨[], #[]⟩).map segments

/-- Nothing that is ended begins with a run, so that the next small integer begins another one unless the
bytes of a run are there. -/
def Apart (g : Grouping α) : Prop := ∀ bs rest, g.ended ≠ .run bs :: rest

theorem segments_add_some (g : Grouping α) (apart : g.Apart) (x : α) (byte : UInt8) :
    (g.add x (some byte)).segments = joinRun byte g.segments := by
  obtain ⟨ended, ⟨codes⟩⟩ := g
  cases codes with
  | nil =>
    rcases ended with _ | ⟨bs | y, rest⟩
    · rfl
    · exact absurd rfl (apart bs rest)
    · rfl
  | cons first others => simp [add, segments, joinRun]

theorem segments_add_none (g : Grouping α) (x : α) :
    (g.add x none).segments = .single x :: g.segments := rfl

theorem apart_add {g : Grouping α} (apart : g.Apart) (x : α) (small : Option UInt8) :
    (g.add x small).Apart := by
  cases small with
  | some byte => exact apart
  | none => exact fun bs rest same => by cases same

variable (look : α → Except TermError (View β))

theorem foldlM_step_concat (xs : List α) (x : α) (g : Grouping α) :
    (xs ++ [x]).foldlM (step look) g = (xs.foldlM (step look) g).bind (step look · x) := by
  rw [List.foldlM_append]
  cases xs.foldlM (step look) g with
  | error cause => rfl
  | ok g =>
    show (step look g x).bind pure = step look g x
    cases step look g x <;> rfl

theorem apart_foldlM_step (elems : List α) {g : Grouping α}
    (eq : elems.reverse.foldlM (step look) ⟨[], #[]⟩ = .ok g) : g.Apart := by
  induction elems generalizing g with
  | nil =>
    obtain rfl := Except.ok.inj eq
    exact nofun
  | cons x rest ih =>
    rw [List.reverse_cons, foldlM_step_concat] at eq
    cases before : rest.reverse.foldlM (step look) ⟨[], #[]⟩ with
    | error cause =>
      rw [before] at eq
      cases eq
    | ok g' =>
      rw [before, Except.bind, step] at eq
      split at eq
      · cases eq
      · obtain rfl := Except.ok.inj eq
        exact apart_add (ih before) x _

/-- The segments found from the right are those of the list, unless an element does not resolve. -/
theorem ofElements_eq (elems : List α) :
    ofElements look elems =
      match lastUnresolved? look elems with
      | some cause => .error cause
      | none => .ok (segmentsOf (fun x => smallByte? (look x)) elems) := by
  induction elems with
  | nil => rfl
  | cons x rest ih =>
    have apart (g : Grouping α) := apart_foldlM_step look rest (g := g)
    rw [ofElements] at ih ⊢
    rw [List.reverse_cons, foldlM_step_concat, lastUnresolved?, segmentsOf]
    revert ih apart
    cases rest.reverse.foldlM (step look) ⟨[], #[]⟩ with
    | error cause =>
      cases lastUnresolved? look rest with
      | none => exact fun same _ => by cases same
      | some cause' => exact fun same _ => same
    | ok g =>
      cases lastUnresolved? look rest with
      | some cause => exact fun same _ => by cases same
      | none =>
        intro same apart
        have segments : g.segments = _ := Except.ok.inj same
        rw [Except.bind, step, ← segments]
        cases look x with
        | error cause => rfl
        | ok v =>
          show Except.ok (g.add x (smallByte? (.ok v))).segments = _
          cases smallByte? (.ok v : Except TermError (View β)) with
          | none => exact congrArg Except.ok (g.segments_add_none x)
          | some byte => exact congrArg Except.ok (g.segments_add_some (apart g rfl) x byte)

end Grouping

end PrologWire.Sicstus
