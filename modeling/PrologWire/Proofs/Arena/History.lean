import PrologWire.Arena.Build

/-!
# Histories of arenas

A client has terms made in an arena, begins epochs and erases them. A part of a term may be work
that the client does when the part's turn comes, so operations nest. `Operation.events` has the
epochs that are begun and erased in the course of an operation, and `Course` what can become of an
arena meanwhile: the storages grow, an epoch begins on top of the others, or the topmost epochs go
away with what was written since they began.
-/

namespace PrologWire

/-! ## Operations -/

mutual

/-- What a client does with an arena. -/
inductive Operation where
  | text (kind : TextKind) (s : String)
  | integer (value : Int)
  | func (name : String) (args : List Argument)
  | funcOfItems (items : List Argument)
  | list (items : List Argument)
  | tuple (items : List Argument)
  | beginEpoch (fresh : EpochId)
  | truncate (id : EpochId)
  | truncateCurrent
  | clear

/-- What a client gives for a part of a term. -/
inductive Argument where
  /-- A term that is there already, or a number that needs no storage. -/
  | term (h : Handle)
  /-- A text, for an atom. -/
  | name (s : String)
  | integer (value : Int)
  /-- Operations, and the handle that the client comes back with. -/
  | work (ops : List Operation) (h : Handle)

end

/-- What comes of an operation. -/
inductive Outcome where
  | made (h : Handle)
  | done
  | failed (cause : TermError)

/-- The outcome of a constructor that may fail. -/
def Outcome.ofMaking : Except TermError Handle → Outcome
  | .ok h => made h
  | .error cause => failed cause

/-- The outcome of a change of the epochs, which leaves the arena as it was if it fails. -/
def Outcome.ofChange (a : Arena) : Except TermError Arena → Outcome × Arena
  | .ok b => (done, b)
  | .error cause => (failed cause, a)

mutual

/-- What comes of an operation, and the arena after it. -/
def Operation.perform : Operation → Arena → Outcome × Arena
  | .text kind s, a => (.made (a.text kind s).1, (a.text kind s).2)
  | .integer value, a => (.made (a.integer value).1, (a.integer value).2)
  | .func name args, a =>
    (.made (a.func name (Argument.items args)).1, (a.func name (Argument.items args)).2)
  | .funcOfItems items, a =>
    (.ofMaking (a.funcOfItems (Argument.items items)).1, (a.funcOfItems (Argument.items items)).2)
  | .list items, a => (.made (a.list (Argument.items items)).1, (a.list (Argument.items items)).2)
  | .tuple items, a =>
    (.made (a.tuple (Argument.items items)).1, (a.tuple (Argument.items items)).2)
  | .beginEpoch fresh, a => Outcome.ofChange a (a.beginEpoch fresh)
  | .truncate id, a => Outcome.ofChange a (a.truncate id)
  | .truncateCurrent, a => Outcome.ofChange a a.truncateCurrent
  | .clear, a => Outcome.ofChange a a.clear

/-- The arena after operations in a row. -/
def Operation.performAll : List Operation → Arena → Arena
  | [], a => a
  | op :: rest, a => Operation.performAll rest (op.perform a).2

/-- The item that a constructor is given. -/
def Argument.item : Argument → Item
  | .term h => .ofHandle h
  | .name s => fun a => a.atom s
  | .integer value => fun a => a.integer value
  | .work ops h => fun a => (h, Operation.performAll ops a)

def Argument.items : List Argument → List Item
  | [] => []
  | arg :: rest => arg.item :: Argument.items rest

end

/-! ## Events -/

/-- What happens to an epoch. -/
inductive Event where
  | began (id : EpochId)
  | erased (id : EpochId)
deriving DecidableEq

/-- The epoch that an event begins. -/
def Event.begun? : Event → Option EpochId
  | began id => some id
  | erased _ => none

namespace Arena

/-- The names of the live epochs, the oldest first. -/
def ids (a : Arena) : List EpochId := a.epochs.map Epoch.id

/-- The events of erasing an epoch: it goes and those above it go, if it is live. -/
def erasure (a : Arena) (id : EpochId) : List Event :=
  (a.epochs.dropWhile (·.id ≠ id)).map (.erased ·.id)

end Arena

mutual

/-- What happens to epochs in the course of an operation. -/
def Operation.events : Operation → Arena → List Event
  | .text _ _, _ => []
  | .integer _, _ => []
  | .func name args, a => Argument.eventsAll args ((a.atom name).2.pushSlot (a.atom name).1)
  | .funcOfItems [], _ => []
  | .funcOfItems (first :: args), a =>
    first.events a ++
      if (first.item a).1.isAtom then
        Argument.eventsAll args ((first.item a).2.pushSlot (first.item a).1)
      else []
  | .list items, a => Argument.eventsAll items a
  | .tuple items, a => Argument.eventsAll items a
  | .beginEpoch fresh, a => if a.epochs.length < Arena.maxLiveEpochs then [.began fresh] else []
  | .truncate id, a => a.erasure id
  | .truncateCurrent, a => a.erasure a.current.id
  | .clear, a => a.erasure a.bottom.id

/-- What happens to epochs in the course of operations in a row. -/
def Operation.eventsAll : List Operation → Arena → List Event
  | [], _ => []
  | op :: rest, a => op.events a ++ Operation.eventsAll rest (op.perform a).2

/-- What happens to epochs when the turn of a part comes. -/
def Argument.events : Argument → Arena → List Event
  | .term _, _ => []
  | .name _, _ => []
  | .integer _, _ => []
  | .work ops _, a => Operation.eventsAll ops a

/-- What happens to epochs while parts are taken in order. -/
def Argument.eventsAll : List Argument → Arena → List Event
  | [], _ => []
  | arg :: rest, a =>
    arg.events a ++ Argument.eventsAll rest ((arg.item a).2.pushSlot (arg.item a).1)

end

/-! ## What can become of an arena -/

namespace Arena

/-- The storages got longer, and the epochs are what they were. -/
structure Grows (a b : Arena) : Prop where
  epochs : b.epochs = a.epochs
  bytes : ∃ bs, b.bytes = a.bytes ++ bs
  slots : ∃ hs, b.slots = a.slots ++ hs

theorem Grows.refl (a : Arena) : a.Grows a :=
  ⟨rfl, ⟨.empty, ByteArray.append_empty.symm⟩, ⟨#[], Array.append_empty.symm⟩⟩

theorem grows_text (a : Arena) (kind : TextKind) (s : String) : a.Grows (a.text kind s).2 := by
  unfold text
  split
  · exact .refl a
  · exact ⟨rfl, ⟨_, rfl⟩, ⟨#[], Array.append_empty.symm⟩⟩

theorem grows_integer (a : Arena) (value : Int) : a.Grows (a.integer value).2 := by
  unfold integer
  split
  · exact .refl a
  · exact ⟨rfl, ⟨_, rfl⟩, ⟨#[], Array.append_empty.symm⟩⟩

theorem grows_pushSlot (a : Arena) (h : Handle) : a.Grows (a.pushSlot h) :=
  ⟨rfl, ⟨.empty, ByteArray.append_empty.symm⟩, ⟨#[h], Array.push_eq_append⟩⟩

/-- A new epoch is on top of the others, and owns nothing yet. -/
theorem beginEpoch_eq_ok {a b : Arena} {fresh : EpochId} (h : a.beginEpoch fresh = .ok b) :
    b.epochs = a.epochs ++ [⟨fresh, a.bytes.size, a.slots.size⟩] ∧ b.bytes = a.bytes ∧
      b.slots = a.slots := by
  unfold beginEpoch at h
  split at h
  · obtain rfl := Except.ok.inj h
    exact ⟨rfl, rfl, rfl⟩
  · cases h

/-- An epoch that is erased goes with those above it, unless it is the bottom one, and the storages
end where it began. -/
theorem truncate_eq_ok {a b : Arena} {id : EpochId} (h : a.truncate id = .ok b) :
    ∃ kept first gone, a.epochs = kept ++ first :: gone ∧ first.id = id ∧
      (∀ e ∈ kept, e.id ≠ id) ∧ b.epochs = (if kept = [] then [first] else kept) ∧
      b.bytes = a.bytes.extract 0 first.byteStart ∧
        b.slots = a.slots.extract 0 first.slotStart := by
  unfold truncate at h
  split at h
  · cases h
  · next i found =>
    obtain rfl := Except.ok.inj h
    obtain ⟨inside, here, before⟩ := List.findIdx?_eq_some_iff_getElem.mp found
    have split : a.epochs = a.epochs.take i ++ a.epochs[i] :: a.epochs.drop (i + 1) := by
      rw [List.getElem_cons_drop, List.take_append_drop]
    have erased : a.epochs.getD i a.bottom = a.epochs[i] := by
      rw [List.getD_eq_getElem?_getD, List.getElem?_eq_getElem inside, Option.getD_some]
    refine ⟨a.epochs.take i, a.epochs[i], a.epochs.drop (i + 1), split, by simpa using here, ?_, ?_,
      by rw [← erased], by rw [← erased]⟩
    · intro e among
      obtain ⟨j, low, rfl⟩ := List.mem_take_iff_getElem.mp among
      simpa using before j (by omega)
    · show a.epochs.take (max i 1) = _
      have filled : a.epochs ≠ [] := a.epochs_ne_nil
      by_cases zero : i = 0
      · subst zero
        rw [List.take_zero, if_pos rfl]
        show a.epochs.take 1 = _
        rw [List.take_one, List.head?_eq_getElem?, List.getElem?_eq_getElem inside]
        rfl
      · have some : a.epochs.take i ≠ [] := by
          rw [ne_eq, List.take_eq_nil_iff]
          intro none
          rcases none with none | none
          · exact zero none
          · exact filled none
        rw [if_neg some, Nat.max_eq_left (by omega)]

/-- The events of an erasure are those of the epochs that are erased. -/
theorem erasure_eq {a : Arena} {id : EpochId} {kept gone : List Epoch} {first : Epoch}
    (split : a.epochs = kept ++ first :: gone) (here : first.id = id)
    (before : ∀ e ∈ kept, e.id ≠ id) : a.erasure id = (first :: gone).map (.erased ·.id) := by
  rw [erasure, split, List.dropWhile_append_of_pos (by simpa using before),
    List.dropWhile_cons_of_neg (by simpa using here)]

/-- An epoch that is not live cannot be erased. -/
theorem erasure_eq_nil {a : Arena} {id : EpochId} {cause : TermError}
    (h : a.truncate id = .error cause) : a.erasure id = [] := by
  unfold truncate at h
  split at h
  · next absent =>
    rw [List.findIdx?_eq_none_iff] at absent
    have none : (a.epochs ++ []).dropWhile (·.id ≠ id) = ([] : List Epoch).dropWhile (·.id ≠ id) :=
      List.dropWhile_append_of_pos (by simpa using absent)
    rw [List.append_nil, List.dropWhile_nil] at none
    rw [erasure, none, List.map_nil]
  · cases h

end Arena

/-- What becomes of an arena, with the epochs that are begun and erased meanwhile. -/
inductive Course : Arena → List Event → Arena → Prop where
  | stay (a : Arena) : Course a [] a
  | grow {a b c : Arena} {events : List Event} : a.Grows b → Course b events c → Course a events c
  | begin {a b c : Arena} {fresh : EpochId} {events : List Event} :
    a.beginEpoch fresh = .ok b → Course b events c → Course a (.began fresh :: events) c
  | erase {a b c : Arena} {id : EpochId} {events : List Event} :
    a.truncate id = .ok b → Course b events c → Course a (a.erasure id ++ events) c

namespace Course

variable {a b c : Arena} {events later : List Event}

theorem append (first : Course a events b) (second : Course b later c) :
    Course a (events ++ later) c := by
  induction first with
  | stay a => exact second
  | grow grows _ ih => exact .grow grows (ih second)
  | begin begins _ ih => exact .begin begins (ih second)
  | erase erases _ ih =>
    rw [List.append_assoc]
    exact .erase erases (ih second)

theorem of_grows (h : a.Grows b) : Course a [] b := .grow h (.stay b)

/-- Erasing an epoch is a course whether it goes well or not. -/
theorem ofChange_truncate (a : Arena) (id : EpochId) :
    Course a (a.erasure id) (Outcome.ofChange a (a.truncate id)).2 := by
  cases result : a.truncate id with
  | ok b =>
    have erases : Course a (a.erasure id ++ []) b := .erase result (.stay b)
    rwa [List.append_nil] at erases
  | error cause =>
    rw [Arena.erasure_eq_nil result]
    exact .stay a

end Course

mutual

/-- An operation takes its course. -/
theorem Operation.course : ∀ (op : Operation) (a : Arena), Course a (op.events a) (op.perform a).2
  | .text kind s, a => .of_grows (a.grows_text kind s)
  | .integer value, a => .of_grows (a.grows_integer value)
  | .func name args, a => by
    rw [Operation.perform, Operation.events]
    have functor : Course a [] ((a.atom name).2.pushSlot (a.atom name).1) :=
      .grow (a.grows_text .atom name) (.of_grows (Arena.grows_pushSlot _ _))
    have parts := functor.append (Argument.course args _)
    cases args with
    | nil => exact .of_grows (a.grows_text .atom name)
    | cons arg rest => exact parts
  | .funcOfItems [], a => .stay a
  | .funcOfItems (first :: args), a => by
    rw [Operation.perform, Operation.events]
    have functor := first.course_item a
    have parts := Argument.course args ((first.item a).2.pushSlot (first.item a).1)
    rw [Argument.items, Arena.funcOfItems]
    dsimp only
    split
    · cases args with
      | nil => exact functor.append (.stay _)
      | cons arg rest => exact functor.append (.grow (Arena.grows_pushSlot _ _) parts)
    · exact functor.append (.stay _)
  | .list [], a => .stay a
  | .list (item :: rest), a => Argument.course (item :: rest) a
  | .tuple [], a => .stay a
  | .tuple (item :: rest), a => Argument.course (item :: rest) a
  | .beginEpoch fresh, a => by
    rw [Operation.perform, Operation.events]
    cases result : a.beginEpoch fresh with
    | ok b =>
      have room : a.epochs.length < Arena.maxLiveEpochs := by
        unfold Arena.beginEpoch at result
        split at result
        · assumption
        · cases result
      rw [if_pos room]
      exact .begin result (.stay b)
    | error cause =>
      have full : ¬a.epochs.length < Arena.maxLiveEpochs := by
        unfold Arena.beginEpoch at result
        split at result
        · cases result
        · assumption
      rw [if_neg full]
      exact .stay a
  | .truncate id, a => .ofChange_truncate a id
  | .truncateCurrent, a => .ofChange_truncate a a.current.id
  | .clear, a => .ofChange_truncate a a.bottom.id

/-- Operations in a row take their course. -/
theorem Operation.course_all : ∀ (ops : List Operation) (a : Arena),
    Course a (Operation.eventsAll ops a) (Operation.performAll ops a)
  | [], a => .stay a
  | op :: rest, a => (op.course a).append (Operation.course_all rest (op.perform a).2)

/-- The turn of a part takes its course. -/
theorem Argument.course_item : ∀ (arg : Argument) (a : Arena),
    Course a (arg.events a) (arg.item a).2
  | .term _, a => .stay a
  | .name s, a => .of_grows (a.grows_text .atom s)
  | .integer value, a => .of_grows (a.grows_integer value)
  | .work ops _, a => Operation.course_all ops a

/-- Parts that are taken in order take their course. -/
theorem Argument.course : ∀ (args : List Argument) (a : Arena),
    Course a (Argument.eventsAll args a) (a.pushItems (Argument.items args))
  | [], a => .stay a
  | arg :: rest, a =>
    (arg.course_item a).append (.grow (Arena.grows_pushSlot _ _) (Argument.course rest _))

end

end PrologWire
