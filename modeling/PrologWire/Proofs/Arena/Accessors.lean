import PrologWire.Arena.Access
import PrologWire.Proofs.Arena.Grounded
import PrologWire.Proofs.Arena.Held
import PrologWire.Proofs.Numeric.Decimal

/-!
# Predicates and accessors agree

A predicate looks at the handle alone, an accessor at what the arena shows for it. Of a handle that resolves
the predicate tells whether the accessor succeeds, and an accessor that fails tells the kind of the handle,
unless the handle shows an empty list, a compound without arguments or digits that are no integer. Of these
constructors make only the empty list: it is an atom, but has no parts as a compound without arguments.
-/

namespace PrologWire

/-! ## What agrees -/

/-- The accessor succeeds exactly if the predicate holds, and complains about the kind of the handle if it
does not. -/
structure Handle.Answers {α : Type} (t : Handle) (holds : Bool) (result : Except TermError α) : Prop where
  success : holds = true ↔ ∃ x, result = .ok x
  complaint : ∀ cause, result = .error cause → ∃ expected, cause = .unexpectedKind expected t.kind

/-- The predicates of a handle agree with the accessors, and its arity and name with the parts. -/
structure Arena.Agrees (a : Arena) (t : Handle) : Prop where
  int : t.Answers t.isInt (a.integerValue t)
  real : t.Answers t.isReal (a.realValue t)
  str : t.Answers t.isStr (a.strText t)
  var : t.Answers t.isVar (a.varName t [])
  atom : t.Answers t.isAtom (a.atomName t [])
  func : t.Answers (t.isFunc || t.isAtom) (a.funcParts t [])
  list : t.Answers t.isList (a.listElems t)
  tuple : t.Answers t.isTuple (a.tupleElems t)
  parts : ∀ functor args, a.funcParts t [] = .ok (functor, args) →
    args.length = t.arity ∧ a.atomName functor [] = a.nameOf t
  elems : ∀ elems, a.tupleElems t = .ok elems → elems.length = t.arity

namespace Handle

theorem answers_ok {α : Type} (t : Handle) (x : α) : t.Answers true (.ok x : Except TermError α) where
  success := ⟨fun _ => ⟨x, rfl⟩, fun _ => rfl⟩
  complaint := by
    intro cause same
    cases same

theorem answers_unexpectedKind {α : Type} {t : Handle} {found : Kind} (expected : List Kind)
    (same : found = t.kind) :
    t.Answers false (.error (.unexpectedKind expected found) : Except TermError α) where
  success := by
    constructor
    · intro holds
      cases holds
    · rintro ⟨x, given⟩
      cases given
  complaint := by
    intro cause given
    rw [same] at given
    exact ⟨expected, (Except.error.inj given).symm⟩

theorem answers_wrongKind {α : Type} (t : Handle) (expected : List Kind) :
    t.Answers false (Arena.wrongKind expected t : Except TermError α) :=
  answers_unexpectedKind expected rfl

/-- What a handle can show, and how long it then is. -/
inductive Shows : Handle → View Handle → Prop where
  | int (value : Int64) : Shows (.int value) (.leaf (.int value))
  | bigint {s : Slice} (digits : String) : Shows (.bigint s) (.leaf (.bigint digits))
  | real (value : Binary64) : Shows (.real value) (.leaf (.real value))
  | nil : Shows .nil (.list [])
  | short (kind : TextKind) {text : ShortText} : Handle.short kind text ≠ .nil →
    Shows (.short kind text) (.leaf (.ofText kind text.text))
  | long (kind : TextKind) {s : Slice} (text : String) : Shows (.long kind s) (.leaf (.ofText kind text))
  | func {s : Slice} (functor : Handle) {args : List Handle} : args.length = s.length.toNat - 1 →
    Shows (.node .func s) (.func functor args)
  | list {s : Slice} (elems : List Handle) : Shows (.node .list s) (.list elems)
  | tuple {s : Slice} {elems : List Handle} : elems.length = s.length.toNat →
    Shows (.node .tuple s) (.tuple elems)

end Handle

namespace Arena

variable {a : Arena} {t : Handle} {v : View Handle}

open Handle (Shows)

/-- A stretch of slots has as many of them as its length says. -/
theorem length_of_slotsAt {s : Slice} {hs : List Handle} (orderly : a.Orderly)
    (given : a.slotsAt s = .ok hs) : hs.length = s.length.toNat := by
  unfold slotsAt at given
  cases located : a.locate (·.slotStart) a.slots.size s with
  | error fault =>
    rw [located] at given
    cases given
  | ok r =>
    obtain ⟨low, high, share, -, inside, range, -⟩ := locate_eq_ok located
    have within := le_size_of_shareOf? orderly.slots share
    rw [located] at given
    obtain rfl := Except.ok.inj given
    rw [range] at inside ⊢
    rw [Array.length_toList, Array.size_extract]
    dsimp only at inside ⊢
    omega

/-- The text of a stretch of bytes is all that can be seen of it. -/
theorem exists_text {s : Slice} {f : String → View Handle}
    (seen : (a.textAt t s).map f = .ok v) : ∃ text, v = f text := by
  cases shown : a.textAt t s with
  | error cause =>
    rw [shown] at seen
    cases seen
  | ok text =>
    rw [shown] at seen
    exact ⟨text, (Except.ok.inj seen).symm⟩

/-- What a handle shows goes with its representation. -/
theorem shows_of_view (orderly : a.Orderly) (seen : a.view t = .ok v) : t.Shows v := by
  cases t with
  | int value =>
    obtain rfl := Except.ok.inj seen
    exact .int value
  | real value =>
    obtain rfl := Except.ok.inj seen
    exact .real value
  | short kind text =>
    unfold view at seen
    dsimp only at seen
    split at seen
    · next same =>
      obtain rfl := Except.ok.inj seen
      rw [same]
      exact .nil
    · next other =>
      obtain rfl := Except.ok.inj seen
      exact .short kind other
  | bigint s =>
    obtain ⟨digits, rfl⟩ := exists_text seen
    exact .bigint digits
  | long kind s =>
    obtain ⟨text, rfl⟩ := exists_text seen
    exact .long kind text
  | node kind s =>
    unfold view at seen
    dsimp only at seen
    cases given : a.slotsAt s with
    | error fault =>
      rw [given] at seen
      cases seen
    | ok hs =>
      have length := length_of_slotsAt orderly given
      rw [given] at seen
      cases kind with
      | func =>
        cases hs with
        | nil => cases seen
        | cons functor args =>
          obtain rfl := Except.ok.inj seen
          exact .func functor (by rw [← length, List.length_cons, Nat.add_sub_cancel])
      | list =>
        cases hs <;> obtain rfl := Except.ok.inj seen <;> exact .list _
      | tuple =>
        cases hs <;> obtain rfl := Except.ok.inj seen <;> exact .tuple length

end Arena

/-! ## Accessors -/

/-- What a handle shows is of its kind. -/
theorem Handle.Shows.kind_eq {t : Handle} {v : View Handle} (shows : t.Shows v) : v.kind = t.kind := by
  cases shows with
  | short textKind other =>
    rw [Handle.kind.eq_def, if_neg other]
    cases textKind <;> rfl
  | long textKind text => cases textKind <;> rfl
  | _ => rfl

namespace Arena

variable {a : Arena} {t : Handle} {v : View Handle} (shows : t.Shows v) (seen : a.view t = .ok v)

open Handle (answers_ok answers_unexpectedKind answers_wrongKind)

include shows seen

theorem answers_real : t.Answers t.isReal (a.realValue t) := by
  rw [realValue, seen]
  cases shows with
  | real x => exact answers_ok _ x
  | short kind | long kind => cases kind <;> exact answers_wrongKind _ _
  | _ => exact answers_wrongKind _ _

theorem answers_str : t.Answers t.isStr (a.strText t) := by
  rw [strText, seen]
  cases shows with
  | short kind | long kind =>
    cases kind with
    | str => exact answers_ok _ _
    | var | atom => exact answers_wrongKind _ _
  | _ => exact answers_wrongKind _ _

theorem answers_var : t.Answers t.isVar (a.varName t []) := by
  rw [varName, seen]
  cases shows with
  | short kind | long kind =>
    cases kind with
    | var => exact answers_ok _ _
    | str | atom => exact answers_wrongKind _ _
  | _ => exact answers_wrongKind _ _

theorem answers_list : t.Answers t.isList (a.listElems t) := by
  rw [listElems, seen]
  cases shows with
  | nil => exact answers_ok _ _
  | list elems => exact answers_ok _ _
  | short kind other =>
    have none : (Handle.short kind _).isList = false := decide_eq_false other
    rw [none]
    cases kind <;> exact answers_wrongKind _ _
  | long kind => cases kind <;> exact answers_wrongKind _ _
  | _ => exact answers_wrongKind _ _

/-- The empty tuple is an atom. -/
theorem answers_tuple : t.Answers t.isTuple (a.tupleElems t) := by
  rw [tupleElems, seen]
  cases shows with
  | tuple => exact answers_ok _ _
  | @short kind text other =>
    cases kind with
    | var | str => exact answers_wrongKind _ _
    | atom =>
      show Handle.Answers _ (decide (Handle.short .atom text = .unit))
        (if Handle.short .atom text = .unit then .ok [] else wrongKind [.tuple] (.short .atom text))
      by_cases empty : Handle.short .atom text = .unit
      · rw [if_pos empty, decide_eq_true empty]
        exact answers_ok _ _
      · rw [if_neg empty, decide_eq_false empty]
        exact answers_wrongKind _ _
  | long kind => cases kind <;> exact answers_wrongKind _ _
  | _ => exact answers_wrongKind _ _

theorem length_of_tupleElems {elems : List Handle} (given : a.tupleElems t = .ok elems) :
    elems.length = t.arity := by
  rw [tupleElems, seen] at given
  cases shows with
  | tuple length =>
    obtain rfl := Except.ok.inj given
    exact length
  | @short kind text other =>
    cases kind with
    | var | str => cases given
    | atom =>
      have parts : (if Handle.short .atom text = .unit then .ok [] else wrongKind [.tuple] (.short .atom text)) =
          (.ok elems : Except TermError (List Handle)) := given
      split at parts
      · obtain rfl := Except.ok.inj parts
        rfl
      · cases parts
  | long kind => cases kind <;> cases given
  | _ => cases given

/-- Digits are an integer if they can be read. -/
theorem answers_int_iff : t.Answers t.isInt (a.integerValue t) ↔
    ∀ digits, v = .leaf (.bigint digits) → Text.readInt? digits.toList ≠ none := by
  rw [integerValue, seen]
  cases shows with
  | bigint digits =>
    show Handle.Answers _ true (integerOfDigits digits) ↔ _
    constructor
    · rintro ⟨success, -⟩ other same unread
      cases same
      obtain ⟨value, read⟩ := success.mp rfl
      rw [integerOfDigits, unread] at read
      cases read
    · intro readable
      obtain ⟨value, read⟩ := Option.ne_none_iff_exists'.mp (readable digits rfl)
      rw [integerOfDigits, read]
      exact answers_ok _ value
  | int value =>
    refine iff_of_true (answers_ok _ _) ?_
    rintro digits ⟨⟩
  | short kind | long kind =>
    cases kind
    all_goals
      refine iff_of_true (answers_wrongKind _ _) ?_
      rintro digits ⟨⟩
  | _ =>
    refine iff_of_true (answers_wrongKind _ _) ?_
    rintro digits ⟨⟩

/-- What shows an empty list has the name of an atom, and is one if it is the empty list itself. -/
theorem answers_atom_iff : t.Answers t.isAtom (a.atomName t []) ↔ (v = .list [] → t = .nil) := by
  have sameKind := shows.kind_eq
  rw [atomName, seen]
  cases shows with
  | nil => exact iff_of_true (answers_ok _ "[]") fun _ => rfl
  | list elems =>
    cases elems with
    | nil =>
      refine iff_of_false ?_ fun same => by cases same rfl
      rintro ⟨success, -⟩
      cases success.mpr ⟨"[]", rfl⟩
    | cons first rest =>
      refine iff_of_true (answers_unexpectedKind _ sameKind) ?_
      rintro ⟨⟩
  | short kind | long kind =>
    cases kind with
    | atom =>
      refine iff_of_true (answers_ok _ _) ?_
      rintro ⟨⟩
    | var | str =>
      refine iff_of_true (answers_unexpectedKind _ sameKind) ?_
      rintro ⟨⟩
  | _ =>
    refine iff_of_true (answers_unexpectedKind _ sameKind) ?_
    rintro ⟨⟩

/-- The empty list is an atom but no compound, and a compound without arguments is none. -/
theorem answers_func_iff : t.Answers (t.isFunc || t.isAtom) (a.funcParts t []) ↔
    t ≠ .nil ∧ ∀ functor, v ≠ .func functor [] := by
  rw [funcParts, seen]
  cases shows with
  | nil =>
    refine iff_of_false ?_ fun both => both.1 rfl
    rintro ⟨success, -⟩
    obtain ⟨parts, given⟩ := success.mp rfl
    cases given
  | @func s functor args length =>
    cases args with
    | nil =>
      refine iff_of_false ?_ fun both => both.2 functor rfl
      rintro ⟨success, -⟩
      obtain ⟨parts, given⟩ := success.mp rfl
      cases given
    | cons first rest =>
      refine iff_of_true (answers_ok _ _) ⟨by rintro ⟨⟩, ?_⟩
      rintro other ⟨⟩
  | short kind other =>
    cases kind with
    | atom =>
      refine iff_of_true (answers_ok _ _) ⟨other, ?_⟩
      rintro functor ⟨⟩
    | var | str =>
      refine iff_of_true (answers_wrongKind _ _) ⟨other, ?_⟩
      rintro functor ⟨⟩
  | long kind text =>
    cases kind with
    | atom =>
      refine iff_of_true (answers_ok _ _) ⟨by rintro ⟨⟩, ?_⟩
      rintro functor ⟨⟩
    | var | str =>
      refine iff_of_true (answers_wrongKind _ _) ⟨by rintro ⟨⟩, ?_⟩
      rintro functor ⟨⟩
  | _ =>
    refine iff_of_true (answers_wrongKind _ _) ⟨by rintro ⟨⟩, ?_⟩
    rintro functor ⟨⟩

/-- A compound has as many arguments as its arity says, and its functor has its name. -/
theorem parts_of_funcParts {functor : Handle} {args : List Handle}
    (given : a.funcParts t [] = .ok (functor, args)) :
    args.length = t.arity ∧ a.atomName functor [] = a.nameOf t := by
  rw [funcParts, seen] at given
  cases shows with
  | @short kind text other =>
    cases kind with
    | var | str => cases given
    | atom =>
      obtain ⟨rfl, rfl⟩ := Prod.mk.inj (Except.ok.inj given)
      refine ⟨rfl, ?_⟩
      rw [atomName, nameOf, seen, Handle.isNil, decide_eq_false other]
      rfl
  | @long kind s text =>
    cases kind with
    | var | str => cases given
    | atom =>
      obtain ⟨rfl, rfl⟩ := Prod.mk.inj (Except.ok.inj given)
      refine ⟨rfl, ?_⟩
      rw [atomName, nameOf, seen]
      rfl
  | @func s first rest length =>
    cases rest with
    | nil => cases given
    | cons arg rest =>
      obtain ⟨rfl, rfl⟩ := Prod.mk.inj (Except.ok.inj given)
      refine ⟨length, ?_⟩
      rw [nameOf, seen]
      rfl
  | _ => cases given

end Arena

/-! ## Empty lists -/

namespace Arena

variable {a b : Arena} {t : Handle} {v : View Handle}

/-- The elements that a list shows are in its stretch of the slot storage. -/
theorem slotsAt_of_view_list {s : Slice} {elems : List Handle}
    (seen : a.view (.node .list s) = .ok (.list elems)) : a.slotsAt s = .ok elems := by
  unfold view at seen
  dsimp only at seen
  cases given : a.slotsAt s with
  | error fault =>
    rw [given] at seen
    cases seen
  | ok hs =>
    rw [given] at seen
    cases hs <;> obtain rfl := View.list.inj (Except.ok.inj seen) <;> rfl

/-- A list of items has elements, as long as the epoch in which it begins is there. -/
theorem elems_ne_nil {arg : Argument} {args : List Argument} {events : List Event} {elems : List Handle}
    (orderly : a.Orderly) (small : (b.list (Argument.items (arg :: args))).2.IsSmall)
    (spared : .erased b.current.id ∉ Argument.eventsAll (arg :: args) b ++ events)
    (seen : a.view (b.list (Argument.items (arg :: args))).1 = .ok (.list elems)) : elems ≠ [] := by
  obtain ⟨x, k, early, last, partway, among⟩ := Argument.exists_pushSlot arg args b
  have opened : b.Extends x :=
    partway.extends (.refl _) fun erased => spared (List.mem_append_left _ (among erased))
  -- the last of the items takes a slot behind those that were there
  have more : b.slots.size < (b.list (Argument.items (arg :: args))).2.slots.size := by
    show _ < (b.pushItems (Argument.items (arg :: args))).slots.size
    have before := opened.size_slots_le
    rw [last, pushSlot, Array.size_push]
    omega
  have length := length_of_slotsAt orderly (slotsAt_of_view_list seen)
  have between := (b.pushItems (Argument.items (arg :: args))).length_sliceBetween (Nat.le_of_lt more)
  have counted : (UInt32.ofNat ((b.list (Argument.items (arg :: args))).2.slots.size - b.slots.size)).toNat =
      (b.list (Argument.items (arg :: args))).2.slots.size - b.slots.size :=
    UInt32.toNat_ofNat_of_lt' (Nat.lt_of_le_of_lt (Nat.sub_le _ _) small.2)
  have size : elems.length = (b.list (Argument.items (arg :: args))).2.slots.size - b.slots.size :=
    length.trans ((congrArg UInt32.toNat between).trans counted)
  intro none
  rw [none, List.length_nil] at size
  omega

/-- Only a list of items is kept as a list with slots. -/
theorem exists_list_of_makes {op : Operation} {s : Slice} {made : Arena} (makes : op.Makes b t made)
    (kept : t = .node .list s) : ∃ arg args, op = .list (arg :: args) := by
  cases makes with
  | text kind text => exact absurd kept (text_ne_node b kind text .list s)
  | integer value => exact absurd kept (integer_ne_node b value .list s)
  | func name args =>
    cases args with
    | nil => exact absurd kept (text_ne_node b .atom name .list s)
    | cons arg rest => cases kept
  | @funcOfItems items _ _ result =>
    cases items with
    | nil => cases result
    | cons first args =>
      rw [Argument.items, Arena.funcOfItems] at result
      dsimp only at result
      split at result
      · next atom =>
        have same := Except.ok.inj (Prod.mk.inj result).1
        cases args with
        | nil =>
          -- the functor, which is an atom, stands alone
          rw [show (first.item b).1 = t from same, kept] at atom
          cases atom
        | cons arg rest =>
          rw [kept] at same
          cases same
      · cases result
  | list items =>
    cases items with
    | nil => cases kept
    | cons arg args => exact ⟨arg, args, rfl⟩
  | tuple items => cases items <;> cases kept

/-- Of what an arena holds, only the empty list itself shows an empty list. -/
theorem Holds.eq_nil (held : a.Holds t) (orderly : a.Orderly) (seen : a.view t = .ok (.list [])) :
    t = .nil := by
  have shows := shows_of_view orderly seen
  cases held with
  | inline none =>
    cases shows with
    | nil => rfl
    | list => cases none
  | @made before made op _ events _ _ makes own small course spared =>
    cases shows with
    | nil => rfl
    | list =>
      obtain ⟨arg, args, rfl⟩ := exists_list_of_makes (Operation.makes_of_perform makes) rfl
      obtain ⟨same, rfl⟩ := Prod.mk.inj makes
      rw [← Outcome.made.inj same] at seen
      exact absurd rfl (elems_ne_nil orderly small spared seen)

/-! ## Predicates and accessors -/

/-- The predicates of a handle agree with the accessors unless it shows what has no parts. -/
theorem agrees_iff_of_shows (shows : t.Shows v) (seen : a.view t = .ok v) :
    a.Agrees t ↔ v ≠ .list [] ∧ (∀ functor, v ≠ .func functor []) ∧
      ∀ digits, v = .leaf (.bigint digits) → Text.readInt? digits.toList ≠ none := by
  constructor
  · intro agrees
    obtain ⟨other, some⟩ := (answers_func_iff shows seen).mp agrees.func
    have atom := (answers_atom_iff shows seen).mp agrees.atom
    exact ⟨fun empty => other (atom empty), some, (answers_int_iff shows seen).mp agrees.int⟩
  · rintro ⟨filled, some, readable⟩
    have other : t ≠ .nil := by
      rintro rfl
      exact filled (Except.ok.inj seen).symm
    exact {
      int := (answers_int_iff shows seen).mpr readable
      real := answers_real shows seen
      str := answers_str shows seen
      var := answers_var shows seen
      atom := (answers_atom_iff shows seen).mpr fun empty => absurd empty filled
      func := (answers_func_iff shows seen).mpr ⟨other, some⟩
      list := answers_list shows seen
      tuple := answers_tuple shows seen
      parts := fun _ _ given => parts_of_funcParts shows seen given
      elems := fun _ given => length_of_tupleElems shows seen given }

/-- The predicates of a handle that resolves agree with the accessors if and only if it shows no empty list,
no compound without arguments and no digits that are no integer. If it is a handle that the arena holds,
they do if and only if it is not the empty list. -/
theorem agrees_iff (orderly : a.Orderly) (seen : a.view t = .ok v) :
    (a.Agrees t ↔ v ≠ .list [] ∧ (∀ functor, v ≠ .func functor []) ∧
      ∀ digits, v = .leaf (.bigint digits) → Text.readInt? digits.toList ≠ none) ∧
    (a.Holds t → (a.Agrees t ↔ t ≠ .nil)) := by
  have general := agrees_iff_of_shows (shows_of_view orderly seen) seen
  refine ⟨general, fun held => ?_⟩
  have proper := held.sound seen
  rw [general]
  constructor
  · rintro ⟨filled, -⟩ rfl
    exact filled (Except.ok.inj seen).symm
  · intro other
    refine ⟨?_, ?_, ?_⟩
    · rintro rfl
      exact other (held.eq_nil orderly seen)
    · rintro functor rfl
      exact proper.2 rfl
    · rintro digits rfl
      obtain ⟨value, -, rfl⟩ := proper
      rw [Text.readInt?_toString]
      exact Option.some_ne_none value

open Operation (labelled)

theorem agrees_iff_labelled : ∃ h made, labelled.perform (create ⟨0⟩ ⟨0⟩) = (.made h, made) ∧
    made.Agrees h ∧ h.isFunc = true ∧ h.arity = 3 := by
  refine ⟨_, labelled.alone, rfl, ?_, rfl, by decide +kernel⟩
  have orderly := (labelled.course (create ⟨0⟩ ⟨0⟩)).orderly (orderly_create ⟨0⟩ ⟨0⟩)
  have small : labelled.alone.IsSmall := ⟨by decide +kernel, by decide +kernel⟩
  have spared : Event.erased ⟨0⟩ ∉ labelled.events (create ⟨0⟩ ⟨0⟩) ++ [] := by decide +kernel
  refine ((agrees_iff orderly rfl).2 ?_).mpr Handle.noConfusion
  exact .made (orderly_create ⟨0⟩ ⟨0⟩) (by decide) rfl rfl small (.stay _) spared

/-- The empty list is an atom, but taking it apart as a compound without arguments finds a list. -/
theorem not_agrees_nil : (create ⟨0⟩ ⟨0⟩).view .nil = .ok (.list []) ∧ Handle.nil.isAtom = true ∧
    (create ⟨0⟩ ⟨0⟩).funcParts .nil [] = .error (.unexpectedKind [.func] .list) ∧
      ¬(create ⟨0⟩ ⟨0⟩).Agrees .nil := by
  refine ⟨rfl, rfl, rfl, fun agrees => ?_⟩
  obtain ⟨parts, given⟩ := agrees.func.success.mp rfl
  cases given

end Arena

end PrologWire
