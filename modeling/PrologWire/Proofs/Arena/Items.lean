import PrologWire.Proofs.Arena.Made

/-!
# Parts that are made while their whole is

The parts of a compound, a list or a tuple are appended to the slot storage one by one, and the whole
is the stretch from where this began to the end of the storage. A part that makes terms when its turn
comes may append slots for parts of its own, and these fall into the stretch of the whole. So the whole
shows, in order, the handles that its items yield, but among them the slots that the items have left;
it shows these handles and nothing else exactly if no item leaves slots.
-/

namespace PrologWire

/-- The item only appends to an arena, whichever it is run in. -/
def Item.Appends (item : Item) : Prop := ∀ a : Arena, a.Grows (item a).2

theorem Item.appends_ofHandle (h : Handle) : (Item.ofHandle h).Appends := fun a => .refl a

namespace Arena

/-- The handles that items yield, each one run behind the handle of the one before. -/
def yields (a : Arena) : List Item → List Handle
  | [] => []
  | item :: rest => (item a).1 :: yields ((item a).2.pushSlot (item a).1) rest

/-- How many slots the items leave that are not their handles: those of the compounds, lists and tuples
that they make. -/
def ownSlots (a : Arena) : List Item → Nat
  | [] => 0
  | item :: rest =>
    ((item a).2.slots.size - a.slots.size) + ownSlots ((item a).2.pushSlot (item a).1) rest

theorem length_yields (a : Arena) (items : List Item) : (a.yields items).length = items.length := by
  induction items generalizing a with
  | nil => rfl
  | cons item rest ih => rw [yields, List.length_cons, List.length_cons, ih]

/-- Terms that are there already, texts and numbers leave no slots. -/
theorem ownSlots_items {args : List Argument} (plain : ∀ arg ∈ args, arg.isPlain) (a : Arena) :
    a.ownSlots (Argument.items args) = 0 := by
  induction args generalizing a with
  | nil => rfl
  | cons arg rest ih =>
    have first := Argument.slots_item (a := a) (plain arg List.mem_cons_self)
    rw [Argument.items, ownSlots, first, Nat.sub_self,
      ih (fun x among => plain x (List.mem_cons_of_mem _ among))]

/-- Items that only append leave an arena that has grown. -/
theorem grows_pushItems {items : List Item} (appends : ∀ item ∈ items, item.Appends) (a : Arena) :
    a.Grows (a.pushItems items) := by
  induction items generalizing a with
  | nil => exact .refl a
  | cons item rest ih =>
    have first := appends item List.mem_cons_self a
    have slot := grows_pushSlot (item a).2 (item a).1
    exact (first.trans slot).trans (ih (fun x among => appends x (List.mem_cons_of_mem _ among)) _)

theorem grows_compound {items : List Item} (appends : ∀ item ∈ items, item.Appends) (a : Arena)
    (functor : Handle) : a.Grows (a.compound functor items).2 := by
  cases items with
  | nil => exact .refl a
  | cons item rest => exact (grows_pushSlot a functor).trans (grows_pushItems appends _)

/-- Items append the handles that they yield, in order, and among them the slots that they leave. -/
theorem slots_pushItems {items : List Item} (appends : ∀ item ∈ items, item.Appends) (a : Arena) :
    ∃ hs, (a.pushItems items).slots = a.slots ++ hs.toArray ∧ (a.yields items).Sublist hs ∧
      hs.length = items.length + a.ownSlots items := by
  induction items generalizing a with
  | nil => exact ⟨[], Array.append_empty.symm, .slnil, rfl⟩
  | cons item rest ih =>
    obtain ⟨left, slots⟩ := (appends item List.mem_cons_self a).slots
    obtain ⟨hs, pushed, among, length⟩ :=
      ih (fun x among => appends x (List.mem_cons_of_mem _ among)) ((item a).2.pushSlot (item a).1)
    have own : (item a).2.slots.size - a.slots.size = left.size := by
      rw [slots, Array.size_append, Nat.add_sub_cancel_left]
    refine ⟨left.toList ++ (item a).1 :: hs, ?_, ?_, ?_⟩
    · show (((item a).2.pushSlot (item a).1).pushItems rest).slots = _
      rw [pushed]
      show (item a).2.slots.push (item a).1 ++ _ = _
      rw [slots]
      apply Array.toList_inj.mp
      simp
    · rw [yields]
      exact (among.cons_cons _).trans (List.sublist_append_right _ _)
    · rw [ownSlots, own, List.length_append, List.length_cons, List.length_cons, length,
        Array.length_toList]
      omega

/-- The handles that are yielded are all that is appended exactly if no slots are left. -/
theorem eq_yields_iff {a : Arena} {items : List Item} {hs : List Handle}
    (among : (a.yields items).Sublist hs) (length : hs.length = items.length + a.ownSlots items) :
    hs = a.yields items ↔ a.ownSlots items = 0 := by
  have yielded := a.length_yields items
  constructor
  · intro same
    rw [same, yielded] at length
    omega
  · intro none
    exact (among.eq_of_length (by omega)).symm

end Arena

/-- What a term with parts is made as. -/
inductive Construction where
  | func (name : String)
  /-- A compound whose functor is an item, too. -/
  | funcOfItems (functor : Item)
  | list
  | tuple

namespace Construction

open Arena

/-- Makes a term of the given parts. -/
def build (c : Construction) (a : Arena) (items : List Item) : Except TermError Handle × Arena :=
  match c with
  | func name => (.ok (a.func name items).1, (a.func name items).2)
  | funcOfItems functor => a.funcOfItems (functor :: items)
  | list => (.ok (a.list items).1, (a.list items).2)
  | tuple => (.ok (a.tuple items).1, (a.tuple items).2)

/-- The arena in which the first of the parts is run: the functor comes before them. -/
def start (c : Construction) (a : Arena) : Arena :=
  match c with
  | func name => (a.atom name).2.pushSlot (a.atom name).1
  | funcOfItems functor => (functor a).2.pushSlot (functor a).1
  | list | tuple => a

/-- The view of a term that was made with the given parts. -/
def shown (c : Construction) (a : Arena) (hs : List Handle) : View Handle :=
  match c with
  | func name => .func (a.atom name).1 hs
  | funcOfItems functor => .func (functor a).1 hs
  | list => .list hs
  | tuple => .tuple hs

/-- A functor that is an item only appends, and yields an atom. -/
def FunctorFits (c : Construction) (a : Arena) : Prop :=
  match c with
  | funcOfItems functor => functor.Appends ∧ (functor a).1.isAtom = true
  | func _ | list | tuple => True

/-- Different parts are shown differently. -/
theorem shown_injective (c : Construction) (a : Arena) {hs hs' : List Handle}
    (same : c.shown a hs = c.shown a hs') : hs = hs' := by
  cases c with
  | func name => exact (View.func.inj same).2
  | funcOfItems functor => exact (View.func.inj same).2
  | list => exact View.list.inj same
  | tuple => exact View.tuple.inj same

end Construction

namespace Arena

variable {a : Arena} {items : List Item}

/-- A compound shows its functor and all that was appended behind it. -/
theorem view_compound_items {functor : Handle} (some : items ≠ []) (orderly : a.Orderly)
    (distinct : a.ids.Nodup) (appends : ∀ item ∈ items, item.Appends)
    (slotsFit : (a.compound functor items).2.slots.size < UInt32.size) :
    ∃ hs, (a.compound functor items).2.view (a.compound functor items).1 = .ok (.func functor hs) ∧
      ((a.pushSlot functor).yields items).Sublist hs ∧
      hs.length = items.length + (a.pushSlot functor).ownSlots items := by
  obtain ⟨hs, pushed, among, length⟩ := slots_pushItems appends (a.pushSlot functor)
  have grows := (grows_pushSlot a functor).trans (grows_pushItems appends (a.pushSlot functor))
  have slots : ((a.pushSlot functor).pushItems items).slots = a.slots ++ (functor :: hs).toArray := by
    rw [pushed]
    show a.slots.push functor ++ _ = _
    simp
  obtain ⟨item, rest, rfl⟩ := List.exists_cons_of_ne_nil some
  exact ⟨hs, view_func (slotsAt_nodeFrom grows orderly distinct slots slotsFit), among, length⟩

/-- What was appended for a list or a tuple is at its stretch. -/
theorem slotsAt_pushItems_items (orderly : a.Orderly) (distinct : a.ids.Nodup)
    (appends : ∀ item ∈ items, item.Appends)
    (slotsFit : (a.pushItems items).slots.size < UInt32.size) :
    ∃ hs, (a.pushItems items).slotsAt ((a.pushItems items).sliceBetween a.slots.size
        (a.pushItems items).slots.size) = .ok hs ∧
      (a.yields items).Sublist hs ∧ hs.length = items.length + a.ownSlots items := by
  obtain ⟨hs, slots, among, length⟩ := slots_pushItems appends a
  exact ⟨hs, slotsAt_nodeFrom (grows_pushItems appends a) orderly distinct slots slotsFit, among,
    length⟩

end Arena

namespace Construction

open Arena

variable {a : Arena} {items : List Item}

/-- Whatever is made of items that only append, the arena has grown, so that a closure that makes it is
such an item again, and so on to any depth. -/
theorem grows_build (c : Construction) (functor : ∀ f, c = .funcOfItems f → f.Appends)
    (appends : ∀ item ∈ items, item.Appends) (a : Arena) : a.Grows (c.build a items).2 := by
  cases c with
  | func name => exact (a.grows_text .atom name).trans (grows_compound appends _ _)
  | funcOfItems f =>
    have named := functor f rfl a
    rw [build, Arena.funcOfItems]
    dsimp only
    split
    · exact named.trans (grows_compound appends _ _)
    · exact named
  | list =>
    cases items with
    | nil => exact .refl a
    | cons item rest => exact grows_pushItems appends a
  | tuple =>
    cases items with
    | nil => exact .refl a
    | cons item rest => exact grows_pushItems appends a

/-- Making a term of some parts succeeds, and the term shows the functor and, among the slots that the
items have left, the handles that they yielded, in order. -/
theorem exists_view_build (c : Construction) (some : items ≠ []) (orderly : a.Orderly)
    (distinct : a.ids.Nodup) (functor : c.FunctorFits a) (appends : ∀ item ∈ items, item.Appends)
    (slotsFit : (c.build a items).2.slots.size < UInt32.size) :
    ∃ h hs, (c.build a items).1 = .ok h ∧ (c.build a items).2.view h = .ok (c.shown a hs) ∧
      ((c.start a).yields items).Sublist hs ∧
      hs.length = items.length + (c.start a).ownSlots items := by
  cases c with
  | func name =>
    have named := a.grows_text .atom name
    obtain ⟨hs, seen, rest⟩ := view_compound_items some (named.orderly orderly)
      (named.ids_eq ▸ distinct) appends slotsFit
    exact ⟨_, hs, rfl, seen, rest⟩
  | funcOfItems f =>
    have named := functor.1 a
    have built : a.funcOfItems (f :: items) =
        (.ok ((f a).2.compound (f a).1 items).1, ((f a).2.compound (f a).1 items).2) := if_pos functor.2
    rw [build, built] at slotsFit
    obtain ⟨hs, seen, rest⟩ := view_compound_items some (named.orderly orderly)
      (named.ids_eq ▸ distinct) appends slotsFit
    rw [build, built]
    exact ⟨_, hs, rfl, seen, rest⟩
  | list =>
    obtain ⟨item, rest, rfl⟩ := List.exists_cons_of_ne_nil some
    obtain ⟨hs, slots, rest⟩ := slotsAt_pushItems_items orderly distinct appends slotsFit
    exact ⟨_, hs, rfl, view_list slots, rest⟩
  | tuple =>
    obtain ⟨item, rest, rfl⟩ := List.exists_cons_of_ne_nil some
    obtain ⟨hs, slots, rest⟩ := slotsAt_pushItems_items orderly distinct appends slotsFit
    exact ⟨_, hs, rfl, view_tuple slots, rest⟩

/-- A term that is made of one part or more shows its functor and the handles that its items yielded, in
order, and nothing else, exactly if the items leave no slots for parts of their own; otherwise these
slots are shown among the handles. -/
theorem view_build (c : Construction) (some : items ≠ []) (orderly : a.Orderly)
    (distinct : a.ids.Nodup) (functor : c.FunctorFits a) (appends : ∀ item ∈ items, item.Appends)
    (bytesFit : (c.build a items).2.bytes.size < UInt32.size)
    (slotsFit : (c.build a items).2.slots.size < UInt32.size) :
    ∃ h, (c.build a items).1 = .ok h ∧
      ((c.build a items).2.view h = .ok (c.shown a ((c.start a).yields items)) ↔
        (c.start a).ownSlots items = 0) ∧
      (∃ hs, (c.build a items).2.view h = .ok (c.shown a hs) ∧
        ((c.start a).yields items).Sublist hs ∧
        hs.length = items.length + (c.start a).ownSlots items) ∧
      ∀ name, c = .func name →
        (c.build a items).2.view (a.atom name).1 = .ok (.ofText .atom name) := by
  obtain ⟨h, hs, made, seen, among, length⟩ :=
    c.exists_view_build some orderly distinct functor appends slotsFit
  refine ⟨h, made, ?_, ⟨hs, seen, among, length⟩, ?_⟩
  · rw [seen, ← eq_yields_iff among length]
    constructor
    · intro same
      exact c.shown_injective a (Except.ok.inj same)
    · intro same
      rw [same]
  · rintro name rfl
    obtain ⟨item, rest, rfl⟩ := List.exists_cons_of_ne_nil some
    have named := a.grows_text .atom name
    have later := (grows_pushSlot (a.atom name).2 (a.atom name).1).trans (grows_pushItems appends _)
    refine view_text orderly distinct (Nat.lt_of_le_of_lt later.size_bytes_le bytesFit) ?_
    intro e _
    exact later.keeps (named.orderly orderly) e

/-- A closure that makes the term `g(1)`. -/
def nestedItem : Item := fun a => a.func "g" [.ofHandle (.int 1)]

theorem appends_nestedItem : nestedItem.Appends := by
  intro a
  have parts : ∀ item ∈ [Item.ofHandle (.int 1)], item.Appends := by
    intro item among
    rw [List.mem_singleton.mp among]
    exact Item.appends_ofHandle _
  exact (func "g").grows_build (fun f other => by cases other) parts a

theorem view_build_pair :
    ∃ h, ((funcOfItems (·.atom "pair")).build (create ⟨0⟩ ⟨0⟩) [nestedItem, .ofHandle (.int 7)]).1 =
        .ok h ∧
      (((funcOfItems (·.atom "pair")).build (create ⟨0⟩ ⟨0⟩)
            [nestedItem, .ofHandle (.int 7)]).2.view h =
          .ok ((funcOfItems (·.atom "pair")).shown (create ⟨0⟩ ⟨0⟩)
            (((funcOfItems (·.atom "pair")).start (create ⟨0⟩ ⟨0⟩)).yields
              [nestedItem, .ofHandle (.int 7)])) ↔
        ((funcOfItems (·.atom "pair")).start (create ⟨0⟩ ⟨0⟩)).ownSlots
          [nestedItem, .ofHandle (.int 7)] = 0) := by
  have appends : ∀ item ∈ [nestedItem, .ofHandle (.int 7)], item.Appends := by
    intro item among
    rw [List.mem_cons, List.mem_singleton] at among
    rcases among with rfl | rfl
    · exact appends_nestedItem
    · exact Item.appends_ofHandle _
  obtain ⟨h, made, iff, -⟩ := view_build (funcOfItems (·.atom "pair")) (List.cons_ne_nil _ _)
    (orderly_create ⟨0⟩ ⟨0⟩) (by decide) ⟨fun a => a.grows_text .atom "pair", by decide⟩ appends
    (by decide +kernel) (by decide +kernel)
  exact ⟨h, made, iff⟩

/-- Of one item that makes a compound with one argument comes a compound with three. -/
theorem view_build_nestedItem :
    ∃ h hs, ((func "f").build (create ⟨0⟩ ⟨0⟩) [nestedItem]).1 = .ok h ∧
      ((func "f").build (create ⟨0⟩ ⟨0⟩) [nestedItem]).2.view h =
        .ok ((func "f").shown (create ⟨0⟩ ⟨0⟩) hs) ∧
      hs.length = 3 ∧
      ((func "f").build (create ⟨0⟩ ⟨0⟩) [nestedItem]).2.view h ≠
        .ok ((func "f").shown (create ⟨0⟩ ⟨0⟩)
          (((func "f").start (create ⟨0⟩ ⟨0⟩)).yields [nestedItem])) := by
  refine ⟨_, _, rfl, rfl, rfl, ?_⟩
  intro same
  have parts := shown_injective (func "f") _ (Except.ok.inj same)
  cases congrArg List.length parts

end Construction

end PrologWire
