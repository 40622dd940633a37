import PrologWire.Proofs.Arena.Isolation
import PrologWire.Proofs.Arena.LiveTerms

/-!
# Terms that an arena holds

An arena holds a handle that one of its operations made as long as the epoch is there in which the stretch
of storage of the handle begins. What such a handle shows is what constructors make: digits of an integer of
more than 64 bits, names other than `[]`, compounds with an atom for their functor and with arguments. So
the tree of a term that an arena holds is the tree of a `Term`, unless there are strings or tuples in it.
-/

namespace PrologWire

/-! ## Handles with their storage -/

/-- The epoch in which the stretch of storage of what an operation makes begins. -/
def Operation.base : Operation → Arena → EpochId
  | .funcOfItems (first :: _), a => (first.item a).2.current.id
  | _, a => a.current.id

namespace Arena

/-- The handle needs no storage, or an operation has made it when its offsets could still be counted, and
the epoch in which its stretch of storage begins has not been erased since, be it by the work for its own
parts. -/
inductive Holds (a : Arena) : Handle → Prop where
  | inline {h : Handle} : h.epoch? = none → Holds a h
  | made {before made : Arena} {op : Operation} {h : Handle} {events : List Event} :
    before.Orderly → before.ids.Nodup → op.perform before = (.made h, made) → op.handedOn? = none →
    made.IsSmall → Course made events a → .erased (op.base before) ∉ op.events before ++ events →
    Holds a h

end Arena

/-- What handles that were made can show: digits are those of a great integer, the atom `[]` is a list, and
a compound has an atom and arguments. -/
def View.Sound : View Handle → Prop
  | .leaf (.bigint digits) => ∃ value : Int, int64? value = none ∧ digits = toString value
  | .leaf (.atom name) => name ≠ "[]"
  | .func functor args => functor.isAtom = true ∧ args ≠ []
  | _ => True

theorem View.sound_ofText (kind : TextKind) (s : String) : (View.ofText kind s).Sound := by
  unfold View.ofText
  split
  · trivial
  · next other =>
    cases kind with
    | atom => exact fun same => other ⟨rfl, same⟩
    | var | str => trivial

theorem View.sound_ofInteger (value : Int) : (View.ofInteger value).Sound := by
  unfold View.ofInteger
  split
  · trivial
  · next great => exact ⟨value, if_neg great, rfl⟩

namespace Arena

variable {a b : Arena} {h : Handle} {v : View Handle}

/-- A handle that needs no storage. -/
theorem sound_of_inline (inline : h.epoch? = none) (seen : a.view h = .ok v) : v.Sound := by
  cases h with
  | int value | real value =>
    obtain rfl := Except.ok.inj seen
    trivial
  | short kind text =>
    rw [view_short] at seen
    rw [← Except.ok.inj seen]
    exact View.sound_ofText kind text.text
  | bigint s | long kind s | node kind s => cases inline

/-- What a compound shows is in its stretch of the slot storage. -/
theorem exists_slots_of_view_func {s : Slice} (seen : a.view (.node .func s) = .ok v) :
    ∃ functor args, a.slotsAt s = .ok (functor :: args) ∧ v = .func functor args := by
  unfold view at seen
  dsimp only at seen
  cases given : a.slotsAt s with
  | error fault =>
    rw [given] at seen
    cases seen
  | ok hs =>
    rw [given] at seen
    cases hs with
    | nil => cases seen
    | cons functor args => exact ⟨functor, args, rfl, (Except.ok.inj seen).symm⟩

end Arena

/-- The last of the parts takes the last slot. -/
theorem Argument.exists_pushSlot (arg : Argument) (args : List Argument) (a : Arena) :
    ∃ x k events, a.pushItems (items (arg :: args)) = x.pushSlot k ∧ Course a events x ∧
      events ⊆ eventsAll (arg :: args) a := by
  induction args generalizing arg a with
  | nil => exact ⟨_, _, _, rfl, arg.course_item a, List.subset_append_left _ _⟩
  | cons next rest ih =>
    obtain ⟨x, k, events, last, course, among⟩ := ih next ((arg.item a).2.pushSlot (arg.item a).1)
    refine ⟨x, k, arg.events a ++ events, last, ?_, ?_⟩
    · exact (arg.course_item a).append (.grow (Arena.grows_pushSlot _ _) course)
    · exact List.append_subset.mpr ⟨List.subset_append_left _ _,
        fun e later => List.mem_append_right _ (among later)⟩

namespace Arena

variable {a b : Arena} {h : Handle} {v : View Handle}

/-- What is given for a stretch between two offsets are the slots between them. -/
theorem slotsAt_sliceBetween_eq_ok {start stop : Nat} {hs : List Handle} (orderly : a.Orderly)
    (order : start ≤ stop) (small : stop < UInt32.size)
    (given : a.slotsAt (b.sliceBetween start stop) = .ok hs) :
    stop ≤ a.slots.size ∧ (a.slots.extract start stop).toList = hs := by
  unfold slotsAt at given
  cases located : a.locate (·.slotStart) a.slots.size (b.sliceBetween start stop) with
  | error fault =>
    rw [located] at given
    cases given
  | ok r =>
    obtain ⟨low, high, share, -, inside, range, -⟩ := locate_eq_ok located
    have first : (UInt32.ofNat start).toNat = start := UInt32.toNat_ofNat_of_lt' (by omega)
    have length : (UInt32.ofNat (stop - start)).toNat = stop - start :=
      UInt32.toNat_ofNat_of_lt' (by omega)
    have stretch : r = (start, stop) := by
      rw [range, b.length_sliceBetween order]
      show ((UInt32.ofNat start).toNat, (UInt32.ofNat start).toNat + (UInt32.ofNat (stop - start)).toNat) = _
      rw [first, length, Nat.add_sub_cancel' order]
    rw [located, stretch] at given
    rw [stretch] at inside
    exact ⟨Nat.le_trans inside (le_size_of_shareOf? orderly.slots share), Except.ok.inj given⟩

/-- Two slots or more from a certain one on are that slot and others. -/
theorem eq_of_extract_push {as hs : Array Handle} {k f : Handle} {stop : Nat} {rest : List Handle}
    (room : as.size + 2 ≤ stop) (within : stop ≤ (as.push k ++ hs).size)
    (taken : ((as.push k ++ hs).extract as.size stop).toList = f :: rest) : f = k ∧ rest ≠ [] := by
  constructor
  · have first := congrArg (·[0]?) taken
    rw [Array.getElem?_toList, Array.getElem?_extract_of_lt (by omega)] at first
    simpa using first.symm
  · rintro rfl
    have size := congrArg List.length taken
    rw [Array.length_toList, Array.size_extract, List.length_singleton] at size
    omega

/-- A compound keeps its functor and has arguments, as long as the epoch in which it begins is there. -/
theorem sound_compound {functor : Handle} {arg : Argument} {args : List Argument} {events : List Event}
    (atom : functor.isAtom = true) (orderly : a.Orderly)
    (small : (b.compound functor (Argument.items (arg :: args))).2.IsSmall)
    (course : Course (b.compound functor (Argument.items (arg :: args))).2 events a)
    (spared : .erased b.current.id ∉ Argument.eventsAll (arg :: args) (b.pushSlot functor) ++ events)
    (seen : a.view (b.compound functor (Argument.items (arg :: args))).1 = .ok v) : v.Sound := by
  obtain ⟨x, k, early, last, partway, among⟩ := Argument.exists_pushSlot arg args (b.pushSlot functor)
  have lasting : (b.pushSlot functor).Extends a :=
    ((Argument.course (arg :: args) (b.pushSlot functor)).append course).extends (.refl _) spared
  have opened : (b.pushSlot functor).Extends x :=
    partway.extends (.refl _) fun erased => spared (List.mem_append_left _ (among erased))
  -- the functor takes one slot and the last argument another
  have more : b.slots.size + 2 ≤ (b.compound functor (Argument.items (arg :: args))).2.slots.size := by
    show _ ≤ ((b.pushSlot functor).pushItems (Argument.items (arg :: args))).slots.size
    have before := opened.size_slots_le
    rw [pushSlot, Array.size_push] at before
    rw [last, pushSlot, Array.size_push]
    omega
  obtain ⟨f, rest, given, rfl⟩ := exists_slots_of_view_func seen
  obtain ⟨within, taken⟩ := slotsAt_sliceBetween_eq_ok orderly (by omega) small.2 given
  obtain ⟨hs, slots⟩ := lasting.slots
  rw [slots] at within taken
  obtain ⟨rfl, some⟩ := eq_of_extract_push more within taken
  exact ⟨atom, some⟩

/-- A name is an atom. -/
theorem isAtom_atom (b : Arena) (name : String) : (b.atom name).1.isAtom = true := by
  unfold atom text
  split <;> rfl

/-- A list or a tuple shows its parts, whatever they are. -/
theorem sound_node {kind : NodeKind} (other : kind ≠ .func) {s : Slice}
    (seen : a.view (.node kind s) = .ok v) : v.Sound := by
  unfold view at seen
  dsimp only at seen
  cases given : a.slotsAt s with
  | error fault =>
    rw [given] at seen
    cases seen
  | ok hs =>
    rw [given] at seen
    cases kind with
    | func => exact absurd rfl other
    | list | tuple => cases hs <;> obtain rfl := Except.ok.inj seen <;> trivial

section

variable {events : List Event} (orderly : b.Orderly) (distinct : b.ids.Nodup)

include orderly distinct

/-- A text stays what it is as long as the epoch in which it begins is there. -/
theorem sound_text {kind : TextKind} {s : String} (small : (b.text kind s).2.IsSmall)
    (course : Course (b.text kind s).2 events a) (spared : .erased b.current.id ∉ events)
    (seen : a.view (b.text kind s).1 = .ok v) : v.Sound := by
  have orderlyMade := (b.grows_text kind s).orderly orderly
  rw [view_text orderly distinct small.1] at seen
  · rw [← Except.ok.inj seen]
    exact View.sound_ofText kind s
  · intro e carries
    rw [epoch?_text carries]
    exact course.keeps orderlyMade spared

/-- So does an integer. -/
theorem sound_integer {value : Int} (small : (b.integer value).2.IsSmall)
    (course : Course (b.integer value).2 events a) (spared : .erased b.current.id ∉ events)
    (seen : a.view (b.integer value).1 = .ok v) : v.Sound := by
  have orderlyMade := (b.grows_integer value).orderly orderly
  rw [view_integer orderly distinct small.1] at seen
  · rw [← Except.ok.inj seen]
    exact View.sound_ofInteger value
  · intro e carries
    rw [epoch?_integer carries]
    exact course.keeps orderlyMade spared

theorem sound_func {name : String} {args : List Argument} (lasting : a.Orderly)
    (small : (b.func name (Argument.items args)).2.IsSmall)
    (course : Course (b.func name (Argument.items args)).2 events a)
    (spared : .erased b.current.id ∉
      Argument.eventsAll args ((b.atom name).2.pushSlot (b.atom name).1) ++ events)
    (seen : a.view (b.func name (Argument.items args)).1 = .ok v) : v.Sound := by
  cases args with
  | nil => exact sound_text orderly distinct small course spared seen
  | cons arg rest =>
    have same : (b.atom name).2.current.id = b.current.id :=
      congrArg Epoch.id (b.grows_text .atom name).current_eq
    exact sound_compound (b.isAtom_atom name) lasting small course (same ▸ spared) seen

theorem sound_funcOfItems {items : List Argument} {made : Arena} (lasting : a.Orderly)
    (makes : b.funcOfItems (Argument.items items) = (.ok h, made))
    (own : (Operation.funcOfItems items).handedOn? = none) (small : made.IsSmall)
    (course : Course made events a)
    (spared : .erased ((Operation.funcOfItems items).base b) ∉
      (Operation.funcOfItems items).events b ++ events)
    (seen : a.view h = .ok v) : v.Sound := by
  cases items with
  | nil => cases makes
  | cons first args =>
    rw [Argument.items, Arena.funcOfItems] at makes
    rw [Operation.events] at spared
    dsimp only at makes
    split at makes
    · next atom =>
      rw [if_pos atom, List.append_assoc, List.mem_append, not_or] at spared
      obtain ⟨same, rfl⟩ := Prod.mk.inj makes
      obtain rfl := Except.ok.inj same
      cases args with
      | cons arg rest => exact sound_compound atom lasting small course spared.2 seen
      | nil =>
        cases first with
        | term k | work ops k => cases own
        | name s =>
          have same : (b.atom s).2.current.id = b.current.id :=
            congrArg Epoch.id (b.grows_text .atom s).current_eq
          exact sound_text orderly distinct small course (same ▸ spared.2) seen
        | integer value =>
          have same : (b.integer value).2.current.id = b.current.id :=
            congrArg Epoch.id (b.grows_integer value).current_eq
          exact sound_integer orderly distinct small course (same ▸ spared.2) seen
    · cases makes

end

/-- What is shown by a handle that the arena holds. -/
theorem Holds.sound (held : a.Holds h) (seen : a.view h = .ok v) : v.Sound := by
  cases held with
  | inline none => exact sound_of_inline none seen
  | @made b made op _ events orderly distinct makes own small course spared =>
    have before := op.course b
    rw [makes] at before
    have lasting := (before.append course).orderly orderly
    cases Operation.makes_of_perform makes with
    | text kind s => exact sound_text orderly distinct small course spared seen
    | integer value => exact sound_integer orderly distinct small course spared seen
    | func name args => exact sound_func orderly distinct lasting small course spared seen
    | funcOfItems result =>
      exact sound_funcOfItems orderly distinct lasting result own small course spared seen
    | list items | tuple items =>
      cases items with
      | nil => exact sound_of_inline rfl seen
      | cons item rest => exact sound_node NodeKind.noConfusion seen

end Arena

/-! ## Trees of held terms -/

/-- Nothing in the tree is broken, a string or a tuple. -/
inductive Tree.Plain : Tree → Prop where
  | leaf {l : Leaf} : l.kind ≠ .str → Plain (leaf l)
  | func {f : Tree} {xs : List Tree} : Plain f → (∀ x ∈ xs, Plain x) → Plain (func f xs)
  | list {xs : List Tree} : (∀ x ∈ xs, Plain x) → Plain (list xs)

namespace Arena

variable {a : Arena} {h : Handle} {v : View Handle} {depth : Nat}

/-- The handle resolves with its storage, and so do the handles of all subterms. -/
inductive HoldsTerm (a : Arena) : Handle → Prop where
  | of_view {h : Handle} {v : View Handle} :
    a.Holds h → a.view h = .ok v → (∀ k ∈ v.parts, HoldsTerm a k) → HoldsTerm a h

/-- An atom that is held shows its name. -/
theorem Holds.view_atom (held : a.Holds h) (atom : h.isAtom = true) (seen : a.view h = .ok v) :
    ∃ name, v = .ofText .atom name := by
  have proper := held.sound seen
  cases h with
  | short kind text =>
    cases kind with
    | atom => exact ⟨text.text, Except.ok.inj (seen.symm.trans (view_short a .atom text))⟩
    | var | str => cases atom
  | long kind s =>
    cases kind with
    | atom =>
      rw [view] at seen
      cases shown : a.textAt (.long .atom s) s with
      | error cause =>
        rw [shown] at seen
        cases seen
      | ok name =>
        rw [shown] at seen
        obtain rfl := Except.ok.inj seen
        refine ⟨name, ?_⟩
        rw [View.ofText, if_neg fun both => proper both.2]
    | var | str => cases atom
  | _ => cases atom

/-- Parts with trees of terms. -/
theorem exists_treeAll {hs : List Handle} {f : Handle → Tree}
    (each : ∀ k ∈ hs, ∃ t : Term String, f k = t.tree) :
    ∃ ts : List (Term String), hs.map f = Term.treeAll ts := by
  induction hs with
  | nil => exact ⟨[], rfl⟩
  | cons k rest ih =>
    obtain ⟨⟨t, first⟩, others⟩ := List.forall_mem_cons.mp each
    obtain ⟨ts, parts⟩ := ih others
    exact ⟨t :: ts, by rw [List.map_cons, first, parts, Term.treeAll]⟩

/-- A leaf other than a string, of a handle that is held, is that of a term. -/
theorem exists_term_leaf {l : Leaf} (proper : (View.leaf l : View Handle).Sound) (plain : l.kind ≠ .str) :
    ∃ t : Term String, Tree.leaf l = t.tree := by
  cases l with
  | int value => exact ⟨.integer value.toInt, by rw [Term.tree, Term.integerLeaf_toInt]⟩
  | bigint digits =>
    obtain ⟨value, great, rfl⟩ := proper
    exact ⟨.integer value, by rw [Term.tree, Term.integerLeaf, great]⟩
  | real value => exact ⟨.float value, rfl⟩
  | var name => exact ⟨.var name, rfl⟩
  | atom name => exact ⟨.atom name, by rw [Term.tree, Tree.ofName, if_neg proper]⟩
  | str text => exact absurd rfl plain

/-- The tree of a term that an arena holds is that of a term, if nothing in it is a string or a tuple. -/
theorem HoldsTerm.exists_term (held : a.HoldsTerm h) (plain : (a.unfold depth h).Plain) :
    ∃ t : Term String, a.unfold depth h = t.tree := by
  induction depth generalizing h with
  | zero => cases plain
  | succ depth ih =>
    obtain ⟨own, seen, parts⟩ := held
    rename_i v
    have proper := own.sound seen
    rw [unfold_succ, seen] at plain ⊢
    cases v with
    | leaf l =>
      cases plain with
      | leaf other => exact exists_term_leaf proper other
    | func functor args =>
      cases plain with
      | func first others =>
        have each : ∀ k ∈ args, ∃ t : Term String, a.unfold depth k = t.tree := fun k among =>
          ih (parts k (List.mem_cons_of_mem _ among)) (others _ (List.mem_map_of_mem among))
        obtain ⟨ts, trees⟩ := exists_treeAll each
        obtain ⟨held, shown, -⟩ := parts functor List.mem_cons_self
        obtain ⟨name, rfl⟩ := held.view_atom proper.1 shown
        have deep : 0 < depth := by
          rcases depth with _ | depth
          · cases first
          · exact Nat.succ_pos depth
        have named := unfold_of_view_atom shown deep
        have some : ts ≠ [] := by
          rintro rfl
          exact proper.2 (List.map_eq_nil_iff.mp trees)
        refine ⟨.compound name ts, ?_⟩
        rw [Term.tree, if_neg (by simpa using some), ← trees, ← named]
        rfl
    | list elems =>
      cases plain with
      | list others =>
        obtain ⟨ts, trees⟩ := exists_treeAll fun k among =>
          ih (parts k among) (others _ (List.mem_map_of_mem among))
        exact ⟨.list ts, congrArg Tree.list trees⟩
    | tuple elems => cases plain

end Arena

/-! ## Leaves of held terms -/

/-- What a handle that was made can show as a leaf. -/
def Leaf.Sound (l : Leaf) : Prop := (View.leaf l : View Handle).Sound

/-- The functor of a made term is known by its name. -/
theorem Tree.eq_ofName_of_functorName {t : Tree} {name : String} (sound : t.Over Leaf.Sound)
    (named : t.functorName = .ok name) : t = .ofName name := by
  cases t with
  | leaf l =>
    cases l with
    | atom text =>
      obtain rfl := Except.ok.inj named
      cases sound with
      | leaf proper => rw [Tree.ofName, if_neg proper]
    | _ => cases named
  | list elems =>
    cases elems with
    | nil =>
      obtain rfl := Except.ok.inj named
      rfl
    | cons t rest => cases named
  | _ => cases named

/-- A new arena in which the operation is performed. -/
def Operation.alone (op : Operation) : Arena := (op.perform (.create ⟨0⟩ ⟨0⟩)).2

namespace Arena

variable {a : Arena} {h : Handle} {depth : Nat}

/-- A term that is held is live. -/
theorem HoldsTerm.live (held : a.HoldsTerm h) : a.Live h := by
  induction held with
  | of_view _ seen _ ih => exact .of_view seen ih

/-- Its leaves are such as constructors make. -/
theorem HoldsTerm.over_unfold (held : a.HoldsTerm h) (whole : a.WholeWithin depth h) :
    (a.unfold depth h).Over Leaf.Sound := by
  induction depth generalizing h with
  | zero => exact absurd whole (a.not_wholeWithin_zero h)
  | succ depth ih =>
    obtain ⟨v, seen, wholes⟩ := wholeWithin_succ_iff.mp whole
    obtain ⟨own, shown, parts⟩ := held
    obtain rfl := Except.ok.inj (seen.symm.trans shown)
    have proper := own.sound seen
    have each (k : Handle) (part : k ∈ v.parts) := ih (parts k part) (wholes k part)
    rw [unfold_succ, seen]
    cases v with
    | leaf l => exact .leaf proper
    | func f xs =>
      refine .func (each f List.mem_cons_self) (List.forall_mem_map.mpr fun k among => ?_)
      exact each k (List.mem_cons_of_mem f among)
    | list xs => exact .list (List.forall_mem_map.mpr each)
    | tuple xs => exact .tuple (List.forall_mem_map.mpr each)

theorem HoldsTerm.over (held : a.HoldsTerm h) : (a.tree h).Over Leaf.Sound :=
  held.over_unfold (live_iff.mp held.live)

/-- A handle that needs no storage resolves, and has no parts. -/
theorem holdsTerm_of_inline (inline : h.epoch? = none) : a.HoldsTerm h := by
  have shown : ∃ v, a.view h = .ok v ∧ v.parts = [] := by
    cases h with
    | int value | real value => exact ⟨_, rfl, rfl⟩
    | short kind text =>
      refine ⟨_, view_short a kind text, ?_⟩
      unfold View.ofText
      split <;> rfl
    | bigint s | long kind s | node kind s => cases inline
  obtain ⟨v, seen, none⟩ := shown
  exact .of_view (.inline inline) seen fun k part => absurd (none ▸ part) List.not_mem_nil

/-- What is made first in an arena out of parts that need no storage is held. -/
theorem holdsTerm_alone {op : Operation} {v : View Handle}
    (makes : op.perform (create ⟨0⟩ ⟨0⟩) = (.made h, op.alone)) (own : op.handedOn? = none)
    (small : op.alone.IsSmall) (spared : .erased ⟨0⟩ ∉ op.events (create ⟨0⟩ ⟨0⟩))
    (base : op.base (create ⟨0⟩ ⟨0⟩) = ⟨0⟩) (seen : op.alone.view h = .ok v)
    (inline : ∀ k ∈ v.parts, k.epoch? = none) : op.alone.HoldsTerm h := by
  have held : op.alone.Holds h :=
    .made (orderly_create ⟨0⟩ ⟨0⟩) (by decide) makes own small (.stay _)
      (by rwa [List.append_nil, base])
  exact .of_view held seen fun k part => holdsTerm_of_inline (inline k part)

end Arena

end PrologWire
