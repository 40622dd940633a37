import PrologWire.Proofs.Arena.Terms
import PrologWire.Proofs.Arena.TreeOrder
import PrologWire.Proofs.Numeric.Decimal

/-!
# Terms as an arena has them

An arena has no atom `[]` and no compound without arguments: the one is the empty list, and the other
is the atom of its functor. `Term.stored` is what a term is afterwards, `Term.tree` the tree of a handle
that stands for it, and `Term.emptyNames` counts the atoms that are lost in this way.
-/

namespace PrologWire

namespace Term

variable {ν : Type}

/-! ## What a term is in an arena -/

/-- What an atom is in an arena. -/
def named (name : String) : Term ν := if name = "[]" then list [] else atom name

mutual

/-- What a term is in an arena. -/
def stored : Term ν → Term ν
  | atom name => named name
  | integer value => integer value
  | float value => float value
  | var v => var v
  | compound functor args =>
    if args.isEmpty then named functor else compound functor (storedAll args)
  | list elems => list (storedAll elems)

/-- What terms are in an arena. -/
def storedAll : List (Term ν) → List (Term ν)
  | [] => []
  | t :: rest => t.stored :: storedAll rest

end

mutual

/-- How many atoms `[]` there are in a term. -/
def emptyNames : Term ν → Nat
  | atom name => if name = "[]" then 1 else 0
  | integer _ | float _ | var _ => 0
  | compound functor args =>
    if args.isEmpty then (if functor = "[]" then 1 else 0) else emptyNamesAll args
  | list elems => emptyNamesAll elems

/-- How many atoms `[]` there are in terms. -/
def emptyNamesAll : List (Term ν) → Nat
  | [] => 0
  | t :: rest => t.emptyNames + emptyNamesAll rest

end

theorem isEmpty_storedAll (ts : List (Term ν)) : (storedAll ts).isEmpty = ts.isEmpty := by
  cases ts <;> rfl

theorem length_storedAll (ts : List (Term ν)) : (storedAll ts).length = ts.length := by
  induction ts with
  | nil => rfl
  | cons t rest ih => rw [storedAll, List.length_cons, List.length_cons, ih]

@[simp] theorem vars_named (name : String) : (named name : Term ν).vars = [] := by
  unfold named
  split <;> rfl

mutual

/-- No variable is lost. -/
theorem vars_stored : ∀ t : Term ν, t.stored.vars = t.vars
  | atom name => vars_named name
  | integer _ | float _ | var _ => rfl
  | compound functor args => by
    rw [stored, vars]
    cases args with
    | nil => exact vars_named functor
    | cons t rest => exact varsAll_storedAll (t :: rest)
  | list elems => varsAll_storedAll elems

theorem varsAll_storedAll : ∀ ts : List (Term ν), varsAll (storedAll ts) = varsAll ts
  | [] => rfl
  | t :: rest => by rw [storedAll, varsAll, varsAll, vars_stored t, varsAll_storedAll rest]

end

section

variable {μ : Type} (f : ν → μ)

@[simp] theorem map_named (name : String) : (named name).map f = named name := by
  unfold named
  split <;> rfl

mutual

/-- What the variables are makes no difference. -/
theorem stored_map : ∀ t : Term ν, (t.map f).stored = t.stored.map f
  | atom name => (map_named f name).symm
  | integer _ | float _ | var _ => rfl
  | compound functor args => by
    rw [map, stored, stored]
    cases args with
    | nil => exact (map_named f functor).symm
    | cons t rest =>
      have parts := storedAll_mapAll (t :: rest)
      show compound functor (storedAll (mapAll f (t :: rest))) = _
      rw [parts]
      rfl
  | list elems => by rw [map, stored, stored, map, storedAll_mapAll elems]

theorem storedAll_mapAll : ∀ ts : List (Term ν), storedAll (mapAll f ts) = mapAll f (storedAll ts)
  | [] => rfl
  | t :: rest => by rw [mapAll, storedAll, storedAll, mapAll, stored_map t, storedAll_mapAll rest]

end

mutual

theorem emptyNames_map : ∀ t : Term ν, (t.map f).emptyNames = t.emptyNames
  | atom _ | integer _ | float _ | var _ => rfl
  | compound functor args => by
    rw [map, emptyNames, emptyNames, emptyNamesAll_mapAll args]
    cases args <;> rfl
  | list elems => by rw [map, emptyNames, emptyNames, emptyNamesAll_mapAll elems]

theorem emptyNamesAll_mapAll : ∀ ts : List (Term ν), emptyNamesAll (mapAll f ts) = emptyNamesAll ts
  | [] => rfl
  | t :: rest => by
    rw [mapAll, emptyNamesAll, emptyNamesAll, emptyNames_map t, emptyNamesAll_mapAll rest]

end

end

end Term

/-! ## Trees of terms -/

/-- The tree of an atom. -/
def Tree.ofName (name : String) : Tree := if name = "[]" then .list [] else .leaf (.atom name)

namespace Tree

@[simp] theorem functorName_ofName (name : String) : (ofName name).functorName = .ok name := by
  unfold ofName
  split
  · next empty => rw [empty]; rfl
  · rfl

@[simp] theorem term?_ofName (name : String) : (ofName name).term? = some (.named name) := by
  unfold ofName Term.named
  split <;> rfl

theorem over_ofName (name : String) : (ofName name).Over fun _ => True := by
  unfold ofName
  split
  · exact .list nofun
  · exact .leaf trivial

end Tree

namespace Term

/-- The leaf of an integer. -/
def integerLeaf (value : Int) : Leaf :=
  match int64? value with
  | some small => .int small
  | none => .bigint (toString value)

/-- An integer of 64 bits is itself. -/
theorem integerLeaf_toInt (value : Int64) : integerLeaf value.toInt = .int value := by
  rw [integerLeaf, int64?_toInt]

mutual

/-- The tree of a handle that stands for a term. -/
def tree : Term String → Tree
  | atom name => .ofName name
  | integer value => .leaf (integerLeaf value)
  | float value => .leaf (.real value)
  | var name => .leaf (.var name)
  | compound functor args =>
    if args.isEmpty then .ofName functor else .func (.ofName functor) (treeAll args)
  | list elems => .list (treeAll elems)

/-- The trees of handles that stand for terms. -/
def treeAll : List (Term String) → List Tree
  | [] => []
  | t :: rest => t.tree :: treeAll rest

end

/-- The leaf of an integer stands for it. -/
theorem term?_integerLeaf (value : Int) : (integerLeaf value).term? = some (.integer value) := by
  unfold integerLeaf
  split
  · next small same => rw [Leaf.term?, toInt_of_int64?_eq_some same]
  · rw [Leaf.term?, Text.readInt?_toString]
    rfl

mutual

/-- The tree of a term stands for what the term is in an arena. -/
theorem term?_tree : ∀ t : Term String, t.tree.term? = some t.stored
  | atom name => Tree.term?_ofName name
  | integer value => term?_integerLeaf value
  | float _ | var _ => rfl
  | compound functor args => by
    rw [tree, stored]
    cases args with
    | nil => exact Tree.term?_ofName functor
    | cons t rest =>
      have parts := termAll?_treeAll (t :: rest)
      show (Tree.func (.ofName functor) (treeAll (t :: rest))).term? = _
      rw [Tree.term?, Tree.functorName_ofName, parts]
      rfl
  | list elems => by
    rw [tree, Tree.term?, termAll?_treeAll elems]
    rfl

theorem termAll?_treeAll : ∀ ts : List (Term String), Tree.termAll? (treeAll ts) = some (storedAll ts)
  | [] => rfl
  | t :: rest => by rw [treeAll, Tree.termAll?, term?_tree t, termAll?_treeAll rest, storedAll]

end

mutual

/-- Nothing is broken in the tree of a term. -/
theorem over_tree : ∀ t : Term String, t.tree.Over fun _ => True
  | atom name => Tree.over_ofName name
  | integer _ | float _ | var _ => .leaf trivial
  | compound functor args => by
    rw [tree]
    cases args with
    | nil => exact Tree.over_ofName functor
    | cons t rest => exact .func (Tree.over_ofName functor) (over_treeAll (t :: rest))
  | list elems => .list (over_treeAll elems)

theorem over_treeAll : ∀ (ts : List (Term String)), ∀ x ∈ treeAll ts, x.Over fun _ => True
  | [] => nofun
  | t :: rest => by
    intro x among
    rcases List.mem_cons.mp among with rfl | later
    · exact over_tree t
    · exact over_treeAll rest x later

end

end Term

end PrologWire
