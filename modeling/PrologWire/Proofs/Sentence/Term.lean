import PrologWire.Numeric.Binary64

/-!
# Terms as values

A term by itself, without an arena and without calls. The variables of a term are told apart by
whatever the term is given for them: by names as calls give them, or by numbers as both wire formats
write them. `Term.numbered` goes from the first to the second.
-/

namespace PrologWire

/-- A term with variables `ν`. -/
inductive Term (ν : Type) where
  | atom (name : String)
  | integer (value : Int)
  | float (value : Binary64)
  | var (v : ν)
  | compound (functor : String) (args : List (Term ν))
  | list (elems : List (Term ν))
deriving Inhabited

namespace Term

variable {ν μ : Type}

/-! ## Replacing variables -/

mutual

/-- The same term with other variables. -/
def map (f : ν → μ) : Term ν → Term μ
  | atom name => atom name
  | integer value => integer value
  | float value => float value
  | var v => var (f v)
  | compound functor args => compound functor (mapAll f args)
  | list elems => list (mapAll f elems)

/-- The same terms with other variables. -/
def mapAll (f : ν → μ) : List (Term ν) → List (Term μ)
  | [] => []
  | t :: rest => t.map f :: mapAll f rest

end

theorem mapAll_eq_map (f : ν → μ) (ts : List (Term ν)) : mapAll f ts = ts.map (map f) := by
  induction ts with
  | nil => rfl
  | cons t rest ih => rw [mapAll, ih, List.map_cons]

theorem map_compound (f : ν → μ) (functor : String) (args : List (Term ν)) :
    (compound functor args).map f = compound functor (args.map (map f)) := by
  rw [map, mapAll_eq_map]

theorem map_list (f : ν → μ) (elems : List (Term ν)) :
    (list elems).map f = list (elems.map (map f)) := by
  rw [map, mapAll_eq_map]

/-! ## Compounds without arguments -/

mutual

/-- The same term with an atom for every compound without arguments. -/
def collapse : Term ν → Term ν
  | atom name => atom name
  | integer value => integer value
  | float value => float value
  | var v => var v
  | compound functor args =>
    if args.isEmpty then atom functor else compound functor (collapseAll args)
  | list elems => list (collapseAll elems)

/-- The same terms with an atom for every compound without arguments. -/
def collapseAll : List (Term ν) → List (Term ν)
  | [] => []
  | t :: rest => t.collapse :: collapseAll rest

end

theorem collapseAll_eq_map (ts : List (Term ν)) : collapseAll ts = ts.map collapse := by
  induction ts with
  | nil => rfl
  | cons t rest ih => rw [collapseAll, ih, List.map_cons]

/-! ## The integers and names of a term -/

mutual

/-- The integers of a term. -/
def integers : Term ν → List Int
  | integer value => [value]
  | compound _ args => integersAll args
  | list elems => integersAll elems
  | _ => []

/-- The integers of terms. -/
def integersAll : List (Term ν) → List Int
  | [] => []
  | t :: rest => t.integers ++ integersAll rest

end

mutual

/-- The names of the atoms and compounds of a term. -/
def symbols : Term ν → List String
  | atom name => [name]
  | compound functor args => functor :: symbolsAll args
  | list elems => symbolsAll elems
  | _ => []

/-- The names of the atoms and compounds of terms. -/
def symbolsAll : List (Term ν) → List String
  | [] => []
  | t :: rest => t.symbols ++ symbolsAll rest

end

theorem integersAll_eq_flatMap (ts : List (Term ν)) : integersAll ts = ts.flatMap integers := by
  induction ts with
  | nil => rfl
  | cons t rest ih => rw [integersAll, ih, List.flatMap_cons]

theorem symbolsAll_eq_flatMap (ts : List (Term ν)) : symbolsAll ts = ts.flatMap symbols := by
  induction ts with
  | nil => rfl
  | cons t rest ih => rw [symbolsAll, ih, List.flatMap_cons]

mutual

/-- The integers do not depend on the variables. -/
theorem integers_map (f : ν → μ) : ∀ t : Term ν, (t.map f).integers = t.integers
  | atom _ | integer _ | float _ | var _ => rfl
  | compound _ args => by rw [map, integers, integers, integersAll_mapAll f args]
  | list elems => by rw [map, integers, integers, integersAll_mapAll f elems]

/-- The integers do not depend on the variables. -/
theorem integersAll_mapAll (f : ν → μ) :
    ∀ ts : List (Term ν), integersAll (mapAll f ts) = integersAll ts
  | [] => rfl
  | t :: rest => by
    rw [mapAll, integersAll, integersAll, integers_map f t, integersAll_mapAll f rest]

end

mutual

/-- The names do not depend on the variables. -/
theorem symbols_map (f : ν → μ) : ∀ t : Term ν, (t.map f).symbols = t.symbols
  | atom _ | integer _ | float _ | var _ => rfl
  | compound functor args => by rw [map, symbols, symbols, symbolsAll_mapAll f args]
  | list elems => by rw [map, symbols, symbols, symbolsAll_mapAll f elems]

/-- The names do not depend on the variables. -/
theorem symbolsAll_mapAll (f : ν → μ) :
    ∀ ts : List (Term ν), symbolsAll (mapAll f ts) = symbolsAll ts
  | [] => rfl
  | t :: rest => by rw [mapAll, symbolsAll, symbolsAll, symbols_map f t, symbolsAll_mapAll f rest]

end

/-! ## The variables of a term -/

mutual

/-- The variables of a term from the left to the right, each as often as it stands there. -/
def vars : Term ν → List ν
  | atom _ | integer _ | float _ => []
  | var v => [v]
  | compound _ args => varsAll args
  | list elems => varsAll elems

/-- The variables of terms, one term after the other. -/
def varsAll : List (Term ν) → List ν
  | [] => []
  | t :: rest => t.vars ++ varsAll rest

end

theorem varsAll_eq_flatMap (ts : List (Term ν)) : varsAll ts = ts.flatMap vars := by
  induction ts with
  | nil => rfl
  | cons t rest ih => rw [varsAll, ih, List.flatMap_cons]

/-- The distinct names of the variables of a sentence, in the order of their first occurrences. -/
def names (ts : List (Term String)) : List String := (ts.flatMap vars).eraseDups

/-- A term has no names if it has no variables. -/
theorem length_names_eq_zero (t : Term String) : (names [t]).length = 0 ↔ t.vars = [] := by
  rw [List.length_eq_zero_iff, names, List.flatMap_singleton]
  cases t.vars <;> simp [List.eraseDups_cons]

/-- The terms of a sentence with every variable replaced by the number of its name. -/
def numbered (ts : List (Term String)) : List (Term Nat) := ts.map (map (names ts).idxOf)

end Term

end PrologWire
