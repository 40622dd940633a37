import PrologWire.Arena.Tree
import PrologWire.Sicstus.Format

/-!
# What the bytes of a term tell

A reader of SICStus bytes gets names, arities and arguments, the digits of integers, the texts of
floats and the numbers of variables. `Tree.reading?` has all that for a tree; strings, tuples and
whatever does not resolve have no bytes, so that there is nothing to read of them.
-/

namespace PrologWire

/-- What is read of a term. -/
inductive Reading where
  | atom (name : String)
  /-- An integer of any size, by its decimal digits, of which `Text.readInt?` makes the value. -/
  | integer (digits : String)
  | float (text : String)
  /-- A variable, by its number in the sentence. -/
  | var (ordinal : Nat)
  | compound (functor : String) (args : List Reading)
  | list (elems : List Reading)
deriving Inhabited

namespace Leaf

/-- The name of an atom. -/
def name? : Leaf → Option String
  | atom name => some name
  | _ => none

/-- The digits that are kept of a big integer. -/
def bigDigits? : Leaf → Option String
  | bigint digits => some digits
  | _ => none

/-- The name of a variable. -/
def var? : Leaf → Option String
  | var name => some name
  | _ => none

/-- The text of an atom or of a big integer has no null character. -/
def ZeroFree : Leaf → Prop
  | atom name => '\x00' ∉ name.toList
  | bigint digits => '\x00' ∉ digits.toList
  | _ => True

/-- What is read of a leaf, with numbers for variables. -/
def reading? (f : String → Nat) : Leaf → Option Reading
  | int value => some (.integer (toString value.toInt))
  | bigint digits => some (.integer digits)
  | real value => some (.float (Sicstus.floatText value))
  | var name => some (.var (f name))
  | atom name => some (.atom name)
  | str _ => none

end Leaf

namespace Tree

mutual

/-- The leaves from the left to the right, the functor of a compound before its arguments. -/
def leaves : Tree → List Leaf
  | leaf l => [l]
  | func functor args => functor.leaves ++ leavesAll args
  | list elems => leavesAll elems
  | tuple elems => leavesAll elems
  | broken _ => []

/-- The leaves of trees in a row. -/
def leavesAll : List Tree → List Leaf
  | [] => []
  | t :: rest => t.leaves ++ leavesAll rest

end

/-- The names of the atoms and functors. -/
def names (t : Tree) : List String := t.leaves.filterMap Leaf.name?

/-- The digits that are kept of the big integers. -/
def bigDigits (t : Tree) : List String := t.leaves.filterMap Leaf.bigDigits?

/-- The names of the variables, one for each occurrence. -/
def vars (t : Tree) : List String := t.leaves.filterMap Leaf.var?

mutual

/-- What is read of a tree with the given numbers for its variables. -/
def numberedReading? (f : String → Nat) : Tree → Option Reading
  | leaf l => l.reading? f
  | list elems => (numberedReadings? f elems).map .list
  | func functor args =>
    match functor.functorName with
    | .ok name => (numberedReadings? f args).map (.compound name)
    | .error _ => none
  | tuple _ => none
  | broken _ => none

/-- What is read of trees in a row. -/
def numberedReadings? (f : String → Nat) : List Tree → Option (List Reading)
  | [] => some []
  | t :: rest => do some ((← t.numberedReading? f) :: (← numberedReadings? f rest))

end

/-- What is read of the sentence of a tree: its variables are numbered in the order of their first
occurrences. -/
def reading? (t : Tree) : Option Reading := t.numberedReading? t.vars.eraseDups.idxOf

theorem numberedReadings?_cons_eq_some {f : String → Nat} {t : Tree} {rest : List Tree}
    {rs : List Reading} : numberedReadings? f (t :: rest) = some rs ↔
      ∃ r rs', t.numberedReading? f = some r ∧ numberedReadings? f rest = some rs' ∧
        rs = r :: rs' := by
  simp [numberedReadings?, Option.bind_eq_some_iff, eq_comm (a := rs)]

/-- A functor is an atom, or the empty list, which has no leaves. -/
theorem leaves_of_functorName {t : Tree} {name : String} (named : t.functorName = .ok name) :
    t.leaves = [.atom name] ∨ t.leaves = [] ∧ name = "[]" := by
  cases t with
  | leaf l =>
    cases l with
    | atom text =>
      obtain rfl := Except.ok.inj named
      exact .inl rfl
    | _ => cases named
  | list elems =>
    cases elems with
    | nil =>
      obtain rfl := Except.ok.inj named
      exact .inr ⟨rfl, rfl⟩
    | cons t rest => cases named
  | func functor args => cases named
  | tuple elems => cases named
  | broken cause => cases named

/-- In a functor there is nothing but an atom. -/
theorem filterMap_leaves_of_functorName {α : Type} {t : Tree} {name : String}
    (named : t.functorName = .ok name) {g : Leaf → Option α} (other : g (.atom name) = none) :
    t.leaves.filterMap g = [] := by
  rcases leaves_of_functorName named with atom | ⟨empty, -⟩
  · rw [atom, List.filterMap_cons_none other, List.filterMap_nil]
  · rw [empty, List.filterMap_nil]

end Tree

/-! ## Digits -/

namespace Reading

mutual

/-- The digits of the integers in what was read. -/
def digits : Reading → List String
  | integer text => [text]
  | compound _ args => digitsAll args
  | list elems => digitsAll elems
  | _ => []

/-- The same for a row of terms. -/
def digitsAll : List Reading → List String
  | [] => []
  | r :: rest => r.digits ++ digitsAll rest

end

theorem mem_digitsAll {rs : List Reading} {text : String} :
    text ∈ digitsAll rs ↔ ∃ r ∈ rs, text ∈ r.digits := by
  induction rs with
  | nil => simp [digitsAll]
  | cons r rest ih => simp [digitsAll, ih]

end Reading

namespace Tree

variable {f : String → Nat}

mutual

/-- The digits of a big integer are read as those of an integer. -/
theorem bigDigits_subset_digits : ∀ {t : Tree} {r : Reading}, t.numberedReading? f = some r →
    t.leaves.filterMap Leaf.bigDigits? ⊆ r.digits
  | .leaf l, r, read => by
    cases l with
    | bigint text =>
      obtain rfl := Option.some.inj read
      exact List.Subset.refl _
    | _ => exact List.nil_subset _
  | .list elems, r, read => by
    obtain ⟨rs, reads, rfl⟩ := Option.map_eq_some_iff.mp read
    exact bigDigits_subset_digitsAll reads
  | .func functor args, r, read => by
    rw [numberedReading?] at read
    split at read
    · next name named =>
      obtain ⟨rs, reads, rfl⟩ := Option.map_eq_some_iff.mp read
      rw [leaves, List.filterMap_append, filterMap_leaves_of_functorName named rfl]
      exact bigDigits_subset_digitsAll reads
    · cases read
  | .tuple _, _, read => by cases read
  | .broken _, _, read => by cases read

theorem bigDigits_subset_digitsAll : ∀ {ts : List Tree} {rs : List Reading},
    numberedReadings? f ts = some rs →
    (leavesAll ts).filterMap Leaf.bigDigits? ⊆ Reading.digitsAll rs
  | [], _, _ => List.nil_subset _
  | t :: rest, rs, reads => by
    obtain ⟨r, rs', read, others, rfl⟩ := numberedReadings?_cons_eq_some.mp reads
    rw [leavesAll, List.filterMap_append, Reading.digitsAll]
    exact List.append_subset.mpr
      ⟨List.Subset.trans (bigDigits_subset_digits read) (List.subset_append_left _ _),
        List.Subset.trans (bigDigits_subset_digitsAll others) (List.subset_append_right _ _)⟩

end

end Tree

end PrologWire
