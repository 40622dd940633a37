/-!
# Numbering of the variables of a sentence

Both wire formats write a variable as the number of distinct variables that came before it in its
sentence. Equal names get equal numbers, which is how sharing reaches the reader.
-/

namespace PrologWire

/-- The distinct variable names of a sentence, in the order of their first occurrences. -/
structure VarTable where
  names : List String
deriving Inhabited, DecidableEq

namespace VarTable

/-- No variable has been seen. -/
def empty : VarTable := ⟨[]⟩

/-- The number of distinct variables. -/
def size (t : VarTable) : Nat := t.names.length

/-- The number of a name, and the table with the name in it. -/
def ordinal (t : VarTable) (name : String) : Nat × VarTable :=
  match t.names.idxOf? name with
  | some i => (i, t)
  | none => (t.size, ⟨t.names ++ [name]⟩)

/-- A new name goes to the end; a known one changes nothing. -/
theorem names_ordinal (t : VarTable) (name : String) :
    (t.ordinal name).2.names = if name ∈ t.names then t.names else t.names ++ [name] := by
  unfold ordinal
  cases h : t.names.idxOf? name with
  | none => simp [List.idxOf?_eq_none_iff.mp h]
  | some i =>
    obtain ⟨found, same, _⟩ := List.idxOf?_eq_some_iff.mp h
    have known : name ∈ t.names := same ▸ List.getElem_mem found
    simp [known]

/-- The number of a name is its place among the names. -/
theorem getElem?_names_ordinal (t : VarTable) (name : String) :
    (t.ordinal name).2.names[(t.ordinal name).1]? = some name := by
  unfold ordinal
  cases h : t.names.idxOf? name with
  | none => simp [size]
  | some i =>
    obtain ⟨found, same, _⟩ := List.idxOf?_eq_some_iff.mp h
    simp only
    rw [List.getElem?_eq_getElem found]
    simpa using same

end VarTable

end PrologWire
