import PrologWire.Proofs.Sentence.Outline
import PrologWire.Wire.VarTable

/-!
# Numbers of variables while a sentence goes on

The number that a table gives to a name is the place of the name among the names of the whole
sentence, although the later ones are not known yet: the names so far are the first of them.
`Progress` says so of all that a consumer has gathered of a sentence.
-/

namespace PrologWire

namespace VarTable

/-- The names of a table stay the first ones. -/
theorem prefix_names_ordinal (t : VarTable) (name : String) :
    t.names <+: (t.ordinal name).2.names := by
  rw [names_ordinal]
  split
  · exact List.prefix_rfl
  · exact List.prefix_append _ _

/-- The number of a name is its place in every list that begins with the names of the table. -/
theorem ordinal_eq_idxOf (t : VarTable) (name : String) {all : List String}
    (first : (t.ordinal name).2.names <+: all) : (t.ordinal name).1 = all.idxOf name := by
  obtain ⟨later, rfl⟩ := first
  have known : name ∈ (t.ordinal name).2.names := by
    rw [names_ordinal]
    split
    · assumption
    · exact List.mem_append_right _ List.mem_cons_self
  rw [List.idxOf_append, if_pos known]
  unfold ordinal
  cases h : t.names.idxOf? name with
  | none =>
    have unknown : name ∉ t.names := List.idxOf?_eq_none_iff.mp h
    simp [size, List.idxOf_append, unknown]
  | some i =>
    obtain ⟨-, same⟩ := List.findIdx?_eq_some_iff_findIdx_eq.mp h
    exact same.symm

/-- A table that holds the distinct names of a sentence so far still does with one more name. -/
theorem names_ordinal_eq_eraseDups {t : VarTable} {seen : List String}
    (h : t.names = seen.eraseDups) (name : String) :
    (t.ordinal name).2.names = (seen ++ [name]).eraseDups := by
  rw [names_ordinal, List.eraseDups_append, h]
  have single : [name].eraseDups = [name] := rfl
  by_cases known : name ∈ seen
  · simp [List.removeAll, known]
  · simp [List.removeAll, known, single]

end VarTable

/-- What is gathered of an outline has the numbers that its variables have in the whole sentence,
whatever names this has behind the names so far. -/
structure Progress (names : List String) (Gathered : Outline Nat → Prop) (o : Outline String) :
    Prop where
  names_eq : names = o.vars.eraseDups
  gathered {all : List String} : names <+: all → Gathered (o.map all.idxOf)

namespace Progress

variable {names : List String} {Gathered Gathered' : Outline Nat → Prop} {o o' : Outline String}

/-- Some numbers are known to have been gathered. -/
theorem exists_gathered (h : Progress names Gathered o) :
    ∃ f : String → Nat, Gathered (o.map f) :=
  ⟨_, h.gathered List.prefix_rfl⟩

/-- A step without variables is one for every numbering. -/
theorem step (h : Progress names Gathered o) (same : o'.vars = o.vars)
    (steps : ∀ f : String → Nat, Gathered (o.map f) → Gathered' (o'.map f)) :
    Progress names Gathered' o' where
  names_eq := by rw [same, h.names_eq]
  gathered first := steps _ (h.gathered first)

/-- A step without variables that succeeds for every numbering. A consumer has one outcome, so that it
is the same for all numberings. -/
theorem of_succeeds {σ : Type} (table : σ → VarTable) (Gathered : σ → Outline Nat → Prop) {s : σ}
    {r : Answer × σ} (h : Progress (table s).names (Gathered s) o) (same : o'.vars = o.vars)
    (succeeds : ∀ f : String → Nat, Gathered s (o.map f) →
      ∃ s', r = (.ok (), s') ∧ Gathered s' (o'.map f) ∧ table s' = table s) :
    ∃ s', r = (.ok (), s') ∧ Progress (table s').names (Gathered s') o' := by
  obtain ⟨f, gathered⟩ := h.exists_gathered
  -- the state after the step is known from one numbering
  obtain ⟨s', rfl, -, unchanged⟩ := succeeds f gathered
  refine ⟨s', rfl, ?_⟩
  rw [unchanged]
  refine h.step same fun g gathered => ?_
  obtain ⟨s'', eq, gathered', -⟩ := succeeds g gathered
  obtain rfl := (Prod.mk.inj eq).2
  exact gathered'

/-- A variable gets the number that the table gives it. -/
theorem var {table : VarTable} (h : Progress table.names Gathered o) (name : String)
    (steps : ∀ o : Outline Nat, Gathered o → Gathered' (o.add (.var (table.ordinal name).1))) :
    Progress (table.ordinal name).2.names Gathered' (o.add (.var name)) where
  names_eq := by
    rw [Outline.vars_add, Term.vars]
    exact VarTable.names_ordinal_eq_eraseDups h.names_eq name
  gathered {all} first := by
    have known := h.gathered ((table.prefix_names_ordinal name).trans first)
    rw [Outline.map_add, Term.map, ← table.ordinal_eq_idxOf name first]
    exact steps _ known

/-- At the end of the sentence the numbers are known. -/
theorem whole {ts : List (Term String)} (h : Progress names Gathered ⟨ts, []⟩) :
    names = Term.names ts ∧ Gathered ⟨Term.numbered ts, []⟩ := by
  have all : names = Term.names ts := by
    rw [h.names_eq, Term.names]
    simp [Outline.vars]
  exact ⟨all, h.gathered (all ▸ List.prefix_rfl)⟩

end Progress

end PrologWire
