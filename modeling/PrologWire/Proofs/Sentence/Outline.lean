import PrologWire.Call
import PrologWire.Proofs.Sentence.Term

/-!
# Terms in the making

Calls describe terms from the left to the right. An outline is what there is of a sentence after some
of its calls: the terms that are whole, and the compounds and lists that are still open with the
parts they have so far. `Outline.follow` goes on by calls as long as every closing call has something
of its kind to close, and `Term.ofCalls?` has the terms of calls that leave nothing open.
-/

namespace PrologWire

/-- An integer of 64 bits stands for itself. -/
theorem toInt_of_int64?_eq_some {value : Int} {small : Int64} (h : int64? value = some small) :
    small.toInt = value := by
  unfold int64? at h
  split at h
  · next range =>
    obtain rfl := Option.some.inj h
    rw [Int64.toInt_minValue, Int64.toInt_maxValue] at range
    exact Int64.toInt_ofInt_of_le range.1 (by omega)
  · cases h

theorem int64?_toInt (value : Int64) : int64? value.toInt = some value := by
  rw [int64?, if_pos ⟨value.minValue_le_toInt, value.toInt_le⟩, Int64.ofInt_toInt]

/-- A compound or a list that is not closed, with its whole parts in order. -/
inductive Unclosed (ν : Type) where
  | compound (functor : String) (parts : List (Term ν))
  | list (parts : List (Term ν))
deriving Inhabited

namespace Unclosed

variable {ν μ : Type}

/-- The whole parts. -/
def parts : Unclosed ν → List (Term ν)
  | compound _ parts | list parts => parts

/-- One more part. -/
def add (t : Term ν) : Unclosed ν → Unclosed ν
  | compound functor parts => compound functor (parts ++ [t])
  | list parts => list (parts ++ [t])

/-- The same with other variables. -/
def map (f : ν → μ) : Unclosed ν → Unclosed μ
  | compound functor parts => compound functor (parts.map (Term.map f))
  | list parts => list (parts.map (Term.map f))

@[simp] theorem parts_add (t : Term ν) (u : Unclosed ν) : (u.add t).parts = u.parts ++ [t] := by
  cases u <;> rfl

@[simp] theorem map_add (f : ν → μ) (t : Term ν) (u : Unclosed ν) :
    (u.add t).map f = (u.map f).add (t.map f) := by
  cases u <;> simp [add, map]

end Unclosed

/-- What there is of a sentence. -/
structure Outline (ν : Type) where
  /-- The terms that stand in no other, in order. -/
  whole : List (Term ν)
  /-- What is open, the innermost first. -/
  unclosed : List (Unclosed ν)
deriving Inhabited

namespace Outline

variable {ν μ : Type}

/-- The beginning of a sentence. -/
def empty : Outline ν := ⟨[], []⟩

/-- One more whole term, in the innermost of what is open. -/
def add (o : Outline ν) (t : Term ν) : Outline ν :=
  match o with
  | ⟨whole, []⟩ => ⟨whole ++ [t], []⟩
  | ⟨whole, u :: outer⟩ => ⟨whole, u.add t :: outer⟩

/-- Something opened inside the rest. -/
def push (o : Outline ν) (u : Unclosed ν) : Outline ν := { o with unclosed := u :: o.unclosed }

/-- The innermost compound closed. -/
def closeTerm? : Outline ν → Option (Outline ν)
  | ⟨whole, .compound functor parts :: outer⟩ =>
    some (add ⟨whole, outer⟩ (.compound functor parts))
  | _ => none

/-- The innermost list closed. -/
def closeList? : Outline ν → Option (Outline ν)
  | ⟨whole, .list parts :: outer⟩ => some (add ⟨whole, outer⟩ (.list parts))
  | _ => none

/-- What closing a compound needs and leaves. -/
theorem closeTerm?_eq_some {o o' : Outline ν} (h : o.closeTerm? = some o') :
    ∃ whole functor parts outer, o = ⟨whole, .compound functor parts :: outer⟩ ∧
      o' = add ⟨whole, outer⟩ (.compound functor parts) := by
  obtain ⟨whole, _ | ⟨⟨functor, parts⟩ | parts, outer⟩⟩ := o
  · cases h
  · exact ⟨whole, functor, parts, outer, rfl, (Option.some.inj h).symm⟩
  · cases h

/-- What closing a list needs and leaves. -/
theorem closeList?_eq_some {o o' : Outline ν} (h : o.closeList? = some o') :
    ∃ whole parts outer, o = ⟨whole, .list parts :: outer⟩ ∧
      o' = add ⟨whole, outer⟩ (.list parts) := by
  obtain ⟨whole, _ | ⟨⟨functor, parts⟩ | parts, outer⟩⟩ := o
  · cases h
  · cases h
  · exact ⟨whole, parts, outer, rfl, (Option.some.inj h).symm⟩

/-- The same with other variables. -/
def map (f : ν → μ) (o : Outline ν) : Outline μ :=
  ⟨o.whole.map (Term.map f), o.unclosed.map (Unclosed.map f)⟩

/-- The variables from the left to the right, each as often as it stands there. -/
def vars (o : Outline ν) : List ν :=
  o.whole.flatMap Term.vars ++ o.unclosed.reverse.flatMap fun u => u.parts.flatMap Term.vars

/-- All terms are good, and so are the functors of the compounds that are open. -/
def all (term : Term ν → Bool) (functor : String → Bool) (o : Outline ν) : Bool :=
  o.whole.all term && o.unclosed.all fun
    | .compound name parts => functor name && parts.all term
    | .list parts => parts.all term

/-! ## Going on by calls -/

/-- The outline after one more call. A closing call needs something of its kind to close, and a full
stop is no part of a sentence. -/
def step (o : Outline String) : Call → Option (Outline String)
  | .openTerm functor => some (o.push (.compound functor []))
  | .closeTerm => o.closeTerm?
  | .openList => some (o.push (.list []))
  | .closeList => o.closeList?
  | .emptyList => some (o.add (.list []))
  | .atom name => some (o.add (.atom name))
  | .int value => some (o.add (.integer value.toInt))
  | .bigint value => some (o.add (.integer value))
  | .float value => some (o.add (.float value))
  | .var name => some (o.add (.var name))
  | .fullStop => none
  | .flush => some o

/-- A call is gone on with, or whatever it would lead to cannot be written. -/
theorem step_cases (takes : Outline String → Bool) (o : Outline String) (c : Call) :
    (∃ after, o.step c = some after ∧ takes after = true) ∨
      ∀ after, o.step c = some after → takes after = false := by
  rcases steps : o.step c with _ | after
  · refine .inr fun after none => ?_
    cases none
  · cases taken : takes after with
    | true => exact .inl ⟨after, rfl, taken⟩
    | false =>
      refine .inr fun after' same => ?_
      obtain rfl := Option.some.inj same
      exact taken

/-- The outline after some more calls. -/
def follow (o : Outline String) : List Call → Option (Outline String)
  | [] => some o
  | c :: rest =>
    match o.step c with
    | some o => o.follow rest
    | none => none

/-- Calls in a row are followed in two parts. -/
theorem follow_append (o : Outline String) (xs ys : List Call) :
    o.follow (xs ++ ys) =
      match o.follow xs with
      | some o => o.follow ys
      | none => none := by
  induction xs generalizing o with
  | nil => rfl
  | cons c rest ih =>
    simp only [List.cons_append, follow]
    rcases o.step c with _ | after
    · rfl
    · exact ih after

/-- One more call. -/
theorem follow_concat (o : Outline String) (cs : List Call) (c : Call) :
    o.follow (cs ++ [c]) =
      match o.follow cs with
      | some o => o.step c
      | none => none := by
  rw [follow_append]
  rcases o.follow cs with _ | after
  · rfl
  · simp only [follow]
    rcases after.step c with _ | last <;> rfl

/-- A full stop is no part of a sentence. -/
theorem fullStop_not_mem {o o' : Outline String} {cs : List Call} (h : o.follow cs = some o') :
    Call.fullStop ∉ cs := by
  induction cs generalizing o with
  | nil => exact List.not_mem_nil
  | cons c rest ih =>
    rw [follow] at h
    split at h
    · next after steps =>
      rw [List.mem_cons, not_or]
      refine ⟨?_, ih h⟩
      rintro rfl
      cases steps
    · cases h

/-! ## What the operations do to variables -/

@[simp] theorem map_add (f : ν → μ) (o : Outline ν) (t : Term ν) :
    (o.add t).map f = (o.map f).add (t.map f) := by
  obtain ⟨whole, _ | ⟨u, outer⟩⟩ := o <;> simp [add, map]

/-- The variables of a new term come last. -/
@[simp] theorem vars_add (o : Outline ν) (t : Term ν) : (o.add t).vars = o.vars ++ t.vars := by
  obtain ⟨whole, _ | ⟨u, outer⟩⟩ := o <;> simp [add, vars]

@[simp] theorem vars_push_compound (o : Outline ν) (functor : String) :
    (o.push (.compound functor [])).vars = o.vars := by
  simp [push, vars, Unclosed.parts]

@[simp] theorem vars_push_list (o : Outline ν) : (o.push (.list [])).vars = o.vars := by
  simp [push, vars, Unclosed.parts]

/-- Closing a compound moves no variable. -/
theorem vars_closeTerm? {o o' : Outline ν} (h : o.closeTerm? = some o') : o'.vars = o.vars := by
  obtain ⟨whole, functor, parts, outer, rfl, rfl⟩ := closeTerm?_eq_some h
  rw [vars_add, Term.vars, Term.varsAll_eq_flatMap]
  simp [vars, Unclosed.parts]

/-- Closing a list moves no variable. -/
theorem vars_closeList? {o o' : Outline ν} (h : o.closeList? = some o') : o'.vars = o.vars := by
  obtain ⟨whole, parts, outer, rfl, rfl⟩ := closeList?_eq_some h
  rw [vars_add, Term.vars, Term.varsAll_eq_flatMap]
  simp [vars, Unclosed.parts]

/-! ## Outlines in which all is good -/

section

variable {term : Term ν → Bool} {functor : String → Bool}

@[simp] theorem all_empty : (empty : Outline ν).all term functor = true := rfl

@[simp] theorem all_cons_compound (whole : List (Term ν)) (name : String) (parts : List (Term ν))
    (outer : List (Unclosed ν)) :
    (⟨whole, .compound name parts :: outer⟩ : Outline ν).all term functor =
      ((⟨whole, outer⟩ : Outline ν).all term functor && (functor name && parts.all term)) := by
  simp only [all, List.all_cons]
  ac_rfl

@[simp] theorem all_cons_list (whole parts : List (Term ν)) (outer : List (Unclosed ν)) :
    (⟨whole, .list parts :: outer⟩ : Outline ν).all term functor =
      ((⟨whole, outer⟩ : Outline ν).all term functor && parts.all term) := by
  simp only [all, List.all_cons]
  ac_rfl

/-- A new term has to be good. -/
@[simp] theorem all_add (o : Outline ν) (t : Term ν) :
    (o.add t).all term functor = (o.all term functor && term t) := by
  obtain ⟨whole, _ | ⟨_ | _, outer⟩⟩ := o
  · simp [all, add]
  · simp [add, Unclosed.add, Bool.and_assoc]
  · simp [add, Unclosed.add, Bool.and_assoc]

@[simp] theorem all_push_compound (o : Outline ν) (name : String) :
    (o.push (.compound name [])).all term functor = (o.all term functor && functor name) := by
  rw [push, all_cons_compound, List.all_nil, Bool.and_true]

@[simp] theorem all_push_list (o : Outline ν) :
    (o.push (.list [])).all term functor = o.all term functor := by
  rw [push, all_cons_list, List.all_nil, Bool.and_true]

end

/-- Going on mends nothing, if compounds and lists with bad parts are bad. -/
theorem all_of_step {term : Term String → Bool} {functor : String → Bool}
    (compound : ∀ name args, term (.compound name args) = true →
      functor name = true ∧ args.all term = true)
    (list : ∀ elems, term (.list elems) = true → elems.all term = true)
    {o o' : Outline String} {c : Call} (h : o.step c = some o')
    (good : o'.all term functor = true) : o.all term functor = true := by
  cases c with
  | closeTerm =>
    obtain ⟨whole, name, parts, outer, rfl, rfl⟩ := closeTerm?_eq_some h
    rw [all_add, Bool.and_eq_true] at good
    obtain ⟨named, parted⟩ := compound name parts good.2
    rw [all_cons_compound, good.1, named, parted]
    rfl
  | closeList =>
    obtain ⟨whole, parts, outer, rfl, rfl⟩ := closeList?_eq_some h
    rw [all_add, Bool.and_eq_true] at good
    rw [all_cons_list, good.1, list parts good.2]
    rfl
  | fullStop => cases h
  | flush =>
    obtain rfl := Option.some.inj h
    exact good
  | openList =>
    obtain rfl := Option.some.inj h
    rwa [all_push_list] at good
  | _ =>
    obtain rfl := Option.some.inj h
    simp only [all_add, all_push_compound, Bool.and_eq_true] at good
    exact good.1

end Outline

/-- The terms of calls that leave nothing open. -/
def Term.ofCalls? (calls : List Call) : Option (List (Term String)) :=
  match Outline.empty.follow calls with
  | some ⟨whole, []⟩ => some whole
  | _ => none

/-- Calls have terms if following them leaves these and nothing open. -/
theorem Term.ofCalls?_eq_some {calls : List Call} {ts : List (Term String)} :
    Term.ofCalls? calls = some ts ↔ Outline.empty.follow calls = some ⟨ts, []⟩ := by
  unfold Term.ofCalls?
  split
  · next whole h => simp [h]
  · next h =>
    constructor
    · exact nofun
    · intro has
      exact absurd has (h ts)

end PrologWire
