import Mathlib.Algebra.Group.Int.Defs
import Mathlib.Algebra.Group.Nat.Defs
import PrologWire.Proofs.Sentence.Term
import PrologWire.Swi.Format

/-!
# The record of a term in the SWI-Prolog format

`code` has the code of a term whose variables are numbered, and `wordCount` the words that it takes up in
the receiver, both by recursion on the term alone. A lone atom, integer or empty list has a record of
its own without sizes, `directRecord?`; `recordBytes` has the record of any term.
-/

namespace PrologWire.Swi

/-! ## What a receiver takes -/

/-- An integer has a place in a word of the receiver. -/
def Config.holds (c : Config) (value : Int) : Bool :=
  -(c.intLimit : Int) ≤ value && value < (c.intLimit : Int)

variable (c : Config)

/-- The receiver takes all integers and all names of a term. -/
def takes {ν : Type} (t : Term ν) : Bool :=
  t.integers.all c.holds && t.symbols.all fun name => c.admits name.toList

/-- The receiver takes terms if it takes each. -/
theorem all_takes {ν : Type} (ts : List (Term ν)) :
    ts.all (takes c) = ((Term.integersAll ts).all c.holds &&
      (Term.symbolsAll ts).all fun name => c.admits name.toList) := by
  induction ts with
  | nil => rfl
  | cons t rest ih =>
    rw [List.all_cons, ih, takes, Term.integersAll, Term.symbolsAll, List.all_append, List.all_append]
    ac_rfl

@[simp] theorem takes_atom {ν : Type} (name : String) :
    takes c (.atom name : Term ν) = c.admits name.toList := by
  simp [takes, Term.integers, Term.symbols]

@[simp] theorem takes_integer {ν : Type} (value : Int) :
    takes c (.integer value : Term ν) = c.holds value := by
  simp [takes, Term.integers, Term.symbols]

@[simp] theorem takes_float {ν : Type} (x : Binary64) : takes c (.float x : Term ν) = true := rfl

@[simp] theorem takes_var {ν : Type} (v : ν) : takes c (.var v) = true := rfl

@[simp] theorem takes_compound {ν : Type} (functor : String) (args : List (Term ν)) :
    takes c (.compound functor args) = (c.admits functor.toList && args.all (takes c)) := by
  rw [takes, Term.integers, Term.symbols, all_takes, List.all_cons]
  ac_rfl

@[simp] theorem takes_list {ν : Type} (elems : List (Term ν)) :
    takes c (.list elems) = elems.all (takes c) := by
  rw [takes, Term.integers, Term.symbols, all_takes]

/-- An integer has a place in a word if it is in the signed range of its bits. -/
theorem Config.holds_iff (value : Int) :
    c.holds value = true ↔ -2 ^ (c.intBits - 1) ≤ value ∧ value < 2 ^ (c.intBits - 1) := by
  have limit : (c.intLimit : Int) = 2 ^ (c.intBits - 1) := by
    rw [intLimit, Nat.one_shiftLeft]
    exact Int.natCast_pow 2 _
  rw [holds, limit, Bool.and_eq_true, decide_eq_true_eq, decide_eq_true_eq]

/-- What a receiver takes, by the integers and the names of the term. -/
theorem takes_iff {ν : Type} (t : Term ν) :
    takes c t = true ↔
      (∀ value ∈ t.integers, -2 ^ (c.intBits - 1) ≤ value ∧ value < 2 ^ (c.intBits - 1)) ∧
      (c.wideAtoms = true ∨ ∀ name ∈ t.symbols, isLatin1 name.toList = true) := by
  have names : (t.symbols.all fun name => c.admits name.toList) = true ↔
      c.wideAtoms = true ∨ ∀ name ∈ t.symbols, isLatin1 name.toList = true := by
    rcases c.wideAtoms.eq_false_or_eq_true with wide | narrow
    · simp [Config.admits, wide]
    · simp [Config.admits, narrow]
  rw [takes, Bool.and_eq_true, names, List.all_eq_true]
  simp only [c.holds_iff]

/-! ## Code -/

mutual

/-- The code of a term. -/
def code : Term Nat → List UInt8
  | .atom name => atomBytes c name.toList
  | .integer value => integerTag :: intBytes value
  | .float value => floatTag :: floatBytes value
  | .var ordinal => variableTag :: varint ordinal
  | .compound functor args =>
    if args.isEmpty then atomBytes c functor.toList
    else compoundTag :: varint args.length ++ atomBytes c functor.toList ++ codeAll args
  | .list elems => elementsCode elems ++ [nilTag]

/-- The code of terms, one after the other. -/
def codeAll : List (Term Nat) → List UInt8
  | [] => []
  | t :: rest => code t ++ codeAll rest

/-- The code of the elements of a list. -/
def elementsCode : List (Term Nat) → List UInt8
  | [] => []
  | t :: rest => consTag :: code t ++ elementsCode rest

end

@[simp] theorem codeAll_concat (ts : List (Term Nat)) (t : Term Nat) :
    codeAll c (ts ++ [t]) = codeAll c ts ++ code c t := by
  induction ts with
  | nil => simp [codeAll]
  | cons first rest ih => rw [List.cons_append, codeAll, codeAll, ih, List.append_assoc]

@[simp] theorem elementsCode_concat (ts : List (Term Nat)) (t : Term Nat) :
    elementsCode c (ts ++ [t]) = elementsCode c ts ++ consTag :: code c t := by
  induction ts with
  | nil => simp [elementsCode]
  | cons first rest ih => simp [elementsCode, ih]

/-- Every atom has code. -/
theorem atomBytes_ne_nil (name : List Char) : atomBytes c name ≠ [] := by
  unfold atomBytes
  split <;> simp

/-- Every term has code. -/
theorem code_ne_nil (t : Term Nat) : code c t ≠ [] := by
  cases t with
  | atom name => exact atomBytes_ne_nil c _
  | compound functor args =>
    rw [code]
    split
    · exact atomBytes_ne_nil c _
    · simp
  | _ => simp [code]

/-- Terms without code are no terms. -/
theorem codeAll_eq_nil {ts : List (Term Nat)} : codeAll c ts = [] ↔ ts = [] := by
  cases ts with
  | nil => simp [codeAll]
  | cons t rest => simp [codeAll, code_ne_nil]

/-! ## Words -/

mutual

/-- The words that a term takes up in the receiver. -/
def wordCount {ν : Type} : Term ν → Nat
  | .float _ => c.wordSize.floatWords
  | .compound _ args => if args.isEmpty then 0 else args.length + 1 + wordCountAll args
  | .list elems => consWords * elems.length + wordCountAll elems
  | _ => 0

/-- The words that terms take up in the receiver. -/
def wordCountAll {ν : Type} : List (Term ν) → Nat
  | [] => 0
  | t :: rest => wordCount t + wordCountAll rest

end

@[simp] theorem wordCountAll_concat {ν : Type} (ts : List (Term ν)) (t : Term ν) :
    wordCountAll c (ts ++ [t]) = wordCountAll c ts + wordCount c t := by
  induction ts with
  | nil => simp [wordCountAll]
  | cons first rest ih =>
    rw [List.cons_append, wordCountAll, wordCountAll, ih, Nat.add_assoc]

/-! ## Records -/

/-- The record of a term that is written without sizes. -/
def directRecord? {ν : Type} : Term ν → Option (List UInt8)
  | .atom name => some ((c.header ||| atomBit ||| groundBit) :: atomBytes c name.toList)
  | .compound functor [] =>
    some ((c.header ||| atomBit ||| groundBit) :: atomBytes c functor.toList)
  | .integer value => some ((c.header ||| intBit ||| groundBit) :: intBytes value)
  | .list [] => some [c.header ||| atomBit ||| groundBit, nilTag]
  | _ => none

/-- A record of its own is that of an atom, of an integer or of the empty list. -/
theorem directRecord?_eq_some {ν : Type} {t : Term ν} {record : List UInt8}
    (h : directRecord? c t = some record) :
    (∃ name, (t = .atom name ∨ t = .compound name []) ∧
      record = (c.header ||| atomBit ||| groundBit) :: atomBytes c name.toList) ∨
    (∃ value, t = .integer value ∧
      record = (c.header ||| intBit ||| groundBit) :: intBytes value) ∨
    t = .list [] ∧ record = [c.header ||| atomBit ||| groundBit, nilTag] := by
  cases t with
  | atom name => exact .inl ⟨name, .inl rfl, (Option.some.inj h).symm⟩
  | compound functor args =>
    cases args with
    | nil => exact .inl ⟨functor, .inr rfl, (Option.some.inj h).symm⟩
    | cons arg rest => cases h
  | integer value => exact .inr (.inl ⟨value, rfl, (Option.some.inj h).symm⟩)
  | list elems =>
    cases elems with
    | nil => exact .inr (.inr ⟨rfl, (Option.some.inj h).symm⟩)
    | cons elem rest => cases h
  | float value => cases h
  | var v => cases h

/-- The record of a term: of its own, or with the size of its code, the words that it takes up in the
receiver and the number of its variables if it has any before its code. -/
def recordBytes (t : Term String) : List UInt8 :=
  match directRecord? c t with
  | some record => record
  | none =>
    let code := code c (t.map (Term.names [t]).idxOf)
    let vars := (Term.names [t]).length
    (if t.vars = [] then c.header ||| groundBit else c.header) ::
      varint code.length ++ varint (wordCount c t) ++ (if vars = 0 then [] else varint vars) ++ code

/-! ## Other variables -/

section

variable {ν μ : Type} (f : ν → μ)

/-- A record of its own has no variables. -/
@[simp] theorem directRecord?_map (t : Term ν) :
    directRecord? c (t.map f) = directRecord? c t := by
  cases t with
  | compound functor args => cases args <;> rfl
  | list elems => cases elems <;> rfl
  | _ => rfl

mutual

/-- The words do not depend on the variables. -/
theorem wordCount_map : ∀ t : Term ν, wordCount c (t.map f) = wordCount c t
  | .atom _ | .integer _ | .float _ | .var _ => rfl
  | .compound functor args => by
    rw [Term.map, wordCount, wordCount, wordCountAll_mapAll args, Term.mapAll_eq_map,
      List.length_map, List.isEmpty_map]
  | .list elems => by
    rw [Term.map, wordCount, wordCount, wordCountAll_mapAll elems, Term.mapAll_eq_map,
      List.length_map]

/-- The words do not depend on the variables. -/
theorem wordCountAll_mapAll : ∀ ts : List (Term ν),
    wordCountAll c (Term.mapAll f ts) = wordCountAll c ts
  | [] => rfl
  | t :: rest => by
    rw [Term.mapAll, wordCountAll, wordCountAll, wordCount_map t, wordCountAll_mapAll rest]

end

end

end PrologWire.Swi
