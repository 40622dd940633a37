import PrologWire.Call
import PrologWire.Proofs.Sentence.Term
import PrologWire.Sicstus.Segments

/-!
# The bytes of a term in the SICStus format

`code` has the bytes of a term whose variables are numbered, by recursion on the term alone. A list
is cut into segments, as `segments_eq` says. `listSoFar` has what can be written of a list whose later
elements are not known, and `code_list` says that ending it there gives the bytes of the list.
-/

namespace PrologWire.Sicstus

/-! ## Elements of lists -/

/-- The byte of a term that joins a run as a list element: an integer from 1 to 255. -/
def smallElement? {ν : Type} : Term ν → Option UInt8
  | .integer value =>
    if 1 ≤ value ∧ value ≤ 255 then some (UInt8.ofNat value.toNat) else none
  | _ => none

/-- An integer outside 64 bits is no small one. -/
theorem smallElement?_of_int64?_eq_none {ν : Type} {value : Int} (h : int64? value = none) :
    smallElement? (.integer value : Term ν) = none := by
  unfold int64? at h
  split at h
  · cases h
  · next beyond =>
    refine if_neg fun small => beyond ?_
    rw [Int64.toInt_minValue, Int64.toInt_maxValue]
    omega

/-- The bytes of a segment. -/
def Segment.bytes : Segment (List UInt8) → List UInt8
  | run bs => runTag :: bs ++ [0]
  | single code => elementTag :: code

/-- A list by its segments. -/
def listBytes (segments : List (Segment (List UInt8))) : List UInt8 :=
  segments.flatMap Segment.bytes ++ [endTag]

/-! ## Terms -/

mutual

/-- The bytes of a term. -/
def code : Term Nat → List UInt8
  | .atom name => atomBytes name
  | .integer value => integerBytes (toString value)
  | .float value => floatBytes value
  | .var ordinal => variableBytes ordinal
  | .compound functor args =>
    if args.isEmpty then atomBytes functor
    else compoundBytes functor (UInt8.ofNat args.length) ++ codeAll args
  | .list elems => listBytes (segments elems)

/-- The bytes of terms, one after the other. -/
def codeAll : List (Term Nat) → List UInt8
  | [] => []
  | t :: rest => code t ++ codeAll rest

/-- The segments of the elements of a list. -/
def segments : List (Term Nat) → List (Segment (List UInt8))
  | [] => []
  | t :: rest =>
    match smallElement? t with
    | some byte => joinRun byte (segments rest)
    | none => .single (code t) :: segments rest

end

mutual

/-- No compound has more arguments than the arity byte can count. -/
def fits {ν : Type} : Term ν → Bool
  | .compound _ args => args.length ≤ maxArity && fitsAll args
  | .list elems => fitsAll elems
  | _ => true

/-- No compound in the terms has more arguments than the arity byte can count. -/
def fitsAll {ν : Type} : List (Term ν) → Bool
  | [] => true
  | t :: rest => fits t && fitsAll rest

end

/-- The bytes of a sentence. -/
def sentenceBytes (ts : List (Term String)) : List UInt8 :=
  versionTag :: codeAll (Term.numbered ts)

/-- The segments of a list of terms are cut where those of the terms are. -/
theorem segments_eq (ts : List (Term Nat)) :
    segments ts = (segmentsOf smallElement? ts).map (.map code) := by
  induction ts with
  | nil => rfl
  | cons t rest ih =>
    rw [segments, segmentsOf, ih]
    cases smallElement? t with
    | none => rfl
    | some byte => exact (joinRun_map code byte _).symm

theorem codeAll_append (ts us : List (Term Nat)) : codeAll (ts ++ us) = codeAll ts ++ codeAll us := by
  induction ts with
  | nil => rfl
  | cons t rest ih => rw [List.cons_append, codeAll, codeAll, ih, List.append_assoc]

@[simp] theorem codeAll_concat (ts : List (Term Nat)) (t : Term Nat) :
    codeAll (ts ++ [t]) = codeAll ts ++ code t := by
  rw [codeAll_append, codeAll, codeAll, List.append_nil]

theorem fitsAll_eq_all {ν : Type} (ts : List (Term ν)) : fitsAll ts = ts.all fits := by
  induction ts with
  | nil => rfl
  | cons t rest ih => rw [fitsAll, ih, List.all_cons]

/-! ## Lists whose end is not known -/

/-- What is written of a list, and whether its last element is in a run that is not ended. -/
structure ListSoFar where
  bytes : List UInt8
  inRun : Bool

namespace ListSoFar

/-- The bytes with the run ended, if there is one. -/
def ended (s : ListSoFar) : List UInt8 := s.bytes ++ if s.inRun then [0] else []

/-- One more element. -/
def put (s : ListSoFar) (t : Term Nat) : ListSoFar :=
  match smallElement? t with
  | some byte => ⟨s.bytes ++ if s.inRun then [byte] else [runTag, byte], true⟩
  | none => ⟨s.ended ++ elementTag :: code t, false⟩

end ListSoFar

/-- What is written of a list with the given elements before its next element or its end comes. -/
def listSoFar (elems : List (Term Nat)) : ListSoFar := elems.foldl .put ⟨[], false⟩

@[simp] theorem listSoFar_concat (elems : List (Term Nat)) (t : Term Nat) :
    listSoFar (elems ++ [t]) = (listSoFar elems).put t := by
  rw [listSoFar, List.foldl_append]
  rfl

/-- The bytes of segments that come behind a run that is not ended. -/
def behindRun : List (Segment (List UInt8)) → List UInt8
  | .run bs :: rest => bs ++ 0 :: listBytes rest
  | rest => 0 :: listBytes rest

/-- A small integer begins a run, which what follows goes on with. -/
theorem listBytes_joinRun (byte : UInt8) (rest : List (Segment (List UInt8))) :
    listBytes (joinRun byte rest) = runTag :: byte :: behindRun rest := by
  rcases rest with _ | ⟨bs | code, rest⟩ <;>
    simp [joinRun, behindRun, listBytes, Segment.bytes]

/-- A small integer goes on with a run. -/
theorem behindRun_joinRun (byte : UInt8) (rest : List (Segment (List UInt8))) :
    behindRun (joinRun byte rest) = byte :: behindRun rest := by
  rcases rest with _ | ⟨bs | code, rest⟩ <;> simp [joinRun, behindRun]

/-- What is written of a list, its last run and its end go on with the segments of the elements that
are still to come. -/
theorem ended_foldl_put (s : ListSoFar) (elems : List (Term Nat)) :
    (elems.foldl .put s).ended ++ [endTag] =
      s.bytes ++ if s.inRun then behindRun (segments elems) else listBytes (segments elems) := by
  induction elems generalizing s with
  | nil =>
    rcases s with ⟨bytes, _ | _⟩ <;> simp [ListSoFar.ended, segments, behindRun, listBytes]
  | cons t rest ih =>
    rw [List.foldl_cons, ih, ListSoFar.put, segments]
    rcases smallElement? t with _ | byte
    · rcases s with ⟨bytes, _ | _⟩ <;>
        simp [ListSoFar.ended, behindRun, listBytes, Segment.bytes]
    · rcases s with ⟨bytes, _ | _⟩ <;> simp [listBytes_joinRun, behindRun_joinRun]

/-- A list is what is written of it up to its end, and the end. -/
theorem code_list (elems : List (Term Nat)) :
    code (.list elems) = (listSoFar elems).ended ++ [endTag] := by
  rw [listSoFar, ended_foldl_put, code]
  simp

end PrologWire.Sicstus
