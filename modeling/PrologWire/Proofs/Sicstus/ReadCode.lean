import PrologWire.Proofs.Sicstus.Code
import PrologWire.Proofs.Sicstus.Decoder

/-!
# Reading the bytes of terms back

The bytes of a term are read back as `Term.reading` says, whatever comes behind them, if no arity is too
great and no name has a null character. So what is read of the bytes of a sentence is its first term, and
nothing is left behind it exactly if there is no other.
-/

namespace PrologWire

namespace Term

mutual

/-- What is read of the bytes of a term. -/
def reading : Term Nat → Reading
  | atom name => .atom name
  | integer value => .integer (toString value)
  | float value => .float (Sicstus.floatText value)
  | var ordinal => .var ordinal
  | compound functor args =>
    if args.isEmpty then .atom functor else .compound functor (readingAll args)
  | list elems => .list (readingAll elems)

/-- What is read of the bytes of terms, one after the other. -/
def readingAll : List (Term Nat) → List Reading
  | [] => []
  | t :: rest => t.reading :: readingAll rest

end

theorem readingAll_eq_map (ts : List (Term Nat)) : readingAll ts = ts.map reading := by
  induction ts with
  | nil => rfl
  | cons t rest ih => rw [readingAll, ih, List.map_cons]

end Term

namespace Sicstus

/-! ## Arguments -/

theorem codeAll_eq_flatMap (ts : List (Term Nat)) : codeAll ts = ts.flatMap code := by
  induction ts with
  | nil => rfl
  | cons t rest ih => rw [codeAll, ih, List.flatMap_cons]

theorem code_ne_nil (t : Term Nat) : code t ≠ [] := by
  cases t with
  | compound functor args =>
    rw [code]
    split <;> exact List.cons_ne_nil _ _
  | list elems =>
    rw [code, listBytes]
    exact List.append_ne_nil_of_right_ne_nil _ (List.cons_ne_nil _ _)
  | _ => exact List.cons_ne_nil _ _

/-- Terms without bytes are no terms. -/
theorem codeAll_eq_nil {ts : List (Term Nat)} : codeAll ts = [] ↔ ts = [] := by
  cases ts with
  | nil => simp [codeAll]
  | cons t rest => simp [codeAll, code_ne_nil]

/-! ## Elements -/

/-- What is read of an integer that joins a run is its byte. -/
theorem reading_of_smallElement? {t : Term Nat} {byte : UInt8} (small : smallElement? t = some byte) :
    byte ≠ 0 ∧ t.reading = .integer (toString byte.toNat) := by
  unfold smallElement? at small
  split at small
  · next value =>
    split at small
    · next range =>
      obtain rfl := Option.some.inj small
      have same : (UInt8.ofNat value.toNat).toNat = value.toNat :=
        UInt8.toNat_ofNat_of_lt (show value.toNat < 256 by omega)
      refine ⟨fun zero => ?_, ?_⟩
      · rw [zero] at same
        have none : (0 : Nat) = value.toNat := same
        omega
      · have whole : value = (value.toNat : Int) := by omega
        rw [same, Term.reading, whole]
        rfl
    · cases small
  · cases small

/-- An element that stands by itself comes first. -/
theorem listBytes_single (bs : List UInt8) (rest : List (Segment (List UInt8))) :
    listBytes (.single bs :: rest) = elementTag :: (bs ++ listBytes rest) := by
  simp [listBytes, Segment.bytes]

theorem behindRun_single (bs : List UInt8) (rest : List (Segment (List UInt8))) :
    behindRun (.single bs :: rest) = 0 :: elementTag :: (bs ++ listBytes rest) :=
  congrArg (0 :: ·) (listBytes_single bs rest)

/-- The segments of a list and what is left of them behind a run have more bytes than there are
elements, and more than each element that stands by itself. -/
theorem length_segments (elems : List (Term Nat)) :
    (elems.length < (listBytes (segments elems)).length ∧
      elems.length < (behindRun (segments elems)).length) ∧
    ∀ t ∈ elems, smallElement? t = none →
      (code t).length < (listBytes (segments elems)).length ∧
        (code t).length < (behindRun (segments elems)).length := by
  induction elems with
  | nil => exact ⟨⟨Nat.zero_lt_one, Nat.zero_lt_two⟩, fun t among => nomatch among⟩
  | cons u rest ih =>
    obtain ⟨⟨many, behind⟩, parts⟩ := ih
    rw [segments]
    -- an element by itself adds its tag and its bytes, one that joins a run adds a byte
    rcases joins : smallElement? u with _ | byte
    · simp only [listBytes_single, behindRun_single, List.length_cons, List.length_append]
      refine ⟨by omega, fun t among alone => ?_⟩
      rcases List.mem_cons.mp among with rfl | later
      · omega
      · have part := parts t later alone
        omega
    · simp only [listBytes_joinRun, behindRun_joinRun, List.length_cons]
      refine ⟨by omega, fun t among alone => ?_⟩
      rcases List.mem_cons.mp among with rfl | later
      · cases joins.symm.trans alone
      · have part := parts t later alone
        omega

/-- The elements of a list are read back from its segments, and from what is left of them behind a run, if
those that stand by themselves are. -/
theorem reads_segments {read : Reader Reading} {elems : List (Term Nat)}
    (each : ∀ t ∈ elems, smallElement? t = none → Reads read t.reading (code t)) {count : Nat}
    (enough : elems.length < count) :
    Reads (readElements read count) (elems.map Term.reading) (listBytes (segments elems)) ∧
      Reads (readRun (readElements read count)) (elems.map Term.reading)
        (behindRun (segments elems)) := by
  induction elems generalizing count with
  | nil =>
    obtain _ | count := count
    · cases enough
    · have ended : Reads (readElements read (count + 1)) [] (listBytes []) := fun rest => by
        simp [listBytes, readElements]
      exact ⟨ended, fun rest => (readRun_zero _ _).trans (ended rest)⟩
  | cons t rest ih =>
    obtain _ | count := count
    · cases enough
    have later := fun u among => each u (List.mem_cons_of_mem t among)
    rw [segments, List.map_cons]
    rcases joins : smallElement? t with _ | byte
    · have single : Reads (readElements read (count + 1)) (t.reading :: rest.map Term.reading)
          (listBytes (.single (code t) :: segments rest)) := by
        intro behind
        have first := each t List.mem_cons_self joins (listBytes (segments rest) ++ behind)
        have others := (ih later (Nat.lt_of_succ_lt_succ enough)).1 behind
        rw [listBytes_single, List.cons_append, List.append_assoc]
        simp [readElements, first, others, (by decide : elementTag ≠ endTag)]
      -- behind a run the same bytes follow on the zero that ends it
      exact ⟨single, fun behind => (readRun_zero _ _).trans (single behind)⟩
    · obtain ⟨nonzero, same⟩ := reading_of_smallElement? joins
      have run (n : Nat) (fewer : rest.length < n) :
          Reads (readRun (readElements read n)) (t.reading :: rest.map Term.reading)
            (byte :: behindRun (segments rest)) := by
        intro behind
        rw [same]
        exact readRun_cons nonzero ((ih later fewer).2 behind)
      -- as the first of its run the element is a segment, and takes one of the count
      rw [listBytes_joinRun, behindRun_joinRun]
      refine ⟨fun behind => ?_, run (count + 1) (Nat.lt_of_succ_lt enough)⟩
      have begun := run count (Nat.lt_of_succ_lt_succ enough) behind
      rw [List.cons_append] at begun
      simp [readElements, begun, (by decide : runTag ≠ endTag), (by decide : runTag ≠ elementTag)]

/-! ## Terms -/

/-- The bytes of a term say what it is: no arity is too great, and no name has a null character, which
would end its text. -/
structure Legible {ν : Type} (t : Term ν) : Prop where
  small : fits t = true
  free : ∀ name ∈ t.symbols, '\x00' ∉ name.toList

/-- The parts of what is legible are legible. -/
theorem legible_of_mem {ν : Type} {ts : List (Term ν)} (small : fitsAll ts = true)
    (free : ∀ name ∈ Term.symbolsAll ts, '\x00' ∉ name.toList) {t : Term ν} (among : t ∈ ts) :
    Legible t := by
  rw [fitsAll_eq_all, List.all_eq_true] at small
  rw [Term.symbolsAll_eq_flatMap] at free
  exact ⟨small t among, fun name within => free name (List.mem_flatMap.mpr ⟨t, among, within⟩)⟩

/-- The bytes of a term are read back. -/
theorem reads_term {t : Term Nat} (clear : Legible t) {depth : Nat}
    (enough : (code t).length ≤ depth) : Reads (readTerm depth) t.reading (code t) := by
  induction depth generalizing t with
  | zero => exact absurd (List.eq_nil_of_length_eq_zero (Nat.le_zero.mp enough)) (code_ne_nil t)
  | succ depth ih =>
    cases t with
    | atom name => exact reads_atom (clear.free name List.mem_cons_self) depth
    | integer value => exact reads_integer (Text.null_notMem_toString value) depth
    | float value => exact reads_float value depth
    | var ordinal => exact reads_variable ordinal depth
    | compound functor args =>
      have named : '\x00' ∉ functor.toList := clear.free functor List.mem_cons_self
      have small := clear.small
      rw [fits, Bool.and_eq_true, decide_eq_true_eq] at small
      rw [code, Term.reading]
      split
      · exact reads_atom named depth
      · next filled =>
        intro rest
        rw [code, if_neg filled, codeAll_eq_flatMap] at enough
        -- an argument is shorter than the compound, so that one less of the depth is enough
        have each (t : Term Nat) (among : t ∈ args) : Reads (readTerm depth) t.reading (code t) := by
          refine ih (legible_of_mem small.2 (fun name within =>
            clear.free name (List.mem_cons_of_mem functor within)) among) ?_
          have part := length_le_length_flatMap (f := code) among
          simp only [compoundBytes, List.length_cons, List.length_append] at enough
          omega
        have arity : (UInt8.ofNat args.length).toNat = args.length :=
          UInt8.toNat_ofNat_of_lt (Nat.lt_succ_of_le small.1)
        have read := reads_times each rest
        rw [← arity] at read
        rw [codeAll_eq_flatMap, List.append_assoc, Term.readingAll_eq_map]
        exact readTerm_compound named read
    | list elems =>
      rw [code] at enough
      -- the bytes of the list bound the number of its elements as well as their depth
      obtain ⟨⟨many, -⟩, parts⟩ := length_segments elems
      have each (t : Term Nat) (among : t ∈ elems) (alone : smallElement? t = none) :
          Reads (readTerm depth) t.reading (code t) := by
        have shorter := (parts t among alone).1
        exact ih (legible_of_mem clear.small clear.free among) (by omega)
      intro rest
      rw [code, Term.reading, Term.readingAll_eq_map]
      exact readTerm_list ((reads_segments each (Nat.lt_of_lt_of_le many enough)).1 rest)

/-! ## Sentences -/

section

variable {ν μ : Type} (f : ν → μ)

mutual

theorem fits_map : ∀ t : Term ν, fits (t.map f) = fits t
  | .atom _ | .integer _ | .float _ | .var _ => rfl
  | .compound functor args => by
    rw [Term.map, fits, fits, fitsAll_mapAll args, Term.mapAll_eq_map, List.length_map]
  | .list elems => by rw [Term.map, fits, fits, fitsAll_mapAll elems]

theorem fitsAll_mapAll : ∀ ts : List (Term ν), fitsAll (Term.mapAll f ts) = fitsAll ts
  | [] => rfl
  | t :: rest => by rw [Term.mapAll, fitsAll, fitsAll, fits_map t, fitsAll_mapAll rest]

end

/-- Names and arities do not depend on the variables. -/
theorem Legible.map {t : Term ν} (h : Legible t) : Legible (t.map f) where
  small := (fits_map f t).trans h.small
  free := by
    rw [Term.symbols_map]
    exact h.free

end

/-- The bytes of a sentence of legible terms are one whole sentence, and this is the sentence of a term, if
and only if it has this term and no other. -/
theorem readSentence_sentenceBytes_iff {ts : List (Term String)} (clear : ∀ t ∈ ts, Legible t)
    {r : Reading} :
    readSentence (sentenceBytes ts) = some (r, []) ↔
      ∃ t, ts = [t] ∧ r = (t.map (Term.names [t]).idxOf).reading := by
  rw [sentenceBytes, readSentence, if_pos rfl]
  cases ts with
  | nil =>
    constructor
    · intro read
      cases read
    · rintro ⟨t, one, -⟩
      cases one
  | cons t rest =>
    -- what is read is the first term, and the bytes of the others are left
    have first := (clear t List.mem_cons_self).map (Term.names (t :: rest)).idxOf
    rw [Term.numbered, List.map_cons, codeAll, reads_term first
      (by rw [List.length_append]; exact Nat.le_add_right _ _), Option.some.injEq, Prod.mk.injEq,
      codeAll_eq_nil, List.map_eq_nil_iff]
    constructor
    · rintro ⟨rfl, rfl⟩
      exact ⟨t, rfl, rfl⟩
    · rintro ⟨u, one, rfl⟩
      obtain ⟨rfl, rfl⟩ := List.cons.inj one
      exact ⟨rfl, rfl⟩

end Sicstus

end PrologWire
