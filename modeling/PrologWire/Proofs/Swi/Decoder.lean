import PrologWire.Proofs.Swi.Record
import PrologWire.Proofs.Swi.Fields
import PrologWire.Proofs.Swi.IntegerBytes

/-!
# Reading records back

A decoder that knows the receiver and nothing else. `readTerm` reads the code of a term as deep as it
is told, `readRecord` the record of one term, and `decode` reads record after record until no byte is
left. A compound without arguments comes back as an atom, which is what it is written as.
-/

namespace PrologWire.Swi

/-! ## Terms -/

/-- The elements of a list up to its end, of which there are fewer than told. -/
def readElements {α : Type} (read : Reader α) : Nat → Reader (List α)
  | 0, _ => none
  | _, [] => none
  | count + 1, tag :: bs =>
    if tag = nilTag then some ([], bs)
    else if tag = consTag then do
      let (x, bs) ← read bs
      let (xs, bs) ← readElements read count bs
      some (x :: xs, bs)
    else none

/-- A term in which fewer terms than `depth` stand in one another. -/
def readTerm (c : Config) : Nat → Reader (Term Nat)
  | 0, _ => none
  | _, [] => none
  | depth + 1, tag :: bs =>
    if tag = variableTag then do
      let (ordinal, bs) ← readVarint 0 bs
      some (.var ordinal, bs)
    else if tag = integerTag then do
      let (value, bs) ← readInt bs
      some (.integer value, bs)
    else if tag = floatTag then do
      let (word, bs) ← readLittleEndian 8 bs
      some (.float ⟨UInt64.ofNat word⟩, bs)
    else if tag = compoundTag then do
      let (arity, bs) ← readVarint 0 bs
      let (functor, bs) ← readName c bs
      let (args, bs) ← readTimes (readTerm c depth) arity bs
      some (.compound functor args, bs)
    else if tag = consTag ∨ tag = nilTag then do
      let (elems, bs) ← readElements (readTerm c depth) (bs.length + 1) (tag :: bs)
      some (.list elems, bs)
    else do
      let (name, bs) ← readName c (tag :: bs)
      some (.atom name, bs)

/-- The elements of a list are read up to its end. -/
theorem reads_elements {c : Config} {read : Reader (Term Nat)} {elems : List (Term Nat)}
    (each : ∀ t ∈ elems, Reads read t.collapse (code c t)) {count : Nat}
    (enough : elems.length < count) :
    Reads (readElements read count) (elems.map Term.collapse) (elementsCode c elems ++ [nilTag]) := by
  intro rest
  induction elems generalizing count with
  | nil =>
    obtain _ | count := count
    · cases enough
    · simp [elementsCode, readElements]
  | cons t elems ih =>
    obtain _ | count := count
    · cases enough
    · have other : consTag ≠ nilTag := by decide
      have first := each t List.mem_cons_self (elementsCode c elems ++ nilTag :: rest)
      have others := ih (fun u among => each u (List.mem_cons_of_mem _ among))
        (Nat.lt_of_succ_lt_succ enough)
      rw [List.append_assoc, List.singleton_append] at others
      simp [elementsCode, readElements, other, first, others]

theorem codeAll_eq_flatMap (c : Config) (ts : List (Term Nat)) :
    codeAll c ts = ts.flatMap (code c) := by
  induction ts with
  | nil => rfl
  | cons t rest ih => rw [codeAll, ih, List.flatMap_cons]

theorem elementsCode_eq_flatMap (c : Config) (ts : List (Term Nat)) :
    elementsCode c ts = ts.flatMap fun t => consTag :: code c t := by
  induction ts with
  | nil => rfl
  | cons t rest ih => rw [elementsCode, ih, List.flatMap_cons]

/-- A list begins with its first element or its end, and has a byte for each of its elements. -/
theorem elementsCode_tag (c : Config) (elems : List (Term Nat)) (rest : List UInt8) :
    ∃ tag bs, elementsCode c elems ++ [nilTag] ++ rest = tag :: bs ∧
      (tag = consTag ∨ tag = nilTag) ∧ elems.length ≤ bs.length := by
  have many : elems.length ≤ (elementsCode c elems).length := by
    induction elems with
    | nil => exact Nat.zero_le _
    | cons t elems ih =>
      simp only [elementsCode, List.length_cons, List.length_append]
      omega
  cases elems with
  | nil => exact ⟨nilTag, rest, rfl, .inr rfl, Nat.zero_le _⟩
  | cons t elems =>
    refine ⟨consTag, code c t ++ elementsCode c elems ++ [nilTag] ++ rest, rfl, .inl rfl, ?_⟩
    simp only [elementsCode, List.length_cons, List.length_append] at many ⊢
    omega

/-- A name by itself is an atom. -/
theorem reads_atom (c : Config) (depth : Nat) (name : String) :
    Reads (readTerm c (depth + 1)) (.atom name) (atomBytes c name.toList) := by
  intro rest
  have named := reads_name c name.toList rest
  rw [String.ofList_toList] at named
  have tagged : ∃ tag bs, atomBytes c name.toList = tag :: bs ∧
      (tag = atomTag ∨ tag = wideAtomTag) := by
    rw [atomBytes]
    split
    · exact ⟨_, _, rfl, .inl rfl⟩
    · exact ⟨_, _, rfl, .inr rfl⟩
  obtain ⟨tag, bs, written, known⟩ := tagged
  have others : tag ≠ variableTag ∧ tag ≠ integerTag ∧ tag ≠ floatTag ∧ tag ≠ compoundTag ∧
      ¬(tag = consTag ∨ tag = nilTag) := by
    rcases known with rfl | rfl <;> decide
  rw [written, List.cons_append] at named ⊢
  simp [readTerm, others, named]

/-- The code of a term is read back, with an atom for every compound without arguments. -/
theorem reads_term (c : Config) {t : Term Nat} (few : ∀ value ∈ t.integers, intSize value < 256)
    {depth : Nat} (enough : (code c t).length ≤ depth) :
    Reads (readTerm c depth) t.collapse (code c t) := by
  induction depth generalizing t with
  | zero => exact absurd (List.eq_nil_of_length_eq_zero (Nat.le_zero.mp enough)) (code_ne_nil c t)
  | succ depth ih =>
    cases t with
    | atom name => exact reads_atom c depth name
    | integer value =>
      intro rest
      have read := reads_int (few value List.mem_cons_self) rest
      simp [code, readTerm, Term.collapse, read, (by decide : integerTag ≠ variableTag)]
    | float value =>
      intro rest
      have small : value.bits.toNat < 256 ^ 8 := value.bits.toNat_lt
      have read := reads_littleEndian small rest
      simp [code, readTerm, Term.collapse, floatBytes, read, (by decide : floatTag ≠ variableTag),
        (by decide : floatTag ≠ integerTag)]
    | var ordinal =>
      intro rest
      simp [code, readTerm, Term.collapse, reads_varint ordinal rest]
    | compound functor args =>
      rw [code, Term.collapse]
      split
      · exact reads_atom c depth functor
      · next filled =>
        intro rest
        rw [code, if_neg filled, codeAll_eq_flatMap] at enough
        -- an argument is shorter than the compound, so that one less of the depth is enough
        have each (t : Term Nat) (among : t ∈ args) :
            Reads (readTerm c depth) t.collapse (code c t) := by
          refine ih (fun value within => few value ?_) ?_
          · rw [Term.integers, Term.integersAll_eq_flatMap]
            exact List.mem_flatMap.mpr ⟨t, among, within⟩
          · have part := length_le_length_flatMap (f := code c) among
            simp only [List.length_cons, List.length_append] at enough
            omega
        have named := reads_name c functor.toList (args.flatMap (code c) ++ rest)
        rw [String.ofList_toList] at named
        have read := reads_times each rest
        simp [readTerm, codeAll_eq_flatMap, Term.collapseAll_eq_map, reads_varint _ _, named, read,
          (by decide : compoundTag ≠ variableTag), (by decide : compoundTag ≠ integerTag),
          (by decide : compoundTag ≠ floatTag)]
    | list elems =>
      intro rest
      rw [code, elementsCode_eq_flatMap] at enough
      have each (t : Term Nat) (among : t ∈ elems) :
          Reads (readTerm c depth) t.collapse (code c t) := by
        refine ih (fun value within => few value ?_) ?_
        · rw [Term.integers, Term.integersAll_eq_flatMap]
          exact List.mem_flatMap.mpr ⟨t, among, within⟩
        · have part := length_le_length_flatMap (f := fun t => consTag :: code c t) among
          simp only [List.length_cons, List.length_append, List.length_nil] at part enough
          omega
      -- lists are told by their first tag, whether it is that of an element or of the end
      obtain ⟨tag, bs, written, known, many⟩ := elementsCode_tag c elems rest
      have read := reads_elements each (Nat.lt_succ_of_le many) rest
      have others : tag ≠ variableTag ∧ tag ≠ integerTag ∧ tag ≠ floatTag ∧ tag ≠ compoundTag := by
        rcases known with rfl | rfl <;> decide
      rw [code, Term.collapse, Term.collapseAll_eq_map]
      rw [written] at read ⊢
      simp [readTerm, others, known, read]

/-! ## Records -/

/-- The term in a record, which is the code of the given size. -/
def readSized (c : Config) (size : Nat) : Reader (Term Nat) := fun bs => do
  let (code, bs) ← readBytes size bs
  match ← readTerm c size code with
  | (t, []) => some (t, bs)
  | _ => none

/-- The record of one term. The words in the receiver are passed over, and so is the number of
variables if there are any. -/
def readRecord (c : Config) : Reader (Term Nat)
  | [] => none
  | header :: bs =>
    if header = c.header ||| intBit ||| groundBit then do
      let (value, bs) ← readInt bs
      some (.integer value, bs)
    else if header = c.header ||| atomBit ||| groundBit then readTerm c 1 bs
    else if header = c.header ||| groundBit then do
      let (size, bs) ← readVarint 0 bs
      let (_, bs) ← readVarint 0 bs
      readSized c size bs
    else if header = c.header then do
      let (size, bs) ← readVarint 0 bs
      let (_, bs) ← readVarint 0 bs
      let (_, bs) ← readVarint 0 bs
      readSized c size bs
    else none

/-- The terms of all records. -/
def decode (c : Config) (bs : List UInt8) : Option (List (Term Nat)) :=
  readAll (readRecord c) bs.length bs

theorem reads_sized (c : Config) {t : Term Nat} (few : ∀ value ∈ t.integers, intSize value < 256) :
    Reads (readSized c (code c t).length) t.collapse (code c t) := by
  intro rest
  have whole := reads_term c few (Nat.le_refl _) []
  rw [List.append_nil] at whole
  simp [readSized, reads_bytes (code c t) rest, whole]

/-- The headers of records are told apart. -/
theorem header_ne (c : Config) :
    c.header ||| atomBit ||| groundBit ≠ c.header ||| intBit ||| groundBit ∧
    c.header ||| groundBit ≠ c.header ||| intBit ||| groundBit ∧
    c.header ||| groundBit ≠ c.header ||| atomBit ||| groundBit ∧
    c.header ≠ c.header ||| intBit ||| groundBit ∧
    c.header ≠ c.header ||| atomBit ||| groundBit ∧
    c.header ≠ c.header ||| groundBit := by
  simp only [Config.header]
  cases c.wordSize <;> decide

/-- An integer that a receiver takes has few bytes. -/
theorem intSize_lt_of_holds {c : Config} {value : Int} (h : c.holds value = true) :
    intSize value < 256 := by
  have few := (c.holds_iff_intSize_le value).mp h
  have bytes : c.wordSize.bytes ≤ 8 := by cases c.wordSize <;> decide
  omega

/-- The record of a term is read back, with a number for every variable and an atom for every compound
without arguments. -/
theorem reads_record {c : Config} {t : Term String} (taken : takes c t = true) :
    Reads (readRecord c) (t.map (Term.names [t]).idxOf).collapse (recordBytes c t) := by
  have few : ∀ value ∈ t.integers, intSize value < 256 := by
    rw [takes, Bool.and_eq_true, List.all_eq_true] at taken
    exact fun value among => intSize_lt_of_holds (taken.1 value among)
  obtain ⟨atomInt, groundInt, groundAtom, plainInt, plainAtom, plainGround⟩ := header_ne c
  intro rest
  rw [recordBytes]
  rcases lone : directRecord? c t with _ | record
  · -- the header tells whether the number of variables follows
    rw [← Term.integers_map (Term.names [t]).idxOf] at few
    have sized := reads_sized c few rest
    by_cases ground : t.vars = []
    · simp [readRecord, ground, groundInt, groundAtom, (Term.length_names_eq_zero t).mpr ground,
        reads_varint _ _, sized]
    · simp [readRecord, ground, plainInt, plainAtom, plainGround,
        mt (Term.length_names_eq_zero t).mp ground, reads_varint _ _, sized]
  · -- a record of its own has the code of one leaf and no sizes
    obtain ⟨name, rfl | rfl, rfl⟩ | ⟨value, rfl, rfl⟩ | ⟨rfl, rfl⟩ := directRecord?_eq_some c lone
    · simp [readRecord, atomInt, Term.map, Term.collapse, reads_atom c 0 name rest]
    · simp [readRecord, atomInt, Term.map, Term.mapAll, Term.collapse, reads_atom c 0 name rest]
    · simp [readRecord, Term.map, Term.collapse, reads_int (few value List.mem_cons_self) rest]
    · have empty : readTerm c 1 (nilTag :: rest) = some (.list [], rest) :=
        reads_term c (t := .list []) (fun _ among => absurd among List.not_mem_nil) (Nat.le_refl 1)
          rest
      simp [readRecord, atomInt, Term.map, Term.mapAll, Term.collapse, Term.collapseAll, empty]

/-- A record has a byte at least. -/
theorem recordBytes_ne_nil (c : Config) (t : Term String) : recordBytes c t ≠ [] := by
  rw [recordBytes]
  split
  · next record lone =>
    obtain ⟨name, -, rfl⟩ | ⟨value, -, rfl⟩ | ⟨-, rfl⟩ := directRecord?_eq_some c lone
    · exact List.cons_ne_nil _ _
    · exact List.cons_ne_nil _ _
    · exact List.cons_ne_nil _ _
  · exact List.cons_ne_nil _ _

/-! ## Sentences -/

/-- A lone term that comes first has its record in front of what the others leave. -/
theorem sentenceBytes_cons_of_lone {c : Config} {t : Term String} {record : List UInt8}
    (lone : directRecord? c t = some record) (rest : List (Term String)) :
    sentenceBytes c (t :: rest) = recordBytes c t ++ sentenceBytes c rest := by
  simp only [sentenceBytes, loneRecords, buffered, recordBytes, lone, List.append_assoc]

/-- Without a lone term in front there is one record of all terms. -/
theorem sentenceBytes_cons_of_not_lone {c : Config} {t : Term String} (lone : directRecord? c t = none)
    (rest : List (Term String)) : sentenceBytes c (t :: rest) = gatheredRecord c (t :: rest) := by
  simp only [sentenceBytes, loneRecords, buffered, lone]
  rfl

/-- A sentence without bytes has no terms. -/
theorem sentenceBytes_eq_nil {c : Config} {ts : List (Term String)} :
    sentenceBytes c ts = [] ↔ ts = [] := by
  cases ts with
  | nil => exact ⟨fun _ => rfl, fun _ => rfl⟩
  | cons t rest =>
    refine ⟨fun none => ?_, fun none => nomatch none⟩
    rcases lone : directRecord? c t with _ | record
    · rw [sentenceBytes_cons_of_not_lone lone] at none
      cases none
    · rw [sentenceBytes_cons_of_lone lone, List.append_eq_nil_iff] at none
      exact absurd none.1 (recordBytes_ne_nil c t)

/-- The code of two terms or more is not that of one. -/
theorem readSized_codeAll (c : Config) {t u : Term Nat} (few : ∀ value ∈ t.integers, intSize value < 256)
    (rest : List (Term Nat)) :
    readSized c (codeAll c (t :: u :: rest)).length (codeAll c (t :: u :: rest)) = none := by
  have whole := reads_bytes (codeAll c (t :: u :: rest)) []
  have enough : (code c t).length ≤ (codeAll c (t :: u :: rest)).length := by
    rw [codeAll, List.length_append]
    exact Nat.le_add_right _ _
  have first := reads_term c few enough (codeAll c (u :: rest))
  have more : codeAll c (u :: rest) ≠ [] := by
    rw [ne_eq, codeAll_eq_nil]
    exact List.cons_ne_nil u rest
  obtain ⟨byte, bs, left⟩ := List.exists_cons_of_ne_nil more
  rw [← codeAll, left] at first
  rw [List.append_nil] at whole
  simp [readSized, whole, first]

/-- The record of two terms or more is not that of one. -/
theorem readRecord_gatheredRecord {c : Config} {t u : Term String} {rest : List (Term String)}
    (taken : takes c t = true) : readRecord c (gatheredRecord c (t :: u :: rest)) = none := by
  have few : ∀ value ∈ (t.map (Term.names (t :: u :: rest)).idxOf).integers, intSize value < 256 := by
    rw [takes, Bool.and_eq_true, List.all_eq_true] at taken
    rw [Term.integers_map]
    exact fun value among => intSize_lt_of_holds (taken.1 value among)
  have sized := readSized_codeAll c (u := u.map (Term.names (t :: u :: rest)).idxOf) few
    (rest.map (Term.map (Term.names (t :: u :: rest)).idxOf))
  obtain ⟨atomInt, groundInt, groundAtom, plainInt, plainAtom, plainGround⟩ := header_ne c
  rw [gatheredRecord, Term.numbered, List.map_cons, List.map_cons]
  by_cases ground : (Term.names (t :: u :: rest)).length = 0
  · simp [readRecord, ground, groundInt, groundAtom, reads_varint _ _, sized]
  · simp [readRecord, ground, plainInt, plainAtom, plainGround, reads_varint _ _, sized]

/-- What is on the sink of a sentence of terms is one whole record, and this is the record of a term, if and
only if the sentence has this term and no other. -/
theorem readRecord_sentenceBytes_iff {c : Config} {ts : List (Term String)}
    (taken : ∀ t ∈ ts, takes c t = true) {r : Term Nat} :
    readRecord c (sentenceBytes c ts) = some (r, []) ↔
      ∃ t, ts = [t] ∧ r = (t.map (Term.names [t]).idxOf).collapse := by
  rcases ts with _ | ⟨t, _ | ⟨u, rest⟩⟩
  · constructor
    · intro read
      cases read
    · rintro ⟨t, one, -⟩
      cases one
  · have read := reads_record (taken t List.mem_cons_self) []
    rw [List.append_nil, ← sentenceBytes_singleton] at read
    rw [read, Option.some.injEq, Prod.mk.injEq]
    constructor
    · rintro ⟨rfl, -⟩
      exact ⟨t, rfl, rfl⟩
    · rintro ⟨u, one, rfl⟩
      obtain ⟨rfl, -⟩ := List.cons.inj one
      exact ⟨rfl, rfl⟩
  · -- the record of the first term leaves the others, and one of all terms is none of a term
    have nothing : readRecord c (sentenceBytes c (t :: u :: rest)) ≠ some (r, []) := by
      rcases lone : directRecord? c t with _ | record
      · rw [sentenceBytes_cons_of_not_lone lone,
          readRecord_gatheredRecord (taken t List.mem_cons_self)]
        exact nofun
      · rw [sentenceBytes_cons_of_lone lone, reads_record (taken t List.mem_cons_self)]
        intro whole
        have left := (Prod.mk.inj (Option.some.inj whole)).2
        cases sentenceBytes_eq_nil.mp left
    refine ⟨fun read => absurd read nothing, ?_⟩
    rintro ⟨t, one, -⟩
    cases one

end PrologWire.Swi
