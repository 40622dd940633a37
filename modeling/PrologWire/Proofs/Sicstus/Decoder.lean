import PrologWire.Proofs.Numeric.Decimal
import PrologWire.Proofs.Sicstus.Reading
import PrologWire.Proofs.Sicstus.ZeroEnded
import PrologWire.Proofs.Wire.Readers

/-!
# Reading sentences back

A decoder that knows nothing but the bytes. Texts go up to a zero byte, and so do runs, of which
every byte is an integer. `readTerm` reads a term as deep as it is told, and `decode` reads sentence
after sentence until no byte is left. Leaves are read back if their texts have no zero byte of their
own, and no digits that the decoder gives have one.
-/

namespace PrologWire

namespace Sicstus

/-! ## Texts -/

/-- The bytes in front of the first zero byte. -/
def readToZero : Reader (List UInt8)
  | [] => none
  | byte :: bs =>
    if byte = 0 then some ([], bs)
    else do
      let (taken, bs) ← readToZero bs
      some (byte :: taken, bs)

/-- A text up to a zero byte. -/
def readText : Reader String := fun bs => do
  let (taken, bs) ← readToZero bs
  let text ← String.fromUTF8? ⟨taken.toArray⟩
  some (text, bs)

theorem readToZero_append {bs : List UInt8} (h : 0 ∉ bs) (rest : List UInt8) :
    readToZero (bs ++ 0 :: rest) = some (bs, rest) := by
  induction bs with
  | nil => rfl
  | cons byte bs ih =>
    rw [List.mem_cons, not_or] at h
    rw [List.cons_append, readToZero, if_neg (Ne.symm h.1), ih h.2]
    rfl

/-- A text without a null character is read back. -/
theorem reads_text {s : String} (h : '\x00' ∉ s.toList) : Reads readText s (zeroEnded s) := by
  intro rest
  have back : String.fromUTF8? s.toUTF8 = some s := dif_pos s.isValidUTF8
  have read := readToZero_append (zero_notMem_toUTF8 h) rest
  rw [readText, zeroEnded, List.append_assoc, List.singleton_append, read]
  show (String.fromUTF8? s.toUTF8 >>= fun text => some (text, rest)) = _
  rw [back]
  rfl

theorem zero_notMem_readToZero {bs taken rest : List UInt8}
    (read : readToZero bs = some (taken, rest)) : 0 ∉ taken := by
  induction bs generalizing taken with
  | nil => cases read
  | cons byte bs ih =>
    rw [readToZero] at read
    split at read
    · obtain ⟨rfl, -⟩ := Prod.mk.inj (Option.some.inj read)
      exact List.not_mem_nil
    · next nonzero =>
      obtain ⟨⟨taken', rest'⟩, others, same⟩ := Option.bind_eq_some_iff.mp read
      obtain ⟨rfl, rfl⟩ := Prod.mk.inj (Option.some.inj same)
      rw [List.mem_cons, not_or]
      exact ⟨Ne.symm nonzero, ih others⟩

/-- No text that is read has a null character. -/
theorem null_notMem_readText {bs rest : List UInt8} {s : String}
    (read : readText bs = some (s, rest)) : '\x00' ∉ s.toList := by
  obtain ⟨⟨taken, rest'⟩, toZero, read⟩ := Option.bind_eq_some_iff.mp read
  obtain ⟨text, valid, same⟩ := Option.bind_eq_some_iff.mp read
  obtain ⟨rfl, -⟩ := Prod.mk.inj (Option.some.inj same)
  rw [String.fromUTF8?] at valid
  split at valid
  · obtain rfl := Option.some.inj valid
    exact null_notMem_of_zero_notMem (zero_notMem_readToZero toZero)
  · cases valid

/-! ## Terms -/

/-- The integers of a run up to its end, and the elements behind it. -/
def readRun (behind : Reader (List Reading)) : Reader (List Reading) := fun bs => do
  let (run, bs) ← readToZero bs
  let (rs, bs) ← behind bs
  some (run.map (fun byte => .integer (toString byte.toNat)) ++ rs, bs)

/-- The elements of a list up to its end, of which there are fewer than told. -/
def readElements (read : Reader Reading) : Nat → Reader (List Reading)
  | 0, _ => none
  | _, [] => none
  | count + 1, tag :: bs =>
    if tag = endTag then some ([], bs)
    else if tag = elementTag then do
      let (r, bs) ← read bs
      let (rs, bs) ← readElements read count bs
      some (r :: rs, bs)
    else if tag = runTag then readRun (readElements read count) bs
    else none

/-- A term in which fewer terms than `depth` stand in one another and no list has more elements. -/
def readTerm : Nat → Reader Reading
  | 0, _ => none
  | _, [] => none
  | depth + 1, tag :: bs =>
    if tag = atomTag then do
      let (name, bs) ← readText bs
      some (.atom name, bs)
    else if tag = integerTag then do
      let (digits, bs) ← readText bs
      some (.integer digits, bs)
    else if tag = floatTag then do
      let (text, bs) ← readText bs
      some (.float text, bs)
    else if tag = variableTag then do
      let (text, bs) ← readText bs
      let ordinal ← Text.readNat? text.toList
      some (.var ordinal, bs)
    else if tag = compoundTag then do
      let (functor, bs) ← readText bs
      match bs with
      | [] => none
      | arity :: bs =>
        let (args, bs) ← readTimes (readTerm depth) arity.toNat bs
        some (.compound functor args, bs)
    else do
      let (elems, bs) ← readElements (readTerm depth) (depth + 1) (tag :: bs)
      some (.list elems, bs)

/-- The term of one sentence. -/
def readSentence : Reader Reading
  | [] => none
  | tag :: bs => if tag = versionTag then readTerm bs.length bs else none

/-- The terms of all sentences. -/
def decode (bs : List UInt8) : Option (List Reading) := readAll readSentence bs.length bs

/-- A run that is over has no integers. -/
theorem readRun_zero (behind : Reader (List Reading)) (bs : List UInt8) :
    readRun behind (0 :: bs) = behind bs := by
  show (behind bs >>= fun x => some x) = behind bs
  rcases behind bs with _ | x <;> rfl

/-- A byte in front of a run is one more of its integers. -/
theorem readRun_cons {behind : Reader (List Reading)} {byte : UInt8} (nonzero : byte ≠ 0)
    {bs rest : List UInt8} {rs : List Reading} (read : readRun behind bs = some (rs, rest)) :
    readRun behind (byte :: bs) = some (.integer (toString byte.toNat) :: rs, rest) := by
  obtain ⟨⟨run, bs'⟩, toZero, read⟩ := Option.bind_eq_some_iff.mp read
  obtain ⟨⟨others, bs''⟩, later, same⟩ := Option.bind_eq_some_iff.mp read
  obtain ⟨rfl, rfl⟩ := Prod.mk.inj (Option.some.inj same)
  rw [readRun, readToZero, if_neg nonzero, toZero]
  show (behind bs' >>= _) = _
  rw [later]
  rfl

/-- Elements are read from bytes that begin with one of three tags. -/
theorem tag_of_readElements {read : Reader Reading} {count : Nat} {bs rest : List UInt8}
    {rs : List Reading} (h : readElements read count bs = some (rs, rest)) :
    ∃ tag bs', bs = tag :: bs' ∧ (tag = endTag ∨ tag = elementTag ∨ tag = runTag) := by
  obtain _ | count := count
  · cases h
  · obtain _ | ⟨tag, bs⟩ := bs
    · cases h
    · refine ⟨tag, bs, rfl, ?_⟩
      rw [readElements] at h
      split at h
      · exact .inl ‹_›
      · split at h
        · exact .inr (.inl ‹_›)
        · split at h
          · exact .inr (.inr ‹_›)
          · cases h

/-! ## Leaves -/

/-- A leaf that is a tag and a text is read back if its tag is that of a text. -/
theorem reads_leaf {tag : UInt8} {make : String → Reading} {depth : Nat}
    (reader : ∀ bs, readTerm (depth + 1) (tag :: bs) =
      (readText bs).bind fun read => some (make read.1, read.2))
    {s : String} (h : '\x00' ∉ s.toList) : Reads (readTerm (depth + 1)) (make s) (tag :: zeroEnded s) := by
  intro rest
  have text := reads_text h rest
  rw [List.cons_append, reader, text]
  rfl

/-- An atom is read back. -/
theorem reads_atom {name : String} (h : '\x00' ∉ name.toList) (depth : Nat) :
    Reads (readTerm (depth + 1)) (.atom name) (atomBytes name) :=
  reads_leaf (fun _ => rfl) h

/-- An integer is read back by its digits. -/
theorem reads_integer {digits : String} (h : '\x00' ∉ digits.toList) (depth : Nat) :
    Reads (readTerm (depth + 1)) (.integer digits) (integerBytes digits) :=
  reads_leaf (fun _ => rfl) h

/-- A float is read back by its text. -/
theorem reads_float (value : Binary64) (depth : Nat) :
    Reads (readTerm (depth + 1)) (.float (floatText value)) (floatBytes value) :=
  reads_leaf (fun _ => rfl) (floatTexts_floatText.null_notMem value)

/-- A variable is read back by its number. -/
theorem reads_variable (ordinal : Nat) (depth : Nat) :
    Reads (readTerm (depth + 1)) (.var ordinal) (variableBytes ordinal) := by
  intro rest
  have text := reads_text (Text.null_notMem_toString ordinal) rest
  have number : Text.readNat? (toString (ordinal : Int)).toList = some ordinal := by
    rw [Text.toList_toString]
    exact Text.readNat?_toDigits ordinal
  show (readText (zeroEnded (toString (ordinal : Int)) ++ rest)).bind (fun read =>
    (Text.readNat? read.1.toList).bind fun ordinal => some (Reading.var ordinal, read.2)) = _
  rw [text]
  show (Text.readNat? (toString (ordinal : Int)).toList >>= _) = _
  rw [number]
  rfl

/-! ## Terms with parts -/

/-- A compound is read back if its arguments are. -/
theorem readTerm_compound {name : String} (h : '\x00' ∉ name.toList) {arity : UInt8} {depth : Nat}
    {bs rest : List UInt8} {args : List Reading}
    (read : readTimes (readTerm depth) arity.toNat bs = some (args, rest)) :
    readTerm (depth + 1) (compoundBytes name arity ++ bs) = some (.compound name args, rest) := by
  have tags : compoundTag ≠ atomTag ∧ compoundTag ≠ integerTag ∧ compoundTag ≠ floatTag ∧
      compoundTag ≠ variableTag := by decide
  have text := reads_text h (arity :: bs)
  simp [readTerm, compoundBytes, tags, text, read]

/-- A list is read back if its elements are. -/
theorem readTerm_list {depth : Nat} {bs rest : List UInt8} {rs : List Reading}
    (read : readElements (readTerm depth) (depth + 1) bs = some (rs, rest)) :
    readTerm (depth + 1) bs = some (.list rs, rest) := by
  -- lists are told by their first tag, which is none of those of other terms
  obtain ⟨tag, bs, rfl, known⟩ := tag_of_readElements read
  have others : tag ≠ atomTag ∧ tag ≠ integerTag ∧ tag ≠ floatTag ∧ tag ≠ variableTag ∧
      tag ≠ compoundTag := by
    rcases known with rfl | rfl | rfl <;> decide
  simp [readTerm, others, read]

/-! ## Digits that are read -/

/-- The elements of a list are read as terms or are bytes of runs. -/
theorem exists_read_of_readElements {read : Reader Reading} {count : Nat} {bs rest : List UInt8}
    {rs : List Reading} (h : readElements read count bs = some (rs, rest)) {r : Reading}
    (among : r ∈ rs) :
    (∃ bs rest, read bs = some (r, rest)) ∨ ∃ byte : UInt8, r = .integer (toString byte.toNat) := by
  induction count generalizing bs rs with
  | zero => cases h
  | succ count ih =>
    obtain ⟨tag, bs, rfl, -⟩ := tag_of_readElements h
    rw [readElements] at h
    split at h
    · obtain ⟨rfl, -⟩ := Prod.mk.inj (Option.some.inj h)
      cases among
    · split at h
      · obtain ⟨⟨r', bs'⟩, first, h⟩ := Option.bind_eq_some_iff.mp h
        obtain ⟨⟨rs', bs''⟩, others, same⟩ := Option.bind_eq_some_iff.mp h
        obtain ⟨rfl, rfl⟩ := Prod.mk.inj (Option.some.inj same)
        rcases List.mem_cons.mp among with rfl | later
        · exact .inl ⟨_, _, first⟩
        · exact ih others later
      · split at h
        · obtain ⟨⟨run, bs'⟩, -, h⟩ := Option.bind_eq_some_iff.mp h
          obtain ⟨⟨rs', bs''⟩, others, same⟩ := Option.bind_eq_some_iff.mp h
          obtain ⟨rfl, rfl⟩ := Prod.mk.inj (Option.some.inj same)
          rcases List.mem_append.mp among with joined | later
          · obtain ⟨byte, -, rfl⟩ := List.mem_map.mp joined
            exact .inr ⟨byte, rfl⟩
          · exact ih others later
        · cases h

/-- No digits that are read have a null character. -/
theorem null_notMem_digits {depth : Nat} {bs rest : List UInt8} {r : Reading}
    (h : readTerm depth bs = some (r, rest)) : ∀ text ∈ r.digits, '\x00' ∉ text.toList := by
  induction depth generalizing bs rest r with
  | zero => cases h
  | succ depth ih =>
    obtain _ | ⟨tag, bs⟩ := bs
    · cases h
    · rw [readTerm] at h
      -- an atom, an integer, a float, a variable, a compound and a list in turn
      split at h
      · obtain ⟨⟨name, bs'⟩, -, same⟩ := Option.bind_eq_some_iff.mp h
        obtain ⟨rfl, -⟩ := Prod.mk.inj (Option.some.inj same)
        exact fun text among => absurd among List.not_mem_nil
      split at h
      · obtain ⟨⟨digits, bs'⟩, read, same⟩ := Option.bind_eq_some_iff.mp h
        obtain ⟨rfl, -⟩ := Prod.mk.inj (Option.some.inj same)
        intro text among
        obtain rfl := List.mem_singleton.mp among
        exact null_notMem_readText read
      split at h
      · obtain ⟨⟨text, bs'⟩, -, same⟩ := Option.bind_eq_some_iff.mp h
        obtain ⟨rfl, -⟩ := Prod.mk.inj (Option.some.inj same)
        exact fun text among => absurd among List.not_mem_nil
      split at h
      · obtain ⟨⟨text, bs'⟩, -, h⟩ := Option.bind_eq_some_iff.mp h
        obtain ⟨ordinal, -, same⟩ := Option.bind_eq_some_iff.mp h
        obtain ⟨rfl, -⟩ := Prod.mk.inj (Option.some.inj same)
        exact fun text among => absurd among List.not_mem_nil
      split at h
      · obtain ⟨⟨functor, _ | ⟨arity, bs'⟩⟩, -, h⟩ := Option.bind_eq_some_iff.mp h
        · cases h
        · obtain ⟨⟨args, bs''⟩, reads, same⟩ := Option.bind_eq_some_iff.mp h
          obtain ⟨rfl, -⟩ := Prod.mk.inj (Option.some.inj same)
          intro text among
          obtain ⟨r, part, within⟩ := Reading.mem_digitsAll.mp among
          obtain ⟨bs, rest, read⟩ := exists_read_of_readTimes reads part
          exact ih read text within
      · obtain ⟨⟨elems, bs'⟩, reads, same⟩ := Option.bind_eq_some_iff.mp h
        obtain ⟨rfl, -⟩ := Prod.mk.inj (Option.some.inj same)
        intro text among
        obtain ⟨r, part, within⟩ := Reading.mem_digitsAll.mp among
        obtain ⟨bs, rest, read⟩ | ⟨byte, rfl⟩ := exists_read_of_readElements reads part
        · exact ih read text within
        · obtain rfl := List.mem_singleton.mp within
          exact Text.null_notMem_toString byte.toNat

/-- No digits in decoded sentences have a null character. -/
theorem null_notMem_digits_decode {bs : List UInt8} {rs : List Reading} (h : decode bs = some rs)
    {r : Reading} (among : r ∈ rs) : ∀ text ∈ r.digits, '\x00' ∉ text.toList := by
  obtain ⟨bs', rest, read⟩ := exists_read_of_readAll h among
  obtain _ | ⟨tag, bs'⟩ := bs'
  · cases read
  · rw [readSentence] at read
    split at read
    · exact null_notMem_digits read
    · cases read

end Sicstus

end PrologWire
