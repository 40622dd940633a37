import PrologWire.Proofs.Sentence.Renaming
import PrologWire.Proofs.Swi.Fields
import PrologWire.Proofs.Swi.Record
import PrologWire.Proofs.Swi.Varint

/-!
# Names of variables in records

The name of a variable is not in a record, only its number, and the numbers can be told from the bytes
if all else is known. So the bytes of two sentences that are the same but for the names of their variables are the
same exactly if the names correspond one to one. Before the code a record has sizes, which are as long as the
numbers are, so that they have to be told from each other first.
-/

namespace PrologWire.Swi

variable (c : Config) {α : Type} {u v : α → Nat}

/-- The number of a variable ends with a byte without the high bit. -/
theorem tells_varint (p : α) : Tells u v [p] (varint (u p)) (varint (v p)) := fun xs ys => by
  rw [varint_append_inj, List.forall_mem_singleton]

mutual

/-- The code of a term tells the numbers of its variables. -/
theorem tells_code : ∀ t : Term α, Tells u v t.vars (code c (t.map u)) (code c (t.map v))
  | .atom name => .constant (atomBytes c name.toList)
  | .integer value => .constant (integerTag :: intBytes value)
  | .float value => .constant (floatTag :: floatBytes value)
  | .var p => (tells_varint p).behind [variableTag]
  | .compound functor [] => .constant (atomBytes c functor.toList)
  | .compound functor (first :: rest) => by
    have parts := tells_codeAll (first :: rest)
    have length (f : α → Nat) : (Term.mapAll f (first :: rest)).length = (first :: rest).length := by
      rw [Term.mapAll_eq_map, List.length_map]
    have header := parts.behind
      (compoundTag :: varint (first :: rest).length ++ atomBytes c functor.toList)
    rw [Term.map, Term.map, code, code, length, length]
    exact header
  | .list elems => by
    have whole := (tells_elementsCode elems).append (.constant [nilTag])
    rw [List.append_nil] at whole
    exact whole

theorem tells_codeAll : ∀ ts : List (Term α),
    Tells u v (Term.varsAll ts) (codeAll c (Term.mapAll u ts)) (codeAll c (Term.mapAll v ts))
  | [] => .constant []
  | t :: rest => (tells_code t).append (tells_codeAll rest)

theorem tells_elementsCode : ∀ ts : List (Term α),
    Tells u v (Term.varsAll ts) (elementsCode c (Term.mapAll u ts)) (elementsCode c (Term.mapAll v ts))
  | [] => .constant []
  | t :: rest => ((tells_code t).append (tells_elementsCode rest)).behind [consTag]

end

/-- The code of two views of one sentence is the same exactly if the pairs of names are one to one. -/
theorem codeAll_eq_iff (ps : List (Term (String × String))) :
    codeAll c (Term.numbered (ps.map (Term.map Prod.fst))) =
      codeAll c (Term.numbered (ps.map (Term.map Prod.snd))) ↔ OneToOne (ps.flatMap Term.vars) := by
  rw [Term.numbered_map, Term.numbered_map, Term.oneToOne_iff_numbers, ← Term.varsAll_eq_flatMap]
  exact (tells_codeAll c ps).eq_iff

/-- A sentence has names if it has variables. -/
theorem length_names_map_eq_zero {f : α → String} {ts : List (Term α)} :
    (Term.names (ts.map (Term.map f))).length = 0 ↔ ts.flatMap Term.vars = [] := by
  rw [List.length_eq_zero_iff, Term.names_map]
  cases ts.flatMap Term.vars <;> simp [List.eraseDups_cons]

/-- So are the records of what is gathered. -/
theorem gatheredRecord_eq_iff (ps : List (Term (String × String))) :
    gatheredRecord c (ps.map (Term.map Prod.fst)) = gatheredRecord c (ps.map (Term.map Prod.snd)) ↔
      OneToOne (ps.flatMap Term.vars) := by
  have words (f : String × String → String) :
      wordCountAll c (ps.map (Term.map f)) = wordCountAll c ps := by
    rw [← Term.mapAll_eq_map, wordCountAll_mapAll]
  constructor
  · intro same
    by_cases ground : ps.flatMap Term.vars = []
    · rw [ground]
      exact fun p among => absurd among List.not_mem_nil
    · have named (f : String × String → String) : (Term.names (ps.map (Term.map f))).length ≠ 0 :=
        mt length_names_map_eq_zero.mp ground
      rw [gatheredRecord, gatheredRecord, if_neg (named _), if_neg (named _), if_neg (named _),
        if_neg (named _), words, words] at same
      simp only [List.cons_append, List.append_assoc, List.cons.injEq, varint_append_inj, true_and] at same
      exact (codeAll_eq_iff c ps).mp same.2.2
  · intro pairs
    rw [gatheredRecord, gatheredRecord, words, words, (codeAll_eq_iff c ps).mpr pairs,
      Term.length_names_of_oneToOne ps pairs]

/-- The bytes of two views of one sentence are the same exactly if the pairs of names are one to one. -/
theorem sentenceBytes_eq_iff (ps : List (Term (String × String))) :
    sentenceBytes c (ps.map (Term.map Prod.fst)) = sentenceBytes c (ps.map (Term.map Prod.snd)) ↔
      OneToOne (ps.flatMap Term.vars) := by
  rw [sentenceBytes, sentenceBytes, buffered_map, buffered_map, loneRecords_map, loneRecords_map,
    List.append_cancel_left_eq, List.isEmpty_map, List.isEmpty_map, ← vars_buffered c]
  split
  · next nothing =>
    rw [List.isEmpty_iff.mp nothing]
    exact iff_of_true rfl fun p among => absurd among List.not_mem_nil
  · exact gatheredRecord_eq_iff c (buffered c ps)

end PrologWire.Swi
