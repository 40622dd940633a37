import PrologWire.Proofs.Arena.Copies
import PrologWire.Proofs.Arena.LeafTexts
import PrologWire.Proofs.Json.Emission
import PrologWire.Proofs.Sicstus.WholeTerms

/-!
# Integers on every route

An integer becomes a term by a constructor, from a machine integer, from JSON, or by a call to a builder.
Whichever way it is made, it is the same term: the integer itself if it has 64 bits, and its decimal digits
otherwise. So the accessors give back its value, and its text is the decimal one wherever the term is shown
or written outside a run of small integers.
-/

namespace PrologWire

/-! ## Machine integers -/

/-- The value of a machine integer. -/
def MachineInt.toInt : MachineInt → Int
  | i8 value => value.toInt
  | i16 value => value.toInt
  | i32 value => value.toInt
  | i64 value => value.toInt
  | u8 value => value.toNat
  | u16 value => value.toNat
  | u32 value => value.toNat

/-- A word without a sign keeps its value if its first bit is zero. -/
theorem toInt_toInt64_of_lt {w : UInt64} (small : w.toNat < 9223372036854775808) :
    w.toInt64.toInt = w.toNat := by
  have same : w.toInt64.toInt = w.toBitVec.toInt := by
    rw [← Int64.toInt_toBitVec, UInt64.toBitVec_toInt64]
  rw [same, BitVec.toInt_eq_toNat_of_lt (by rw [UInt64.toNat_toBitVec]; omega), UInt64.toNat_toBitVec]

/-- Widening keeps the value. -/
theorem MachineInt.toInt_widen (n : MachineInt) : n.widen.toInt = n.toInt := by
  cases n with
  | i8 value => exact Int8.toInt_toInt64 value
  | i16 value => exact Int16.toInt_toInt64 value
  | i32 value => exact Int32.toInt_toInt64 value
  | i64 value => rfl
  | u8 value =>
    have bound := value.toNat_lt
    have kept : value.toUInt64.toNat = value.toNat := UInt8.toNat_toUInt64 value
    show value.toUInt64.toInt64.toInt = value.toNat
    rw [toInt_toInt64_of_lt (by omega), kept]
  | u16 value =>
    have bound := value.toNat_lt
    have kept : value.toUInt64.toNat = value.toNat := UInt16.toNat_toUInt64 value
    show value.toUInt64.toInt64.toInt = value.toNat
    rw [toInt_toInt64_of_lt (by omega), kept]
  | u32 value =>
    have bound := value.toNat_lt
    have kept : value.toUInt64.toNat = value.toNat := UInt32.toNat_toUInt64 value
    show value.toUInt64.toInt64.toInt = value.toNat
    rw [toInt_toInt64_of_lt (by omega), kept]

/-! ## What an integer term is -/

open Sicstus (integerBytes versionTag) in
/-- The handle shows the integer in its one form, and all that reads or writes it finds its value or its
decimal text. -/
structure Arena.IsInteger (a : Arena) (h : Handle) (value : Int) : Prop where
  view : a.view h = .ok (.ofInteger value)
  integer : a.integerValue h = .ok value
  int : ∀ word, a.intValue h = .ok word ↔ word.toInt = value
  displayed : a.display? h = some (toString value)
  /-- So it is as a part of a displayed term. -/
  displayedWithin : ∀ depth out,
    Display.walk.descend a (depth + 1) h out = (.ok (), out ++ toString value)
  written : ∀ w : Sicstus.Writer, w.sink.Accepting → ∃ w', w.writeTerm a h = (.ok (), w') ∧
    w'.sink.content = w.sink.content ++ versionTag :: integerBytes (toString value)
  /-- As an element of a written list it joins a run exactly if it is small. -/
  joins : Sicstus.smallByte? (a.view h) =
    if 1 ≤ value ∧ value ≤ 255 then some (UInt8.ofNat value.toNat) else none
  /-- Every other part of a written term is put down on its own. -/
  writtenWithin : ∀ depth d,
    Sicstus.Writer.walk.descend a (depth + 1) h d = (.ok (), d.put (integerBytes (toString value)))
  printed : ∀ e : Sicstus.Encoder, e.sink.Accepting → e.AtStart → ∃ e',
    Sicstus.printSentence a h e = (.ok (), e') ∧
      e'.sink.content = e.sink.content ++ versionTag :: integerBytes (toString value)
  /-- Whatever is open, it is a leaf of its own unless it is small and stands in a list. -/
  printedWithin : ∀ e : Sicstus.Encoder,
    (1 ≤ value ∧ value ≤ 255 → ∀ outer, e.contexts ≠ .list :: outer) →
    a.printTerm h Sicstus.Encoder.call e = e.leaf (integerBytes (toString value))

/-- An integer is narrowed to the word of its value. -/
theorem int64?_eq_some_iff {value : Int} {word : Int64} :
    int64? value = some word ↔ word.toInt = value := by
  constructor
  · exact toInt_of_int64?_eq_some
  · rintro rfl
    exact int64?_toInt word

namespace Term

/-! ### The leaf of an integer -/

variable (value : Int)

/-- An integer shows its leaf. -/
theorem ofInteger_eq_leaf : View.ofInteger value = .leaf (integerLeaf value) := by
  unfold View.ofInteger integerLeaf int64?
  split <;> rfl

theorem leafPiece_integerLeaf :
    Sicstus.leafPiece (integerLeaf value) = .ok (.bytes (Sicstus.integerBytes (toString value))) := by
  unfold integerLeaf
  split
  · next word narrowed => rw [Sicstus.leafPiece, toInt_of_int64?_eq_some narrowed]
  · rfl

/-- A small integer has 64 bits. -/
theorem smallByte?_integerLeaf :
    Sicstus.smallByte? (.ok (.leaf (integerLeaf value)) : Except TermError (View Handle)) =
      if 1 ≤ value ∧ value ≤ 255 then some (UInt8.ofNat value.toNat) else none := by
  unfold integerLeaf
  split
  · next word narrowed =>
    rw [Sicstus.smallByte?, Sicstus.runByte?, toInt_of_int64?_eq_some narrowed]
  · next great =>
    have alone : Sicstus.smallElement? (.integer value : Term String) = none :=
      Sicstus.smallElement?_of_int64?_eq_none great
    rw [Sicstus.smallElement?] at alone
    rw [alone]
    rfl

end Term

/-- The call for an integer is a leaf of its own wherever it joins no run. -/
theorem Sicstus.Encoder.call_ofInteger {e : Encoder} {value : Int}
    (apart : 1 ≤ value ∧ value ≤ 255 → ∀ outer, e.contexts ≠ .list :: outer) :
    e.call (.ofInteger value) = e.leaf (integerBytes (toString value)) := by
  unfold Call.ofInteger
  split
  · next word narrowed =>
    have same := toInt_of_int64?_eq_some narrowed
    have decimal : e.leaf (integerBytes (toString word.toInt)) = e.leaf (integerBytes (toString value)) := by
      rw [same]
    show e.int word = _
    unfold Encoder.int
    split
    · next outer byte contexts small =>
      -- only a small integer has a byte in a run
      unfold runByte? at small
      rw [same] at small
      split at small
      · next bounds => exact absurd contexts (apart bounds outer)
      · cases small
    · exact decimal
  · next great =>
    show e.bigint value = _
    rw [Encoder.bigint, great]

namespace Arena

variable {a : Arena} {h : Handle} {value : Int}

/-- The digits of an integer read back as its value. -/
theorem integerValue_of_leaf (leaf : a.view h = .ok (.leaf (Term.integerLeaf value))) :
    a.integerValue h = .ok value := by
  rw [integerValue, leaf, Term.integerLeaf]
  cases narrowed : int64? value with
  | some word => exact congrArg Except.ok (toInt_of_int64?_eq_some narrowed)
  | none =>
    show integerOfDigits (toString value) = .ok value
    rw [integerOfDigits, Text.readInt?_toString]

/-- Only an integer of 64 bits has a value of 64 bits. -/
theorem intValue_of_leaf (leaf : a.view h = .ok (.leaf (Term.integerLeaf value))) (word : Int64) :
    a.intValue h = .ok word ↔ word.toInt = value := by
  rw [← int64?_eq_some_iff, intValue, leaf, Term.integerLeaf]
  cases int64? value with
  | some small =>
    show Except.ok small = Except.ok word ↔ _
    rw [Except.ok.injEq, Option.some.injEq]
  | none =>
    show wrongKind [.int] h = Except.ok word ↔ _
    constructor
    · intro given
      cases given
    · intro given
      cases given

open Sicstus (integerBytes versionTag) in
/-- What shows an integer is one. -/
theorem isInteger_of_view (seen : a.view h = .ok (.ofInteger value)) : a.IsInteger h value := by
  have leaf : a.view h = .ok (.leaf (Term.integerLeaf value)) :=
    seen.trans (congrArg Except.ok (Term.ofInteger_eq_leaf value))
  have unfolded (depth : Nat) : a.unfold (depth + 1) h = .leaf (Term.integerLeaf value) := by
    rw [unfold_succ, leaf]
    rfl
  have tree : a.tree h = .leaf (Term.integerLeaf value) := unfolded (a.slots.size + 1)
  have pieces : Sicstus.pieces (.leaf (Term.integerLeaf value)) =
      .ok [.bytes (Sicstus.integerBytes (toString value))] := by
    rw [Sicstus.pieces, Term.leafPiece_integerLeaf]
    rfl
  exact {
    view := seen
    integer := integerValue_of_leaf leaf
    int := intValue_of_leaf leaf
    displayed := by
      rw [display?_eq_text?, tree, Tree.text?, Term.text_integerLeaf]
      simp
    displayedWithin := fun depth out => by
      have walked := Display.appended_descend a (depth + 1) h out
      rw [unfolded, Tree.text?, Term.text_integerLeaf] at walked
      rwa [← String.ofList_toList (s := toString value)]
    written := fun w accepts => by
      obtain ⟨ps, w', has, written, content⟩ | ⟨cause, w', without, -⟩ :=
        Sicstus.writeTerm_cases accepts a h
      · rw [tree, pieces] at has
        obtain rfl := Except.ok.inj has
        rw [Sicstus.piecesBytes_cons, Sicstus.piecesBytes_nil, List.append_nil] at content
        exact ⟨w', written, content⟩
      · exact absurd (tree ▸ pieces) (without _)
    joins := by
      rw [leaf]
      exact Term.smallByte?_integerLeaf value
    writtenWithin := fun depth d => by
      have added := Sicstus.Writer.added_descend a (depth + 1) h d
      rw [unfolded, pieces] at added
      exact added
    printed := fun e accepts start => by
      have term : (a.tree h).term? = some (.integer value) := by
        rw [tree]
        exact Term.term?_integerLeaf value
      obtain ⟨u, e', term', -, printed, content⟩ | ⟨cause, e', useless, -⟩ :=
        Sicstus.printSentence_cases accepts start a h
      · obtain rfl := Option.some.inj (term.symm.trans term')
        have code : Sicstus.sentenceBytes [.integer value] =
            versionTag :: (integerBytes (toString value) ++ []) := rfl
        rw [code, List.append_nil] at content
        exact ⟨e', printed, content⟩
      · cases useless _ term
    printedWithin := fun e apart => by
      rw [printTerm_eq_run_script, tree, Tree.script, Term.call_integerLeaf]
      exact (Script.run_call _ _ e).trans (Sicstus.Encoder.call_ofInteger apart) }

end Arena

/-! ## Routes -/

/-- The parts that a frame has so far, in reverse. -/
def Frame.reversed : Frame → List Handle
  | .compound _ parts => parts
  | .list parts => parts

/-- The term that was added last to what is open, or to the sentence if nothing is. -/
def Builder.latest? (b : Builder) : Option Handle :=
  match b.frames with
  | innermost :: _ => innermost.reversed.head?
  | [] => b.pending.head?

theorem Builder.latest?_add (b : Builder) (h : Handle) : (b.add h).latest? = some h := by
  obtain ⟨arena, _ | ⟨_ | _, outer⟩, pending, finished⟩ := b <;> rfl

theorem Builder.arena_add (b : Builder) (h : Handle) : (b.add h).arena = b.arena := by
  obtain ⟨arena, _ | ⟨_ | _, outer⟩, pending, finished⟩ := b <;> rfl

/-- A way to make an integer term. -/
inductive IntegerRoute where
  /-- A machine integer becomes a handle. -/
  | machine (n : MachineInt)
  /-- An integer of any size is given to the constructor. -/
  | sized (value : Int)
  /-- A JSON value is built. -/
  | json (v : Json.Value)
  /-- A JSON value is emitted to a builder, which may have something open. -/
  | emitted (v : Json.Value) (frames : List Frame) (pending finished : List Handle)
  /-- A call is made to such a builder. -/
  | called (c : Call) (frames : List Frame) (pending finished : List Handle)

namespace IntegerRoute

/-- The term that a builder has added if all went well, and its arena. -/
def added (r : Answer × Builder) : Option Handle × Arena :=
  match r.1 with
  | .ok () => (r.2.latest?, r.2.arena)
  | .error _ => (none, r.2.arena)

/-- Makes the term in an arena, if all goes well. -/
def make (route : IntegerRoute) (a : Arena) (read : Text.IntegerReader := Text.readInt?) :
    Option Handle × Arena :=
  match route with
  | machine n => (some (.ofMachine n), a)
  | sized value => (some (a.integer value).1, (a.integer value).2)
  | json v => ((v.toTerm a read).1.toOption, (v.toTerm a read).2)
  | emitted v frames pending finished =>
    added (v.emit Builder.call ⟨a, frames, pending, finished⟩ read)
  | called c frames pending finished => added (Builder.call ⟨a, frames, pending, finished⟩ c)

/-- The integer that goes in. In JSON it is a number, or a text or number with the tag for integers; which
texts stand for integers is a parameter. -/
inductive Carries (spells : List Char → Int → Prop) : IntegerRoute → Int → Prop where
  | machine (n : MachineInt) : Carries spells (.machine n) n.toInt
  | sized (value : Int) : Carries spells (.sized value) value
  | json {v : Json.Value} {value : Int} {cs : List Call} : v.Describes spells (.integer value) cs →
    Carries spells (.json v) value
  | emitted {v : Json.Value} {value : Int} {cs : List Call} (frames : List Frame)
    (pending finished : List Handle) : v.Describes spells (.integer value) cs →
    Carries spells (.emitted v frames pending finished) value
  | int (word : Int64) (frames : List Frame) (pending finished : List Handle) :
    Carries spells (.called (.int word) frames pending finished) word.toInt
  | bigint (value : Int) (frames : List Frame) (pending finished : List Handle) :
    Carries spells (.called (.bigint value) frames pending finished) value

variable {route : IntegerRoute} {value : Int} {a : Arena} {read : Text.IntegerReader}
  {spells : List Char → Int → Prop}

/-- An integer of 64 bits is kept inside the handle. -/
theorem integer_toInt (a : Arena) (word : Int64) : a.integer word.toInt = (.int word, a) := by
  have narrowed := int64?_toInt word
  unfold int64? at narrowed
  split at narrowed
  · next bounds => rw [Arena.integer, if_pos bounds, Option.some.inj narrowed]
  · cases narrowed

/-- The two calls for an integer add what the constructor makes of it. -/
theorem call_eq_make {c : Call} (b : Builder)
    (carries : c = .bigint value ∨ ∃ word, c = .int word ∧ word.toInt = value) :
    b.call c = b.make (·.integer value) := by
  obtain rfl | ⟨word, rfl, rfl⟩ := carries
  · rfl
  · rw [Builder.make_eq, integer_toInt]
    rfl

/-- A JSON value for an integer has one call, which is one of the two. -/
theorem exists_call_of_describes (reads : Text.Recognizes read spells) {v : Json.Value} {cs : List Call}
    (h : v.Describes spells (.integer value) cs) : ∃ c, v.script read = .call c ∧
      (c = .bigint value ∨ ∃ word, c = .int word ∧ word.toInt = value) := by
  have script := Json.Value.script_of_describes reads h
  have number (n : Int) : (Json.Number.integer n).call = .bigint n ∨
      ∃ word, (Json.Number.integer n).call = .int word ∧ word.toInt = n := by
    unfold Json.Number.call
    dsimp only
    split
    · next word narrowed => exact .inr ⟨word, rfl, toInt_of_int64?_eq_some narrowed⟩
    · exact .inl rfl
  generalize same : Term.integer value = t at h
  cases h with
  | number n =>
    cases n with
    | integer n =>
      obtain rfl := Term.integer.inj same
      exact ⟨_, script, number value⟩
    | real x => cases same
  | intText decimal =>
    obtain rfl := Term.integer.inj same
    exact ⟨_, script, .inl rfl⟩
  | intNumber n =>
    obtain rfl := Term.integer.inj same
    exact ⟨_, script, number value⟩
  | _ => cases same

/-- On every route the term is made as the constructor makes it. -/
theorem make_of_carries (reads : Text.Recognizes read spells) (carries : route.Carries spells value)
    (a : Arena) : route.make a read = (some (a.integer value).1, (a.integer value).2) := by
  have builds (b : Builder) : added (b.make (·.integer value)) =
      (some (b.arena.integer value).1, (b.arena.integer value).2) := by
    rw [Builder.make_eq]
    show ((Builder.add _ _).latest?, (Builder.add _ _).arena) = _
    rw [Builder.latest?_add, Builder.arena_add]
  cases carries with
  | machine n => rw [make, Handle.ofMachine, ← n.toInt_widen, integer_toInt]
  | sized value => rfl
  | @json v _ cs describes =>
    obtain ⟨c, script, carries⟩ := exists_call_of_describes reads describes
    have built : v.toTerm a read = (.ok (a.integer value).1, (a.integer value).2) := by
      rw [v.toTerm_eq_sentenceTerm_run, script, Script.run_call, call_eq_make (.new a) carries]
      rfl
    rw [make, built]
    rfl
  | @emitted v _ cs frames pending finished describes =>
    obtain ⟨c, script, carries⟩ := exists_call_of_describes reads describes
    rw [make, v.emit_eq_run_script, script, Script.run_call, call_eq_make _ carries, builds]
  | int word frames pending finished => rw [make, call_eq_make _ (.inr ⟨word, rfl, rfl⟩), builds]
  | bigint value frames pending finished => rw [make, call_eq_make _ (.inl rfl), builds]

/-- Whichever way an integer becomes a term, it is the term that the constructor makes of it, and this is
the integer in its one form. It may come from any text that the reader of integers recognizes. -/
theorem isInteger_of_carries (reads : Text.Recognizes read spells) (carries : route.Carries spells value)
    (orderly : a.Orderly) (distinct : a.ids.Nodup)
    (small : (route.make a read).2.bytes.size < UInt32.size) :
    ∃ h made, route.make a read = (some h, made) ∧ a.integer value = (h, made) ∧
      made.IsInteger h value := by
  have same := make_of_carries reads carries a
  rw [same] at small
  have seen : (a.integer value).2.view (a.integer value).1 = .ok (.ofInteger value) :=
    Arena.view_integer orderly distinct small fun e _ => .refl e _
  exact ⟨_, _, same, rfl, Arena.isInteger_of_view seen⟩

/-- An integer with a sign and zeros in front of its digits. -/
def spelledOut : IntegerRoute := .json (.object [("int", .string "+000100000000000000000000")])

theorem isInteger_of_carries_spelledOut : ∃ h made,
    spelledOut.make (.create ⟨0⟩ ⟨0⟩) = (some h, made) ∧ made.IsInteger h 100000000000000000000 := by
  have spelled : Text.IsSpelling "+000100000000000000000000".toList 100000000000000000000 :=
    (Text.recognizes_readInt? _ _).mp (by decide +kernel)
  have carries : spelledOut.Carries Text.IsSpelling 100000000000000000000 := .json (.intText spelled)
  obtain ⟨h, made, makes, -, shows⟩ := isInteger_of_carries Text.recognizes_readInt? carries
    (Arena.orderly_create ⟨0⟩ ⟨0⟩) (by decide) (by decide +kernel)
  exact ⟨h, made, makes, shows⟩

end IntegerRoute

end PrologWire
