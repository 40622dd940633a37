import PrologWire.Arena.Builder
import PrologWire.Proofs.Sicstus.Alike
import PrologWire.Proofs.Swi.AnySink

/-!
# Calls that say the same

An atom can also be said as a compound without arguments, an empty list as a list that is opened and
closed, and an integer of 64 bits as one of any size. In whatever state a consumer is, it cannot be told
afterwards which was said. For SICStus and for terms of an arena the states themselves are the same. The
SWI-Prolog encoder writes the beginning of a compound first and takes it back, which leaves old bytes in
storage behind the content, but no call ever reads them.
-/

namespace PrologWire

namespace Consumer

variable {σ : Type} (m : Consumer σ Call) (s : σ)

/-- The first call is good and opens something without a byte, and the second one and all that come
after are seen as if the single one had been made instead. -/
def PairSeenAs (first second single : Call) : Prop :=
  ∀ rest, m.observe s (first :: second :: rest) =
    ⟨.ok (), m.depth s + 1, [], 0⟩ :: m.observe s (single :: rest)

/-- The two ways to say an atom, an empty list and an integer of 64 bits are not told apart by any calls
that come after. -/
structure TakesSpellings : Prop where
  atom (name : String) : (m.take s (.atom name)).1 ≠ .error (.wideAtomsDisabled name) →
    m.PairSeenAs s (.openTerm name) .closeTerm (.atom name)
  emptyList : m.PairSeenAs s .openList .closeList .emptyList
  int (value : Int64) (rest : List Call) :
    m.observe s (.bigint value.toInt :: rest) = m.observe s (.int value :: rest)

variable {m s}

/-- Requests with the same outcome are seen as the same, whatever comes after. -/
theorem observe_congr_head {c d : Call} (same : m.take s c = m.take s d) (rest : List Call) :
    m.observe s (c :: rest) = m.observe s (d :: rest) := by
  rw [observe, observe, same]

/-- What is seen of a call that only opens something. -/
theorem observation_of_opens {opened : σ} (depth : m.depth opened = m.depth s + 1)
    (sink : m.sink opened = m.sink s) :
    m.observation s (.ok (), opened) = ⟨.ok (), m.depth s + 1, [], 0⟩ := by
  rw [observation, depth, sink, List.drop_length, Nat.sub_self]

variable {first second single : Call} {opened : σ} (opens : m.take s first = (.ok (), opened))
  (depth : m.depth opened = m.depth s + 1) (sink : m.sink opened = m.sink s)

include opens depth sink

/-- A first call that only opens something, with an outcome of the second one like that of the single
one. -/
theorem pairSeenAs_of_sameOutcome
    (same : m.SameOutcome m.Indistinguishable opened s (m.take opened second) (m.take s single)) :
    m.PairSeenAs s first second single := by
  intro rest
  rw [observe, opens, observation_of_opens depth sink, observe, observe,
    same.observation_eq same.related.1, same.related.2 rest]

/-- The same with one outcome of both. -/
theorem pairSeenAs_of_eq (same : m.take opened second = m.take s single) :
    m.PairSeenAs s first second single := by
  intro rest
  have next : m.observation opened (m.take s single) = m.observation s (m.take s single) := by
    rw [observation, observation, sink]
  rw [observe, opens, observation_of_opens depth sink, observe, observe, same, next]

end Consumer

/-! ## SICStus -/

namespace Sicstus.Encoder

variable (e : Encoder)

@[simp] theorem depth_beginTerm : e.beginTerm.depth = e.depth := by
  rcases here : e.contexts with _ | ⟨_ | ⟨functor, position, _ | arity⟩, outer⟩
  case cons.compound.zero =>
    rw [beginTerm_of_first here, depth, depth, here]
    rfl
  all_goals simp [beginTerm, depth, put, endRun, here]
  split <;> simp [here]

theorem takesSpellings : consumer.TakesSpellings e where
  atom name _ := by
    refine Consumer.pairSeenAs_of_eq (rfl : e.call (.openTerm name) = (.ok (), (e.openTerm name).2)) ?_ ?_ rfl
    · exact congrArg (· + 1) e.depth_beginTerm
    · exact e.sink_call (c := .openTerm name) Call.noConfusion Call.noConfusion
  emptyList := by
    refine Consumer.pairSeenAs_of_eq (rfl : e.call .openList = (.ok (), e.openList)) ?_ ?_ rfl
    · exact congrArg (· + 1) e.depth_beginTerm
    · exact e.sink_call (c := .openList) Call.noConfusion Call.noConfusion
  int value rest := by
    apply Consumer.observe_congr_head
    show e.bigint value.toInt = e.int value
    rw [bigint, int64?_toInt]

end Sicstus.Encoder

/-! ## SWI-Prolog -/

namespace Swi.Encoder

variable {e : Encoder}

@[simp] theorem depth_beginTerm (e : Encoder) : e.beginTerm.depth = e.depth := by
  rcases here : e.contexts with _ | ⟨_ | ⟨start, arity⟩, outer⟩ <;>
    simp [beginTerm, depth, put, here]

/-- An atom is its code, closed at once. -/
theorem atom_eq_putClosed {name : String} (admitted : e.config.admits name.toList) :
    e.atom name = e.beginTerm.putClosed (atomBytes e.config name.toList) := by
  have header : e.beginTerm.directAtomHeader = e.directAtomHeader := by
    rw [directAtomHeader, directAtomHeader, config_beginTerm]
  rw [atom, if_pos admitted, putClosed, header]
  exact beginTerm_leaf e _ _

/-- An atom that is not refused for its characters is admitted. -/
theorem admits_of_atom_ne {name : String}
    (narrow : (e.atom name).1 ≠ .error (.wideAtomsDisabled name)) :
    e.config.admits name.toList = true := by
  cases admitted : e.config.admits name.toList with
  | true => rfl
  | false =>
    rw [atom, if_neg (by rw [admitted]; exact Bool.false_ne_true)] at narrow
    exact absurd rfl narrow

/-- A compound with a name that is admitted is opened. -/
theorem openTerm_of_admits {name : String} (admitted : e.config.admits name.toList) :
    e.openTerm name = (.ok (), { e.beginTerm.put
      (compoundTag :: 0 :: atomBytes e.config name.toList) with
        contexts := .compound e.beginTerm.buffer.length 0 :: e.beginTerm.contexts }) := by
  rw [openTerm, if_pos admitted]
  dsimp only
  rw [config_beginTerm]
  rfl

/-- A compound that is closed at once has the outcome of its name, for what was written of it is taken
back. -/
theorem sameOutcome_closeTerm {name : String} (admitted : e.config.admits name.toList) :
    consumer.SameOutcome Alike (e.openTerm name).2 e (e.openTerm name).2.closeTerm (e.atom name) := by
  rw [openTerm_of_admits admitted, atom_eq_putClosed admitted, closeTerm_of_lone rfl]
  have content : (e.beginTerm.put (compoundTag :: 0 :: atomBytes e.config name.toList)).buffer.content =
      e.beginTerm.buffer.content ++ compoundTag :: 0 :: atomBytes e.config name.toList :=
    Buffer.content_append _ _
  -- behind the tag and the place for the arity there is the code of the name
  have functor : (e.beginTerm.put (compoundTag :: 0 :: atomBytes e.config name.toList)).buffer.drop
      (e.beginTerm.buffer.length + 2) = atomBytes e.config name.toList := by
    rw [Buffer.drop_eq_drop_content, content, ← Buffer.length_content, ← List.drop_drop,
      List.drop_left]
    rfl
  have front : ((e.beginTerm.put (compoundTag :: 0 :: atomBytes e.config name.toList)).buffer.setLength
      e.beginTerm.buffer.length).content = e.beginTerm.buffer.content := by
    have cut := Buffer.content_setLength content
    rwa [Buffer.length_content] at cut
  dsimp only
  rw [functor]
  -- the bytes that were taken back are out of sight, and nothing else has changed
  have taken : Alike
      { e.beginTerm.put (compoundTag :: 0 :: atomBytes e.config name.toList) with
        buffer := (e.beginTerm.put (compoundTag :: 0 :: atomBytes e.config name.toList)).buffer.setLength
          e.beginTerm.buffer.length
        contexts := e.beginTerm.contexts }
      e.beginTerm :=
    ⟨⟨rfl, front, rfl, rfl, rfl, rfl⟩, ⟨rfl, rfl⟩⟩
  exact (taken.putClosed _).of_sinks rfl (sink_beginTerm e)

/-- What is open in a reachable encoder begins within the content. -/
theorem Reachable.wellNested {c : Config} (h : Reachable c e) : e.WellNested := by
  induction h with
  | new sink => exact .of_contexts_eq_nil rfl
  | call h x ih => exact ih.call x
  | sink h sink ih => exact ih

theorem takesSpellings (nested : e.WellNested) : consumer.TakesSpellings e where
  atom name narrow := by
    have admitted := admits_of_atom_ne narrow
    have opens : e.openTerm name = (.ok (), (e.openTerm name).2) := by
      rw [openTerm_of_admits admitted]
    have depth : (e.openTerm name).2.depth = e.depth + 1 := by
      rw [openTerm_of_admits admitted]
      exact congrArg (· + 1) e.depth_beginTerm
    have sink : (e.openTerm name).2.sink = e.sink := by
      rw [openTerm_of_admits admitted]
      exact sink_beginTerm e
    have same := sameOutcome_closeTerm admitted
    refine Consumer.pairSeenAs_of_sameOutcome opens depth sink ⟨same.answer, ?_, same.received⟩
    exact same.related.indistinguishable (nested.openTerm name).closeTerm
  emptyList := by
    refine Consumer.pairSeenAs_of_eq (rfl : e.call .openList = (.ok (), e.openList)) ?_ ?_ rfl
    · exact congrArg (· + 1) e.depth_beginTerm
    · exact sink_beginTerm e
  int value rest := by
    apply Consumer.observe_congr_head
    show e.bigint value.toInt = e.int value
    rw [bigint, int64?_toInt]

end Swi.Encoder

/-! ## Terms of an arena -/

/-- The two ways to say an atom, an empty list and an integer of 64 bits make the same of a builder. -/
structure Builder.TakesSpellings (b : Builder) : Prop where
  atom (name : String) : (b.call (.openTerm name)).1 = .ok () ∧
    (b.call (.openTerm name)).2.call .closeTerm = b.call (.atom name)
  emptyList : (b.call .openList).1 = .ok () ∧ (b.call .openList).2.call .closeList = b.call .emptyList
  int (value : Int64) : b.call (.bigint value.toInt) = b.call (.int value)

theorem Builder.takesSpellings (b : Builder) : b.TakesSpellings where
  atom name := ⟨rfl, rfl⟩
  emptyList := ⟨rfl, rfl⟩
  int value := by
    have small : b.arena.integer value.toInt = (.int value, b.arena) := by
      rw [Arena.integer, if_pos ⟨value.minValue_le_toInt, value.toInt_le⟩, Int64.ofInt_toInt]
    show b.make (·.integer value.toInt) = _
    rw [make, small]
    rfl

/-- The two ways to say an atom, an empty list and an integer of 64 bits lead to the same: in whatever
state an encoder has come to be and on any sink, it answers and delivers the same from then on, and a
builder is the same afterwards. -/
theorem spellings_agree :
    (∀ e : Sicstus.Encoder, Sicstus.Encoder.consumer.TakesSpellings e) ∧
    (∀ (c : Swi.Config) (e : Swi.Encoder), Swi.Encoder.Reachable c e →
      Swi.Encoder.consumer.TakesSpellings e) ∧
    ∀ b : Builder, b.TakesSpellings :=
  ⟨Sicstus.Encoder.takesSpellings, fun _ _ reachable => Swi.Encoder.takesSpellings reachable.wellNested,
    Builder.takesSpellings⟩

/-- A sink that takes one byte and cannot be flushed. -/
def Sink.hardlyOpen : Sink := ⟨#[], some 1, true, 0⟩

theorem spellings_agree_on_hardlyOpen :
    Swi.Encoder.Reachable .standard (.new .standard .hardlyOpen) ∧
      (Swi.Encoder.consumer.take (.new .standard .hardlyOpen) (.atom "a")).1 = .error (.io .closed) ∧
      Swi.Encoder.consumer.observe (.new .standard .hardlyOpen) [.openTerm "a", .closeTerm, .fullStop] =
        ⟨.ok (), 1, [], 0⟩ ::
          Swi.Encoder.consumer.observe (.new .standard .hardlyOpen) [.atom "a", .fullStop] := by
  have reachable : Swi.Encoder.Reachable .standard (.new .standard .hardlyOpen) := .new .hardlyOpen
  have closed : (Swi.Encoder.consumer.take (.new .standard .hardlyOpen) (.atom "a")).1 =
      .error (.io .closed) := by
    show ((Swi.Encoder.new .standard .hardlyOpen).call (.atom "a")).1 = _
    cbv
  refine ⟨reachable, closed, (spellings_agree.2.1 _ _ reachable).atom "a" ?_ [.fullStop]⟩
  rw [closed]
  exact fun same => by cases same

end PrologWire
