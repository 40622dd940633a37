import PrologWire.Proofs.Sentence.Observation
import PrologWire.Proofs.Swi.Record

/-!
# What the SWI-Prolog encoder remembers

As with SICStus, encoders that agree in the content of their buffers, in the variables, in what is open
and in the flag stay so and answer alike. Here a compound without arguments is taken back to its tag,
which brings the length of the buffer to a position that was stored when the compound was opened. If
that position lay behind the content, old bytes in storage would come back to life; it never does, since
the positions of what is open increase from the outside to the inside and end within the content.
-/

namespace PrologWire

namespace Buffer

/-- A smaller length leaves the first part of the content. -/
theorem content_setLength_of_le {b : Buffer} {length : Nat} (h : length ≤ b.length) :
    (b.setLength length).content = b.content.take length := by
  have parted := (List.take_append_drop length b.content).symm
  have first : (b.content.take length).length = length :=
    List.length_take_of_le (by rwa [length_content])
  have cut := content_setLength parted
  rwa [first] at cut

end Buffer

namespace Swi

open Buffer

/-- Inside the content, the arity takes the place of one byte at a position, whatever else is in
storage. -/
theorem content_patchArity_congr {b b' : Buffer} (same : b.content = b'.content) {position : Nat}
    (inside : position < b.length) (arity : Nat) :
    (patchArity b position arity).content = (patchArity b' position arity).content := by
  obtain ⟨front, old, back, parted, rfl⟩ := exists_content_eq inside
  rw [content_patchArity parted, content_patchArity (same ▸ parted)]

/-- The arity does not shorten what comes before it. -/
theorem le_length_patchArity {b : Buffer} {position : Nat} (inside : position < b.length)
    (arity : Nat) : position ≤ (patchArity b position arity).length := by
  obtain ⟨front, old, back, parted, rfl⟩ := exists_content_eq inside
  rw [← length_content, content_patchArity parted, List.length_append, List.length_append]
  omega

/-- What is open begins within so many bytes, and the outer before the inner. -/
def Nested : List Context → Nat → Prop
  | [], _ => True
  | .list :: outer, length => Nested outer length
  | .compound start _ :: outer, length => start ≤ length ∧ Nested outer start

/-- More bytes do no harm. -/
theorem Nested.mono {contexts : List Context} {length length' : Nat} (h : Nested contexts length)
    (le : length ≤ length') : Nested contexts length' := by
  induction contexts with
  | nil => trivial
  | cons c outer ih =>
    cases c with
    | list => exact ih h
    | compound start arity => exact ⟨Nat.le_trans h.1 le, h.2⟩

namespace Encoder

/-- An encoder as what takes calls. -/
def consumer : Consumer Encoder Call := ⟨call, depth, (·.sink)⟩

/-- A compound that has arguments gets its arity. -/
theorem closeTerm_of_parts {e : Encoder} {start arity : Nat} {outer : List Context}
    (here : e.contexts = .compound start (arity + 1) :: outer) :
    e.closeTerm =
      if start + 1 < e.buffer.length then
        (.ok (), { e with
          buffer := patchArity e.buffer (start + 1) (arity + 1)
          contexts := outer
          words := e.words + (arity + 1) + 1 })
      else e.fail (.buffer (.setBeyond (start + 1) e.buffer.length)) := by
  rw [closeTerm, here]
  rfl

/-- A compound without arguments is taken back, and its functor stands alone. -/
theorem closeTerm_of_lone {e : Encoder} {start : Nat} {outer : List Context}
    (here : e.contexts = .compound start 0 :: outer) :
    e.closeTerm =
      { e with buffer := e.buffer.setLength start, contexts := outer }.putClosed
        (e.buffer.drop (start + 2)) := by
  rw [closeTerm, here]
  rfl

/-- A leaf is a record of its own only if nothing is open. -/
theorem contexts_eq_nil_of_isDirect {e : Encoder} (direct : e.isDirect = true) :
    e.contexts = [] := by
  rw [isDirect, Bool.and_eq_true, Bool.and_eq_true] at direct
  exact List.isEmpty_iff.mp direct.1.1

/-! ## What a call can do -/

@[simp] theorem sink_beginTerm (e : Encoder) : e.beginTerm.sink = e.sink := by
  unfold beginTerm
  split <;> rfl

@[simp] theorem config_beginTerm (e : Encoder) : e.beginTerm.config = e.config := by
  unfold beginTerm
  split <;> rfl

/-- What can come of a call within a sentence. -/
inductive Outcome (e : Encoder) (r : Answer × Encoder) : Prop where
  /-- The call is done in memory. -/
  | gathered (e' : Encoder) (eq : r = (.ok (), e')) (config : e'.config = e.config)
    (failed : e'.failed = e.failed) (sink : e'.sink = e.sink)
  /-- The call brings a record of its own to the sink, as far as this lets. -/
  | direct (g : Encoder) (record : List UInt8) (eq : r = g.writeDirect record)
    (direct : g.isDirect = true) (config : g.config = e.config) (failed : g.failed = e.failed)
    (sink : g.sink = e.sink)
  /-- The call is refused. -/
  | refused (cause : WireError) (eq : r = e.fail cause)

/-- A leaf that comes now goes through the buffer or is a record of its own. -/
theorem outcome_leaf (e : Encoder) (record code : List UInt8) :
    e.Outcome (if e.isDirect then e.writeDirect record else (.ok (), e.beginTerm.put code)) := by
  split
  · next direct => exact .direct e record rfl direct rfl rfl rfl
  · exact .gathered _ rfl (config_beginTerm e) (failed_beginTerm e) (sink_beginTerm e)

/-- A closed term that was counted already does so, too; here `g` is `e` without it. -/
theorem outcome_putClosed {e g : Encoder} (config : g.config = e.config) (failed : g.failed = e.failed)
    (sink : g.sink = e.sink) (code : List UInt8) : e.Outcome (g.putClosed code) := by
  unfold putClosed
  split
  · next direct => exact .direct g _ rfl direct config failed sink
  · exact .gathered _ rfl config failed sink

theorem outcome_int (e : Encoder) (value : Int64) : e.Outcome (e.int value) := by
  unfold Encoder.int
  split
  · exact e.outcome_leaf _ _
  · exact .refused _ rfl

/-- A call within a sentence is done in memory, brings a record of its own to the sink, or is
refused. -/
theorem outcome_call (e : Encoder) {c : Call} (going : c ≠ .fullStop) (quiet : c ≠ .flush) :
    e.Outcome (e.call c) := by
  cases c with
  | openTerm functor =>
    rw [call, openTerm]
    split
    · exact .gathered _ rfl (config_beginTerm e) (failed_beginTerm e) (sink_beginTerm e)
    · exact .refused _ rfl
  | closeTerm =>
    rw [call, closeTerm]
    split
    · refine outcome_putClosed ?_ ?_ ?_ _ <;> rfl
    · split
      · exact .gathered _ rfl rfl rfl rfl
      · exact .refused _ rfl
    · exact .refused _ rfl
  | openList => exact .gathered _ rfl (config_beginTerm e) (failed_beginTerm e) (sink_beginTerm e)
  | closeList =>
    rw [call, closeList]
    split
    · refine outcome_putClosed ?_ ?_ ?_ _ <;> rfl
    · exact .refused _ rfl
  | emptyList => exact outcome_putClosed (config_beginTerm e) (failed_beginTerm e) (sink_beginTerm e) _
  | atom name =>
    rw [call, atom]
    split
    · exact e.outcome_leaf _ _
    · exact .refused _ rfl
  | int value => exact e.outcome_int value
  | bigint value =>
    rw [call, bigint]
    split
    · exact e.outcome_int _
    · exact .refused _ rfl
  | float value =>
    rw [call, float]
    refine .gathered _ rfl ?_ ?_ ?_
    · simp only [put, config_beginTerm]
    · simp only [put, failed_beginTerm]
    · simp only [put, sink_beginTerm]
  | var name => exact .gathered _ rfl (config_beginTerm e) (failed_beginTerm e) (sink_beginTerm e)
  | fullStop => exact absurd rfl going
  | flush => exact absurd rfl quiet

/-- An encoder goes on writing for its receiver. -/
theorem config_call (e : Encoder) (c : Call) : (e.call c).2.config = e.config := by
  by_cases stop : c = .fullStop
  · have written : e.writeRecord.2.config = e.config := by
      unfold writeRecord
      dsimp only
      split <;> rfl
    rw [stop, call, fullStop]
    split
    · rfl
    · split
      · rfl
      · cases e.buffer.isEmpty with
        | true => rfl
        | false =>
          dsimp only
          split <;> exact written
  by_cases flushes : c = .flush
  · rw [flushes]
    rfl
  cases e.outcome_call stop flushes with
  | gathered e' eq config failed sink => rw [eq]; exact config
  | direct g record eq direct config failed sink => rw [eq]; exact config
  | refused cause eq => rw [eq]; rfl

/-! ## What is open -/

/-- What is open begins within the content. -/
def WellNested (e : Encoder) : Prop := Nested e.contexts e.buffer.length

namespace WellNested

variable {e : Encoder}

theorem of_contexts_eq_nil (h : e.contexts = []) : e.WellNested := by
  rw [WellNested, h]
  trivial

theorem writeDirect (direct : e.isDirect = true) (record : List UInt8) :
    (e.writeDirect record).2.WellNested :=
  of_contexts_eq_nil (contexts_eq_nil_of_isDirect direct :)

theorem put (h : e.WellNested) (bs : List UInt8) : (e.put bs).WellNested :=
  Nested.mono h (Nat.le_add_right _ _)

theorem beginTerm (h : e.WellNested) : e.beginTerm.WellNested := by
  rw [WellNested] at h
  unfold Encoder.beginTerm
  split
  · exact h
  · exact put h _
  · next start arity outer here =>
    rw [here] at h
    exact h

theorem openTerm (h : e.WellNested) (functor : String) : (e.openTerm functor).2.WellNested := by
  unfold Encoder.openTerm
  split
  · -- the tag comes behind all that is there
    exact ⟨Nat.le_add_right _ _, h.beginTerm⟩
  · exact h

/-- A record of its own is written only if nothing is open. -/
theorem putClosed (h : e.WellNested) (code : List UInt8) : (e.putClosed code).2.WellNested := by
  unfold Encoder.putClosed
  split
  · exact writeDirect ‹e.isDirect = true› _
  · exact h.put code

theorem closeTerm (h : e.WellNested) : e.closeTerm.2.WellNested := by
  rw [WellNested] at h
  rcases here : e.contexts with _ | ⟨_ | ⟨start, _ | arity⟩, outer⟩
  case cons.compound.succ =>
    rw [here] at h
    rw [closeTerm_of_parts here]
    split
    · next inside =>
      refine Nested.mono h.2 ?_
      show start ≤ (patchArity e.buffer (start + 1) (arity + 1)).length
      exact Nat.le_trans (Nat.le_succ start) (le_length_patchArity inside _)
    · rw [← here] at h
      exact h
  case cons.compound.zero =>
    rw [here] at h
    rw [closeTerm_of_lone here]
    have taken : WellNested { e with buffer := e.buffer.setLength start, contexts := outer } := h.2
    exact taken.putClosed _
  all_goals rw [Encoder.closeTerm, here]
  · exact h
  · exact h

theorem openList (h : e.WellNested) : e.openList.WellNested := h.beginTerm

theorem closeList (h : e.WellNested) : e.closeList.2.WellNested := by
  rw [WellNested] at h
  unfold Encoder.closeList
  split
  · next outer here =>
    rw [here] at h
    have taken : WellNested { e with contexts := outer } := h
    exact taken.putClosed _
  · exact h

theorem int (h : e.WellNested) (value : Int64) : (e.int value).2.WellNested := by
  unfold Encoder.int
  split
  · split
    · exact writeDirect ‹e.isDirect = true› _
    · exact h.beginTerm.put _
  · exact h

theorem atom (h : e.WellNested) (name : String) : (e.atom name).2.WellNested := by
  unfold Encoder.atom
  split
  · dsimp only
    split
    · exact writeDirect ‹e.isDirect = true› _
    · exact h.beginTerm.put _
  · exact h

/-- Every call keeps what is open within the content. -/
theorem call (h : e.WellNested) (c : Call) : (e.call c).2.WellNested := by
  cases c with
  | openTerm functor => exact h.openTerm functor
  | closeTerm => exact h.closeTerm
  | openList => exact h.openList
  | closeList => exact h.closeList
  | emptyList => exact h.openList.closeList
  | atom name => exact h.atom name
  | int value => exact h.int value
  | bigint value =>
    rw [Encoder.call, bigint]
    split
    · exact h.int _
    · exact h
  | float value =>
    have begun := h.beginTerm.put (floatTag :: floatBytes value)
    simp only [WellNested, Encoder.call, float]
    exact begun
  | var name =>
    exact Nested.mono h.beginTerm (Nat.le_add_right _ _)
  | fullStop => exact of_contexts_eq_nil (atStart_fullStop e).contexts
  | flush => exact h

end WellNested

/-! ## Encoders with the same sentence -/

/-- The encoders write for the same receiver and have the same sentence so far, wherever they store
it. -/
structure SameSentence (e f : Encoder) : Prop where
  config : e.config = f.config
  content : e.buffer.content = f.buffer.content
  vars : e.vars = f.vars
  contexts : e.contexts = f.contexts
  words : e.words = f.words
  failed : e.failed = f.failed

namespace SameSentence

variable {e f : Encoder} (h : e.SameSentence f)

include h

theorem length : e.buffer.length = f.buffer.length := by
  rw [← length_content, h.content, length_content]

theorem isDirect : e.isDirect = f.isDirect := by
  rw [Encoder.isDirect, Encoder.isDirect, Buffer.isEmpty, Buffer.isEmpty, h.contexts, h.length,
    h.failed]

theorem put (bs : List UInt8) : (e.put bs).SameSentence (f.put bs) := by
  refine ⟨h.config, ?_, h.vars, h.contexts, h.words, h.failed⟩
  rw [Encoder.put, Encoder.put, content_append, content_append, h.content]

theorem withContexts (contexts : List Context) :
    SameSentence { e with contexts := contexts } { f with contexts := contexts } :=
  ⟨h.config, h.content, h.vars, rfl, h.words, h.failed⟩

theorem withWords (words : Nat) :
    SameSentence { e with words := words } { f with words := words } :=
  ⟨h.config, h.content, h.vars, h.contexts, rfl, h.failed⟩

theorem withSinks (s t : Sink) : SameSentence { e with sink := s } { f with sink := t } :=
  ⟨h.config, h.content, h.vars, h.contexts, h.words, h.failed⟩

theorem fail (cause : WireError) : (e.fail cause).2.SameSentence (f.fail cause).2 :=
  ⟨h.config, h.content, h.vars, h.contexts, h.words, rfl⟩

theorem reset : e.reset.SameSentence f.reset :=
  ⟨h.config, by rw [Encoder.reset, Encoder.reset, content_clear, content_clear], rfl, rfl, rfl, rfl⟩

theorem beginTerm : e.beginTerm.SameSentence f.beginTerm := by
  have begun := h.put [consTag]
  rw [Encoder.beginTerm, Encoder.beginTerm, ← h.contexts]
  split
  · exact h
  · exact ⟨h.config, begun.content, h.vars, begun.contexts, congrArg (· + consWords) h.words, h.failed⟩
  · exact h.withContexts _

theorem openTerm (functor : String) :
    (e.openTerm functor).1 = (f.openTerm functor).1 ∧
      (e.openTerm functor).2.SameSentence (f.openTerm functor).2 := by
  have begun := h.beginTerm
  rw [Encoder.openTerm, Encoder.openTerm, ← h.config]
  split
  · dsimp only
    rw [← begun.length, ← begun.config]
    have named := begun.put (compoundTag :: 0 :: atomBytes e.beginTerm.config functor.toList)
    exact ⟨rfl, named.config, named.content, named.vars,
      congrArg (.compound e.beginTerm.buffer.length 0 :: ·) begun.contexts, named.words, named.failed⟩
  · exact ⟨rfl, h.fail _⟩

theorem openList : e.openList.SameSentence f.openList := by
  have begun := h.beginTerm
  have opened := begun.withContexts (.list :: e.beginTerm.contexts)
  rw [Encoder.openList, Encoder.openList, ← begun.contexts]
  exact opened

theorem float (value : Binary64) : (e.float value).2.SameSentence (f.float value).2 := by
  have begun := h.beginTerm.put (floatTag :: floatBytes value)
  have words : (e.beginTerm.put (floatTag :: floatBytes value)).words +
        (e.beginTerm.put (floatTag :: floatBytes value)).config.wordSize.floatWords =
      (f.beginTerm.put (floatTag :: floatBytes value)).words +
        (f.beginTerm.put (floatTag :: floatBytes value)).config.wordSize.floatWords := by
    rw [begun.words, begun.config]
  simp only [Encoder.float, words]
  exact begun.withWords _

theorem var (name : String) : (e.var name).2.SameSentence (f.var name).2 := by
  have begun := h.beginTerm
  have numbered (vars : VarTable) :
      SameSentence { e.beginTerm with vars := vars } { f.beginTerm with vars := vars } :=
    ⟨begun.config, begun.content, rfl, begun.contexts, begun.words, begun.failed⟩
  rw [Encoder.var, Encoder.var, begun.vars]
  exact (numbered (f.beginTerm.vars.ordinal name).2).put _

/-- The records begin in the same way. -/
theorem recordStart : e.recordStart = f.recordStart := by
  rw [Encoder.recordStart, Encoder.recordStart, h.length, h.words, h.vars, h.config]

end SameSentence

/-! ## Encoders that are alike -/

/-- The encoders have the same sentence so far, and sinks that behave in the same way. -/
structure Alike (e f : Encoder) : Prop where
  sentence : e.SameSentence f
  sinks : e.sink.Alike f.sink

namespace Alike

variable {e f : Encoder}

theorem depth (h : e.Alike f) : e.depth = f.depth := by
  rw [Encoder.depth, Encoder.depth, h.sentence.contexts]

/-- A call that does not reach the sinks. -/
theorem quiet (h : e.Alike f) {x y : Answer × Encoder} (answer : x.1 = y.1)
    (sentence : x.2.SameSentence y.2) (left : x.2.sink = e.sink) (right : y.2.sink = f.sink) :
    consumer.SameOutcome Alike e f x y := by
  have sinks : x.2.sink.Alike y.2.sink := by
    rw [left, right]
    exact h.sinks
  refine ⟨answer, ⟨sentence, sinks⟩, ?_⟩
  show Sink.SameReceived e.sink f.sink x.2.sink y.2.sink
  rw [left, right]
  exact h.sinks.sameReceived

/-- A refused call. -/
theorem fail (h : e.Alike f) (cause : WireError) :
    consumer.SameOutcome Alike e f (e.fail cause) (f.fail cause) :=
  h.quiet rfl (h.sentence.fail cause) rfl rfl

/-- A record of its own passes through the buffers, which are empty afterwards. -/
theorem writeDirect (h : e.Alike f) (record : List UInt8) :
    consumer.SameOutcome Alike e f (e.writeDirect record) (f.writeDirect record) := by
  have longer := h.sentence.put record
  have bytes : (e.put record).buffer.bytes = (f.put record).buffer.bytes :=
    Array.toList_inj.mp longer.content
  obtain ⟨complete, s, t, left, right, received⟩ := h.sinks.write (e.put record).buffer.bytes
  have left' : (e.put record).sink.write (e.put record).buffer.bytes = (complete, s) := left
  have right' : (f.put record).sink.write (f.put record).buffer.bytes = (complete, t) := bytes ▸ right
  rw [Encoder.writeDirect, Encoder.writeDirect]
  dsimp only
  rw [left', right']
  refine ⟨rfl, ⟨⟨h.sentence.config, ?_, h.sentence.vars, h.sentence.contexts, h.sentence.words,
    h.sentence.failed⟩, received.alike⟩, received⟩
  rw [content_clear, content_clear]

theorem putClosed (h : e.Alike f) (code : List UInt8) :
    consumer.SameOutcome Alike e f (e.putClosed code) (f.putClosed code) := by
  rw [Encoder.putClosed, Encoder.putClosed, ← h.sentence.isDirect, directAtomHeader,
    directAtomHeader, ← h.sentence.config]
  split
  · exact h.writeDirect _
  · exact h.quiet rfl (h.sentence.put code) rfl rfl

/-- A compound without arguments is taken back to its tag, and what stood behind the content before
does not come into it. -/
theorem closeTerm (h : e.Alike f) (nested : e.WellNested) :
    consumer.SameOutcome Alike e f e.closeTerm f.closeTerm := by
  have same := h.sentence.contexts
  rcases here : e.contexts with _ | ⟨_ | ⟨start, _ | arity⟩, outer⟩
  case cons.compound.succ =>
    rw [closeTerm_of_parts here, closeTerm_of_parts (same ▸ here), ← h.sentence.length,
      ← h.sentence.words]
    split
    · next inside =>
      have patched := content_patchArity_congr h.sentence.content inside (arity + 1)
      exact h.quiet rfl ⟨h.sentence.config, patched, h.sentence.vars, rfl, rfl, h.sentence.failed⟩
        rfl rfl
    · exact h.fail _
  case cons.compound.zero =>
    rw [WellNested, here] at nested
    have functor : e.buffer.drop (start + 2) = f.buffer.drop (start + 2) := by
      rw [drop_eq_drop_content, drop_eq_drop_content, h.sentence.content]
    have front : (e.buffer.setLength start).content = (f.buffer.setLength start).content := by
      rw [content_setLength_of_le nested.1,
        content_setLength_of_le (h.sentence.length ▸ nested.1), h.sentence.content]
    have taken : Alike { e with buffer := e.buffer.setLength start, contexts := outer }
        { f with buffer := f.buffer.setLength start, contexts := outer } :=
      ⟨⟨h.sentence.config, front, h.sentence.vars, rfl, h.sentence.words, h.sentence.failed⟩, h.sinks⟩
    rw [closeTerm_of_lone here, closeTerm_of_lone (same ▸ here), functor]
    exact (taken.putClosed _).of_sinks rfl rfl
  all_goals rw [Encoder.closeTerm, Encoder.closeTerm, ← same, here]
  · exact h.fail _
  · exact h.fail _

theorem closeList (h : e.Alike f) : consumer.SameOutcome Alike e f e.closeList f.closeList := by
  rw [Encoder.closeList, Encoder.closeList, ← h.sentence.contexts]
  split
  · next outer here =>
    have taken : Alike { e with contexts := outer } { f with contexts := outer } :=
      ⟨h.sentence.withContexts outer, h.sinks⟩
    exact (taken.putClosed _).of_sinks rfl rfl
  · exact h.fail _

theorem atom (h : e.Alike f) (name : String) :
    consumer.SameOutcome Alike e f (e.atom name) (f.atom name) := by
  rw [Encoder.atom, Encoder.atom, ← h.sentence.config, ← h.sentence.isDirect, directAtomHeader,
    directAtomHeader, ← h.sentence.config]
  split
  · dsimp only
    split
    · exact h.writeDirect _
    · exact h.quiet rfl (h.sentence.beginTerm.put _) (sink_beginTerm e) (sink_beginTerm f)
  · exact h.fail _

theorem int (h : e.Alike f) (value : Int64) :
    consumer.SameOutcome Alike e f (e.int value) (f.int value) := by
  rw [Encoder.int, Encoder.int, ← h.sentence.config, ← h.sentence.isDirect, directIntHeader,
    directIntHeader, ← h.sentence.config]
  split
  · split
    · exact h.writeDirect _
    · exact h.quiet rfl (h.sentence.beginTerm.put _) (sink_beginTerm e) (sink_beginTerm f)
  · exact h.fail _

theorem flush (h : e.Alike f) : consumer.SameOutcome Alike e f e.flush f.flush := by
  obtain ⟨flushed, s, t, left, right, received⟩ := h.sinks.flush
  rw [Encoder.flush, Encoder.flush, left, right]
  exact ⟨rfl, ⟨h.sentence.withSinks s t, received.alike⟩, received⟩

/-- What is written of the same sentence is the same, up to where the sinks let it. -/
theorem writeRecord (h : e.Alike f) :
    consumer.SameOutcome Alike e f e.writeRecord f.writeRecord := by
  have bytes : e.buffer.bytes = f.buffer.bytes := Array.toList_inj.mp h.sentence.content
  obtain ⟨begun, s, t, left, right, received⟩ := h.sinks.write e.recordStart.toArray
  rw [Encoder.writeRecord, Encoder.writeRecord, ← h.sentence.recordStart, left, right]
  cases begun with
  | false => exact ⟨rfl, ⟨h.sentence.withSinks s t, received.alike⟩, received⟩
  | true =>
    obtain ⟨complete, s', t', left', right', received'⟩ := received.alike.write e.buffer.bytes
    have both := received.trans received'
    rw [← bytes]
    dsimp only
    rw [if_pos rfl, if_pos rfl, left', right']
    exact ⟨rfl, ⟨h.sentence.withSinks s' t', both.alike⟩, both⟩

/-- Encoders that forget their sentences and flush their sinks do so with the same outcome. -/
theorem resetAndFlush {x y : Answer × Encoder} (h : consumer.SameOutcome Alike e f x y) :
    consumer.SameOutcome Alike e f
      (match x.1 with
        | .ok () => x.2.reset.flush
        | .error cause => (.error cause, x.2.reset))
      (match y.1 with
        | .ok () => y.2.reset.flush
        | .error cause => (.error cause, y.2.reset)) := by
  have forgotten : Alike x.2.reset y.2.reset := ⟨h.related.sentence.reset, h.related.sinks⟩
  rw [← h.answer]
  split
  · have flushed := forgotten.flush
    exact ⟨flushed.answer, flushed.related, h.received.trans flushed.received⟩
  · exact ⟨rfl, forgotten, h.received⟩

/-- At the full stop the encoders write the same or refuse for the same reason. -/
theorem fullStop (h : e.Alike f) : consumer.SameOutcome Alike e f e.fullStop f.fullStop := by
  have empty : e.buffer.isEmpty = f.buffer.isEmpty := by
    rw [Buffer.isEmpty, Buffer.isEmpty, h.sentence.length]
  rw [Encoder.fullStop, Encoder.fullStop, ← h.sentence.failed, ← h.sentence.contexts, ← h.depth, ← empty]
  split
  · exact h.quiet rfl h.sentence.reset rfl rfl
  · split
    · exact h.quiet rfl h.sentence.reset rfl rfl
    · cases e.buffer.isEmpty with
      | true => exact resetAndFlush (x := (.ok (), e)) (y := (.ok (), f)) ⟨rfl, h, h.sinks.sameReceived⟩
      | false => exact resetAndFlush h.writeRecord

/-- Every call has the same outcome. -/
theorem call (h : e.Alike f) (nested : e.WellNested) (c : Call) :
    consumer.SameOutcome Alike e f (e.call c) (f.call c) := by
  cases c with
  | openTerm functor =>
    obtain ⟨answer, sentence⟩ := h.sentence.openTerm functor
    have sink (g : Encoder) : (g.openTerm functor).2.sink = g.sink := by
      unfold Encoder.openTerm
      split
      · exact sink_beginTerm g
      · rfl
    exact h.quiet answer sentence (sink e) (sink f)
  | closeTerm => exact h.closeTerm nested
  | openList => exact h.quiet rfl h.sentence.openList (sink_beginTerm e) (sink_beginTerm f)
  | closeList => exact h.closeList
  | emptyList =>
    have opened : Alike e.openList f.openList :=
      ⟨h.sentence.openList, by
        rw [Encoder.openList, Encoder.openList, sink_beginTerm, sink_beginTerm]
        exact h.sinks⟩
    exact opened.closeList.of_sinks (sink_beginTerm e) (sink_beginTerm f)
  | atom name => exact h.atom name
  | int value => exact h.int value
  | bigint value =>
    rw [Encoder.call, Encoder.call, bigint, bigint]
    split
    · exact h.int _
    · exact h.fail _
  | float value =>
    have sink (g : Encoder) : (g.float value).2.sink = g.sink := by
      simp only [Encoder.float, Encoder.put, sink_beginTerm]
    exact h.quiet rfl (h.sentence.float value) (sink e) (sink f)
  | var name => exact h.quiet rfl (h.sentence.var name) (sink_beginTerm e) (sink_beginTerm f)
  | fullStop => exact h.fullStop
  | flush => exact h.flush

/-- Encoders that are alike cannot be told apart, if what is open begins within the content. -/
theorem indistinguishable (h : e.Alike f) (nested : e.WellNested) :
    consumer.Indistinguishable e f := by
  refine Consumer.indistinguishable_of_step (R := fun e f => e.Alike f ∧ e.WellNested)
    (fun h => h.1.depth) ?_ ⟨h, nested⟩
  intro e f c h
  have out := h.1.call h.2 c
  exact ⟨out.answer, ⟨out.related, h.2.call c⟩, out.received⟩

end Alike

theorem config_after (e : Encoder) (calls : List Call) : (consumer.after e calls).config = e.config := by
  induction calls generalizing e with
  | nil => rfl
  | cons c rest ih => exact (ih _).trans (config_call e c)

/-- A full stop, however it is answered, leaves an encoder that is like a new one. -/
theorem alike_new_of_fullStop (e : Encoder) {fresh : Sink}
    (h : fresh.Alike (e.call .fullStop).2.sink) :
    (e.call .fullStop).2.Alike (new e.config fresh) := by
  have start := atStart_fullStop e
  refine ⟨⟨config_call e .fullStop, ?_, start.vars, start.contexts, start.words, start.failed⟩,
    ⟨h.room.symm, h.failsFlush.symm⟩⟩
  exact start.buffer.trans content_empty.symm

end Encoder

end Swi

end PrologWire
