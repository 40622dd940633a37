import PrologWire.Proofs.Sentence.Observation
import PrologWire.Proofs.Sicstus.Pieces
import PrologWire.Proofs.Sicstus.Progress

/-!
# What the SICStus encoder and the writer remember

An encoder reads nothing of its storage but the content of the buffer, and nothing of its sink but how
it behaves. Encoders that agree in these, in the variables, in what is open and in the two flags stay
so with every call and answer it in the same way. Of a writer even less lasts from one term to the
next: the draft begins anew with every term, so that all that counts is the sink.
-/

namespace PrologWire

/-- A byte inside the content is replaced. -/
theorem Buffer.content_replace_of_lt {b : Buffer} {position : Nat} (inside : position < b.length)
    (byte : UInt8) : (b.replace position byte).content = b.content.set position byte := by
  rw [content, content, bytes_replace inside, Array.toList_setIfInBounds]

namespace Sicstus

namespace Encoder

/-- An encoder as what takes calls. -/
def consumer : Consumer Encoder Call := ⟨call, depth, (·.sink)⟩

/-- Before its first argument the name of a compound is written. -/
theorem beginTerm_of_first {e : Encoder} {functor : String} {position : Nat} {outer : List Context}
    (here : e.contexts = .compound functor position 0 :: outer) :
    e.beginTerm =
      { (e.put (compoundTag :: zeroEnded functor)).put [0] with
        contexts := .compound functor (e.put (compoundTag :: zeroEnded functor)).buffer.length 1 ::
          outer } := by
  rw [beginTerm, here]
  rfl

/-- A compound that has arguments gets its arity, if this fits. -/
theorem closeTerm_of_parts {e : Encoder} {functor : String} {position arity : Nat}
    {outer : List Context} (here : e.contexts = .compound functor position (arity + 1) :: outer) :
    e.closeTerm =
      if maxArity < arity + 1 then e.fail (.arityOverflow functor (arity + 1))
      else if position < e.buffer.length then
        (.ok (), { e with
          buffer := e.buffer.replace position (UInt8.ofNat (arity + 1))
          contexts := outer })
      else e.fail (.buffer (.setBeyond position e.buffer.length)) := by
  rw [closeTerm, here]
  rfl

/-- Within a sentence nothing is written. -/
theorem sink_call (e : Encoder) {c : Call} (going : c ≠ .fullStop) (quiet : c ≠ .flush) :
    (e.call c).2.sink = e.sink := by
  obtain ⟨e', eq, -, same⟩ | ⟨cause, eq⟩ := e.call_within going quiet
  · rw [eq]
    exact same
  · rw [eq]
    rfl

/-! ## Encoders with the same sentence -/

/-- The encoders have the same sentence so far, wherever they store it. -/
structure SameSentence (e f : Encoder) : Prop where
  content : e.buffer.content = f.buffer.content
  vars : e.vars = f.vars
  contexts : e.contexts = f.contexts
  inRun : e.inRun = f.inRun
  failed : e.failed = f.failed

namespace SameSentence

variable {e f : Encoder} (h : e.SameSentence f)

include h

theorem length : e.buffer.length = f.buffer.length := by
  rw [← Buffer.length_content, h.content, Buffer.length_content]

theorem put (bs : List UInt8) : (e.put bs).SameSentence (f.put bs) := by
  refine ⟨?_, h.vars, h.contexts, h.inRun, h.failed⟩
  rw [Encoder.put, Encoder.put, Buffer.content_append, Buffer.content_append, h.content]

theorem withContexts (contexts : List Context) :
    SameSentence { e with contexts := contexts } { f with contexts := contexts } :=
  ⟨h.content, h.vars, rfl, h.inRun, h.failed⟩

theorem fail (cause : WireError) : (e.fail cause).2.SameSentence (f.fail cause).2 :=
  ⟨h.content, h.vars, h.contexts, h.inRun, rfl⟩

theorem endRun : e.endRun.SameSentence f.endRun := by
  rw [Encoder.endRun, Encoder.endRun, h.inRun]
  split
  · have ended := h.put [0]
    exact ⟨ended.content, ended.vars, ended.contexts, rfl, ended.failed⟩
  · exact h

theorem beginTerm : e.beginTerm.SameSentence f.beginTerm := by
  have same := h.contexts
  rcases here : e.contexts with _ | ⟨_ | ⟨functor, position, _ | arity⟩, outer⟩
  case cons.compound.zero =>
    -- the arity byte goes to the end of contents that are the same
    have begun := h.put (compoundTag :: zeroEnded functor)
    rw [beginTerm_of_first here, beginTerm_of_first (same ▸ here), begun.length]
    exact (begun.put [0]).withContexts _
  all_goals rw [Encoder.beginTerm, Encoder.beginTerm, ← same, here]
  · exact h
  · exact h.endRun.put [elementTag]
  · exact h.withContexts _

theorem leaf (bs : List UInt8) : (e.leaf bs).2.SameSentence (f.leaf bs).2 := h.beginTerm.put bs

theorem openTerm (functor : String) :
    (e.openTerm functor).2.SameSentence (f.openTerm functor).2 := by
  have begun := h.beginTerm
  have opened := begun.withContexts (.compound functor 0 0 :: e.beginTerm.contexts)
  rw [Encoder.openTerm, Encoder.openTerm, ← begun.contexts]
  exact opened

theorem openList : e.openList.SameSentence f.openList := by
  have begun := h.beginTerm
  have opened := begun.withContexts (.list :: e.beginTerm.contexts)
  rw [Encoder.openList, Encoder.openList, ← begun.contexts]
  exact opened

theorem closeTerm :
    e.closeTerm.1 = f.closeTerm.1 ∧ e.closeTerm.2.SameSentence f.closeTerm.2 := by
  have same := h.contexts
  rcases here : e.contexts with _ | ⟨_ | ⟨functor, position, _ | arity⟩, outer⟩
  case cons.compound.succ =>
    rw [closeTerm_of_parts here, closeTerm_of_parts (same ▸ here), ← h.length]
    split
    · exact ⟨rfl, h.fail _⟩
    · split
      · next inside =>
        refine ⟨rfl, ?_, h.vars, rfl, h.inRun, h.failed⟩
        rw [Buffer.content_replace_of_lt inside, Buffer.content_replace_of_lt (h.length ▸ inside),
          h.content]
      · exact ⟨rfl, h.fail _⟩
  all_goals rw [Encoder.closeTerm, Encoder.closeTerm, ← same, here]
  · exact ⟨rfl, h.fail _⟩
  · exact ⟨rfl, h.fail _⟩
  · exact ⟨rfl, (h.withContexts outer).put _⟩

theorem closeList :
    e.closeList.1 = f.closeList.1 ∧ e.closeList.2.SameSentence f.closeList.2 := by
  have same := h.contexts
  rw [Encoder.closeList, Encoder.closeList, ← same]
  rcases e.contexts with _ | ⟨_ | ⟨functor, position, arity⟩, outer⟩
  · exact ⟨rfl, h.fail _⟩
  · exact ⟨rfl, (h.withContexts outer).endRun.put _⟩
  · exact ⟨rfl, h.fail _⟩

theorem int (value : Int64) :
    (e.int value).1 = (f.int value).1 ∧ (e.int value).2.SameSentence (f.int value).2 := by
  rw [Encoder.int, Encoder.int, ← h.contexts, ← h.inRun]
  rcases e.contexts with _ | ⟨_ | ⟨functor, position, arity⟩, outer⟩
  · exact ⟨rfl, h.leaf _⟩
  · rcases runByte? value with _ | byte
    · exact ⟨rfl, h.leaf _⟩
    · have begun := h.put [runTag, byte]
      cases e.inRun with
      | true => exact ⟨rfl, h.put [byte]⟩
      | false => exact ⟨rfl, begun.content, begun.vars, begun.contexts, rfl, begun.failed⟩
  · exact ⟨rfl, h.leaf _⟩

theorem var (name : String) : (e.var name).2.SameSentence (f.var name).2 := by
  have begun := h.beginTerm
  have numbered (vars : VarTable) :
      SameSentence { e.beginTerm with vars := vars } { f.beginTerm with vars := vars } :=
    ⟨begun.content, rfl, begun.contexts, begun.inRun, begun.failed⟩
  rw [Encoder.var, Encoder.var, begun.vars]
  exact (numbered (f.beginTerm.vars.ordinal name).2).put _

/-- Within a sentence the encoders give the same answers and go on with the same sentence. -/
theorem call {c : Call} (going : c ≠ .fullStop) (quiet : c ≠ .flush) :
    (e.call c).1 = (f.call c).1 ∧ (e.call c).2.SameSentence (f.call c).2 := by
  cases c with
  | openTerm functor => exact ⟨rfl, h.openTerm functor⟩
  | closeTerm => exact h.closeTerm
  | openList => exact ⟨rfl, h.openList⟩
  | closeList => exact h.closeList
  | emptyList => exact h.openList.closeList
  | int value => exact h.int value
  | bigint value =>
    rw [Encoder.call, Encoder.call, Encoder.bigint, Encoder.bigint]
    split
    · exact h.int _
    · exact ⟨rfl, h.leaf _⟩
  | var name => exact ⟨rfl, h.var name⟩
  | fullStop => exact absurd rfl going
  | flush => exact absurd rfl quiet
  | atom name => exact ⟨rfl, h.leaf _⟩
  | float value => exact ⟨rfl, h.leaf _⟩

end SameSentence

/-! ## Encoders that are alike -/

/-- The encoders have the same sentence so far, and sinks that behave in the same way. -/
structure Alike (e f : Encoder) : Prop where
  sentence : e.SameSentence f
  sinks : e.sink.Alike f.sink

namespace Alike

variable {e f : Encoder}

theorem depth (h : e.Alike f) : e.depth = f.depth := by
  rw [Encoder.depth, Encoder.depth, h.sentence.contexts]

/-- Encoders that forget their sentences have the same one again. -/
theorem of_reset (h : e.sink.Alike f.sink) : e.reset.Alike f.reset :=
  ⟨⟨by rw [reset, reset, Buffer.content_clear, Buffer.content_clear], rfl, rfl, rfl, rfl⟩, h⟩

/-- Sinks that go on in the same way do not change the sentence. -/
theorem withSinks (h : e.Alike f) {s t : Sink} (sinks : s.Alike t) :
    Alike { e with sink := s } { f with sink := t } :=
  ⟨⟨h.sentence.content, h.sentence.vars, h.sentence.contexts, h.sentence.inRun, h.sentence.failed⟩,
    sinks⟩

/-- A flush goes to the sinks. -/
theorem flush (h : e.Alike f) : consumer.SameOutcome Alike e f e.flush f.flush := by
  obtain ⟨flushed, s, t, left, right, received⟩ := h.sinks.flush
  rw [Encoder.flush, Encoder.flush, left, right]
  exact ⟨rfl, h.withSinks received.alike, received⟩

/-- What is written of the same sentence is the same, up to where the sinks let it. -/
theorem writeSentence (h : e.Alike f) :
    consumer.SameOutcome Alike e f e.writeSentence f.writeSentence := by
  have bytes : e.buffer.bytes = f.buffer.bytes := Array.toList_inj.mp h.sentence.content
  obtain ⟨begun, s, t, left, right, received⟩ := h.sinks.write #[versionTag]
  rw [Encoder.writeSentence, Encoder.writeSentence, left, right]
  cases begun with
  | false => exact ⟨rfl, h.withSinks received.alike, received⟩
  | true =>
    obtain ⟨complete, s', t', left', right', received'⟩ := received.alike.write e.buffer.bytes
    have both := received.trans received'
    have going := h.withSinks both.alike
    rw [← bytes]
    dsimp only
    rw [left', right']
    cases complete with
    | false => exact ⟨rfl, going, both⟩
    | true =>
      -- the whole sentence is with the sinks, and is passed on
      have flushed := going.flush
      exact ⟨flushed.answer, flushed.related, both.trans flushed.received⟩

/-- At the full stop the encoders write the same or refuse for the same reason. -/
theorem fullStop (h : e.Alike f) : consumer.SameOutcome Alike e f e.fullStop f.fullStop := by
  rw [Encoder.fullStop, Encoder.fullStop, ← h.sentence.failed, ← h.sentence.contexts, ← h.depth]
  split
  · exact ⟨rfl, of_reset h.sinks, h.sinks.sameReceived⟩
  · split
    · exact ⟨rfl, of_reset h.sinks, h.sinks.sameReceived⟩
    · have written := h.writeSentence
      exact ⟨written.answer, of_reset written.received.alike, written.received⟩

/-- Every call has the same outcome. -/
theorem call (h : e.Alike f) (c : Call) :
    consumer.SameOutcome Alike e f (e.call c) (f.call c) := by
  by_cases stop : c = .fullStop
  · subst stop
    exact h.fullStop
  by_cases flushes : c = .flush
  · subst flushes
    exact h.flush
  obtain ⟨answer, sentence⟩ := h.sentence.call stop flushes
  have left := e.sink_call stop flushes
  have right := f.sink_call stop flushes
  refine ⟨answer, ⟨sentence, by rw [left, right]; exact h.sinks⟩, ?_⟩
  show Sink.SameReceived e.sink f.sink (e.call c).2.sink (f.call c).2.sink
  rw [left, right]
  exact h.sinks.sameReceived

/-- Encoders that are alike cannot be told apart. -/
theorem indistinguishable (h : e.Alike f) : consumer.Indistinguishable e f :=
  Consumer.indistinguishable_of_step depth (fun c h => h.call c) h

end Alike

/-- A full stop, however it is answered, leaves an encoder that is like a new one. -/
theorem alike_new_of_fullStop (e : Encoder) {fresh : Sink}
    (h : fresh.Alike (e.call .fullStop).2.sink) : (e.call .fullStop).2.Alike (new fresh) := by
  have forgets : ∃ e', (e.call .fullStop).2 = reset e' := by
    rw [call, fullStop]
    split
    · exact ⟨_, rfl⟩
    · split <;> exact ⟨_, rfl⟩
  obtain ⟨e', eq⟩ := forgets
  rw [eq] at h ⊢
  refine ⟨⟨?_, rfl, rfl, rfl, rfl⟩, ⟨h.room.symm, h.failsFlush.symm⟩⟩
  rw [reset, new, Buffer.content_clear, Buffer.content_empty]

end Encoder

namespace Writer

/-- A writer as what takes terms; between two terms nothing is open. -/
def consumer : Consumer Writer (Arena × Handle) :=
  ⟨fun w term => w.writeTerm term.1 term.2, fun _ => 0, (·.sink)⟩

/-- Writers whose sinks behave in the same way write a term in the same way. -/
theorem sameOutcome_writeTerm {w v : Writer} (h : w.sink.Alike v.sink) (a : Arena) (x : Handle) :
    consumer.SameOutcome (fun w v => w.sink.Alike v.sink) w v (w.writeTerm a x)
      (v.writeTerm a x) := by
  rcases has : pieces (a.tree x) with cause | ps
  · obtain ⟨draft, eq⟩ := writeTerm_of_error (w := w) has
    obtain ⟨draft', eq'⟩ := writeTerm_of_error (w := v) has
    rw [eq, eq']
    exact ⟨rfl, h, h.sameReceived⟩
  · -- whatever the drafts held, what is delivered comes from the pieces
    have bytes : (ps.foldl Draft.add (w.draft.restart.put [versionTag])).buffer.bytes =
        (ps.foldl Draft.add (v.draft.restart.put [versionTag])).buffer.bytes :=
      Array.toList_inj.mp
        ((w.draft.content_foldl_restart ps).trans (v.draft.content_foldl_restart ps).symm)
    obtain ⟨complete, s, t, left, right, received⟩ :=
      h.write (ps.foldl Draft.add (v.draft.restart.put [versionTag])).buffer.bytes
    rw [writeTerm_of_pieces has, writeTerm_of_pieces has, writePieces, writePieces, deliver, deliver]
    dsimp only
    rw [bytes, left, right]
    cases complete with
    | false => exact ⟨rfl, received.alike, received⟩
    | true =>
      obtain ⟨flushed, s', t', left', right', received'⟩ := received.alike.flush
      dsimp only
      rw [left', right']
      exact ⟨rfl, received'.alike, received.trans received'⟩

/-- Writers whose sinks behave in the same way cannot be told apart. -/
theorem indistinguishable_of_alike {w v : Writer} (h : w.sink.Alike v.sink) :
    consumer.Indistinguishable w v :=
  Consumer.indistinguishable_of_step (fun _ => rfl)
    (fun term h => sameOutcome_writeTerm h term.1 term.2) h

end Writer

end Sicstus

end PrologWire
