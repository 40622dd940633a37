import PrologWire.Proofs.Sicstus.Alike
import PrologWire.Proofs.Swi.Alike

/-!
# Refused calls

A call that is refused for what it says changes nothing but the mark of failure, and with this mark the
sentence is lost: whatever is called before its full stop, nothing more comes to the sink, not even
through the terms that are records of their own, and the full stop discards the sentence.
-/

namespace PrologWire

/-- The call was refused for what it says. -/
def WireError.isRefusal : WireError → Bool
  | .mismatchedClose _ | .arityOverflow _ _ | .integerOutOfRange _ _ | .wideAtomsDisabled _
  | .unsupported _ => true
  | _ => false

/-- A sink that does not take everything is no such reason. -/
theorem Answer.not_isRefusal_of_ofSink {possible : Bool} {cause : WireError}
    (h : Answer.ofSink possible = .error cause) : cause.isRefusal = false := by
  cases possible with
  | true => cases h
  | false =>
    obtain rfl := Except.error.inj h
    rfl

/-- The sentence is lost: whatever is called before its full stop, the sink receives no byte, and the
full stop says that the sentence is discarded, leaves the sink alone and leaves nothing open. -/
def Consumer.Lost {σ : Type} (m : Consumer σ Call) (s : σ) : Prop :=
  ∀ calls, Call.fullStop ∉ calls →
    (m.sink (m.after s calls)).content = (m.sink s).content ∧
    ∃ s', m.take (m.after s calls) .fullStop = (.error .sentenceDiscarded, s') ∧
      m.sink s' = m.sink (m.after s calls) ∧ m.depth s' = 0

/-- A sentence with a mark is lost if the mark stays until the full stop, keeps calls from the sink,
and is what the full stop discards the sentence for. -/
theorem Consumer.lost_of_mark {σ : Type} {m : Consumer σ Call} (marked : σ → Prop)
    (stays : ∀ {s c}, marked s → c ≠ .fullStop → marked (m.take s c).2)
    (quiet : ∀ {s c}, marked s → c ≠ .fullStop →
      (m.sink (m.take s c).2).content = (m.sink s).content)
    (discards : ∀ {s}, marked s → ∃ s', m.take s .fullStop = (.error .sentenceDiscarded, s') ∧
      m.sink s' = m.sink s ∧ m.depth s' = 0)
    {s : σ} (h : marked s) : m.Lost s := by
  intro calls going
  have kept : marked (m.after s calls) ∧
      (m.sink (m.after s calls)).content = (m.sink s).content := by
    refine after_induction (P := fun s' => marked s' ∧ (m.sink s').content = (m.sink s).content)
      ?_ ⟨h, rfl⟩
    intro s' c among here
    have inside : c ≠ .fullStop := fun stop => going (stop ▸ among)
    exact ⟨stays here.1 inside, (quiet here.1 inside).trans here.2⟩
  exact ⟨kept.2, discards kept.1⟩

/-! ## SICStus -/

namespace Sicstus.Encoder

/-- Of the flush only the sink can be the reason that it fails. -/
theorem content_sink_call (e : Encoder) {c : Call} (going : c ≠ .fullStop) :
    (e.call c).2.sink.content = e.sink.content := by
  by_cases flushes : c = .flush
  · rw [flushes]
    exact Sink.content_flush e.sink
  · rw [e.sink_call going flushes]

/-- A failure lasts until the full stop. -/
theorem failed_call {e : Encoder} {c : Call} (failed : e.failed = true) (going : c ≠ .fullStop) :
    (e.call c).2.failed = true := by
  by_cases flushes : c = .flush
  · rw [flushes]
    exact failed
  · obtain ⟨e', eq, same, -⟩ | ⟨cause, eq⟩ := e.call_within going flushes
    · rw [eq]
      exact same.trans failed
    · rw [eq]
      rfl

/-- With the mark of failure the sentence is lost. -/
theorem lost_of_failed {e : Encoder} (failed : e.failed = true) : consumer.Lost e := by
  refine Consumer.lost_of_mark (m := consumer) (·.failed = true) failed_call
    (fun {e} {c} _ => e.content_sink_call) ?_ failed
  intro e failed
  exact ⟨e.reset, if_pos failed, rfl, rfl⟩

/-- A full stop does not refuse anything for what it says. -/
theorem not_isRefusal_of_fullStop {e : Encoder} {cause : WireError}
    (h : e.fullStop.1 = .error cause) : cause.isRefusal = false := by
  have written (h : e.writeSentence.1 = .error cause) : cause.isRefusal = false := by
    unfold writeSentence at h
    dsimp only at h
    split at h
    · split at h
      · exact Answer.not_isRefusal_of_ofSink h
      · exact Answer.not_isRefusal_of_ofSink h
    · exact Answer.not_isRefusal_of_ofSink h
  unfold fullStop at h
  split at h
  · obtain rfl := Except.error.inj h
    rfl
  · split at h
    · obtain rfl := Except.error.inj h
      rfl
    · exact written h

/-- The full stop and the flush do not refuse a call for what it says, and any other call that fails is
refused. -/
theorem call_eq_fail {e : Encoder} {c : Call} {cause : WireError}
    (answer : (e.call c).1 = .error cause) (refusal : cause.isRefusal = true) :
    e.call c = e.fail cause := by
  have other {b : Bool} (is : cause.isRefusal = b) : b = true := is ▸ refusal
  by_cases stop : c = .fullStop
  · rw [stop] at answer
    cases other (not_isRefusal_of_fullStop answer)
  by_cases flushes : c = .flush
  · rw [flushes] at answer
    cases other (Answer.not_isRefusal_of_ofSink answer)
  obtain ⟨e', eq, -⟩ | ⟨cause', eq⟩ := e.call_within stop flushes
  · rw [eq] at answer
    cases answer
  · rw [eq] at answer ⊢
    obtain rfl := Except.error.inj answer
    rfl

end Sicstus.Encoder

/-! ## SWI-Prolog -/

namespace Swi.Encoder

/-- After a failure nothing is a record of its own, so that no call brings a byte to the sink before
the full stop. -/
theorem content_sink_call_of_failed {e : Encoder} {c : Call} (failed : e.failed = true)
    (going : c ≠ .fullStop) : (e.call c).2.sink.content = e.sink.content := by
  by_cases flushes : c = .flush
  · rw [flushes]
    exact Sink.content_flush e.sink
  cases e.outcome_call going flushes with
  | gathered e' eq config same sink => rw [eq, sink]
  | direct g record eq direct config same sink =>
    rw [isDirect, same, failed, Bool.not_true, Bool.and_false] at direct
    cases direct
  | refused cause eq => rw [eq, fail]

/-- With the mark of failure the sentence is lost. -/
theorem lost_of_failed {e : Encoder} (failed : e.failed = true) : consumer.Lost e := by
  refine Consumer.lost_of_mark (m := consumer) (·.failed = true) failed_call
    content_sink_call_of_failed ?_ failed
  intro e failed
  exact ⟨e.reset, if_pos failed, rfl, rfl⟩

/-- A full stop does not refuse anything for what it says. -/
theorem not_isRefusal_of_fullStop {e : Encoder} {cause : WireError}
    (h : e.fullStop.1 = .error cause) : cause.isRefusal = false := by
  have written (h : e.writeRecord.1 = .error cause) : cause.isRefusal = false := by
    unfold writeRecord at h
    dsimp only at h
    split at h
    · exact Answer.not_isRefusal_of_ofSink h
    · exact Answer.not_isRefusal_of_ofSink h
  unfold fullStop at h
  split at h
  · obtain rfl := Except.error.inj h
    rfl
  · split at h
    · obtain rfl := Except.error.inj h
      rfl
    · dsimp only at h
      split at h
      · exact Answer.not_isRefusal_of_ofSink h
      · next cause' unwritten =>
        obtain rfl := Except.error.inj h
        split at unwritten
        · cases unwritten
        · exact written unwritten

/-- The full stop and the flush do not refuse a call for what it says, and neither does a record of its
own; any other call that fails is refused. -/
theorem call_eq_fail {e : Encoder} {c : Call} {cause : WireError}
    (answer : (e.call c).1 = .error cause) (refusal : cause.isRefusal = true) :
    e.call c = e.fail cause := by
  have other {b : Bool} (is : cause.isRefusal = b) : b = true := is ▸ refusal
  by_cases stop : c = .fullStop
  · rw [stop] at answer
    cases other (not_isRefusal_of_fullStop answer)
  by_cases flushes : c = .flush
  · rw [flushes] at answer
    cases other (Answer.not_isRefusal_of_ofSink answer)
  cases e.outcome_call stop flushes with
  | gathered e' eq config failed sink =>
    rw [eq] at answer
    cases answer
  | direct g record eq direct config failed sink =>
    rw [eq] at answer
    cases other (Answer.not_isRefusal_of_ofSink answer)
  | refused cause' eq =>
    rw [eq] at answer ⊢
    obtain rfl := Except.error.inj answer
    rfl

end Swi.Encoder

/-! ## Both -/

/-- A call that is refused for what it says, in whatever state and on whatever sink, leaves everything
as it was but for the mark of failure, and with it the sentence is lost. -/
theorem refused_call_loses_sentence :
    (∀ (e : Sicstus.Encoder) (c : Call) (cause : WireError),
      (e.call c).1 = .error cause → cause.isRefusal = true →
      (e.call c).2 = { e with failed := true } ∧ Sicstus.Encoder.consumer.Lost (e.call c).2) ∧
    (∀ (e : Swi.Encoder) (c : Call) (cause : WireError),
      (e.call c).1 = .error cause → cause.isRefusal = true →
      (e.call c).2 = { e with failed := true } ∧ Swi.Encoder.consumer.Lost (e.call c).2) := by
  constructor
  · intro e c cause answer refusal
    rw [Sicstus.Encoder.call_eq_fail answer refusal]
    exact ⟨rfl, Sicstus.Encoder.lost_of_failed rfl⟩
  · intro e c cause answer refusal
    rw [Swi.Encoder.call_eq_fail answer refusal]
    exact ⟨rfl, Swi.Encoder.lost_of_failed rfl⟩

/-- An encoder for Windows, in the middle of a compound, whose receiver has no wide names. -/
def narrowEncoder : Swi.Encoder :=
  Swi.Encoder.consumer.after (.new ⟨.four, .big, .windows, false⟩ .unlimited) [.openTerm "f", .var "X"]

theorem refused_call_loses_sentence_atom :
    (((Sicstus.Encoder.new .unlimited).call .closeList).2 =
        { Sicstus.Encoder.new .unlimited with failed := true } ∧
      Sicstus.Encoder.consumer.Lost ((Sicstus.Encoder.new .unlimited).call .closeList).2) ∧
    (narrowEncoder.call (.atom "λ")).2 = { narrowEncoder with failed := true } ∧
      Swi.Encoder.consumer.Lost (narrowEncoder.call (.atom "λ")).2 :=
  ⟨refused_call_loses_sentence.1 (.new .unlimited) .closeList (.mismatchedClose .list) rfl rfl,
    refused_call_loses_sentence.2 narrowEncoder (.atom "λ") (.wideAtomsDisabled "λ") rfl rfl⟩

end PrologWire
