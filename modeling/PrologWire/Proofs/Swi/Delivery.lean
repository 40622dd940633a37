import PrologWire.Proofs.Dialects.Refusal
import PrologWire.Proofs.Sentence.Completion

/-!
# What the calls of a sentence leave on the sink

Lone terms at the beginning of a sentence are records of their own, and these are on the sink before it
is known how the sentence ends. What a run of any calls has sent is told by the outline that it got to
before the first refused call: at a good full stop the bytes of all terms, and at any other the records
of the lone terms that came first.
-/

namespace PrologWire

namespace Swi

/-- Nothing is on the sink before the full stop if there is no lone term at the beginning. -/
theorem loneRecords_eq_nil {ν : Type} (c : Config) {ts : List (Term ν)} :
    loneRecords c ts = [] ↔ ∀ t ∈ ts.head?, directRecord? c t = none := by
  cases ts with
  | nil => simp [loneRecords]
  | cons t rest =>
    rw [loneRecords]
    rcases lone : directRecord? c t with _ | record
    · simp [lone]
    · obtain ⟨name, -, rfl⟩ | ⟨value, -, rfl⟩ | ⟨-, rfl⟩ := directRecord?_eq_some c lone <;> simp [lone]

namespace Encoder

/-- No call takes from a sink that it takes everything. -/
theorem accepting_call {e : Encoder} (h : e.sink.Accepting) (x : Call) :
    (e.call x).2.sink.Accepting := by
  by_cases stop : x = .fullStop
  · have written : e.writeRecord.2.sink.Accepting := by
      have begun := h.after_write e.recordStart.toArray
      unfold writeRecord
      dsimp only
      split
      · exact begun.after_write e.buffer.bytes
      · exact begun
    rw [stop, call, fullStop]
    split
    · exact h
    · split
      · exact h
      · cases e.buffer.isEmpty with
        | true => exact h.after_flush
        | false =>
          dsimp only
          split
          · exact written.after_flush
          · exact written
  by_cases flushes : x = .flush
  · rw [flushes]
    exact h.after_flush
  cases e.outcome_call stop flushes with
  | gathered e' eq config failed sink =>
    rw [eq, sink]
    exact h
  | direct g record eq direct config failed sink =>
    have same : (g.put record).sink = e.sink := sink
    rw [eq, writeDirect]
    show ((g.put record).sink.write _).2.Accepting
    rw [same]
    exact h.after_write _
  | refused cause eq =>
    rw [eq]
    exact h

theorem accepting_after {e : Encoder} (h : e.sink.Accepting) (calls : List Call) :
    (consumer.after e calls).sink.Accepting :=
  Consumer.after_induction (m := consumer) (P := (·.sink.Accepting))
    (fun _ x _ here => accepting_call here x) h

/-- Where a sentence begins the encoder is at the beginning of a sentence. -/
theorem atStart_after {history : List Call} (begins : SentenceBegins history) (c : Config)
    (sink : Sink) : (consumer.after (new c sink) history).AtStart := by
  obtain rfl | ⟨earlier, rfl⟩ := begins
  · exact atStart_new c sink
  · rw [Consumer.after_concat]
    exact atStart_fullStop _

/-! ## From call to call -/

variable {c : Config} {sent : List UInt8} {e : Encoder} {o : Outline String}

/-- The sink has the records of the lone terms that came first. -/
theorem Progress.content_sink (h : Progress c sent e o) :
    e.sink.content = sent ++ loneRecords c o.whole := by
  obtain ⟨f, holds⟩ := h.exists_gathered
  rw [holds.delivered, Outline.map, loneRecords_map]

/-- A full stop with something open is refused. -/
theorem Progress.fullStop_unbalanced {whole : List (Term String)} {u : Unclosed String}
    {outer : List (Unclosed String)} (h : Progress c sent e ⟨whole, u :: outer⟩) :
    e.fullStop = (.error (.unbalanced e.depth), e.reset) := by
  obtain ⟨f, holds⟩ := h.exists_gathered
  obtain ⟨y, ys, same, -, -⟩ := holds.located.exists_cons
  rw [fullStop, if_neg (Bool.eq_false_iff.mp holds.unfailed), if_pos (by simp [same])]

/-- What has failed brings nothing more to the sink before the full stop. -/
theorem content_sink_after_of_failed (failed : e.failed = true) {calls : List Call}
    (going : Call.fullStop ∉ calls) :
    (consumer.after e calls).failed = true ∧
      (consumer.after e calls).sink.content = e.sink.content := by
  refine ⟨?_, (lost_of_failed failed calls going).1⟩
  refine Consumer.after_induction (m := consumer) (P := (·.failed = true)) ?_ failed
  intro e' x among marked
  exact failed_call marked fun stop => going (stop ▸ among)

/-- After some calls the encoder is where their furthest outline is, or it has failed. What it has sent
is told by this outline in any case. -/
theorem Progress.after_cases (h : Progress c sent e o) (taken : takesSoFar c o = true)
    {calls : List Call} (going : Call.fullStop ∉ calls) :
    (o.follow calls = some (o.furthest (takesSoFar c) calls) ∧
      Progress c sent (consumer.after e calls) (o.furthest (takesSoFar c) calls) ∧
      takesSoFar c (o.furthest (takesSoFar c) calls) = true) ∨
    ((consumer.after e calls).failed = true ∧
      (consumer.after e calls).sink.content =
        sent ++ loneRecords c (o.furthest (takesSoFar c) calls).whole) := by
  induction calls generalizing e o with
  | nil => exact .inl ⟨rfl, h, taken⟩
  | cons x rest ih =>
    rw [List.mem_cons, not_or] at going
    have inside : x ≠ .fullStop := fun stop => going.1 stop.symm
    rw [Consumer.after_cons]
    obtain ⟨after, steps, taken'⟩ | stuck := o.step_cases (takesSoFar c) x
    · obtain ⟨e', eq, there⟩ := h.call_ok steps taken'
      have next : (consumer.take e x).2 = e' := congrArg Prod.snd eq
      rw [Outline.furthest_cons steps taken', Outline.follow, steps, next]
      exact ih there taken' going.2
    · -- the call is refused, and the others cannot add to what is on the sink
      obtain ⟨cause, eq⟩ := h.call_error taken inside stuck
      have next : (consumer.take e x).2 = (e.fail cause).2 := congrArg Prod.snd eq
      have lost : (e.fail cause).2.failed = true := rfl
      obtain ⟨failed, content⟩ := content_sink_after_of_failed lost going.2
      rw [Outline.furthest_cons_of_stuck stuck, next]
      exact .inr ⟨failed, content.trans h.content_sink⟩

/-- A full stop either ends a sentence of whole terms well and completes their bytes, or finds that a
call was refused or that something is open, and leaves the sink alone. -/
theorem AtStart.fullStop_cases (h : e.AtStart) (accepts : e.sink.Accepting) {calls : List Call}
    (going : Call.fullStop ∉ calls) :
    (∃ ts e', Term.ofCalls? calls = some ts ∧ ts.all (takes e.config) = true ∧
      (consumer.after e calls).call .fullStop = (.ok (), e') ∧
      e'.sink.content = e.sink.content ++ sentenceBytes e.config ts) ∨
    ∃ cause e', (cause = .sentenceDiscarded ∨ ∃ n, cause = .unbalanced n) ∧
      (consumer.after e calls).call .fullStop = (.error cause, e') ∧
      e'.sink.content = e.sink.content ++
        loneRecords e.config (Outline.empty.furthest (takesSoFar e.config) calls).whole := by
  obtain ⟨follows, progress, taken⟩ | ⟨failed, content⟩ :=
    (h.progress accepts).after_cases rfl going
  · rcases furthest : Outline.empty.furthest (takesSoFar e.config) calls with
      ⟨ts, _ | ⟨u, outer⟩⟩
    · rw [furthest] at follows progress taken
      obtain ⟨e', eq, -, -, -, content⟩ := progress.fullStop_whole
      have whole : ts.all (takes e.config) = true := by
        rwa [takesSoFar, Outline.all, List.all_nil, Bool.and_true] at taken
      exact .inl ⟨ts, e', Term.ofCalls?_eq_some.mpr follows, whole, eq, content⟩
    · rw [furthest] at progress
      exact .inr ⟨_, _, .inr ⟨_, rfl⟩, progress.fullStop_unbalanced, progress.content_sink⟩
  · exact .inr ⟨_, _, .inl rfl, if_pos failed, content⟩

/-- A full stop goes well only after whole terms, and then their bytes are complete. -/
theorem AtStart.terms_of_fullStop_ok (h : e.AtStart) (accepts : e.sink.Accepting) {calls : List Call}
    (going : Call.fullStop ∉ calls)
    (stopped : ((consumer.after e calls).call .fullStop).1 = .ok ()) :
    ∃ ts, Term.ofCalls? calls = some ts ∧ ts.all (takes e.config) = true ∧
      ((consumer.after e calls).call .fullStop).2.sink.content =
        e.sink.content ++ sentenceBytes e.config ts := by
  obtain ⟨ts, e', terms, taken, eq, content⟩ | ⟨cause, e', -, eq, -⟩ := h.fullStop_cases accepts going
  · rw [eq]
    exact ⟨ts, terms, taken, content⟩
  · rw [eq] at stopped
    cases stopped

/-! ## Sentences that are discarded -/

/-- After any calls on a sink that takes everything, a full stop that does not go well tells that the
sentence is discarded or that something is open. The sink then has what was there when the sentence
began and the records of the lone terms that were whole before the first refused call, if there is one,
and before any other term. So it is as it was exactly if the first term that was whole before the first
refused call is not one of these: a lone atom, compound without arguments, integer or empty list. -/
theorem content_after_discard {c : Config} {sink : Sink} (accepts : sink.Accepting)
    {history calls : List Call} (begins : SentenceBegins history) (going : Call.fullStop ∉ calls)
    {cause : WireError}
    (discards : ((consumer.after (new c sink) (history ++ calls)).call .fullStop).1 = .error cause) :
    (cause = .sentenceDiscarded ∨ ∃ n, cause = .unbalanced n) ∧
    (consumer.after (new c sink) (history ++ calls ++ [.fullStop])).sink.content =
      (consumer.after (new c sink) history).sink.content ++
        loneRecords c (Outline.empty.furthest (takesSoFar c) calls).whole ∧
    ((consumer.after (new c sink) (history ++ calls ++ [.fullStop])).sink.content =
        (consumer.after (new c sink) history).sink.content ↔
      ∀ t ∈ (Outline.empty.furthest (takesSoFar c) calls).whole.head?, directRecord? c t = none) := by
  have start := atStart_after begins c sink
  have config : (consumer.after (new c sink) history).config = c := config_after _ history
  rw [Consumer.after_concat, Consumer.after_append]
  rw [Consumer.after_append] at discards
  have cases := start.fullStop_cases (accepting_after accepts history) going
  rw [config] at cases
  obtain ⟨ts, e', -, -, eq, -⟩ | ⟨cause', e', known, eq, content⟩ := cases
  · rw [eq] at discards
    cases discards
  · have next : consumer.take (consumer.after (consumer.after (new c sink) history) calls) .fullStop =
        (.error cause', e') := eq
    rw [eq] at discards
    obtain rfl := Except.error.inj discards
    rw [next]
    refine ⟨known, content, ?_⟩
    rw [content, List.append_right_eq_self, loneRecords_eq_nil]

/-- An integer as a sentence. -/
def sevenCalls : List Call := [.int 7, .fullStop]

/-- An atom, and a bracket too much. -/
def strayCloseCalls : List Call := [.atom "a", .closeList]

theorem content_after_discard_strayClose :
    (consumer.after (new .standard .unlimited) (sevenCalls ++ strayCloseCalls ++ [.fullStop])).sink.content =
      (consumer.after (new .standard .unlimited) sevenCalls).sink.content ++ [0x7a, 0x0b, 0x01, 0x61] := by
  have begins : SentenceBegins sevenCalls := .inr ⟨[.int 7], rfl⟩
  have going : Call.fullStop ∉ strayCloseCalls := by decide
  have discards : ((consumer.after (new .standard .unlimited) (sevenCalls ++ strayCloseCalls)).call
      .fullStop).1 = .error .sentenceDiscarded := rfl
  -- the atom was whole when the bracket was refused
  have lone : loneRecords .standard (Outline.empty.furthest (takesSoFar .standard) strayCloseCalls).whole =
      [0x7a, 0x0b, 0x01, 0x61] := by decide +kernel
  rw [← lone]
  exact (content_after_discard Sink.accepting_unlimited begins going discards).2.1

/-- A discarded sentence can have brought bytes to the sink. -/
theorem not_forall_content_eq_of_discard :
    ¬∀ (c : Config) (sink : Sink) (calls : List Call), sink.Accepting → Call.fullStop ∉ calls →
      ((consumer.after (new c sink) calls).call .fullStop).1 = .error .sentenceDiscarded →
      (consumer.after (new c sink) (calls ++ [.fullStop])).sink.content = sink.content := by
  intro clean
  have empty := clean .standard .unlimited strayCloseCalls Sink.accepting_unlimited (by decide) rfl
  exact absurd empty (by decide +kernel)

end Encoder

end Swi

end PrologWire
