import PrologWire.Proofs.Swi.AnySink

/-!
# Records of their own that do not reach the sink

When the sink does not take the record of a lone leaf, the call fails, but the sentence is not marked: the
encoder is where a sentence begins, and goes on as a new one would on whatever the sink has become. So the
sentence is lost only with what is refused later, before anything is sent.
-/

namespace PrologWire

/-- What a lost sentence would be seen of if it went on with these calls: they bring no byte to the sink,
and the full stop says that the sentence is discarded, leaves the sink alone and leaves nothing open. -/
def Consumer.LostWith {σ : Type} (m : Consumer σ Call) (s : σ) (calls : List Call) : Prop :=
  (m.sink (m.after s calls)).content = (m.sink s).content ∧
    ∃ s', m.take (m.after s calls) .fullStop = (.error .sentenceDiscarded, s') ∧
      m.sink s' = m.sink (m.after s calls) ∧ m.depth s' = 0

namespace Swi.Encoder

variable {e : Encoder}

/-! ## What reaches the sink stays there -/

/-- A call before the full stop takes nothing back. -/
theorem content_prefix_call (e : Encoder) {x : Call} (going : x ≠ .fullStop) :
    e.sink.content <+: (e.call x).2.sink.content := by
  have unchanged {e' : Encoder} (same : e'.sink.content = e.sink.content) :
      e.sink.content <+: e'.sink.content := ⟨[], (List.append_nil _).trans same.symm⟩
  by_cases flushes : x = .flush
  · rw [flushes]
    exact unchanged (Sink.content_flush e.sink)
  cases e.outcome_call going flushes with
  | gathered e' eq config failed sink =>
    rw [eq]
    exact unchanged (congrArg Sink.content sink)
  | direct g record eq direct config failed sink =>
    have written : (e.call x).2.sink.content =
        e.sink.content ++ (e.sink.fitting (g.put record).buffer.bytes).toList := by
      rw [eq, ← sink]
      exact Array.toList_append
    rw [written]
    exact List.prefix_append _ _
  | refused cause eq =>
    rw [eq]
    exact unchanged rfl

theorem content_prefix_after (e : Encoder) {calls : List Call} (going : Call.fullStop ∉ calls) :
    e.sink.content <+: (consumer.after e calls).sink.content := by
  refine Consumer.after_induction (m := consumer)
    (P := fun e' => e.sink.content <+: e'.sink.content) ?_ List.prefix_rfl
  intro e' x among before
  have inside : x ≠ .fullStop := fun stop => going (stop ▸ among)
  exact before.trans (e'.content_prefix_call inside)

/-! ## Which sentences are lost -/

/-- A full stop says that the sentence is discarded only of a sentence with the mark. -/
theorem failed_of_discarded (h : e.fullStop.1 = .error .sentenceDiscarded) : e.failed = true := by
  cases unfailed : e.failed with
  | true => rfl
  | false =>
    rw [fullStop, unfailed, if_neg Bool.false_ne_true] at h
    split at h
    · cases h
    · dsimp only at h
      split at h
      · cases Answer.eq_closed_of_ofSink h
      · next cause written =>
        -- the record was not written, and for this only the sink can be the reason
        obtain rfl := Except.error.inj h
        split at written
        · cases written
        · unfold writeRecord at written
          dsimp only at written
          split at written
          · cases Answer.eq_closed_of_ofSink written
          · cases Answer.eq_closed_of_ofSink written

/-- The mark comes from a call that was refused for what it says. -/
theorem Live.failed_after_iff (h : e.Live) {calls : List Call} (going : Call.fullStop ∉ calls) :
    (consumer.after e calls).failed = true ↔ ∃ before y after, calls = before ++ y :: after ∧
      ∃ cause, ((consumer.after e before).call y).1 = .error cause ∧ cause.isRefusal = true := by
  constructor
  · intro failed
    induction calls generalizing e with
    | nil => exact nomatch h.unfailed.symm.trans failed
    | cons x rest ih =>
      rw [List.mem_cons, not_or] at going
      rcases h.call_cases (fun stop => going.1 stop.symm) with ⟨live, -⟩ | ⟨cause, eq, refusal⟩
      · obtain ⟨before, y, after, rfl, refused⟩ := ih live going.2 failed
        exact ⟨x :: before, y, after, rfl, refused⟩
      · exact ⟨[], x, rest, rfl, cause, congrArg Prod.fst eq, refusal⟩
  · rintro ⟨before, y, after, rfl, cause, answer, refusal⟩
    have marked : ((consumer.after e before).call y).2.failed = true := by
      rw [call_eq_fail answer refusal]
      rfl
    rw [Consumer.after_append, Consumer.after_cons]
    exact (content_sink_after_of_failed marked fun among =>
      going (List.mem_append_right _ (List.mem_cons_of_mem _ among))).1

/-- A sentence is lost with the calls to come if and only if one of them is refused before anything is
sent. -/
theorem Live.lostWith_iff (h : e.Live) {calls : List Call} (going : Call.fullStop ∉ calls) :
    consumer.LostWith e calls ↔ ∃ before y after, calls = before ++ y :: after ∧
      (consumer.after e before).sink.content = e.sink.content ∧
      ∃ cause, ((consumer.after e before).call y).1 = .error cause ∧ cause.isRefusal = true := by
  constructor
  · rintro ⟨silent, s', discards, -⟩
    have failed := failed_of_discarded (congrArg Prod.fst discards)
    obtain ⟨before, y, after, rfl, refused⟩ := (h.failed_after_iff going).mp failed
    refine ⟨before, y, after, rfl, ?_, refused⟩
    -- what has been sent by then lies between what was there and what is there in the end
    have first := e.content_prefix_after fun among => going (List.mem_append_left (y :: after) among)
    have last := (consumer.after e before).content_prefix_after fun among =>
      going (List.mem_append_right before among)
    rw [← Consumer.after_append] at last
    have silent : (consumer.after e (before ++ y :: after)).sink.content = e.sink.content := silent
    rw [silent] at last
    exact last.eq_of_length_le first.length_le
  · rintro ⟨before, y, after, rfl, silent, cause, answer, refusal⟩
    have eq := call_eq_fail answer refusal
    have later : Call.fullStop ∉ after := fun among =>
      going (List.mem_append_right _ (List.mem_cons_of_mem _ among))
    have marked : (consumer.take (consumer.after e before) y).2.failed = true :=
      congrArg (·.2.failed) eq
    have unsent : (consumer.take (consumer.after e before) y).2.sink.content = e.sink.content :=
      (congrArg (·.2.sink.content) eq).trans silent
    obtain ⟨same, discards⟩ := lost_of_failed marked after later
    rw [Consumer.LostWith, Consumer.after_append, Consumer.after_cons]
    exact ⟨same.trans unsent, discards⟩

/-! ## Beginning anew -/

/-- A record of its own that the sink did not take leaves the encoder where a sentence begins. -/
theorem Reachable.atStart_of_io {c : Config} (h : Reachable c e) {x : Call} (going : x ≠ .fullStop)
    (quiet : x ≠ .flush) {cause : IoError} (unwritten : (e.call x).1 = .error (.io cause)) :
    (e.call x).2.AtStart := by
  have unmarked : (e.call x).2.failed = false := by
    cases e.reason_of_error going quiet unwritten with
    | refusal refusal => cases refusal
    | sink unmarked => exact unmarked
  have live : e.Live := by
    rcases h.failed_or_live with failed | live
    · exact nomatch (failed_call failed going).symm.trans unmarked
    · exact live
  refine (live.call going unmarked).atStart_of_isDirect ?_
  cases e.outcome_call going quiet with
  | gathered e' eq config failed sink =>
    rw [eq] at unwritten
    cases unwritten
  | direct g record eq direct config failed sink =>
    -- the record has passed through the buffer, and nothing is open as nothing was
    rw [isDirect, Bool.and_eq_true, Bool.and_eq_true] at direct
    have empty : g.buffer.clear.isEmpty = true :=
      (Buffer.isEmpty_iff_content _).mpr (Buffer.content_clear _)
    rw [eq, isDirect, Bool.and_eq_true, Bool.and_eq_true]
    exact ⟨⟨direct.1.1, empty⟩, direct.2⟩
  | refused cause eq =>
    rw [eq] at unmarked
    cases unmarked

/-- Whatever calls were made on whatever sinks: when a record of its own does not reach the sink, the
encoder cannot be told from a new one on what the sink is from then on. With the calls to come the sentence
is lost if and only if one of them is refused for what it says before anything is sent. In particular it is
not lost if the full stop comes next. -/
theorem indistinguishable_of_unwritten {c : Config} (h : Reachable c e) {x : Call}
    (going : x ≠ .fullStop) (quiet : x ≠ .flush) {cause : IoError}
    (unwritten : (e.call x).1 = .error (.io cause)) (later : Sink) :
    consumer.Indistinguishable ((e.call x).2.withSink later) (new c later) ∧
    (∀ calls, Call.fullStop ∉ calls → (consumer.LostWith ((e.call x).2.withSink later) calls ↔
      ∃ before y after, calls = before ++ y :: after ∧
        (consumer.after ((e.call x).2.withSink later) before).sink.content = later.content ∧
        ∃ cause, ((consumer.after ((e.call x).2.withSink later) before).call y).1 = .error cause ∧
          cause.isRefusal = true)) ∧
    ¬consumer.LostWith ((e.call x).2.withSink later) [] := by
  have start := h.atStart_of_io going quiet unwritten
  have begins : ((e.call x).2.withSink later).AtStart :=
    ⟨start.buffer, start.vars, start.contexts, start.words, start.failed⟩
  have config : (e.call x).2.config = c := (config_call e x).trans h.config_eq
  have alike : Alike ((e.call x).2.withSink later) (new c later) :=
    ⟨⟨config, begins.buffer.trans Buffer.content_empty.symm, begins.vars, begins.contexts,
      begins.words, begins.failed⟩, ⟨rfl, rfl⟩⟩
  have lost {calls : List Call} (going : Call.fullStop ∉ calls) := begins.live.lostWith_iff going
  refine ⟨alike.indistinguishable (.of_contexts_eq_nil begins.contexts), fun calls => lost, ?_⟩
  rw [lost List.not_mem_nil]
  rintro ⟨before, y, after, none, -⟩
  exact absurd none.symm (List.append_ne_nil_of_right_ne_nil _ (List.cons_ne_nil _ _))

/-- A sink that takes one byte. -/
def oneByteSink : Sink := ⟨#[], some 1, false, 0⟩

theorem call_atom_oneByteSink :
    ((new .standard oneByteSink).call (.atom "a")).1 = .error (.io .closed) := by
  cbv

/-- After an atom whose record was too long for the sink, the encoder goes on with one that takes all. -/
theorem indistinguishable_of_unwritten_atom :
    consumer.Indistinguishable (((new .standard oneByteSink).call (.atom "a")).2.withSink .unlimited)
        (new .standard .unlimited) ∧
      ¬consumer.LostWith (((new .standard oneByteSink).call (.atom "a")).2.withSink .unlimited) [] := by
  have reachable : Reachable .standard (new .standard oneByteSink) := .new oneByteSink
  have anew := indistinguishable_of_unwritten reachable (by decide) (by decide) call_atom_oneByteSink
    .unlimited
  exact ⟨anew.1, anew.2.2⟩

/-- A full stop can go well after a record of its own has not reached the sink. -/
theorem not_forall_lost_of_unwritten :
    ¬∀ (c : Config) (e : Encoder) (x : Call), Reachable c e → x ≠ .fullStop → x ≠ .flush →
      (e.call x).1 = .error (.io .closed) →
      ∀ later, consumer.Lost ((e.call x).2.withSink later) := by
  intro lost
  obtain ⟨-, s', discards, -⟩ := lost .standard (new .standard oneByteSink) (.atom "a")
    (.new oneByteSink) (by decide) (by decide) call_atom_oneByteSink oneByteSink [] List.not_mem_nil
  have answer := congrArg Prod.fst discards
  have well : (consumer.take (((new .standard oneByteSink).call (.atom "a")).2.withSink oneByteSink)
      .fullStop).1 = .ok () := rfl
  exact nomatch well.symm.trans answer

end Swi.Encoder

end PrologWire
