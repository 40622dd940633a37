import PrologWire.Proofs.Sicstus.Progress

/-!
# What reaches the sink

As long as no call of a sentence has failed the encoder is where the outline of the calls is, and once
one has failed the calls have no terms that could be written. A call and a full stop keep this, so
that a run of any calls leaves on the sink the sentences whose full stops went well, and nothing else.
-/

namespace PrologWire.Sicstus

/-- The calls have terms, and no compound in these has too many arguments. -/
def writable (calls : List Call) : Bool := (Term.ofCalls? calls).any fitsAll

namespace Encoder

/-- The encoder is at the beginning of a sentence. -/
structure AtStart (e : Encoder) : Prop where
  buffer : e.buffer.content = []
  vars : e.vars = .empty
  contexts : e.contexts = []
  inRun : e.inRun = false
  failed : e.failed = false

/-- A new encoder is at the beginning of its first sentence. -/
theorem atStart_new (sink : Sink) : (new sink).AtStart :=
  ⟨Buffer.content_empty, rfl, rfl, rfl, rfl⟩

/-- An encoder that has forgotten its sentence is at the beginning of the next one. -/
theorem atStart_reset (e : Encoder) : e.reset.AtStart :=
  ⟨Buffer.content_clear _, rfl, rfl, rfl, rfl⟩

/-- Before the first call nothing can have failed. -/
theorem AtStart.at_empty {e : Encoder} (h : e.AtStart) (accepts : e.sink.Accepting) :
    At e.sink.content e .empty where
  progress := .start h.buffer h.vars h.contexts h.inRun
  small := rfl
  unfailed := h.failed
  accepts := accepts
  content := rfl

/-- A full stop after whole terms writes these as one sentence. -/
theorem At.fullStop_ok {sent : List UInt8} {e : Encoder} {ts : List (Term String)}
    (h : At sent e ⟨ts, []⟩) :
    ∃ e', e.fullStop = (.ok (), e') ∧ e'.AtStart ∧ e'.sink.Accepting ∧
      e'.sink.content = sent ++ sentenceBytes ts := by
  have gathered := h.progress.whole.2
  have closed : e.contexts = [] := gathered.located.eq_nil
  obtain ⟨sink₁, write₁, content₁, accepts₁⟩ := h.accepts.write #[versionTag]
  obtain ⟨sink₂, write₂, content₂, accepts₂⟩ := accepts₁.write e.buffer.bytes
  obtain ⟨sink₃, flush₃, content₃, accepts₃⟩ := accepts₂.flush
  refine ⟨{ e with sink := sink₃ }.reset, ?_, atStart_reset _, accepts₃, ?_⟩
  · simp [Encoder.fullStop, h.unfailed, closed, writeSentence, write₁, write₂, Encoder.flush, flush₃,
      Answer.ofSink]
  · have bytes : e.buffer.bytes.toList = codeAll (Term.numbered ts) := gathered.content
    rw [reset, content₃, content₂, content₁, sentenceBytes, bytes, h.content]
    simp

/-- A full stop with something open is refused. -/
theorem At.fullStop_error {sent : List UInt8} {e : Encoder} {whole : List (Term String)}
    {u : Unclosed String} {outer : List (Unclosed String)} (h : At sent e ⟨whole, u :: outer⟩) :
    e.fullStop = (.error (.unbalanced e.depth), e.reset) := by
  obtain ⟨f, holds⟩ := h.progress.exists_gathered
  obtain ⟨c, cs, same, -, -⟩ := holds.located.exists_cons
  have unfailed := h.unfailed
  rw [Encoder.fullStop, if_neg (by simp [unfailed]), if_pos (by simp [same])]

/-- Whole terms are written if no arity in them is too great. -/
theorem fitsSoFar_whole (ts : List (Term String)) :
    fitsSoFar (⟨ts, []⟩ : Outline String) = fitsAll ts := by
  simp [fitsSoFar, Outline.all, fitsAll_eq_all]

/-- A full stop writes the terms of its calls as one sentence if there are such terms with arities
that fit, and is refused otherwise. -/
theorem fullStop_cases {sent : List UInt8} {e : Encoder} {calls : List Call}
    (h : Since (At sent) fitsSoFar (Refused sent) e calls) :
    (∃ ts e', Term.ofCalls? calls = some ts ∧ writable calls = true ∧
      e.fullStop = (.ok (), e') ∧ e'.AtStart ∧ e'.sink.Accepting ∧
      e'.sink.content = sent ++ sentenceBytes ts) ∨
    ∃ cause, writable calls = false ∧ e.fullStop = (.error cause, e.reset) ∧
      e.sink.Accepting ∧ e.sink.content = sent := by
  cases h with
  | going o follows here =>
    obtain ⟨whole, _ | ⟨u, outer⟩⟩ := o
    · have terms := Term.ofCalls?_eq_some.mpr follows
      obtain ⟨e', eq, after⟩ := here.fullStop_ok
      refine .inl ⟨whole, e', terms, ?_, eq, after⟩
      rw [writable, terms, Option.any_some, ← fitsSoFar_whole]
      exact here.small
    · refine .inr ⟨_, ?_, here.fullStop_error, here.accepts, here.content⟩
      rw [writable, Term.ofCalls?, follows]
      rfl
  | failed failed useless =>
    refine .inr ⟨_, ?_, if_pos failed.failed, failed.accepts, failed.content⟩
    rw [writable]
    rcases terms : Term.ofCalls? calls with _ | ts
    · rfl
    · rw [Option.any_some, ← fitsSoFar_whole]
      exact useless _ (Term.ofCalls?_eq_some.mp terms)

/-- What a run leaves on the sink, in the middle of a sentence. -/
theorem playAll_since {sent : List UInt8} {e : Encoder} {before : List Call}
    (h : Since (At sent) fitsSoFar (Refused sent) e before) (calls : List Call) :
    acceptedCalls before (playAll Encoder.call e calls).1 =
      (endedCalls before calls).filter writable ∧
    ∃ sentences : List (List (Term String)),
      (acceptedCalls before (playAll Encoder.call e calls).1).map Term.ofCalls? =
        sentences.map some ∧
      (playAll Encoder.call e calls).2.sink.content =
        sent ++ sentences.flatMap sentenceBytes := by
  induction calls generalizing sent e before with
  | nil =>
    have content : e.sink.content = sent := by
      cases h with
      | going o follows here => exact here.content
      | failed failed useless => exact failed.content
    exact ⟨rfl, [], rfl, content.trans (List.append_nil _).symm⟩
  | cons c rest ih =>
    by_cases stop : c = .fullStop
    · subst stop
      have same : e.call .fullStop = e.fullStop := rfl
      rw [playAll_cons, endedCalls, same]
      obtain ⟨ts, e', terms, ok, eq, start, accepts, content⟩ | ⟨cause, bad, eq, accepts, content⟩ :=
        fullStop_cases h
      · have begun : Since (At e'.sink.content) fitsSoFar (Refused e'.sink.content) e' [] :=
          .going .empty rfl (start.at_empty accepts)
        obtain ⟨accepted, sentences, have_terms, all⟩ := ih begun
        rw [eq, acceptedCalls, List.filter_cons_of_pos ok, ← accepted]
        refine ⟨rfl, ts :: sentences, ?_, ?_⟩
        · rw [List.map_cons, List.map_cons, terms, have_terms]
        · rw [all, content, List.flatMap_cons, List.append_assoc]
      · -- the refused sentence is forgotten, and the next one begins with the sink as it was
        have begun : Since (At e.sink.content) fitsSoFar (Refused e.sink.content) e.reset [] :=
          .going .empty rfl ((atStart_reset e).at_empty accepts)
        rw [eq, acceptedCalls, List.filter_cons_of_neg (Bool.eq_false_iff.mp bad), ← content]
        exact ih begun
    · -- no sentence ends here, so that what is on the sink stays what was sent before
      rw [playAll_cons, acceptedCalls_cons stop, endedCalls_cons stop]
      exact ih (h.step (keepsUp sent) stop)

/-- A run of any calls from a new encoder, with any of them failing, leaves on the sink the sentences
of the calls between full stops that went well, in order, and nothing else. A full stop goes well if
the calls since the last one have terms and no arity in these is too great. -/
theorem content_playAll_new {sink : Sink} (accepts : sink.Accepting) (calls : List Call) :
    acceptedCalls [] (playAll Encoder.call (new sink) calls).1 =
      (endedCalls [] calls).filter writable ∧
    ∃ sentences : List (List (Term String)),
      (acceptedCalls [] (playAll Encoder.call (new sink) calls).1).map Term.ofCalls? =
        sentences.map some ∧
      (playAll Encoder.call (new sink) calls).2.sink.content =
        sink.content ++ sentences.flatMap sentenceBytes :=
  playAll_since (.going .empty rfl ((atStart_new sink).at_empty accepts)) calls

/-- A sentence with a bracket too much, then one of two terms. -/
def mixedCalls : List Call :=
  [.openList, .closeTerm, .closeList, .fullStop,
    .openList, .int 1, .int 2, .closeList, .var "X", .fullStop]

theorem content_playAll_new_mixedCalls :
    Sink.unlimited.Accepting ∧
    acceptedCalls [] (playAll Encoder.call (new .unlimited) mixedCalls).1 =
      (endedCalls [] mixedCalls).filter writable ∧
    ∃ sentences : List (List (Term String)),
      (acceptedCalls [] (playAll Encoder.call (new .unlimited) mixedCalls).1).map Term.ofCalls? =
        sentences.map some ∧
      (playAll Encoder.call (new .unlimited) mixedCalls).2.sink.content =
        Sink.unlimited.content ++ sentences.flatMap sentenceBytes :=
  ⟨Sink.accepting_unlimited, content_playAll_new Sink.accepting_unlimited mixedCalls⟩

end Encoder

end PrologWire.Sicstus
