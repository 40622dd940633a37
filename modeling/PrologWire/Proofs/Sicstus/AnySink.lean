import PrologWire.Proofs.Dialects.Refusal
import PrologWire.Proofs.Sentence.Completion
import PrologWire.Proofs.Sicstus.Delivery

/-!
# Encoders on any sink, and compounds that cannot be closed

Before the full stop an encoder does the same on every sink. `LiveAt` says that it has refused no call of its
sentence and is where an outline is; from there a sentence can be ended well, unless an open compound
has more arguments than the arity byte can count. Such a compound stays open, or is refused at its
close.
-/

namespace PrologWire.Sicstus

/-! ## Too many arguments in an outline -/

section

variable {ν μ : Type}

/-- A compound that is open has more arguments than the arity byte can count; the flag tells whether
one of the innermost has been begun. -/
def crowded (begun : Bool) : List (Unclosed ν) → Bool
  | [] => false
  | .compound _ parts :: outer =>
    decide (maxArity < parts.length + begun.toNat) || crowded true outer
  | .list _ :: outer => crowded true outer

/-- An argument more does not help. -/
theorem crowded_true_of_crowded {us : List (Unclosed ν)} (h : crowded false us = true) :
    crowded true us = true := by
  rcases us with _ | ⟨⟨functor, parts⟩ | parts, outer⟩
  · exact h
  · rw [crowded, Bool.or_eq_true, decide_eq_true_eq] at h ⊢
    refine h.imp_left fun many => ?_
    exact Nat.lt_of_lt_of_le many (Nat.add_le_add_left (Nat.zero_le _) _)
  · exact h

/-- A term that is done counts as one that was begun. -/
@[simp] theorem crowded_add (o : Outline ν) (t : Term ν) :
    crowded false (o.add t).unclosed = crowded true o.unclosed := by
  obtain ⟨whole, _ | ⟨⟨functor, parts⟩ | parts, outer⟩⟩ := o
  · rfl
  · simp [Outline.add, Unclosed.add, crowded]
  · rfl

@[simp] theorem crowded_map (f : ν → μ) (begun : Bool) (us : List (Unclosed ν)) :
    crowded begun (us.map (Unclosed.map f)) = crowded begun us := by
  induction us generalizing begun with
  | nil => rfl
  | cons u outer ih =>
    cases u with
    | compound functor parts =>
      rw [List.map_cons, Unclosed.map, crowded, crowded, ih, List.length_map]
    | list parts => exact ih true

/-- What is crowded stays so as long as no compound with too many arguments is closed. -/
theorem crowded_of_step {o o' : Outline String} {c : Call} (steps : o.step c = some o')
    (small : fitsSoFar o' = true) (h : crowded false o.unclosed = true) :
    crowded false o'.unclosed = true := by
  cases c with
  | closeTerm =>
    obtain ⟨whole, functor, parts, outer, rfl, rfl⟩ := Outline.closeTerm?_eq_some steps
    rw [crowded_add]
    rw [fitsSoFar, Outline.all_add, fits, Bool.and_eq_true, Bool.and_eq_true,
      decide_eq_true_eq] at small
    rw [crowded, Bool.or_eq_true, decide_eq_true_eq] at h
    rcases h with many | around
    · exact absurd small.2.1 (Nat.not_le.mpr many)
    · exact around
  | closeList =>
    obtain ⟨whole, parts, outer, rfl, rfl⟩ := Outline.closeList?_eq_some steps
    rw [crowded_add]
    exact h
  | openTerm functor =>
    obtain rfl := Option.some.inj steps
    exact crowded_true_of_crowded h
  | openList =>
    obtain rfl := Option.some.inj steps
    exact crowded_true_of_crowded h
  | fullStop => cases steps
  | flush =>
    obtain rfl := Option.some.inj steps
    exact h
  | _ =>
    obtain rfl := Option.some.inj steps
    rw [crowded_add]
    exact crowded_true_of_crowded h

end

/-- The contexts of a crowded outline have an arity that is too great. -/
theorem crowded_iff_of_located {begun : Bool} {whole : List (Term Nat)} {cs : List Context}
    {us : List (Unclosed Nat)} (h : layout.Located begun whole cs us) :
    crowded begun us = true ↔
      ∃ functor position arity, Context.compound functor position arity ∈ cs ∧ maxArity < arity := by
  induction us generalizing begun cs with
  | nil =>
    rw [h.eq_nil]
    simp [crowded]
  | cons u outer ih =>
    obtain ⟨c, cs, rfl, fits, outside⟩ := h.exists_cons
    cases u with
    | compound functor parts =>
      obtain ⟨position, rfl, -⟩ := fits.of_compound
      rw [crowded, Bool.or_eq_true, decide_eq_true_eq, ih outside]
      constructor
      · rintro (many | ⟨functor', position', arity, among, many⟩)
        · exact ⟨functor, position, _, List.mem_cons_self, many⟩
        · exact ⟨functor', position', arity, List.mem_cons_of_mem _ among, many⟩
      · rintro ⟨functor', position', arity, among, many⟩
        rcases List.mem_cons.mp among with same | among
        · obtain ⟨rfl, rfl, rfl⟩ := Context.compound.inj same
          exact .inl many
        · exact .inr ⟨functor', position', arity, among, many⟩
    | list parts =>
      obtain rfl := fits.of_list
      rw [crowded, ih outside]
      simp

namespace Encoder

/-- A compound that is open has more arguments than the arity byte can count. -/
def Overfull (e : Encoder) : Prop :=
  ∃ functor position arity, Context.compound functor position arity ∈ e.contexts ∧ maxArity < arity

/-! ## Sinks that take everything -/

/-- After a full stop, however it goes, an encoder is at the beginning of a sentence. -/
theorem atStart_fullStop (e : Encoder) : e.fullStop.2.AtStart := by
  unfold fullStop
  split
  · exact atStart_reset e
  · split
    · exact atStart_reset e
    · exact atStart_reset _

/-- Where a sentence begins the encoder is at the beginning of a sentence. -/
theorem atStart_after {history : List Call} (begins : SentenceBegins history) (sink : Sink) :
    (consumer.after (new sink) history).AtStart := by
  obtain rfl | ⟨earlier, rfl⟩ := begins
  · exact atStart_new sink
  · rw [Consumer.after_concat]
    exact atStart_fullStop _

/-- No call takes from a sink that it takes everything. -/
theorem accepting_call {e : Encoder} (h : e.sink.Accepting) (c : Call) :
    (e.call c).2.sink.Accepting := by
  by_cases stop : c = .fullStop
  · have written : e.writeSentence.2.sink.Accepting := by
      have begun := h.after_write #[versionTag]
      have whole := begun.after_write e.buffer.bytes
      unfold writeSentence
      dsimp only
      split
      · split
        · exact whole.after_flush
        · exact whole
      · exact begun
    rw [stop, call, fullStop]
    split
    · exact h
    · split
      · exact h
      · exact written
  by_cases flushes : c = .flush
  · rw [flushes]
    exact h.after_flush
  · rw [e.sink_call stop flushes]
    exact h

theorem accepting_after {e : Encoder} (h : e.sink.Accepting) (calls : List Call) :
    (consumer.after e calls).sink.Accepting :=
  Consumer.after_induction (m := consumer) (P := (·.sink.Accepting))
    (fun _ c _ here => accepting_call here c) h

/-- A full stop goes well only after whole terms, and then it writes these. -/
theorem AtStart.terms_of_fullStop_ok {e : Encoder} (h : e.AtStart) (accepts : e.sink.Accepting)
    {calls : List Call} (going : Call.fullStop ∉ calls)
    (stopped : ((consumer.after e calls).call .fullStop).1 = .ok ()) :
    ∃ ts, Term.ofCalls? calls = some ts ∧ fitsAll ts = true ∧
      ((consumer.after e calls).call .fullStop).2.sink.content =
        e.sink.content ++ sentenceBytes ts := by
  have begun : Since (At e.sink.content) fitsSoFar (Refused e.sink.content) e [] :=
    .going .empty rfl (h.at_empty accepts)
  have since := begun.after (m := consumer) (keepsUp e.sink.content) going
  have same : (consumer.after e calls).call .fullStop = (consumer.after e calls).fullStop := rfl
  rw [same] at stopped ⊢
  obtain ⟨ts, e', terms, whole, eq, -, -, content⟩ | ⟨cause, -, eq, -⟩ := fullStop_cases since
  · rw [List.nil_append] at terms whole
    rw [writable, terms, Option.any_some] at whole
    rw [eq]
    exact ⟨ts, terms, whole, content⟩
  · rw [eq] at stopped
    cases stopped

/-! ## Live encoders -/

/-- No call of the sentence has been refused, and the encoder is where an outline is. -/
structure LiveAt (e : Encoder) (o : Outline String) : Prop where
  unfailed : e.failed = false
  progress : e.Progress o
  small : fitsSoFar o = true

variable {e : Encoder} {o : Outline String} {c : Call} {cause : WireError}

/-- At the beginning of a sentence nothing can have been refused. -/
theorem AtStart.liveAt (h : e.AtStart) : e.LiveAt .empty :=
  ⟨h.failed, .start h.buffer h.vars h.contexts h.inRun, rfl⟩

namespace LiveAt

/-- Of the sink nothing is asked. -/
theorem withSink (h : e.LiveAt o) (sink : Sink) : LiveAt { e with sink := sink } o where
  unfailed := h.unfailed
  progress := h.progress.of_holds rfl rfl fun _ holds => ⟨holds.1, holds.2, holds.3⟩
  small := h.small

/-- What is refused is refused for what it says. -/
theorem isRefusal_of_eq_fail (h : e.LiveAt o) (going : c ≠ .fullStop) (quiet : c ≠ .flush)
    (eq : e.call c = e.fail cause) : cause.isRefusal = true := by
  obtain ⟨f, holds⟩ := h.progress.exists_gathered
  have refused {cause' : WireError} (same : e.fail cause' = e.fail cause)
      (refusal : cause'.isRefusal = true) : cause.isRefusal = true := by
    obtain rfl := Except.error.inj (Prod.mk.inj same).1
    exact refusal
  cases c with
  | closeTerm =>
    obtain ⟨whole, _ | ⟨⟨functor, parts⟩ | parts, outer⟩⟩ := o
    · have outermost := holds.located.eq_nil
      rw [call, closeTerm, outermost] at eq
      exact refused eq rfl
    · by_cases few : parts.length ≤ maxArity
      · -- with so few arguments the compound is closed
        have small := h.small
        rw [fitsSoFar, Outline.all_cons_compound, Bool.true_and, Bool.and_eq_true] at small
        have fit : fitsSoFar (.add ⟨whole, outer⟩ (.compound functor parts)) = true := by
          rw [fitsSoFar, Outline.all_add, fits, fitsAll_eq_all, small.1, small.2, Bool.and_true,
            Bool.true_and, decide_eq_true few]
        have closes : Outline.step ⟨whole, .compound functor parts :: outer⟩ .closeTerm =
            some (.add ⟨whole, outer⟩ (.compound functor parts)) := rfl
        obtain ⟨e', closed, -⟩ := h.progress.call_ok (fun flush => absurd flush quiet) closes fit
        cases closed.symm.trans eq
      · have many := holds.closeTerm_of_maxArity_lt
          (by rw [List.length_map]; exact Nat.not_le.mp few)
        rw [call, many] at eq
        exact refused eq rfl
    · obtain ⟨x, xs, same, fits, -⟩ := holds.located.exists_cons
      obtain rfl := fits.of_list
      rw [call, closeTerm, same] at eq
      exact refused eq rfl
  | closeList =>
    rw [call, closeList] at eq
    split at eq
    · cases congrArg Prod.fst eq
    · exact refused eq rfl
  | int value =>
    rw [call, int] at eq
    split at eq <;> cases congrArg Prod.fst eq
  | bigint value =>
    rw [call, bigint] at eq
    split at eq
    · rw [int] at eq
      split at eq <;> cases congrArg Prod.fst eq
    · cases congrArg Prod.fst eq
  | fullStop => exact absurd rfl going
  | flush => exact absurd rfl quiet
  | _ => cases congrArg Prod.fst eq

/-- A call within a sentence is one that the outline goes on with, although the sink may not be flushed, or
is refused for what it says. -/
theorem call_cases (h : e.LiveAt o) (going : c ≠ .fullStop) :
    (∃ o', o.step c = some o' ∧ (e.call c).2.LiveAt o' ∧
      ∀ cause, (e.call c).1 = .error cause → cause.isRefusal = false) ∨
    ∃ cause, e.call c = e.fail cause ∧ cause.isRefusal = true := by
  by_cases flushes : c = .flush
  · rw [flushes]
    exact .inl ⟨o, rfl, h.withSink _, fun _ => Answer.not_isRefusal_of_ofSink⟩
  obtain ⟨o', steps, small⟩ | stuck := o.step_cases fitsSoFar c
  · obtain ⟨e', eq, progress⟩ := h.progress.call_ok (fun flush => absurd flush flushes) steps small
    obtain ⟨e'', eq', failed, -⟩ | ⟨cause, eq'⟩ := e.call_within going flushes
    · obtain rfl := (Prod.mk.inj (eq.symm.trans eq')).2
      refine .inl ⟨o', steps, ?_, fun cause answer => ?_⟩
      · rw [eq]
        exact ⟨failed.trans h.unfailed, progress, small⟩
      · rw [eq] at answer
        cases answer
    · cases eq.symm.trans eq'
  · obtain ⟨cause, eq⟩ := h.progress.call_error h.small going stuck
    exact .inr ⟨cause, eq, h.isRefusal_of_eq_fail going flushes eq⟩

/-- The arities of the contexts are those of the outline. -/
theorem overfull_iff (h : e.LiveAt o) : e.Overfull ↔ crowded false o.unclosed = true := by
  obtain ⟨f, holds⟩ := h.progress.exists_gathered
  rw [← crowded_map f]
  exact (crowded_iff_of_located holds.located).symm

/-- Without a crowded compound a sentence can be ended well on a sink that takes everything: by closing
what is open. -/
theorem exists_fullStop_ok (h : e.LiveAt o) (free : crowded false o.unclosed = false)
    (accepts : e.sink.Accepting) :
    ∃ calls, Call.fullStop ∉ calls ∧ ((consumer.after e calls).call .fullStop).1 = .ok () := by
  -- closing what is innermost neither finds nor leaves too many arguments
  have closes (whole : List (Term String)) (u : Unclosed String) (outer : List (Unclosed String))
      (within : fitsSoFar ⟨whole, u :: outer⟩ = true ∧ crowded false (u :: outer) = false) :
      fitsSoFar (.add ⟨whole, outer⟩ u.closed) = true ∧
        crowded false (Outline.add ⟨whole, outer⟩ u.closed).unclosed = false := by
    obtain ⟨small, free⟩ := within
    cases u with
    | compound functor parts =>
      rw [crowded, Bool.or_eq_false_iff, decide_eq_false_iff_not] at free
      rw [fitsSoFar, Outline.all_cons_compound, Bool.true_and, Bool.and_eq_true] at small
      have few : parts.length ≤ maxArity := Nat.not_lt.mp free.1
      refine ⟨?_, by rw [crowded_add]; exact free.2⟩
      rw [fitsSoFar, Outline.all_add, Unclosed.closed, fits, fitsAll_eq_all, small.1, small.2,
        Bool.and_true, Bool.true_and, decide_eq_true few]
    | list parts =>
      refine ⟨?_, by rw [crowded_add]; exact free⟩
      rw [fitsSoFar, Outline.all_cons_list] at small
      rw [fitsSoFar, Outline.all_add, Unclosed.closed, fits, fitsAll_eq_all]
      exact small
  obtain ⟨ts, follows, small, -⟩ := Outline.exists_follow_closing
    (P := fun o => fitsSoFar o = true ∧ crowded false o.unclosed = false) closes ⟨h.small, free⟩
  obtain ⟨e', eq, here⟩ := (keepsUp e.sink.content).playAll_ok
    ⟨h.progress, h.small, h.unfailed, accepts, rfl⟩ follows small
  obtain ⟨e'', stop, -⟩ := here.fullStop_ok
  have after : consumer.after e o.closing = e' := by
    rw [← Consumer.playAll_snd]
    exact congrArg Prod.snd eq
  refine ⟨o.closing, o.fullStop_notMem_closing, ?_⟩
  rw [after]
  exact congrArg Prod.fst stop

end LiveAt

end Encoder

end PrologWire.Sicstus
