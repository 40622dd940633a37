import PrologWire.Proofs.Swi.Delivery

/-!
# Encoders on any sink

Of a sink an encoder learns nothing but whether its own answers are good. What it gathers of a sentence is
the same on every sink, so that an encoder on a sink that has run full is still where an outline is:
it is where it would be on a sink that takes everything. `Live` says so of an encoder that has refused no call
of its sentence, and every reachable encoder is live or has refused one.
-/

namespace PrologWire

/-- A sink that does not take everything is closed. -/
theorem Answer.eq_closed_of_ofSink {possible : Bool} {cause : WireError}
    (h : Answer.ofSink possible = .error cause) : cause = .io .closed := by
  cases possible with
  | true => cases h
  | false => exact (Except.error.inj h).symm

/-- The answer is good exactly if the sink did what it was asked to do. -/
theorem Answer.ofSink_eq_ok_iff {possible : Bool} : Answer.ofSink possible = .ok () ↔ possible = true := by
  cases possible with
  | true => exact ⟨fun _ => rfl, fun _ => rfl⟩
  | false =>
    constructor
    · intro well
      cases well
    · intro possible
      cases possible

namespace Swi.Encoder

/-- The encoder with another sink. -/
def withSink (e : Encoder) (sink : Sink) : Encoder := { e with sink := sink }

/-- What can become of an encoder for a receiver by any calls, while its sink changes between them in
any way. -/
inductive Reachable (c : Config) : Encoder → Prop
  | new (sink : Sink) : Reachable c (new c sink)
  | call {e : Encoder} (h : Reachable c e) (x : Call) : Reachable c (e.call x).2
  | sink {e : Encoder} (h : Reachable c e) (sink : Sink) : Reachable c (e.withSink sink)

/-! ## The sink does not matter -/

section

variable (e : Encoder) (s t : Sink)

theorem beginTerm_withSink : (e.withSink s).beginTerm = e.beginTerm.withSink s := by
  rcases e with ⟨config, buffer, vars, _ | ⟨_ | _, outer⟩, words, failed, sink⟩ <;> rfl

theorem openList_withSink : (e.withSink s).openList = e.openList.withSink s := by
  rw [openList, openList, beginTerm_withSink]
  rfl

theorem withSink_leaf (record code : List UInt8) :
    (if (e.withSink s).isDirect then (e.withSink s).writeDirect record
      else (.ok (), (e.withSink s).beginTerm.put code)).2.withSink t =
    (if e.isDirect then e.writeDirect record else (.ok (), e.beginTerm.put code)).2.withSink t := by
  have same : (e.withSink s).isDirect = e.isDirect := rfl
  rw [same, beginTerm_withSink]
  split <;> rfl

theorem withSink_putClosed (code : List UInt8) :
    ((e.withSink s).putClosed code).2.withSink t = (e.putClosed code).2.withSink t := by
  have same : (e.withSink s).isDirect = e.isDirect := rfl
  rw [putClosed, putClosed, same]
  split <;> rfl

theorem withSink_closeTerm : (e.withSink s).closeTerm.2.withSink t = e.closeTerm.2.withSink t := by
  have contexts : (e.withSink s).contexts = e.contexts := rfl
  have buffer : (e.withSink s).buffer = e.buffer := rfl
  rcases here : e.contexts with _ | ⟨_ | ⟨start, _ | arity⟩, outer⟩
  case cons.compound.succ =>
    rw [closeTerm_of_parts here, closeTerm_of_parts (contexts.trans here), buffer]
    split <;> rfl
  case cons.compound.zero =>
    rw [closeTerm_of_lone here, closeTerm_of_lone (contexts.trans here)]
    exact withSink_putClosed { e with buffer := e.buffer.setLength start, contexts := outer } s t _
  all_goals rw [closeTerm, closeTerm, contexts, here]; rfl

theorem withSink_closeList : (e.withSink s).closeList.2.withSink t = e.closeList.2.withSink t := by
  have contexts : (e.withSink s).contexts = e.contexts := rfl
  rw [closeList, closeList, contexts]
  split
  · next outer here => exact withSink_putClosed { e with contexts := outer } s t _
  · rfl

theorem withSink_int (value : Int64) :
    ((e.withSink s).int value).2.withSink t = (e.int value).2.withSink t := by
  have config : (e.withSink s).config = e.config := rfl
  rw [int, int, config]
  split
  · exact withSink_leaf e s t _ _
  · rfl

/-- Of a full stop nothing is left but the sink. -/
theorem withSink_fullStop : e.fullStop.2.withSink t = e.reset.withSink t := by
  have written : e.writeRecord.2.reset.withSink t = e.reset.withSink t := by
    unfold writeRecord
    dsimp only
    split <;> rfl
  unfold fullStop
  split
  · rfl
  · split
    · rfl
    · cases e.buffer.isEmpty with
      | true => rfl
      | false =>
        dsimp only
        split <;> exact written

/-- A call leaves the same on every sink, but for the sink itself. -/
theorem withSink_call (x : Call) :
    ((e.withSink s).call x).2.withSink t = (e.call x).2.withSink t := by
  have config : (e.withSink s).config = e.config := rfl
  cases x with
  | openTerm functor =>
    rw [call, call, openTerm, openTerm, config, beginTerm_withSink]
    split <;> rfl
  | closeTerm => exact withSink_closeTerm e s t
  | openList =>
    rw [call, call, openList_withSink]
    rfl
  | closeList => exact withSink_closeList e s t
  | emptyList =>
    rw [call, call, openList_withSink]
    exact withSink_closeList e.openList s t
  | atom name =>
    rw [call, call, atom, atom, config]
    split
    · exact withSink_leaf e s t _ _
    · rfl
  | int value => exact withSink_int e s t value
  | bigint value =>
    rw [call, call, bigint, bigint]
    split
    · exact withSink_int e s t _
    · rfl
  | float value =>
    rw [call, call, float, float, beginTerm_withSink]
    rfl
  | var name =>
    rw [call, call, var, var, beginTerm_withSink]
    rfl
  | fullStop => exact (withSink_fullStop _ t).trans (withSink_fullStop e t).symm
  | flush => rfl

/-- So do calls in a row. -/
theorem withSink_after (calls : List Call) :
    (consumer.after (e.withSink s) calls).withSink t = (consumer.after e calls).withSink t := by
  induction calls generalizing e s with
  | nil => rfl
  | cons x rest ih =>
    rw [Consumer.after_cons, Consumer.after_cons]
    -- the two outcomes of the first call differ in their sinks alone
    have same : (consumer.take (e.withSink s) x).2 =
        (consumer.take e x).2.withSink (consumer.take (e.withSink s) x).2.sink :=
      withSink_call e s _ x
    rw [same]
    exact ih _ _

end

/-! ## Calls that go well -/

/-- The encoder on a sink that takes everything from here on. -/
def unbounded (e : Encoder) : Encoder := e.withSink e.sink.unbounded

/-- If a call has gone well with the first outcome, the second one is the same on a sink that takes
everything. -/
def Carries (r r' : Answer × Encoder) : Prop := r.1 = .ok () → r' = (.ok (), r.2.unbounded)

section

variable (e : Encoder)

theorem beginTerm_unbounded : e.unbounded.beginTerm = e.beginTerm.unbounded := by
  rw [unbounded, beginTerm_withSink, unbounded, sink_beginTerm]

theorem openList_unbounded : e.unbounded.openList = e.openList.unbounded := by
  rw [openList, openList, beginTerm_unbounded]
  rfl

theorem carries_of_error {cause : WireError} {r r' : Answer × Encoder} (ill : r.1 = .error cause) :
    Carries r r' := by
  intro well
  rw [ill] at well
  cases well

theorem carries_writeDirect (record : List UInt8) :
    Carries (e.writeDirect record) (e.unbounded.writeDirect record) := by
  intro well
  have complete : (e.sink.write (e.put record).buffer.bytes).1 = true := Answer.ofSink_eq_ok_iff.mp well
  have sink : (e.unbounded.put record).sink = e.sink.unbounded := rfl
  have buffer : (e.unbounded.put record).buffer = (e.put record).buffer := rfl
  rw [writeDirect, sink, buffer, Sink.write_unbounded complete]
  rfl

theorem carries_leaf (record code : List UInt8) :
    Carries (if e.isDirect then e.writeDirect record else (.ok (), e.beginTerm.put code))
      (if e.unbounded.isDirect then e.unbounded.writeDirect record
        else (.ok (), e.unbounded.beginTerm.put code)) := by
  have same : e.unbounded.isDirect = e.isDirect := rfl
  rw [same, beginTerm_unbounded]
  split
  · exact e.carries_writeDirect record
  · exact fun _ => rfl

theorem carries_putClosed (code : List UInt8) :
    Carries (e.putClosed code) (e.unbounded.putClosed code) := by
  have same : e.unbounded.isDirect = e.isDirect := rfl
  rw [putClosed, putClosed, same]
  split
  · exact e.carries_writeDirect _
  · exact fun _ => rfl

theorem carries_closeTerm : Carries e.closeTerm e.unbounded.closeTerm := by
  have contexts : e.unbounded.contexts = e.contexts := rfl
  have buffer : e.unbounded.buffer = e.buffer := rfl
  rcases here : e.contexts with _ | ⟨_ | ⟨start, _ | arity⟩, outer⟩
  case cons.compound.succ =>
    rw [closeTerm_of_parts here, closeTerm_of_parts (contexts.trans here), buffer]
    split
    · exact fun _ => rfl
    · exact carries_of_error rfl
  case cons.compound.zero =>
    rw [closeTerm_of_lone here, closeTerm_of_lone (contexts.trans here)]
    exact carries_putClosed { e with buffer := e.buffer.setLength start, contexts := outer } _
  all_goals
    rw [closeTerm, closeTerm, contexts, here]
    exact carries_of_error rfl

theorem carries_closeList : Carries e.closeList e.unbounded.closeList := by
  have contexts : e.unbounded.contexts = e.contexts := rfl
  rw [closeList, closeList, contexts]
  split
  · next outer here => exact carries_putClosed { e with contexts := outer } _
  · exact carries_of_error rfl

theorem carries_int (value : Int64) : Carries (e.int value) (e.unbounded.int value) := by
  have config : e.unbounded.config = e.config := rfl
  rw [int, int, config]
  split
  · exact e.carries_leaf _ _
  · exact carries_of_error rfl

theorem carries_flush : Carries e.flush e.unbounded.flush := by
  intro well
  have flushed : e.sink.flush.1 = true := Answer.ofSink_eq_ok_iff.mp well
  have sink : e.unbounded.sink = e.sink.unbounded := rfl
  rw [flush, sink, Sink.flush_unbounded flushed]
  rfl

theorem carries_writeRecord : Carries e.writeRecord e.unbounded.writeRecord := by
  intro well
  have sink : e.unbounded.sink = e.sink.unbounded := rfl
  have start : e.unbounded.recordStart = e.recordStart := rfl
  have buffer : e.unbounded.buffer = e.buffer := rfl
  unfold writeRecord at well ⊢
  dsimp only at well ⊢
  split at well
  · next begun =>
    have complete := Answer.ofSink_eq_ok_iff.mp well
    rw [sink, start, buffer, Sink.write_unbounded begun, if_pos rfl, if_pos begun,
      Sink.write_unbounded complete]
    rfl
  · next broken => exact absurd (Answer.ofSink_eq_ok_iff.mp well) broken

theorem carries_fullStop : Carries e.fullStop e.unbounded.fullStop := by
  have failed : e.unbounded.failed = e.failed := rfl
  have contexts : e.unbounded.contexts = e.contexts := rfl
  have buffer : e.unbounded.buffer = e.buffer := rfl
  rw [fullStop, fullStop, failed, contexts, buffer]
  split
  · exact carries_of_error rfl
  · split
    · exact carries_of_error rfl
    · cases e.buffer.isEmpty with
      | true => exact e.reset.carries_flush
      | false =>
        dsimp only
        rw [if_neg Bool.false_ne_true, if_neg Bool.false_ne_true]
        rcases written : e.writeRecord.1 with cause | ⟨⟩
        · exact carries_of_error rfl
        · rw [e.carries_writeRecord written]
          exact e.writeRecord.2.reset.carries_flush

/-- A call that goes well does the same on a sink that takes everything. -/
theorem carries_call (x : Call) : Carries (e.call x) (e.unbounded.call x) := by
  have config : e.unbounded.config = e.config := rfl
  cases x with
  | openTerm functor =>
    rw [call, call, openTerm, openTerm, config, beginTerm_unbounded]
    split
    · exact fun _ => rfl
    · exact carries_of_error rfl
  | closeTerm => exact e.carries_closeTerm
  | openList =>
    rw [call, call, openList_unbounded]
    exact fun _ => rfl
  | closeList => exact e.carries_closeList
  | emptyList =>
    rw [call, call, openList_unbounded]
    exact e.openList.carries_closeList
  | atom name =>
    rw [call, call, atom, atom, config]
    split
    · exact e.carries_leaf _ _
    · exact carries_of_error rfl
  | int value => exact e.carries_int value
  | bigint value =>
    rw [call, call, bigint, bigint]
    split
    · exact e.carries_int _
    · exact carries_of_error rfl
  | float value =>
    rw [call, call, float, float, beginTerm_unbounded]
    exact fun _ => rfl
  | var name =>
    rw [call, call, var, var, beginTerm_unbounded]
    exact fun _ => rfl
  | fullStop => exact e.carries_fullStop
  | flush => exact e.carries_flush

end

/-- A full stop goes well on a sink that takes everything if nothing is open and no call has failed. -/
theorem fullStop_ok_of_accepting {e : Encoder} (unfailed : e.failed = false) (closed : e.contexts = [])
    (accepts : e.sink.Accepting) : (e.call .fullStop).1 = .ok () := by
  obtain ⟨sink₁, write₁, -, accepts₁⟩ := accepts.write e.recordStart.toArray
  obtain ⟨sink₂, write₂, -, accepts₂⟩ := accepts₁.write e.buffer.bytes
  obtain ⟨sink₃, flush₃, -⟩ := accepts₂.flush
  obtain ⟨sink', flush', -⟩ := accepts.flush
  rw [call, fullStop, if_neg (Bool.eq_false_iff.mp unfailed), if_neg (not_not_intro closed)]
  cases e.buffer.isEmpty with
  | true => simp [Encoder.flush, reset, flush', Answer.ofSink]
  | false => simp [writeRecord, write₁, write₂, Encoder.flush, reset, flush₃, Answer.ofSink]

/-! ## Why calls fail -/

/-- Why a call within a sentence has failed with an outcome. -/
inductive Reason (e : Encoder) (r : Answer × Encoder) : WireError → Prop where
  /-- It was refused for what it says. -/
  | refusal {cause : WireError} (refusal : cause.isRefusal = true) : Reason e r cause
  /-- The place of an arity lies outside the content. -/
  | beyond {start arity : Nat} {outer : List Context} (here : e.contexts = .compound start arity :: outer)
      (outside : ¬start + 1 < e.buffer.length) :
      Reason e r (.buffer (.setBeyond (start + 1) e.buffer.length))
  /-- The sink has not taken a record of its own, and of this no mark is left. -/
  | sink (unmarked : r.2.failed = false) : Reason e r (.io .closed)

variable {e : Encoder} {cause : WireError}

/-- A record of its own fails with the sink alone. -/
theorem reason_of_writeDirect {g : Encoder} (direct : g.isDirect = true) {record : List UInt8}
    (answer : (g.writeDirect record).1 = .error cause) : Reason e (g.writeDirect record) cause := by
  rw [isDirect, Bool.and_eq_true, Bool.not_eq_true'] at direct
  obtain rfl := Answer.eq_closed_of_ofSink answer
  exact .sink direct.2

theorem reason_of_leaf {record code : List UInt8} {r : Answer × Encoder}
    (eq : r = if e.isDirect then e.writeDirect record else (.ok (), e.beginTerm.put code))
    (answer : r.1 = .error cause) : Reason e r cause := by
  subst eq
  split at answer
  · next direct =>
    rw [if_pos direct]
    exact reason_of_writeDirect direct answer
  · cases answer

theorem reason_of_putClosed {g : Encoder} {code : List UInt8}
    (answer : (g.putClosed code).1 = .error cause) : Reason e (g.putClosed code) cause := by
  unfold putClosed at answer ⊢
  split at answer
  · next direct =>
    rw [if_pos direct]
    exact reason_of_writeDirect direct answer
  · cases answer

theorem reason_of_int {value : Int64} (answer : (e.int value).1 = .error cause) :
    Reason e (e.int value) cause := by
  unfold Encoder.int at answer ⊢
  split at answer
  · next small =>
    rw [if_pos small]
    exact reason_of_leaf rfl answer
  · obtain rfl := Except.error.inj answer
    exact .refusal rfl

/-- A call within a sentence fails for one of three reasons. -/
theorem reason_of_error (e : Encoder) {x : Call} (going : x ≠ .fullStop) (quiet : x ≠ .flush)
    (answer : (e.call x).1 = .error cause) : Reason e (e.call x) cause := by
  have refused {cause' : WireError} (same : (e.fail cause').1 = .error cause)
      (refusal : cause'.isRefusal = true) (r : Answer × Encoder) : Reason e r cause := by
    obtain rfl := Except.error.inj same
    exact .refusal refusal
  cases x with
  | openTerm functor =>
    rw [call, openTerm] at answer
    split at answer
    · cases answer
    · exact refused answer rfl _
  | closeTerm =>
    rw [call] at answer ⊢
    rcases here : e.contexts with _ | ⟨_ | ⟨start, _ | arity⟩, outer⟩
    case cons.compound.succ =>
      rw [closeTerm_of_parts here] at answer
      split at answer
      · cases answer
      · next outside =>
        obtain rfl := Except.error.inj answer
        exact .beyond here outside
    case cons.compound.zero =>
      rw [closeTerm_of_lone here] at answer ⊢
      exact reason_of_putClosed answer
    all_goals
      rw [closeTerm, here] at answer
      exact refused answer rfl _
  | openList => cases answer
  | closeList =>
    rw [call] at answer ⊢
    unfold closeList at answer ⊢
    split at answer
    · exact reason_of_putClosed answer
    · exact refused answer rfl _
  | emptyList => exact reason_of_putClosed answer
  | atom name =>
    rw [call] at answer ⊢
    unfold atom at answer ⊢
    split at answer
    · next admitted =>
      rw [if_pos admitted]
      exact reason_of_leaf rfl answer
    · exact refused answer rfl _
  | int value => exact reason_of_int answer
  | bigint value =>
    rw [call] at answer ⊢
    unfold bigint at answer ⊢
    split at answer
    · exact reason_of_int answer
    · exact refused answer rfl _
  | float value => cases answer
  | var name => cases answer
  | fullStop => exact absurd rfl going
  | flush => exact absurd rfl quiet

/-! ## Live encoders -/

/-- The encoder is where an outline is, or would be on another sink. -/
def Live (e : Encoder) : Prop :=
  ∃ sink sent o, Progress e.config sent (e.withSink sink) o ∧ takesSoFar e.config o = true

/-- At the beginning of a sentence nothing can have been refused. -/
theorem AtStart.live (h : e.AtStart) : e.Live := by
  have start : (e.withSink .unlimited).AtStart := ⟨h.buffer, h.vars, h.contexts, h.words, h.failed⟩
  exact ⟨.unlimited, _, .empty, start.progress Sink.accepting_unlimited, rfl⟩

namespace Live

theorem unfailed (h : e.Live) : e.failed = false := by
  obtain ⟨sink, sent, o, progress, -⟩ := h
  obtain ⟨f, holds⟩ := progress.exists_gathered
  exact holds.unfailed

/-- A call that does not mark the sentence as failed is one that the outline goes on with. -/
theorem call (h : e.Live) {x : Call} (going : x ≠ .fullStop)
    (unmarked : (e.call x).2.failed = false) : (e.call x).2.Live := by
  obtain ⟨sink, sent, o, progress, taken⟩ := h
  have config : (e.call x).2.config = e.config := config_call e x
  obtain ⟨o', steps, taken'⟩ | stuck := o.step_cases (takesSoFar e.config) x
  · obtain ⟨e', eq, progress'⟩ := progress.call_ok steps taken'
    -- on its own sink the encoder has gathered the same
    have same := withSink_call e sink e'.sink x
    rw [eq] at same
    have same : e' = (e.call x).2.withSink e'.sink := same
    rw [same, ← config] at progress'
    exact ⟨_, _, o', progress', config.symm ▸ taken'⟩
  · obtain ⟨cause, eq⟩ := progress.call_error taken going stuck
    have same := withSink_call e sink sink x
    rw [eq] at same
    have marked : (e.call x).2.failed = true := (congrArg Encoder.failed same).symm
    exact nomatch marked.symm.trans unmarked

/-- The place of the arity of an open compound lies inside the content. -/
theorem inside (h : e.Live) {start arity : Nat} {outer : List Context}
    (here : e.contexts = .compound start arity :: outer) : start + 1 < e.buffer.length := by
  obtain ⟨sink, sent, o, progress, -⟩ := h
  obtain ⟨f, -, content, located, -⟩ := progress.exists_gathered
  have contexts : (e.withSink sink).contexts = .compound start arity :: outer := here
  rw [contexts] at located
  rw [← Buffer.length_content]
  change e.buffer.content = _ at content
  rcases unclosed : (o.map f).unclosed with _ | ⟨⟨functor, parts⟩ | parts, us⟩
  · rw [unclosed] at located
    cases located.eq_nil
  · rw [unclosed] at located content
    obtain ⟨⟨rfl, -⟩, -⟩ := located
    rw [content, Layout.bytes, layout_unclosed, unclosedCode]
    simp
  · rw [unclosed] at located
    cases located.1

/-- What is refused by a live encoder is refused for what it says. -/
theorem isRefusal_of_eq_fail (h : e.Live) {x : Call} (going : x ≠ .fullStop) (quiet : x ≠ .flush)
    {cause : WireError} (eq : e.call x = e.fail cause) : cause.isRefusal = true := by
  have answer : (e.call x).1 = .error cause := by rw [eq]; rfl
  have marked : (e.call x).2.failed = true := by rw [eq]; rfl
  cases e.reason_of_error going quiet answer with
  | refusal refusal => exact refusal
  | beyond here outside => exact absurd (h.inside here) outside
  | sink unmarked => exact nomatch marked.symm.trans unmarked

/-- A call leaves the encoder live, although the sink may have refused it, or is refused for what it
says. -/
theorem call_cases (h : e.Live) {x : Call} (going : x ≠ .fullStop) :
    ((e.call x).2.Live ∧ ∀ cause, (e.call x).1 = .error cause → cause.isRefusal = false) ∨
      ∃ cause, e.call x = e.fail cause ∧ cause.isRefusal = true := by
  by_cases flushes : x = .flush
  · rw [flushes]
    exact .inl ⟨h, fun _ => Answer.not_isRefusal_of_ofSink⟩
  cases e.outcome_call going flushes with
  | gathered e' eq config failed sink =>
    have live : (e.call x).2.Live := h.call going (by rw [eq, failed, h.unfailed])
    refine .inl ⟨live, fun cause answer => ?_⟩
    rw [eq] at answer
    cases answer
  | direct g record eq direct config failed sink =>
    have live : (e.call x).2.Live := h.call going (by rw [eq]; exact failed.trans h.unfailed)
    refine .inl ⟨live, fun cause answer => ?_⟩
    rw [eq] at answer
    exact Answer.not_isRefusal_of_ofSink answer
  | refused cause eq => exact .inr ⟨cause, eq, h.isRefusal_of_eq_fail going flushes eq⟩

/-- Where a leaf would be a record of its own a sentence may as well begin: what came before in this one
has left nothing behind. -/
theorem atStart_of_isDirect (h : e.Live) (direct : e.isDirect = true) : e.AtStart := by
  obtain ⟨sink, sent, o, progress, -⟩ := h
  rw [isDirect, Bool.and_eq_true, Bool.and_eq_true, List.isEmpty_iff, Buffer.isEmpty_iff_content,
    Bool.not_eq_true'] at direct
  obtain ⟨⟨outermost, nothing⟩, unfailed⟩ := direct
  -- nothing is open in the outline, and all of its terms have gone to the sink
  obtain ⟨ts, unclosed⟩ := o
  obtain rfl : unclosed = [] := by
    obtain ⟨f, holds⟩ := progress.exists_gathered
    have length := holds.located.length_eq
    have contexts : (e.withSink sink).contexts = [] := outermost
    rw [contexts, Outline.map, List.length_map] at length
    exact List.eq_nil_of_length_eq_zero length.symm
  obtain ⟨names, -, content, -, counted, -⟩ := progress.whole
  have content : e.buffer.content = codeAll e.config (buffered e.config (Term.numbered ts)) := content
  rw [nothing, eq_comm, codeAll_eq_nil, Term.numbered, buffered_map, List.map_eq_nil_iff] at content
  rw [← names_buffered e.config ts, content] at names
  have words : e.words = wordCountAll e.config (Term.numbered ts) := counted
  rw [← wordCountAll_buffered, Term.numbered, buffered_map, content] at words
  have vars : e.vars = .empty := congrArg VarTable.mk names
  exact ⟨nothing, vars, outermost, words, unfailed⟩

/-- A sentence in which nothing was refused can be ended well on a sink that takes everything: by closing
what is open. -/
theorem exists_fullStop_ok (h : e.Live) (accepts : e.sink.Accepting) :
    ∃ calls, Call.fullStop ∉ calls ∧ ((consumer.after e calls).call .fullStop).1 = .ok () := by
  obtain ⟨sink, sent, o, progress, taken⟩ := h
  have closes (whole : List (Term String)) (u : Unclosed String) (outer : List (Unclosed String))
      (taken : takesSoFar e.config ⟨whole, u :: outer⟩ = true) :
      takesSoFar e.config (.add ⟨whole, outer⟩ u.closed) = true := by
    rw [takesSoFar, Outline.all_add]
    cases u with
    | compound functor parts => rwa [Unclosed.closed, takes_compound, ← Outline.all_cons_compound]
    | list parts => rwa [Unclosed.closed, takes_list, ← Outline.all_cons_list]
  obtain ⟨ts, follows, takes⟩ := Outline.exists_follow_closing
    (P := fun o => takesSoFar e.config o = true) closes taken
  obtain ⟨e', eq, there, -⟩ := (keepsUp e.config sent).playAll_ok ⟨progress, taken⟩ follows takes
  -- the encoder on its own sink has the same contexts and no mark either
  have same : consumer.after e o.closing = e'.withSink (consumer.after e o.closing).sink := by
    have run : consumer.after (e.withSink sink) o.closing = e' := by
      rw [← Consumer.playAll_snd]
      exact congrArg Prod.snd eq
    rw [← run, withSink_after]
    rfl
  obtain ⟨f, holds⟩ := there.exists_gathered
  refine ⟨o.closing, o.fullStop_notMem_closing, ?_⟩
  rw [same]
  exact fullStop_ok_of_accepting holds.unfailed holds.located.eq_nil (accepting_after accepts _)

end Live

/-- A reachable encoder has refused a call of its sentence or is live. -/
theorem Reachable.failed_or_live {c : Config} (h : Reachable c e) : e.failed = true ∨ e.Live := by
  induction h with
  | new sink => exact .inr (atStart_new c sink).live
  | call h x ih =>
    next e =>
    by_cases stop : x = .fullStop
    · rw [stop]
      exact .inr (atStart_fullStop e).live
    rcases ih with failed | live
    · exact .inl (failed_call failed stop)
    · rcases live.call_cases stop with ⟨live', -⟩ | ⟨cause, eq, -⟩
      · exact .inr live'
      · rw [eq]
        exact .inl rfl
  | sink h sink ih => exact ih

theorem Reachable.config_eq {c : Config} (h : Reachable c e) : e.config = c := by
  induction h with
  | new sink => rfl
  | call h x ih => exact (config_call _ x).trans ih
  | sink h sink ih => exact ih

end Swi.Encoder

end PrologWire
