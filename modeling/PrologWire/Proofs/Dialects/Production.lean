import PrologWire.Proofs.Json.Grammar
import PrologWire.Proofs.Sicstus.AnySink
import PrologWire.Proofs.Swi.AnySink

/-!
# Productions that fail

What stands for a term, a handle in an arena or a JSON value, is handed to an encoder as calls, and this ends
early in two ways: the encoder refuses a call, or there is a part that is no term. Only the first is marked
in the encoder, so that after the second the sentence can be ended like any other, with a term that was cut
off. The one exception is a compound that has too many arguments already.
-/

namespace PrologWire

/-! ## Failures of scripts -/

namespace Script

/-- A failure of the script's own is not one that an encoder refuses a call with. -/
def FailsItself (s : Script) : Prop := ∀ cause, s.failure = some cause → cause.isRefusal = false

theorem failsItself_call (c : Call) : (call c).FailsItself := nofun

theorem failsItself_fail {cause : WireError} (own : cause.isRefusal = false) :
    (fail cause).FailsItself := by
  intro cause' same
  obtain rfl := Option.some.inj same
  exact own

theorem FailsItself.append {s t : Script} (h : s.FailsItself) (h' : t.FailsItself) :
    (s ++ t).FailsItself := by
  obtain ⟨calls, _ | cause⟩ := s
  · exact h'
  · exact h

theorem FailsItself.between {s : Script} (h : s.FailsItself) (opening closing : Call) :
    (call opening ++ s ++ call closing).FailsItself :=
  ((failsItself_call opening).append h).append (failsItself_call closing)

end Script

namespace Tree

mutual

theorem failsItself_script : ∀ t : Tree, t.script.FailsItself
  | leaf l => by
    rw [script]
    cases l with
    | bigint digits =>
      rw [Leaf.call]
      rcases Arena.integerOfDigits digits with cause | value
      · exact Script.failsItself_fail rfl
      · exact Script.failsItself_call _
    | str text => exact Script.failsItself_fail rfl
    | _ => exact Script.failsItself_call _
  | list [] => Script.failsItself_call _
  | list (t :: rest) => by
    rw [script]
    · exact (failsItself_scriptAll (t :: rest)).between _ _
    · exact nofun
  | func functor args => by
    rw [script]
    split
    · exact (failsItself_scriptAll args).between _ _
    · exact Script.failsItself_fail rfl
  | tuple _ => Script.failsItself_fail rfl
  | broken _ => Script.failsItself_fail rfl

theorem failsItself_scriptAll : ∀ ts : List Tree, (scriptAll ts).FailsItself
  | [] => nofun
  | t :: rest => (failsItself_script t).append (failsItself_scriptAll rest)

end

end Tree

namespace Json

namespace Value

mutual

/-- By what the value comes to, whose parts are smaller. -/
theorem failsItself_script (v : Value) : v.script.FailsItself := by
  rw [script_eq_levelScript]
  cases seen : v.level with
  | error cause => exact Script.failsItself_fail rfl
  | ok l =>
    cases l with
    | leaf c => exact Script.failsItself_call c
    | list items =>
      have smaller := sizeOf_of_level_list seen
      exact (failsItself_scriptAll items).between _ _
    | compound functor args =>
      have smaller := sizeOf_of_level_compound seen
      exact (failsItself_scriptAll args).between _ _
termination_by sizeOf v

theorem failsItself_scriptAll (vs : List Value) : (scriptAll vs).FailsItself := by
  match vs with
  | [] => exact nofun
  | v :: rest => exact (failsItself_script v).append (failsItself_scriptAll rest)
termination_by sizeOf vs

end

end Value

end Json

/-! ## Sources of terms -/

/-- What stands for a term. -/
inductive Source where
  | handle (arena : Arena) (h : Handle)
  | json (value : Json.Value)

namespace Source

/-- Makes the calls for the term to a consumer, up to the first failure. -/
def produce {σ : Type} (consume : σ → Call → Answer × σ) (s : σ) : Source → Answer × σ
  | handle arena h => arena.printTerm h consume s
  | json value => value.emit consume s

/-- The calls for the term. -/
def script : Source → Script
  | handle arena h => (arena.tree h).script
  | json value => value.script

theorem produce_eq_run {σ : Type} (consume : σ → Call → Answer × σ) (s : σ) (source : Source) :
    source.produce consume s = source.script.run consume s := by
  cases source with
  | handle arena h => exact arena.printTerm_eq_run_script h consume s
  | json value => exact value.emit_eq_run_script consume s Text.readInt?

theorem fullStop_notMem_script (source : Source) : Call.fullStop ∉ source.script.calls := by
  cases source with
  | handle arena h => exact (arena.tree h).fullStop_not_mem_script
  | json value => exact value.denotes_script.fullStop_not_mem

theorem failsItself_script (source : Source) : source.script.FailsItself := by
  cases source with
  | handle arena h => exact (arena.tree h).failsItself_script
  | json value => exact value.failsItself_script

end Source

/-! ## Consumers that a source fails on -/

/-- A call to a live consumer leaves it live, even if it fails for something other than what it says, or it
is refused for what it says. -/
def StaysLive {σ : Type} (consume : σ → Call → Answer × σ) (Live Failed : σ → Prop) : Prop :=
  ∀ s c, Live s → c ≠ .fullStop →
    (Live (consume s c).2 ∧ ∀ cause, (consume s c).1 = .error cause → cause.isRefusal = false) ∨
    ∃ cause s', consume s c = (.error cause, s') ∧ cause.isRefusal = true ∧ Failed s'

/-- A source fails on a consumer because a call is refused for what it says, or else it leaves the consumer
live. -/
theorem StaysLive.produce_eq_error {σ : Type} {consume : σ → Call → Answer × σ} {Live Failed : σ → Prop}
    (stays : StaysLive consume Live Failed) {s s' : σ} (live : Live s) {source : Source}
    {cause : WireError} (fails : source.produce consume s = (.error cause, s')) :
    cause.isRefusal = false ∧ Live s' ∨ cause.isRefusal = true ∧ Failed s' := by
  have going := source.fullStop_notMem_script
  have own := source.failsItself_script
  rw [source.produce_eq_run] at fails
  -- of the source nothing counts from here on but its calls and the failure at their end
  generalize source.script = script at going own fails
  obtain ⟨calls, failure⟩ := script
  change Script.makeCalls consume _ calls s = _ at fails
  induction calls generalizing s with
  | nil =>
    cases failure with
    | none => cases fails
    | some cause' =>
      obtain ⟨same, rfl⟩ := Prod.mk.inj fails
      obtain rfl := Except.error.inj same
      exact .inl ⟨own cause' rfl, live⟩
  | cons c rest ih =>
    rw [List.mem_cons, not_or] at going
    have cases := stays s c live fun stop => going.1 stop.symm
    rw [Script.makeCalls] at fails
    rcases outcome : consume s c with ⟨cause' | ⟨⟨⟩⟩, after⟩
    · -- the first call that fails is the last
      rw [outcome] at fails cases
      obtain ⟨same, rfl⟩ := Prod.mk.inj fails
      obtain rfl := Except.error.inj same
      obtain ⟨live', own'⟩ | ⟨cause'', s'', eq, refusal, failed⟩ := cases
      · exact .inl ⟨own' cause' rfl, live'⟩
      · obtain ⟨same, rfl⟩ := Prod.mk.inj eq
        obtain rfl := Except.error.inj same
        exact .inr ⟨refusal, failed⟩
    · rw [outcome] at fails cases
      obtain ⟨live', -⟩ | ⟨cause'', s'', eq, -⟩ := cases
      · exact ih live' going.2 own fails
      · cases congrArg Prod.fst eq

theorem Sicstus.Encoder.staysLive :
    StaysLive call (fun e => ∃ o, e.LiveAt o) (·.failed = true) := by
  rintro e c ⟨o, live⟩ going
  obtain ⟨o', -, live', own⟩ | ⟨cause, eq, refusal⟩ := live.call_cases going
  · exact .inl ⟨⟨o', live'⟩, own⟩
  · exact .inr ⟨cause, _, eq, refusal, rfl⟩

theorem Swi.Encoder.staysLive : StaysLive call Live (·.failed = true) := by
  intro e c live going
  obtain continues | ⟨cause, eq, refusal⟩ := live.call_cases going
  · exact .inl continues
  · exact .inr ⟨cause, _, eq, refusal, rfl⟩

/-! ## How the sentence can end -/

namespace Consumer

variable {σ : Type} (m : Consumer σ Call)

/-- The sentence cannot be ended well: whatever is called before its full stop, this fails, and the sink
has received no byte by then. -/
def Doomed (s : σ) : Prop :=
  ∀ calls, Call.fullStop ∉ calls → ∃ cause s', m.take (m.after s calls) .fullStop = (.error cause, s') ∧
    (m.sink s').content = (m.sink s).content

/-- The sentence can be ended well. -/
def Completable (s : σ) : Prop :=
  ∃ calls, Call.fullStop ∉ calls ∧ (m.take (m.after s calls) .fullStop).1 = .ok ()

variable {m} {s : σ}

/-- What is lost cannot be ended well. -/
theorem Lost.doomed (h : m.Lost s) : m.Doomed s := by
  intro calls going
  obtain ⟨silent, s', discards, same, -⟩ := h calls going
  exact ⟨_, s', discards, by rw [same, silent]⟩

theorem Completable.not_doomed (h : m.Completable s) : ¬m.Doomed s := by
  intro doomed
  obtain ⟨calls, going, well⟩ := h
  obtain ⟨cause, s', ill, -⟩ := doomed calls going
  rw [ill] at well
  cases well

end Consumer

namespace Sicstus.Encoder

/-- Nothing that is called closes a compound with too many arguments. -/
theorem LiveAt.doomed {e : Encoder} {o : Outline String} (h : e.LiveAt o)
    (full : crowded false o.unclosed = true) : consumer.Doomed e := by
  intro calls going
  have kept : (consumer.after e calls).sink.content = e.sink.content ∧
      ((consumer.after e calls).failed = true ∨
        ∃ o, (consumer.after e calls).LiveAt o ∧ crowded false o.unclosed = true) := by
    refine Consumer.after_induction (m := consumer) (P := fun e' =>
      e'.sink.content = e.sink.content ∧
        (e'.failed = true ∨ ∃ o, e'.LiveAt o ∧ crowded false o.unclosed = true)) ?_
      ⟨rfl, .inr ⟨o, h, full⟩⟩
    rintro e' c among ⟨silent, here⟩
    have inside : c ≠ .fullStop := fun stop => going (stop ▸ among)
    refine ⟨(e'.content_sink_call inside).trans silent, ?_⟩
    obtain failed | ⟨o, live, full⟩ := here
    · exact .inl (failed_call failed inside)
    · obtain ⟨o', steps, live', -⟩ | ⟨cause, eq, -⟩ := live.call_cases inside
      · exact .inr ⟨o', live', crowded_of_step steps live'.small full⟩
      · exact .inl (congrArg (·.2.failed) eq)
  obtain ⟨silent, failed | ⟨o, live, full⟩⟩ := kept
  · exact ⟨.sentenceDiscarded, _, if_pos failed, silent⟩
  · -- the compound is open still
    have unclosed : (consumer.after e calls).contexts ≠ [] := by
      intro closed
      obtain ⟨functor, position, arity, among, -⟩ := live.overfull_iff.mpr full
      rw [closed] at among
      cases among
    have stop : (consumer.after e calls).fullStop =
        (.error (.unbalanced (consumer.after e calls).depth), (consumer.after e calls).reset) := by
      rw [fullStop, if_neg (Bool.eq_false_iff.mp live.unfailed), if_pos unclosed]
    exact ⟨_, _, stop, silent⟩

end Sicstus.Encoder

/-- When a source of a term fails to produce it at the beginning of a sentence, on any sink, then the
sentence cannot be ended well on whatever the sink is from then on, if a call was refused for what it says
or if a compound is open whose arguments are too many for SICStus. Otherwise it can be ended well on every
sink that takes everything, with the calls that close what is open. -/
theorem doomed_or_completable_of_produce_eq_error (source : Source) (cause : WireError) :
    (∀ e e' : Sicstus.Encoder, e.AtStart →
      source.produce Sicstus.Encoder.call e = (.error cause, e') →
      (cause.isRefusal = true ∨ e'.Overfull →
        ∀ later : Sink, Sicstus.Encoder.consumer.Doomed { e' with sink := later }) ∧
      (cause.isRefusal = false → ¬e'.Overfull → ∀ later : Sink, later.Accepting →
        Sicstus.Encoder.consumer.Completable { e' with sink := later })) ∧
    (∀ e e' : Swi.Encoder, e.AtStart →
      source.produce Swi.Encoder.call e = (.error cause, e') →
      (cause.isRefusal = true →
        ∀ later : Sink, Swi.Encoder.consumer.Doomed (e'.withSink later)) ∧
      (cause.isRefusal = false → ∀ later : Sink, later.Accepting →
        Swi.Encoder.consumer.Completable (e'.withSink later))) := by
  constructor
  · intro e e' start fails
    obtain ⟨unrefused, o, live⟩ | ⟨refusal, failed⟩ :=
      Sicstus.Encoder.staysLive.produce_eq_error ⟨.empty, start.liveAt⟩ fails
    · -- nothing was refused, so that it depends on what is open
      refine ⟨?_, fun _ free later accepts => ?_⟩
      · rintro (refusal | overfull) later
        · cases unrefused.symm.trans refusal
        · exact (live.withSink later).doomed (live.overfull_iff.mp overfull)
      · rw [live.overfull_iff, Bool.not_eq_true] at free
        exact (live.withSink later).exists_fullStop_ok free accepts
    · refine ⟨fun _ later => ?_, fun unrefused => ?_⟩
      · have marked : ({ e' with sink := later } : Sicstus.Encoder).failed = true := failed
        exact (Sicstus.Encoder.lost_of_failed marked).doomed
      · cases unrefused.symm.trans refusal
  · intro e e' start fails
    obtain ⟨unrefused, live⟩ | ⟨refusal, failed⟩ :=
      Swi.Encoder.staysLive.produce_eq_error start.live fails
    · refine ⟨fun refusal => ?_, fun _ later accepts => ?_⟩
      · cases unrefused.symm.trans refusal
      · exact Swi.Encoder.Live.exists_fullStop_ok (e := e'.withSink later) live accepts
    · refine ⟨fun _ later => ?_, fun unrefused => ?_⟩
      · have marked : (e'.withSink later).failed = true := failed
        exact (Swi.Encoder.lost_of_failed marked).doomed
      · cases unrefused.symm.trans refusal

/-- A list of an integer and of what is no term. -/
def cutList : Source := .json (.array [.number (.integer 1), .null])

/-- A compound with an integer that has no place in a record. -/
def greatPart : Source :=
  .json (.object [("args", .array [.number (.integer (2 ^ 64))]), ("func", .string "f")])

theorem completable_of_cutList :
    Sicstus.Encoder.consumer.Completable (cutList.produce Sicstus.Encoder.call (.new .unlimited)).2 ∧
    Swi.Encoder.consumer.Completable
      (cutList.produce Swi.Encoder.call (.new .standard .unlimited)).2 ∧
    Swi.Encoder.consumer.Doomed
      (greatPart.produce Swi.Encoder.call (.new .standard .unlimited)).2 := by
  have cut := doomed_or_completable_of_produce_eq_error cutList (.json (.noTerm .null))
  have great := doomed_or_completable_of_produce_eq_error greatPart (.unsupported .bigIntegers)
  simp only [Source.produce_eq_run] at cut great ⊢
  have free : ¬(cutList.script.run Sicstus.Encoder.call (.new .unlimited)).2.Overfull := by
    rintro ⟨functor, position, arity, among, -⟩
    cases List.mem_singleton.mp among
  refine ⟨?_, ?_, ?_⟩
  · exact (cut.1 _ _ (Sicstus.Encoder.atStart_new .unlimited) rfl).2 rfl free .unlimited
      Sink.accepting_unlimited
  · exact (cut.2 _ _ (Swi.Encoder.atStart_new .standard .unlimited) rfl).2 rfl .unlimited
      Sink.accepting_unlimited
  · exact (great.2 _ _ (Swi.Encoder.atStart_new .standard .unlimited) rfl).1 rfl .unlimited

/-- The list that was cut off can be closed and delivered. -/
theorem not_forall_doomed_of_produce_eq_error :
    ¬∀ (source : Source) (cause : WireError) (e e' : Sicstus.Encoder), e.AtStart →
      source.produce Sicstus.Encoder.call e = (.error cause, e') →
      Sicstus.Encoder.consumer.Doomed e' := by
  intro doomed
  simp only [Source.produce_eq_run] at doomed
  have start := Sicstus.Encoder.atStart_new .unlimited
  refine Consumer.Completable.not_doomed ?_ (doomed cutList (.json (.noTerm .null)) _ _ start rfl)
  have well : ((Sicstus.Encoder.consumer.after
      (cutList.script.run Sicstus.Encoder.call (.new .unlimited)).2 [.closeList]).call .fullStop).1 =
      .ok () := rfl
  exact ⟨[.closeList], by decide, well⟩

end PrologWire
