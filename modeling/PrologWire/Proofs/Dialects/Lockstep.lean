import PrologWire.Proofs.Dialects.Brackets
import PrologWire.Proofs.Sicstus.Headers
import PrologWire.Proofs.Swi.AnySink
import PrologWire.Proofs.Swi.Headers

/-!
# Both encoders accept the same brackets

Each encoder follows the machine for brackets in every call, from every state in which the headers stand
where the contexts say, unless its format or its sink stands in the way. Calls that are made to both in step on
sinks that take everything are therefore answered in the same way as long as no format is exceeded, over any
number of sentences and however badly the calls are nested.
-/

namespace PrologWire

/-- A call that has to come to the sink goes as it should if the sink takes everything. -/
theorem Brackets.Outcome.of_sink {m after : Brackets} {c : Call} {accepting : Prop} {possible : Bool}
    (eq : m.call c = (.ok (), after)) (complete : accepting → possible = true) :
    m.Outcome c accepting (.ofSink possible) after := by
  cases possible with
  | true => exact .follows eq
  | false => exact .sink (fun accepts => Bool.false_ne_true (complete accepts)) after

/-! ## SICStus -/

namespace Sicstus

/-- What a context is that of. -/
def Context.bracket : Context → Bracket
  | list => .list
  | compound .. => .term

namespace Encoder

/-- What the machine for brackets knows of an encoder. -/
def brackets (e : Encoder) : Brackets := ⟨e.contexts.map Context.bracket, e.failed⟩

@[simp] theorem brackets_put (e : Encoder) (bs : List UInt8) : (e.put bs).brackets = e.brackets := rfl

@[simp] theorem brackets_endRun (e : Encoder) : e.endRun.brackets = e.brackets := by simp [brackets]

@[simp] theorem brackets_beginTerm (e : Encoder) : e.beginTerm.brackets = e.brackets := by
  rcases here : e.contexts with _ | ⟨_ | ⟨functor, position, _ | arity⟩, outer⟩
  case cons.list => rw [beginTerm_of_list here, brackets_put, brackets_endRun]
  all_goals simp [brackets, beginTerm, here, put, Context.bracket]

theorem opened_brackets_of_cons {e : Encoder} {x : Context} {outer : List Context}
    (here : e.contexts = x :: outer) :
    e.brackets.opened = x.bracket :: outer.map Context.bracket := by
  rw [brackets, here, List.map_cons]

theorem length_opened_brackets (e : Encoder) : e.brackets.opened.length = e.depth := List.length_map _

theorem opened_brackets_eq_nil_iff {e : Encoder} : e.brackets.opened = [] ↔ e.contexts = [] :=
  List.map_eq_nil_iff

variable {e : Encoder} {opened : List Opening}

theorem follows_closeTerm (h : e.Sound opened) :
    e.brackets.Outcome .closeTerm e.sink.Accepting e.closeTerm.1 e.closeTerm.2.brackets := by
  rcases here : e.contexts with _ | ⟨_ | ⟨functor, position, _ | arity⟩, outer⟩
  case cons.compound.zero =>
    rw [closeTerm, here]
    exact .follows (Brackets.close_of_head (opened_brackets_of_cons here))
  case cons.compound.succ =>
    have inside : position < e.buffer.length := by
      rw [← Buffer.length_content]
      exact h.headed.lt_length position (by rw [here]; exact List.mem_cons_self)
    rw [closeTerm_of_parts here, if_pos inside]
    split
    · exact .format rfl _
    · exact .follows (Brackets.close_of_head (opened_brackets_of_cons here))
  all_goals
    have other : e.brackets.opened.head? ≠ some .term := by simp [brackets, here, Context.bracket]
    rw [closeTerm, here]
    exact .follows (Brackets.close_of_head_ne other)

theorem follows_closeList (e : Encoder) :
    e.brackets.Outcome .closeList e.sink.Accepting e.closeList.1 e.closeList.2.brackets := by
  rcases here : e.contexts with _ | ⟨_ | ⟨functor, position, arity⟩, outer⟩
  case cons.list =>
    rw [closeList, here]
    dsimp only
    rw [brackets_put, brackets_endRun]
    exact .follows (Brackets.close_of_head (opened_brackets_of_cons here))
  all_goals
    have other : e.brackets.opened.head? ≠ some .list := by simp [brackets, here, Context.bracket]
    rw [closeList, here]
    exact .follows (Brackets.close_of_head_ne other)

/-- A whole sentence fails at its full stop with the sink alone. -/
theorem writeSentence_fst (e : Encoder) :
    ∃ possible, e.writeSentence.1 = .ofSink possible ∧ (e.sink.Accepting → possible = true) := by
  unfold writeSentence
  dsimp only
  split
  · split
    · refine ⟨_, rfl, fun accepts => ?_⟩
      obtain ⟨sink', eq, -⟩ := ((accepts.after_write _).after_write _).flush
      exact congrArg Prod.fst eq
    · refine ⟨_, rfl, fun accepts => ?_⟩
      obtain ⟨sink', eq, -⟩ := (accepts.after_write #[versionTag]).write e.buffer.bytes
      exact congrArg Prod.fst eq
  · refine ⟨_, rfl, fun accepts => ?_⟩
    obtain ⟨sink', eq, -⟩ := accepts.write #[versionTag]
    exact congrArg Prod.fst eq

theorem follows_fullStop (e : Encoder) :
    e.brackets.Outcome .fullStop e.sink.Accepting e.fullStop.1 e.fullStop.2.brackets := by
  have start : e.fullStop.2.brackets = .start := by
    rw [brackets, (atStart_fullStop e).contexts, (atStart_fullStop e).failed]
    rfl
  rw [start]
  cases failed : e.failed with
  | true =>
    rw [fullStop, if_pos failed]
    exact .follows (Brackets.call_fullStop_of_failed failed)
  | false =>
    by_cases closed : e.contexts = []
    · obtain ⟨possible, answer, complete⟩ := e.writeSentence_fst
      rw [fullStop, if_neg (Bool.eq_false_iff.mp failed), if_neg (not_not_intro closed)]
      dsimp only
      rw [answer]
      exact .of_sink (Brackets.call_fullStop_of_whole failed (opened_brackets_eq_nil_iff.mpr closed)) complete
    · rw [fullStop, if_neg (Bool.eq_false_iff.mp failed), if_pos closed, ← e.length_opened_brackets]
      exact .follows (Brackets.call_fullStop_of_open failed (mt opened_brackets_eq_nil_iff.mp closed))

theorem follows_leaf (e : Encoder) {c : Call} (quiet : e.brackets.call c = (.ok (), e.brackets))
    (bs : List UInt8) :
    e.brackets.Outcome c e.sink.Accepting (e.leaf bs).1 (e.leaf bs).2.brackets := by
  refine .follows ?_
  rw [quiet, leaf, brackets_put, brackets_beginTerm]

theorem follows_int (e : Encoder) {c : Call} (quiet : e.brackets.call c = (.ok (), e.brackets))
    (value : Int64) :
    e.brackets.Outcome c e.sink.Accepting (e.int value).1 (e.int value).2.brackets := by
  rw [int]
  split
  · refine .follows ?_
    rw [quiet]
    split <;> rfl
  · exact e.follows_leaf quiet _

/-- Every call does as the machine does, or the format or the sink stands in the way. -/
theorem follows_call (h : e.Sound opened) (c : Call) :
    e.brackets.Outcome c e.sink.Accepting (e.call c).1 (e.call c).2.brackets := by
  cases c with
  | openTerm functor =>
    refine .follows (Prod.ext rfl ?_)
    show _ = (⟨.term :: e.beginTerm.brackets.opened, e.beginTerm.brackets.failed⟩ : Brackets)
    rw [brackets_beginTerm]
    rfl
  | closeTerm => exact follows_closeTerm h
  | openList =>
    refine .follows (Prod.ext rfl ?_)
    show _ = (⟨.list :: e.beginTerm.brackets.opened, e.beginTerm.brackets.failed⟩ : Brackets)
    rw [brackets_beginTerm]
    rfl
  | closeList => exact e.follows_closeList
  | emptyList =>
    refine .follows (Prod.ext rfl ?_)
    show _ = (Encoder.put (endRun _) _).brackets
    rw [brackets_put, brackets_endRun]
    exact e.brackets_beginTerm.symm
  | atom name => exact e.follows_leaf rfl _
  | int value => exact e.follows_int rfl value
  | bigint value =>
    rw [call, bigint]
    split
    · exact e.follows_int rfl _
    · exact e.follows_leaf rfl _
  | float value => exact e.follows_leaf rfl _
  | var name => exact .follows (Prod.ext rfl e.brackets_beginTerm.symm)
  | fullStop => exact e.follows_fullStop
  | flush =>
    refine .of_sink rfl fun accepts => ?_
    obtain ⟨sink', eq, -⟩ := accepts.flush
    exact congrArg Prod.fst eq

/-- In a run on a sink that takes everything that never exceeds the format all is as in the machine. -/
theorem playAll_brackets {sink : Sink} (accepts : sink.Accepting) {calls : List Call}
    (within : ∀ entry ∈ (playAll call (new sink) calls).1, entry.2.exceedsFormat = false) :
    playAll Brackets.call .start calls =
      ((playAll call (new sink) calls).1, (playAll call (new sink) calls).2.brackets) := by
  refine Brackets.playAll_eq brackets (fun e => e.sink.Accepting ∧ ∃ opened, e.Sound opened)
    ?_ ?_ (s := new sink) ⟨accepts, [], sound_new sink⟩ within
  · rintro e c ⟨accepts, opened, sound⟩
    exact ⟨accepting_call accepts c, _, sound.call c⟩
  · rintro e c ⟨accepts, opened, sound⟩ fits
    exact (follows_call sound c).call_eq accepts fits

end Encoder
end Sicstus

/-! ## SWI-Prolog -/

namespace Swi

/-- What a context is that of. -/
def Context.bracket : Context → Bracket
  | list => .list
  | compound .. => .term

namespace Encoder

/-- What the machine for brackets knows of an encoder. -/
def brackets (e : Encoder) : Brackets := ⟨e.contexts.map Context.bracket, e.failed⟩

@[simp] theorem brackets_put (e : Encoder) (bs : List UInt8) : (e.put bs).brackets = e.brackets := rfl

@[simp] theorem brackets_beginTerm (e : Encoder) : e.beginTerm.brackets = e.brackets := by
  rcases here : e.contexts with _ | ⟨_ | ⟨start, arity⟩, outer⟩ <;>
    simp [brackets, beginTerm, here, put, Context.bracket]

theorem opened_brackets_of_cons {e : Encoder} {x : Context} {outer : List Context}
    (here : e.contexts = x :: outer) :
    e.brackets.opened = x.bracket :: outer.map Context.bracket := by
  rw [brackets, here, List.map_cons]

theorem length_opened_brackets (e : Encoder) : e.brackets.opened.length = e.depth := List.length_map _

theorem opened_brackets_eq_nil_iff {e : Encoder} : e.brackets.opened = [] ↔ e.contexts = [] :=
  List.map_eq_nil_iff

variable {e g : Encoder} {m : Brackets} {c : Call} {opened : List Opening}

/-- A record of its own fails with the sink alone. -/
theorem follows_writeDirect (done : m.call c = (.ok (), g.brackets)) (record : List UInt8) :
    m.Outcome c g.sink.Accepting (g.writeDirect record).1 (g.writeDirect record).2.brackets := by
  refine .of_sink done fun accepts => ?_
  obtain ⟨sink', eq, -⟩ := accepts.write (g.put record).buffer.bytes
  exact congrArg Prod.fst eq

theorem follows_putClosed (done : m.call c = (.ok (), g.brackets)) (code : List UInt8) :
    m.Outcome c g.sink.Accepting (g.putClosed code).1 (g.putClosed code).2.brackets := by
  unfold putClosed
  split
  · exact follows_writeDirect done _
  · exact .follows done

theorem follows_leaf (quiet : e.brackets.call c = (.ok (), e.brackets)) (record code : List UInt8)
    {r : Answer × Encoder}
    (eq : r = if e.isDirect then e.writeDirect record else (.ok (), e.beginTerm.put code)) :
    e.brackets.Outcome c e.sink.Accepting r.1 r.2.brackets := by
  subst eq
  split
  · exact follows_writeDirect quiet record
  · refine .follows ?_
    rw [quiet, brackets_put, brackets_beginTerm]

theorem follows_int (quiet : e.brackets.call c = (.ok (), e.brackets)) (value : Int64) :
    e.brackets.Outcome c e.sink.Accepting (e.int value).1 (e.int value).2.brackets := by
  unfold int
  split
  · exact follows_leaf quiet _ _ rfl
  · exact .format rfl _

theorem follows_closeTerm (h : e.Sound opened) :
    e.brackets.Outcome .closeTerm e.sink.Accepting e.closeTerm.1 e.closeTerm.2.brackets := by
  rcases here : e.contexts with _ | ⟨_ | ⟨start, _ | arity⟩, outer⟩
  case cons.compound.zero =>
    rw [closeTerm_of_lone here]
    have done : e.brackets.call .closeTerm =
        (.ok (), brackets { e with buffer := e.buffer.setLength start, contexts := outer }) :=
      Brackets.close_of_head (opened_brackets_of_cons here)
    exact follows_putClosed done _
  case cons.compound.succ =>
    have headed : Headed e.config e.contexts opened e.buffer.content := h
    rw [here] at headed
    obtain ⟨functor, around, front, back, -, same, rfl, -⟩ := headed.of_compound
    have inside : front.length + 1 < e.buffer.length := by
      rw [← Buffer.length_content, same]
      simp [openHeader]
    rw [closeTerm_of_parts here, if_pos inside]
    exact .follows (Brackets.close_of_head (opened_brackets_of_cons here))
  all_goals
    have other : e.brackets.opened.head? ≠ some .term := by simp [brackets, here, Context.bracket]
    rw [closeTerm, here]
    exact .follows (Brackets.close_of_head_ne other)

theorem follows_closeList (e : Encoder) :
    e.brackets.Outcome .closeList e.sink.Accepting e.closeList.1 e.closeList.2.brackets := by
  rcases here : e.contexts with _ | ⟨_ | ⟨start, arity⟩, outer⟩
  case cons.list =>
    rw [closeList, here]
    have done : e.brackets.call .closeList = (.ok (), brackets { e with contexts := outer }) :=
      Brackets.close_of_head (opened_brackets_of_cons here)
    exact follows_putClosed done _
  all_goals
    have other : e.brackets.opened.head? ≠ some .list := by simp [brackets, here, Context.bracket]
    rw [closeList, here]
    exact .follows (Brackets.close_of_head_ne other)

/-- A whole sentence fails at its full stop with the sink alone. -/
theorem fullStop_error_of_whole {cause : WireError} (unfailed : e.failed = false) (closed : e.contexts = [])
    (answer : e.fullStop.1 = .error cause) : cause = .io .closed := by
  rw [fullStop, if_neg (Bool.eq_false_iff.mp unfailed), if_neg (not_not_intro closed)] at answer
  dsimp only at answer
  split at answer
  · exact Answer.eq_closed_of_ofSink answer
  · next cause' written =>
    obtain rfl := Except.error.inj answer
    split at written
    · cases written
    · unfold writeRecord at written
      dsimp only at written
      split at written
      · exact Answer.eq_closed_of_ofSink written
      · exact Answer.eq_closed_of_ofSink written

theorem follows_fullStop (e : Encoder) :
    e.brackets.Outcome .fullStop e.sink.Accepting e.fullStop.1 e.fullStop.2.brackets := by
  have start : e.fullStop.2.brackets = .start := by
    rw [brackets, (atStart_fullStop e).contexts, (atStart_fullStop e).failed]
    rfl
  rw [start]
  cases failed : e.failed with
  | true =>
    rw [fullStop, if_pos failed]
    exact .follows (Brackets.call_fullStop_of_failed failed)
  | false =>
    by_cases closed : e.contexts = []
    · rcases answer : e.fullStop.1 with cause | _
      · obtain rfl := fullStop_error_of_whole failed closed answer
        refine .sink (fun accepts => ?_) _
        cases answer.symm.trans (fullStop_ok_of_accepting failed closed accepts)
      · exact .follows (Brackets.call_fullStop_of_whole failed (opened_brackets_eq_nil_iff.mpr closed))
    · rw [fullStop, if_neg (Bool.eq_false_iff.mp failed), if_pos closed, ← e.length_opened_brackets]
      exact .follows (Brackets.call_fullStop_of_open failed (mt opened_brackets_eq_nil_iff.mp closed))

/-- Every call does as the machine does, or the format or the sink stands in the way. -/
theorem follows_call (h : e.Sound opened) (c : Call) :
    e.brackets.Outcome c e.sink.Accepting (e.call c).1 (e.call c).2.brackets := by
  cases c with
  | openTerm functor =>
    rw [call, openTerm]
    split
    · refine .follows (Prod.ext rfl ?_)
      show _ = (⟨.term :: e.beginTerm.brackets.opened, e.beginTerm.brackets.failed⟩ : Brackets)
      rw [brackets_beginTerm]
      rfl
    · exact .format rfl _
  | closeTerm => exact follows_closeTerm h
  | openList =>
    refine .follows (Prod.ext rfl ?_)
    show _ = (⟨.list :: e.beginTerm.brackets.opened, e.beginTerm.brackets.failed⟩ : Brackets)
    rw [brackets_beginTerm]
    rfl
  | closeList => exact e.follows_closeList
  | emptyList =>
    have closed := follows_putClosed (g := e.beginTerm) (m := e.brackets) (c := .emptyList)
      (congrArg (Except.ok (), ·) e.brackets_beginTerm.symm) [nilTag]
    rw [sink_beginTerm] at closed
    exact closed
  | atom name =>
    rw [call, atom]
    split
    · exact follows_leaf (c := .atom name) rfl _ _ rfl
    · exact .format rfl _
  | int value => exact follows_int (c := .int value) rfl value
  | bigint value =>
    rw [call, bigint]
    split
    · exact follows_int (c := .bigint value) rfl _
    · exact .format rfl _
  | float value =>
    have same (words : Nat) (code : List UInt8) :
        brackets { e.beginTerm.put code with words := words } = e.brackets := e.brackets_beginTerm
    rw [call, float]
    exact .follows (congrArg (Except.ok (), ·) (same _ _).symm)
  | var name => exact .follows (Prod.ext rfl e.brackets_beginTerm.symm)
  | fullStop => exact e.follows_fullStop
  | flush =>
    refine .of_sink rfl fun accepts => ?_
    obtain ⟨sink', eq, -⟩ := accepts.flush
    exact congrArg Prod.fst eq

/-- In a run on a sink that takes everything that never exceeds the format all is as in the machine. -/
theorem playAll_brackets (config : Config) {sink : Sink} (accepts : sink.Accepting) {calls : List Call}
    (within : ∀ entry ∈ (playAll call (new config sink) calls).1, entry.2.exceedsFormat = false) :
    playAll Brackets.call .start calls =
      ((playAll call (new config sink) calls).1, (playAll call (new config sink) calls).2.brackets) := by
  refine Brackets.playAll_eq brackets (fun e => e.sink.Accepting ∧ ∃ opened, e.Sound opened)
    ?_ ?_ (s := new config sink) ⟨accepts, [], sound_new config sink⟩ within
  · rintro e c ⟨accepts, opened, sound⟩
    exact ⟨accepting_call accepts c, _, sound.call c⟩
  · rintro e c ⟨accepts, opened, sound⟩ fits
    exact (follows_call sound c).call_eq accepts fits

end Encoder
end Swi

/-! ## In step -/

/-- The same calls are made to encoders of both dialects in step, on sinks that take everything. As long as no
call is refused because a format has no place for what it says, both answer every call as the machine for
brackets does, error by error, and after every call both have open what the machine has open: a closing call fails
exactly if nothing is open or what is innermost is of the other kind, and a full stop says that the sentence is
discarded if a call of it has failed, and otherwise how many terms and lists are not closed. -/
theorem playAll_eq_brackets (c : Swi.Config) {s t : Sink} (accepts : s.Accepting) (accepts' : t.Accepting)
    (calls : List Call)
    (within : ∀ entry ∈ (playAll Sicstus.Encoder.call (.new s) calls).1 ++
      (playAll Swi.Encoder.call (.new c t) calls).1, entry.2.exceedsFormat = false) :
    (playAll Sicstus.Encoder.call (.new s) calls).1 = (playAll Brackets.call .start calls).1 ∧
    (playAll Swi.Encoder.call (.new c t) calls).1 = (playAll Brackets.call .start calls).1 ∧
    ∀ made, made <+: calls →
      (playAll Sicstus.Encoder.call (.new s) made).2.brackets = (playAll Brackets.call .start made).2 ∧
      (playAll Swi.Encoder.call (.new c t) made).2.brackets = (playAll Brackets.call .start made).2 ∧
      (playAll Sicstus.Encoder.call (.new s) made).2.depth =
        (playAll Brackets.call .start made).2.opened.length ∧
      (playAll Swi.Encoder.call (.new c t) made).2.depth =
        (playAll Brackets.call .start made).2.opened.length := by
  have withinLeft (entry) (among : entry ∈ (playAll Sicstus.Encoder.call (.new s) calls).1) :=
    within entry (List.mem_append_left _ among)
  have withinRight (entry) (among : entry ∈ (playAll Swi.Encoder.call (.new c t) calls).1) :=
    within entry (List.mem_append_right _ among)
  refine ⟨(congrArg Prod.fst (Sicstus.Encoder.playAll_brackets accepts withinLeft)).symm,
    (congrArg Prod.fst (Swi.Encoder.playAll_brackets c accepts' withinRight)).symm, ?_⟩
  rintro made ⟨rest, rfl⟩
  -- the calls made so far are within the limits of the formats as all of them are
  rw [playAll_append] at withinLeft withinRight
  have left := congrArg Prod.snd
    (Sicstus.Encoder.playAll_brackets accepts fun entry among => withinLeft entry (List.mem_append_left _ among))
  have right := congrArg Prod.snd
    (Swi.Encoder.playAll_brackets c accepts' fun entry among => withinRight entry (List.mem_append_left _ among))
  refine ⟨left.symm, right.symm, ?_, ?_⟩
  · rw [left, Sicstus.Encoder.length_opened_brackets]
  · rw [right, Swi.Encoder.length_opened_brackets]

/-- Four sentences: one with a list that is closed as a term, one with two things left open, one with a list
that is closed as a term after the term has been closed, and a good one. -/
theorem playAll_eq_brackets_of_four :
    let calls : List Call :=
      [.openList, .closeTerm, .closeList, .fullStop,
       .openTerm "f", .openList, .fullStop,
       .openTerm "f", .atom "a", .closeTerm, .closeTerm, .fullStop,
       .openList, .openTerm "f", .var "X", .closeTerm, .closeList, .fullStop]
    (playAll Sicstus.Encoder.call (.new .unlimited) calls).1 = (playAll Brackets.call .start calls).1 ∧
    (playAll Swi.Encoder.call (.new .standard .unlimited) calls).1 = (playAll Brackets.call .start calls).1 ∧
    (playAll Brackets.call .start calls).1.map (·.2) =
      [.ok (), .error (.mismatchedClose .term), .ok (), .error .sentenceDiscarded,
       .ok (), .ok (), .error (.unbalanced 2),
       .ok (), .ok (), .ok (), .error (.mismatchedClose .term), .error .sentenceDiscarded,
       .ok (), .ok (), .ok (), .ok (), .ok (), .ok ()] := by
  intro calls
  have within : ∀ entry ∈ (playAll Sicstus.Encoder.call (.new .unlimited) calls).1 ++
      (playAll Swi.Encoder.call (.new .standard .unlimited) calls).1, entry.2.exceedsFormat = false := by
    decide +kernel
  have both := playAll_eq_brackets .standard Sink.accepting_unlimited Sink.accepting_unlimited calls within
  exact ⟨both.1, both.2.1, rfl⟩

end PrologWire
