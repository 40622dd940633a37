import PrologWire.Proofs.Swi.Progress

/-!
# The record of a sentence

When a sentence ends well, the sink has the records of the lone terms that came first, and one record of
all others together; `sentenceBytes` has these bytes. A sentence of one term that is well bracketed goes
well if the receiver takes all integers and names of the term, and then it leaves exactly the record of
the term on the sink.
-/

namespace PrologWire.Swi

/-! ## The bytes of a sentence -/

section

variable (c : Config)

/-- The record of terms that are gathered in the buffer. It has the sizes of one term. -/
def gatheredRecord (ts : List (Term String)) : List UInt8 :=
  let code := codeAll c (Term.numbered ts)
  let vars := (Term.names ts).length
  (if vars = 0 then c.header ||| groundBit else c.header) ::
    varint code.length ++ varint (wordCountAll c ts) ++ (if vars = 0 then [] else varint vars) ++ code

/-- What is on the sink of a sentence of terms when it has ended well. -/
def sentenceBytes (ts : List (Term String)) : List UInt8 :=
  loneRecords c ts ++
    if (buffered c ts).isEmpty then [] else gatheredRecord c (buffered c ts)

variable {ν μ : Type} (f : ν → μ)

/-- Which terms are gathered does not depend on the variables. -/
theorem buffered_map (ts : List (Term ν)) :
    buffered c (ts.map (Term.map f)) = (buffered c ts).map (Term.map f) := by
  induction ts with
  | nil => rfl
  | cons t rest ih =>
    rw [List.map_cons, buffered, buffered, directRecord?_map]
    split
    · exact ih
    · rfl

/-- Records of their own do not depend on the variables. -/
theorem loneRecords_map (ts : List (Term ν)) :
    loneRecords c (ts.map (Term.map f)) = loneRecords c ts := by
  induction ts with
  | nil => rfl
  | cons t rest ih =>
    rw [List.map_cons, loneRecords, loneRecords, directRecord?_map, ih]

/-- A term with a record of its own has no variables. -/
theorem vars_of_directRecord? {t : Term ν} {record : List UInt8}
    (h : directRecord? c t = some record) : t.vars = [] := by
  obtain ⟨name, rfl | rfl, -⟩ | ⟨value, rfl, -⟩ | ⟨rfl, -⟩ := directRecord?_eq_some c h
  · rfl
  · rfl
  · rfl
  · rfl

/-- What is gathered has all variables. -/
theorem vars_buffered (ts : List (Term ν)) :
    (buffered c ts).flatMap Term.vars = ts.flatMap Term.vars := by
  induction ts with
  | nil => rfl
  | cons t rest ih =>
    rw [buffered]
    split
    · next record lone => rw [ih, List.flatMap_cons, vars_of_directRecord? c lone, List.nil_append]
    · rfl

theorem names_buffered (ts : List (Term String)) : Term.names (buffered c ts) = Term.names ts := by
  rw [Term.names, Term.names, vars_buffered]

/-- All words of a sentence are in what is gathered. -/
theorem wordCountAll_buffered (ts : List (Term ν)) :
    wordCountAll c (buffered c ts) = wordCountAll c ts := by
  induction ts with
  | nil => rfl
  | cons t rest ih =>
    rw [buffered]
    split
    · next record lone => rw [ih, wordCountAll, wordCount_of_directRecord? lone, Nat.zero_add]
    · rfl

/-- The bytes of a sentence of one term are the record of the term. -/
theorem sentenceBytes_singleton (t : Term String) : sentenceBytes c [t] = recordBytes c t := by
  rw [sentenceBytes, recordBytes]
  rcases lone : directRecord? c t with _ | record
  · have ground : (t.vars = []) = ((Term.names [t]).length = 0) :=
      propext (Term.length_names_eq_zero t).symm
    have code : codeAll c (Term.numbered [t]) = code c (t.map (Term.names [t]).idxOf) :=
      List.append_nil _
    have words : wordCountAll c [t] = wordCount c t := Nat.add_zero _
    simp only [buffered, loneRecords, lone, gatheredRecord, code, words, ground]
    rfl
  · simp [buffered, loneRecords, lone]

end

namespace Encoder

/-! ## Beginning and end of a sentence -/

/-- The encoder is at the beginning of a sentence. -/
structure AtStart (e : Encoder) : Prop where
  buffer : e.buffer.content = []
  vars : e.vars = .empty
  contexts : e.contexts = []
  words : e.words = 0
  failed : e.failed = false

/-- A new encoder is at the beginning of its first sentence. -/
theorem atStart_new (c : Config) (sink : Sink) : (new c sink).AtStart :=
  ⟨Buffer.content_empty, rfl, rfl, rfl, rfl⟩

/-- An encoder that has forgotten its sentence is at the beginning of the next one. -/
theorem atStart_reset (e : Encoder) : e.reset.AtStart :=
  ⟨Buffer.content_clear _, rfl, rfl, rfl, rfl⟩

/-- After a full stop, however it goes, an encoder is at the beginning of a sentence. -/
theorem atStart_fullStop (e : Encoder) : e.fullStop.2.AtStart := by
  unfold fullStop
  split
  · exact atStart_reset e
  · split
    · exact atStart_reset e
    · dsimp only
      split
      · exact ⟨Buffer.content_clear _, rfl, rfl, rfl, rfl⟩
      · exact atStart_reset _

/-- Before the first call there is an empty outline. -/
theorem AtStart.progress {e : Encoder} (h : e.AtStart) (accepts : e.sink.Accepting) :
    Progress e.config e.sink.content e .empty where
  names_eq := by rw [h.vars]; rfl
  gathered _ := ⟨rfl, h.buffer, h.contexts ▸ trivial, h.words, h.failed, accepts,
    (List.append_nil _).symm⟩

/-- A full stop after whole terms completes what is to be on the sink of them. -/
theorem Progress.fullStop_whole {c : Config} {sent : List UInt8} {e : Encoder} {ts : List (Term String)}
    (h : Progress c sent e ⟨ts, []⟩) :
    ∃ e', e.fullStop = (.ok (), e') ∧ e'.AtStart ∧ e'.config = c ∧ e'.sink.Accepting ∧
      e'.sink.content = sent ++ sentenceBytes c ts := by
  obtain ⟨names, rfl, content, located, counted, unfailed, accepts, delivered⟩ := h.whole
  have closed : e.contexts = [] := located.eq_nil
  -- only the terms behind the lone ones are in the buffer, with the numbers of the whole sentence
  simp only [Term.numbered, Layout.bytes, layout_whole, buffered_map, loneRecords_map]
    at content delivered
  rw [← names_buffered e.config ts] at content names
  have words : e.words = wordCountAll e.config (buffered e.config ts) := by
    rw [counted, wordsSoFar, Term.numbered, ← Term.mapAll_eq_map, wordCountAll_mapAll,
      wordCountAll_buffered]
  by_cases empty : buffered e.config ts = []
  · -- all that there is to write is on the sink already
    rw [empty] at content
    have nothing : e.buffer.isEmpty = true := (Buffer.isEmpty_iff_content _).mpr content
    obtain ⟨sink', flush', content', accepts'⟩ := accepts.flush
    refine ⟨{ e with sink := sink' }.reset, ?_, atStart_reset _, rfl, accepts', ?_⟩
    · simp [fullStop, unfailed, closed, nothing, Encoder.flush, reset, flush', Answer.ofSink]
    · rw [reset, content', delivered, sentenceBytes, empty, List.isEmpty_nil, if_pos rfl,
        List.append_nil]
  · have gathered : e.buffer.isEmpty = false := by
      rw [Bool.eq_false_iff, ne_eq, Buffer.isEmpty_iff_content, content, codeAll_eq_nil,
        List.map_eq_nil_iff]
      exact empty
    obtain ⟨sink₁, write₁, content₁, accepts₁⟩ := accepts.write e.recordStart.toArray
    obtain ⟨sink₂, write₂, content₂, accepts₂⟩ := accepts₁.write e.buffer.bytes
    obtain ⟨sink₃, flush₃, content₃, accepts₃⟩ := accepts₂.flush
    refine ⟨{ e with sink := sink₃ }.reset, ?_, atStart_reset _, rfl, accepts₃, ?_⟩
    · simp [fullStop, unfailed, closed, gathered, writeRecord, write₁, write₂, Encoder.flush, reset,
        flush₃, Answer.ofSink]
    · have record : e.recordStart ++ e.buffer.content =
          gatheredRecord e.config (buffered e.config ts) := by
        rw [recordStart, gatheredRecord, VarTable.size, names, ← Buffer.length_content, words, content]
        split <;> simp_all [Term.numbered]
      have bytes : e.buffer.bytes.toList = e.buffer.content := rfl
      rw [reset, content₃, content₂, content₁, delivered, bytes, sentenceBytes,
        if_neg (by rwa [List.isEmpty_iff]), ← record]
      simp only [List.append_assoc]

/-- A full stop after one term completes its record on the sink. -/
theorem Progress.fullStop_ok {c : Config} {sent : List UInt8} {e : Encoder} {t : Term String}
    (h : Progress c sent e ⟨[t], []⟩) :
    ∃ e', e.fullStop = (.ok (), e') ∧ e'.AtStart ∧ e'.config = c ∧ e'.sink.Accepting ∧
      e'.sink.content = sent ++ recordBytes c t := by
  rw [← sentenceBytes_singleton]
  exact h.fullStop_whole

/-- The calls of one term go well if the receiver takes the term, and then they and the full stop leave
its record on the sink. -/
theorem AtStart.playAll_ok {e : Encoder} (h : e.AtStart) (accepts : e.sink.Accepting)
    {calls : List Call} {t : Term String} (whole : Term.ofCalls? calls = some [t])
    (taken : takes e.config t = true) :
    ∃ e', playAll Encoder.call e (calls ++ [.fullStop]) =
        ((calls ++ [Call.fullStop]).map (·, .ok ()), e') ∧ e'.AtStart ∧ e'.config = e.config ∧
      e'.sink.Accepting ∧ e'.sink.content = e.sink.content ++ recordBytes e.config t := by
  have follows := Term.ofCalls?_eq_some.mp whole
  have ok : takesSoFar e.config (⟨[t], []⟩ : Outline String) = true := by
    simpa [takesSoFar, Outline.all] using taken
  obtain ⟨e₁, eq₁, progress, -⟩ := (keepsUp e.config e.sink.content).playAll_ok
    ⟨h.progress accepts, rfl⟩ follows ok
  obtain ⟨e₂, eq₂, start, config, accepts₂, content⟩ := progress.fullStop_ok
  refine ⟨e₂, ?_, start, config, accepts₂, content⟩
  have stop : e₁.call Call.fullStop = (.ok (), e₂) := eq₂
  rw [playAll_append, eq₁, playAll_cons, stop, List.map_append]
  rfl

/-- One of the calls of a term is refused if the receiver does not take the term, and so is the full
stop. -/
theorem AtStart.playAll_error {e : Encoder} (h : e.AtStart) (accepts : e.sink.Accepting)
    {calls : List Call} {t : Term String} (whole : Term.ofCalls? calls = some [t])
    (refused : takes e.config t = false) :
    (∃ x cause, (x, .error cause) ∈ (playAll Encoder.call e calls).1) ∧
      (playAll Encoder.call e calls).2.failed = true := by
  have bad : takesSoFar e.config (⟨[t], []⟩ : Outline String) = false := by
    simpa [takesSoFar, Outline.all] using refused
  exact (keepsUp e.config e.sink.content).playAll_error ⟨h.progress accepts, rfl⟩
    (Term.ofCalls?_eq_some.mp whole) bad

/-- The calls of one term and its full stop all go well if and only if every integer fits into a word
of the receiver and every name is in Latin-1 or need not be; and then they leave exactly the record of
the term on the sink. -/
theorem playAll_fullStop_record {e : Encoder} (start : e.AtStart) (accepts : e.sink.Accepting)
    {calls : List Call} {t : Term String} (whole : Term.ofCalls? calls = some [t]) :
    ((∀ entry ∈ (playAll Encoder.call e (calls ++ [.fullStop])).1, entry.2 = .ok ()) ↔
      (∀ value ∈ t.integers,
        -2 ^ (e.config.intBits - 1) ≤ value ∧ value < 2 ^ (e.config.intBits - 1)) ∧
      (e.config.wideAtoms = true ∨ ∀ name ∈ t.symbols, isLatin1 name.toList = true)) ∧
    ((∀ entry ∈ (playAll Encoder.call e (calls ++ [.fullStop])).1, entry.2 = .ok ()) →
      (playAll Encoder.call e (calls ++ [.fullStop])).2.sink.content =
        e.sink.content ++ recordBytes e.config t) := by
  rw [← takes_iff]
  rcases (takes e.config t).eq_false_or_eq_true with taken | refused
  · obtain ⟨e', eq, -, -, -, content⟩ := start.playAll_ok accepts whole taken
    have well : ∀ entry ∈ (playAll Encoder.call e (calls ++ [.fullStop])).1, entry.2 = .ok () := by
      rw [eq]
      intro entry among
      obtain ⟨x, -, rfl⟩ := List.mem_map.mp among
      rfl
    refine ⟨⟨fun _ => taken, fun _ => well⟩, fun _ => ?_⟩
    rw [eq]
    exact content
  · obtain ⟨⟨x, cause, among⟩, -⟩ := start.playAll_error accepts whole refused
    have ill : ¬∀ entry ∈ (playAll Encoder.call e (calls ++ [.fullStop])).1, entry.2 = .ok () := by
      intro well
      rw [playAll_append] at well
      exact nomatch well _ (List.mem_append_left _ among)
    exact ⟨⟨fun well => absurd well ill, fun taken => nomatch refused.symm.trans taken⟩,
      fun well => absurd well ill⟩

/-- A compound with a variable and an integer. -/
def sampleCalls : List Call := [.openTerm "f", .var "X", .int 7, .closeTerm]

theorem playAll_fullStop_record_standard :
    (playAll Encoder.call (new .standard .unlimited) (sampleCalls ++ [.fullStop])).2.sink.content =
      recordBytes .standard (.compound "f" [.var "X", .integer 7]) := by
  have whole : Term.ofCalls? sampleCalls = some [.compound "f" [.var "X", .integer 7]] := rfl
  obtain ⟨accepted, written⟩ :=
    playAll_fullStop_record (atStart_new .standard .unlimited) Sink.accepting_unlimited whole
  refine written (accepted.mpr ⟨?_, .inl rfl⟩)
  intro value among
  obtain rfl : value = 7 := by simpa [Term.integers, Term.integersAll] using among
  decide

end Encoder

end PrologWire.Swi
