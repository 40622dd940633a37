import PrologWire.CommandLine.Run
import PrologWire.Proofs.Arena.Building
import PrologWire.Proofs.Json.Grammar
import PrologWire.Proofs.Sicstus.Delivery
import PrologWire.Proofs.Sicstus.EmptyNames

/-!
# Two ways to the SICStus format

A file of sentences becomes SICStus bytes by calls, or by way of terms that are built in an arena and
written as a whole. Both ways end well for the same files, and up to the first sentence that cannot be
written they put out the same sentences, except that an atom `[]` has become the empty list in the arena.
-/

namespace PrologWire

/-! ## Building the term of a value -/

namespace Json.Value

variable {a : Arena}

/-- Building the term of a value gives a handle that stands for it if the value denotes a term, and fails
otherwise. -/
theorem toTerm_cases (v : Value) (orderly : a.Orderly) (distinct : a.ids.Nodup) :
    (∃ t h b, v.term? = some t ∧ v.toTerm a = (.ok h, b) ∧ a.Grows b ∧ b.Stores h t) ∨
    ∃ cause b, v.term? = none ∧ v.toTerm a = (.error cause, b) := by
  obtain ⟨ts, b, terms, eq, here⟩ | ⟨cause, b, eq, -, useless⟩ :=
    (denotes_script v).run_cases (Builder.keepsUp a orderly distinct) (Builder.at_new a)
  · obtain ⟨t, term, rfl⟩ := Option.map_eq_some_iff.mp terms
    obtain ⟨h, stops, stored⟩ := Builder.At.fullStop_ok here
    refine .inl ⟨t, h, b.arena, term, ?_, here.grows, stored⟩
    rw [toTerm_eq_sentenceTerm_run, eq, sentenceTerm]
    dsimp only
    rw [stops]
  · refine .inr ⟨cause, b.arena, ?_, ?_⟩
    · cases term : v.term? with
      | none => rfl
      | some t => cases useless [t] (by rw [term]; rfl)
    · rw [toTerm_eq_sentenceTerm_run, eq]
      rfl

end Json.Value

/-! ## Epochs of their own -/

/-- The live epochs have the given names, and nothing is in the arena. -/
structure Arena.IsBlank (a : Arena) (ids : List EpochId) : Prop where
  epochs : a.epochs = ids.map (⟨·, 0, 0⟩)
  bytes : a.bytes = .empty
  slots : a.slots = #[]

namespace Arena.IsBlank

variable {a b : Arena} {ids : List EpochId}

theorem ids_eq (h : a.IsBlank ids) : a.ids = ids := by
  rw [Arena.ids, h.epochs, List.map_map]
  exact List.map_id ids

theorem orderly (h : a.IsBlank ids) : a.Orderly := by
  have starts (start : Epoch → Nat) (zero : ∀ id, start ⟨id, 0, 0⟩ = 0) :
      Ascending (a.epochs.map start) 0 := by
    have zeros : a.epochs.map start = List.replicate ids.length 0 := by
      rw [h.epochs, List.map_map, ← List.map_const']
      exact List.map_congr_left fun id _ => zero id
    rw [Ascending, zeros, ← List.replicate_succ']
    exact List.pairwise_replicate.mpr (.inr (Nat.le_refl 0))
  constructor
  · rw [h.bytes]
    exact starts Epoch.byteStart fun _ => rfl
  · rw [h.slots]
    exact starts Epoch.slotStart fun _ => rfl

/-- One more epoch, in which nothing was made yet. -/
theorem exists_beginEpoch (h : a.IsBlank [⟨0⟩]) (n : Nat) :
    ∃ b, a.beginEpoch ⟨n⟩ = .ok b ∧ b.IsBlank [⟨0⟩, ⟨n⟩] := by
  have room : a.epochs.length < maxLiveEpochs := by
    rw [h.epochs]
    decide
  refine ⟨_, if_pos room, ?_, h.bytes, h.slots⟩
  show a.epochs ++ [⟨⟨n⟩, a.bytes.size, a.slots.size⟩] = _
  rw [h.epochs, h.bytes, h.slots]
  rfl

/-- Whatever was made in the epoch, nothing is left when it is erased. -/
theorem exists_truncate {n : Nat} (h : a.IsBlank [⟨0⟩, ⟨n⟩]) (other : n ≠ 0) (grows : a.Grows b) :
    ∃ c, b.truncate ⟨n⟩ = .ok c ∧ c.IsBlank [⟨0⟩] := by
  have epochs : b.epochs = [⟨⟨0⟩, 0, 0⟩, ⟨⟨n⟩, 0, 0⟩] := grows.epochs.trans h.epochs
  have found : b.epochs.findIdx? (·.id = (⟨n⟩ : EpochId)) = some 1 := by
    rw [epochs]
    simp [List.findIdx?_cons, other.symm]
  have erased : b.epochs.getD 1 b.bottom = ⟨⟨n⟩, 0, 0⟩ := by
    rw [epochs]
    rfl
  unfold truncate
  rw [found]
  refine ⟨_, rfl, ?_, ?_, ?_⟩
  · show b.epochs.take 1 = _
    rw [epochs]
    rfl
  · show b.bytes.extract 0 (b.epochs.getD 1 b.bottom).byteStart = _
    rw [erased]
    simp
  · show b.slots.extract 0 (b.epochs.getD 1 b.bottom).slotStart = _
    rw [erased]
    simp

end Arena.IsBlank

namespace Json.Value

/-- As far as offsets reach: the storages stay small when the term of the value is built in an epoch of
its own. -/
def Storable (v : Value) : Prop :=
  ∀ (a : Arena) (n : Nat), a.IsBlank [⟨0⟩, ⟨n⟩] → (v.toTerm a).2.IsSmall

/-- The term of a value that is a sentence, unless an arity is too great. -/
def sentence? (v : Value) : Option (Term String) := v.term?.filter Sicstus.fits

theorem sentence?_eq_some {v : Value} {t : Term String} (term : v.term? = some t)
    (small : Sicstus.fits t = true) : v.sentence? = some t := by
  rw [sentence?, term, Option.filter_some, if_pos small]

theorem sentence?_eq_none {v : Value} (large : ∀ t, v.term? = some t → Sicstus.fits t = false) :
    v.sentence? = none := by
  rw [sentence?, Option.filter_eq_none_iff]
  intro t term small
  rw [large t term] at small
  cases small

end Json.Value

namespace CommandLine

open Json (Value)
open Sicstus (sentenceBytes)

/-- The terms of the sentences before the first that cannot be written. -/
def writtenTerms : List Value → List (Term String)
  | [] => []
  | v :: rest =>
    match v.sentence? with
    | some t => t :: writtenTerms rest
    | none => []

/-- Writes the terms of sentences, each in an epoch of its own. -/
abbrev writeEach (n : Nat) (a : Arena) (vs : List Value) (w : Sicstus.Writer) :
    Answer × Sicstus.Writer :=
  withTerms (fun a h w => w.writeTerm a h) n a vs w

/-! ## One sentence -/

/-- The calls of a value and a full stop write its sentence, or fail and write nothing. -/
theorem stream_cases (v : Value) {e : Sicstus.Encoder} (start : e.AtStart)
    (accepts : e.sink.Accepting) :
    (∃ t e', v.sentence? = some t ∧
      streamSentence Sicstus.Encoder.call v e = (.ok (), e') ∧ e'.AtStart ∧
      e'.sink.Accepting ∧ e'.sink.content = e.sink.content ++ sentenceBytes [t]) ∨
    ∃ cause e', v.sentence? = none ∧
      streamSentence Sicstus.Encoder.call v e = (.error cause, e') ∧
      e'.sink.content = e.sink.content := by
  have small (t : Term String) :
      Sicstus.fitsSoFar ([t].foldl .add .empty : Outline String) = Sicstus.fits t := by
    simp [Sicstus.fitsSoFar]
  rw [streamSentence, v.emit_eq_run_script]
  obtain ⟨ts, after, terms, eq, here⟩ | ⟨cause, after, eq, stays, useless⟩ :=
    v.denotes_script.run_cases (Sicstus.Encoder.keepsUp e.sink.content) (start.at_empty accepts)
  · obtain ⟨t, term, rfl⟩ := Option.map_eq_some_iff.mp terms
    obtain ⟨e', stops, start', accepts', content⟩ := Sicstus.Encoder.At.fullStop_ok here
    have sentence := Value.sentence?_eq_some term ((small t).symm.trans here.small)
    refine .inl ⟨t, e', sentence, ?_, start', accepts', content⟩
    rw [eq]
    exact stops
  · refine .inr ⟨cause, after, Value.sentence?_eq_none fun t term => ?_, by rw [eq]; rfl, ?_⟩
    · rw [← small]
      exact useless [t] (by rw [term]; rfl)
    · rcases stays with refused | ⟨o, here⟩
      · exact refused.content
      · exact here.content

/-- The term of a value that was built in an epoch of its own is written as its sentence in the arena, or
fails and nothing is written. -/
theorem writeEach_cons_cases (v : Value) (storable : v.Storable) {a : Arena} (blank : a.IsBlank [⟨0⟩])
    {n : Nat} (other : n ≠ 0) {w : Sicstus.Writer} (accepts : w.sink.Accepting) (rest : List Value) :
    (∃ t w' b, v.sentence? = some t ∧ b.IsBlank [⟨0⟩] ∧ w'.sink.Accepting ∧
      w'.sink.content = w.sink.content ++ sentenceBytes [t.stored] ∧
      writeEach n a (v :: rest) w = writeEach (n + 1) b rest w') ∨
    ∃ cause w', v.sentence? = none ∧ w'.sink.content = w.sink.content ∧
      writeEach n a (v :: rest) w = (.error cause, w') := by
  obtain ⟨b, begins, fresh⟩ := blank.exists_beginEpoch n
  have distinct : b.ids.Nodup := by
    rw [fresh.ids_eq]
    simpa using other.symm
  unfold writeEach
  rw [withTerms, begins]
  dsimp only
  obtain ⟨t, h, c, term, builds, grows, stored⟩ | ⟨cause, c, term, fails⟩ :=
    v.toTerm_cases fresh.orderly distinct
  · -- the storages have room, so that the handle stands for the term in the arena it was built in
    have room := storable b n fresh
    rw [builds] at room ⊢
    dsimp only
    obtain ⟨w', small, writes, accepts', content⟩ | ⟨cause, w', large, refuses, content⟩ :=
      Sicstus.Writer.writeTerm_of_tree accepts (stored.tree_eq (grows.orderly fresh.orderly) room)
    · obtain ⟨d, erases, blank'⟩ := fresh.exists_truncate other grows
      rw [writes]
      dsimp only
      rw [erases]
      exact .inl ⟨t, w', d, Value.sentence?_eq_some term small, blank', accepts', content, rfl⟩
    · have none : v.sentence? = none := Value.sentence?_eq_none fun u term' => by
        obtain rfl := Option.some.inj (term.symm.trans term')
        exact large
      rw [refuses]
      exact .inr ⟨cause, w', none, content, rfl⟩
  · have none : v.sentence? = none := Value.sentence?_eq_none fun u term' => by
      cases term.symm.trans term'
    rw [fails]
    exact .inr ⟨cause, w, none, rfl, rfl⟩

/-! ## A file of sentences -/

/-- By calls, the sentences before the first that cannot be written arrive, and the run ends well if these
are all. -/
theorem streamAll_cases (vs : List Value) {e : Sicstus.Encoder} (start : e.AtStart)
    (accepts : e.sink.Accepting) :
    ((streamAll Sicstus.Encoder.call vs e).1 = .ok () ↔ (writtenTerms vs).length = vs.length) ∧
      (streamAll Sicstus.Encoder.call vs e).2.sink.content =
        e.sink.content ++ (writtenTerms vs).flatMap fun t => sentenceBytes [t] := by
  induction vs generalizing e with
  | nil => exact ⟨⟨fun _ => rfl, fun _ => rfl⟩, (List.append_nil _).symm⟩
  | cons v rest ih =>
    rw [streamAll, writtenTerms]
    obtain ⟨t, e', sentence, eq, start', accepts', content⟩ | ⟨cause, e', sentence, eq, content⟩ :=
      stream_cases v start accepts
    · rw [eq, sentence]
      obtain ⟨answer, later⟩ := ih start' accepts'
      refine ⟨answer.trans Nat.succ_inj.symm, ?_⟩
      rw [later, content, List.flatMap_cons, List.append_assoc]
    · rw [eq, sentence]
      refine ⟨⟨nofun, nofun⟩, ?_⟩
      rw [List.flatMap_nil, List.append_nil]
      exact content

/-- By way of terms, the same sentences arrive, each as it is in the arena. -/
theorem writeEach_cases {vs : List Value} (storable : ∀ v ∈ vs, v.Storable) {a : Arena}
    (blank : a.IsBlank [⟨0⟩]) {n : Nat} (other : n ≠ 0) {w : Sicstus.Writer}
    (accepts : w.sink.Accepting) :
    ((writeEach n a vs w).1 = .ok () ↔
        (writtenTerms vs).length = vs.length) ∧
      (writeEach n a vs w).2.sink.content =
        w.sink.content ++ (writtenTerms vs).flatMap fun t => sentenceBytes [t.stored] := by
  induction vs generalizing a n w with
  | nil => exact ⟨⟨fun _ => rfl, fun _ => rfl⟩, (List.append_nil _).symm⟩
  | cons v rest ih =>
    rw [writtenTerms]
    obtain ⟨first, others⟩ := List.forall_mem_cons.mp storable
    obtain ⟨t, w', b, sentence, blank', accepts', content, eq⟩ | ⟨cause, w', sentence, content, eq⟩ :=
      writeEach_cons_cases v first blank other accepts rest
    · rw [eq, sentence]
      obtain ⟨answer, later⟩ := ih others blank' n.succ_ne_zero accepts'
      refine ⟨answer.trans Nat.succ_inj.symm, ?_⟩
      rw [later, content, List.flatMap_cons, List.append_assoc]
    · rw [eq, sentence]
      refine ⟨⟨nofun, nofun⟩, ?_⟩
      rw [List.flatMap_nil, List.append_nil]
      exact content

/-- What encoding by calls puts out. -/
theorem encodeAll_sicstus (config : Swi.Config) (vs : List Value) :
    ((encodeAll .sicstus config vs).1 = .ok () ↔ (writtenTerms vs).length = vs.length) ∧
      (encodeAll .sicstus config vs).2.toList =
        (writtenTerms vs).flatMap fun t => sentenceBytes [t] :=
  streamAll_cases vs (Sicstus.Encoder.atStart_new .unlimited) Sink.accepting_unlimited

/-- What encoding by way of terms puts out. -/
theorem encodeAll_sicstusTree (config : Swi.Config) {vs : List Value}
    (storable : ∀ v ∈ vs, v.Storable) :
    ((encodeAll .sicstusTree config vs).1 = .ok () ↔ (writtenTerms vs).length = vs.length) ∧
      (encodeAll .sicstusTree config vs).2.toList =
        (writtenTerms vs).flatMap fun t => sentenceBytes [t.stored] :=
  writeEach_cases (w := .new .unlimited) storable (a := fileArena) ⟨rfl, rfl, rfl⟩
    Nat.one_ne_zero Sink.accepting_unlimited

/-- Encoding a file of sentences by calls and by way of terms ends well or fails for the same files. Up to
the first sentence that cannot be written the same sentences come out, each with empty lists in place of
its atoms `[]` if it went by way of a term; so the bytes are the same if and only if there is no such atom
in any of these sentences. -/
theorem encodeAll_sicstus_iff_sicstusTree (config : Swi.Config) {vs : List Value}
    (storable : ∀ v ∈ vs, v.Storable) :
    ((encodeAll .sicstus config vs).1 = .ok () ↔ (encodeAll .sicstusTree config vs).1 = .ok ()) ∧
      (encodeAll .sicstus config vs).2.toList =
        ((writtenTerms vs).flatMap fun t => sentenceBytes [t]) ∧
      (encodeAll .sicstusTree config vs).2.toList =
        ((writtenTerms vs).flatMap fun t => sentenceBytes [t.stored]) ∧
      ((encodeAll .sicstus config vs).2 = (encodeAll .sicstusTree config vs).2 ↔
        ∀ t ∈ writtenTerms vs, t.emptyNames = 0) := by
  obtain ⟨answer, streamed⟩ := encodeAll_sicstus config vs
  obtain ⟨answer', built⟩ := encodeAll_sicstusTree config storable
  refine ⟨answer.trans answer'.symm, streamed, built, ?_⟩
  rw [← Array.toList_inj, streamed, built]
  exact Sicstus.flatMap_sentenceBytes_stored_iff _

/-- A compound of a variable and the empty list, and a list of a small integer and a compound without
arguments. -/
def sampleFile : List Value :=
  [.object [("args", .array [.object [("var", .string "X")], .array []]), ("func", .string "f")],
    .array [.number (.integer 104), .object [("func", .string "a")]]]

theorem storable_sampleFile : ∀ v ∈ sampleFile, v.Storable := by
  intro v among a n blank
  obtain ⟨id, epochs, nonempty, bytes, slots⟩ := a
  obtain ⟨rfl, rfl, rfl⟩ := blank
  rw [sampleFile, List.mem_cons, List.mem_singleton] at among
  rw [v.toTerm_eq_sentenceTerm_run]
  rcases among with rfl | rfl
  · exact ⟨(by decide : 0 < UInt32.size), (by decide : 3 < UInt32.size)⟩
  · exact ⟨(by decide : 0 < UInt32.size), (by decide : 2 < UInt32.size)⟩

theorem encodeAll_sampleFile :
    ((encodeAll .sicstus .standard sampleFile).1 = .ok () ↔
        (encodeAll .sicstusTree .standard sampleFile).1 = .ok ()) ∧
      (encodeAll .sicstus .standard sampleFile).2 = (encodeAll .sicstusTree .standard sampleFile).2 := by
  obtain ⟨answers, -, -, same⟩ := encodeAll_sicstus_iff_sicstusTree .standard storable_sampleFile
  exact ⟨answers, same.mpr (by decide +kernel)⟩

/-- The atom `[]` comes out as itself by calls, and as the empty list by way of terms. -/
theorem encodeAll_emptyName :
    (encodeAll .sicstus .standard [.string "[]"]).2 = #[0x44, 0x41, 0x5b, 0x5d, 0x00] ∧
      (encodeAll .sicstusTree .standard [.string "[]"]).2 = #[0x44, 0x5d] ∧
      (encodeAll .sicstus .standard [.string "[]"]).2 ≠
        (encodeAll .sicstusTree .standard [.string "[]"]).2 := by
  have storable : ∀ v ∈ [Value.string "[]"], v.Storable := by
    intro v among a n blank
    rw [List.mem_singleton.mp among, Value.toTerm_eq_sentenceTerm_run]
    obtain ⟨id, epochs, nonempty, bytes, slots⟩ := a
    obtain ⟨rfl, rfl, rfl⟩ := blank
    exact ⟨(by decide : 0 < UInt32.size), (by decide : 0 < UInt32.size)⟩
  have streamed : (encodeAll .sicstus .standard [.string "[]"]).2 = #[0x44, 0x41, 0x5b, 0x5d, 0x00] := by
    rw [← Array.toList_inj, (encodeAll_sicstus .standard _).2]
    decide +kernel
  have built : (encodeAll .sicstusTree .standard [.string "[]"]).2 = #[0x44, 0x5d] := by
    rw [← Array.toList_inj, (encodeAll_sicstusTree .standard storable).2]
    decide +kernel
  refine ⟨streamed, built, ?_⟩
  rw [streamed, built]
  decide

end CommandLine

end PrologWire
