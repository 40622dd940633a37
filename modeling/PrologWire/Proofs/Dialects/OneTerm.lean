import PrologWire.Proofs.Sicstus.AnySink
import PrologWire.Proofs.Sicstus.ReadCode
import PrologWire.Proofs.Swi.Decoder
import PrologWire.Proofs.Swi.Delivery

/-!
# Sentences of one term

A full stop goes well after any number of whole terms, and what it has brought to the sink by then are the
bytes of them all. These are the bytes of one whole sentence exactly if there was one term: of none
there are too few bytes, and of several there are bytes left behind the first.
-/

namespace PrologWire

/-- After any calls on a sink that takes everything, a full stop that goes well has brought the bytes of
the terms of its sentence to the sink. A reader of sentences finds one sentence in these bytes, with
nothing behind it, if and only if the sentence has exactly one term, and then it finds this term. For
SICStus, where a null character would end a name, this is so of sentences without one in their names. -/
theorem delivered_of_fullStop_ok {sink : Sink} (accepts : sink.Accepting) {history calls : List Call}
    (begins : SentenceBegins history) (going : Call.fullStop ∉ calls) :
    (((Sicstus.Encoder.consumer.after (.new sink) (history ++ calls)).call .fullStop).1 = .ok () →
      ∃ ts, Term.ofCalls? calls = some ts ∧
        (Sicstus.Encoder.consumer.after (.new sink) (history ++ calls ++ [.fullStop])).sink.content =
          (Sicstus.Encoder.consumer.after (.new sink) history).sink.content ++
            Sicstus.sentenceBytes ts ∧
        ((∀ t ∈ ts, ∀ name ∈ t.symbols, '\x00' ∉ name.toList) →
          ∀ r, Sicstus.readSentence (Sicstus.sentenceBytes ts) = some (r, []) ↔
            ∃ t, ts = [t] ∧ r = (t.map (Term.names [t]).idxOf).reading)) ∧
    ∀ c : Swi.Config,
      ((Swi.Encoder.consumer.after (.new c sink) (history ++ calls)).call .fullStop).1 = .ok () →
      ∃ ts, Term.ofCalls? calls = some ts ∧
        (Swi.Encoder.consumer.after (.new c sink) (history ++ calls ++ [.fullStop])).sink.content =
          (Swi.Encoder.consumer.after (.new c sink) history).sink.content ++ Swi.sentenceBytes c ts ∧
        ∀ r, Swi.readRecord c (Swi.sentenceBytes c ts) = some (r, []) ↔
          ∃ t, ts = [t] ∧ r = (t.map (Term.names [t]).idxOf).collapse := by
  -- the history counts for no more than that the encoder is at the beginning of a sentence
  constructor
  · intro stopped
    rw [Consumer.after_append] at stopped
    obtain ⟨ts, terms, small, content⟩ := (Sicstus.Encoder.atStart_after begins sink).terms_of_fullStop_ok
      (Sicstus.Encoder.accepting_after accepts history) going stopped
    refine ⟨ts, terms, ?_, fun free r => Sicstus.readSentence_sentenceBytes_iff fun t among => ?_⟩
    · rw [Consumer.after_concat, Consumer.after_append]
      exact content
    · rw [Sicstus.fitsAll_eq_all, List.all_eq_true] at small
      exact ⟨small t among, free t among⟩
  · intro c stopped
    have start := Swi.Encoder.atStart_after begins c sink
    have config : (Swi.Encoder.consumer.after (.new c sink) history).config = c :=
      Swi.Encoder.config_after _ history
    rw [Consumer.after_append] at stopped
    obtain ⟨ts, terms, taken, content⟩ := start.terms_of_fullStop_ok
      (Swi.Encoder.accepting_after accepts history) going stopped
    rw [config] at taken content
    refine ⟨ts, terms, ?_, fun r => Swi.readRecord_sentenceBytes_iff (List.all_eq_true.mp taken)⟩
    rw [Consumer.after_concat, Consumer.after_append]
    exact content

/-- An integer as a sentence, and an atom in the next one. -/
theorem delivered_of_fullStop_ok_atom :
    (∃ bs, (Sicstus.Encoder.consumer.after (.new .unlimited)
          ([.int 7, .fullStop] ++ [.atom "a"] ++ [.fullStop])).sink.content =
        (Sicstus.Encoder.consumer.after (.new .unlimited) [.int 7, .fullStop]).sink.content ++ bs ∧
      Sicstus.readSentence bs = some (.atom "a", [])) ∧
    ∃ bs, (Swi.Encoder.consumer.after (.new .standard .unlimited)
          ([.int 7, .fullStop] ++ [.atom "a"] ++ [.fullStop])).sink.content =
        (Swi.Encoder.consumer.after (.new .standard .unlimited) [.int 7, .fullStop]).sink.content ++ bs ∧
      Swi.readRecord .standard bs = some (.atom "a", []) := by
  have begins : SentenceBegins [.int 7, .fullStop] := .inr ⟨[.int 7], rfl⟩
  have going : Call.fullStop ∉ [Call.atom "a"] := by decide
  have delivered := delivered_of_fullStop_ok Sink.accepting_unlimited begins going
  have one : Term.ofCalls? [.atom "a"] = some [.atom "a"] := rfl
  constructor
  · obtain ⟨ts, terms, content, reads⟩ := delivered.1 rfl
    obtain rfl := Option.some.inj (one.symm.trans terms)
    refine ⟨_, content, (reads ?_ _).mpr ⟨_, rfl, rfl⟩⟩
    simp [Term.symbols]
  · obtain ⟨ts, terms, content, reads⟩ := delivered.2 .standard rfl
    obtain rfl := Option.some.inj (one.symm.trans terms)
    exact ⟨_, content, (reads _).mpr ⟨_, rfl, rfl⟩⟩

/-- Two terms without a full stop between them. -/
def twoAtoms : List Call := [.atom "a", .atom "b"]

/-- A full stop can go well after two terms. -/
theorem not_forall_one_of_fullStop_ok :
    (¬∀ calls : List Call, Call.fullStop ∉ calls →
      ((Sicstus.Encoder.consumer.after (.new .unlimited) calls).call .fullStop).1 = .ok () →
      ∃ r, Sicstus.readSentence
        (Sicstus.Encoder.consumer.after (.new .unlimited) (calls ++ [.fullStop])).sink.content =
          some (r, [])) ∧
    ¬∀ (c : Swi.Config) (calls : List Call), Call.fullStop ∉ calls →
      ((Swi.Encoder.consumer.after (.new c .unlimited) calls).call .fullStop).1 = .ok () →
      ∃ r, Swi.readRecord c
        (Swi.Encoder.consumer.after (.new c .unlimited) (calls ++ [.fullStop])).sink.content =
          some (r, []) := by
  constructor
  · intro one
    obtain ⟨r, read⟩ := one twoAtoms (by decide) rfl
    have content : (Sicstus.Encoder.consumer.after (.new .unlimited)
        (twoAtoms ++ [.fullStop])).sink.content = Sicstus.sentenceBytes [.atom "a", .atom "b"] := by
      decide +kernel
    have clear : ∀ t ∈ [Term.atom "a", Term.atom "b"], Sicstus.Legible (t : Term String) := by
      intro t among
      simp only [List.mem_cons, List.not_mem_nil, or_false] at among
      rcases among with rfl | rfl
      · exact ⟨rfl, by simp [Term.symbols]⟩
      · exact ⟨rfl, by simp [Term.symbols]⟩
    rw [content, Sicstus.readSentence_sentenceBytes_iff clear] at read
    obtain ⟨t, same, -⟩ := read
    cases same
  · intro one
    obtain ⟨r, read⟩ := one .standard twoAtoms (by decide) rfl
    have content : (Swi.Encoder.consumer.after (.new .standard .unlimited)
        (twoAtoms ++ [.fullStop])).sink.content =
          Swi.sentenceBytes .standard [.atom "a", .atom "b"] := by
      decide +kernel
    rw [content, Swi.readRecord_sentenceBytes_iff (by decide)] at read
    obtain ⟨t, same, -⟩ := read
    cases same

end PrologWire
