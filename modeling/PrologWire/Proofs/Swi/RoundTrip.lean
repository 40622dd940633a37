import PrologWire.Proofs.Swi.Decoder

/-!
# The round trip

Sentences of one term each, all of which are accepted, leave bytes on the sink from which `decode` has
the terms back.
-/

namespace PrologWire.Swi

namespace Encoder

/-- A full stop goes well only if the receiver takes the term before it. -/
theorem AtStart.takes_of_fullStop_ok {e : Encoder} (h : e.AtStart) (accepts : e.sink.Accepting)
    {calls : List Call} {t : Term String} (whole : Term.ofCalls? calls = some [t])
    (stopped : ((playAll Encoder.call e calls).2.call .fullStop).1 = .ok ()) :
    takes e.config t = true := by
  rcases (takes e.config t).eq_false_or_eq_true with taken | refused
  · exact taken
  · obtain ⟨-, failed⟩ := h.playAll_error accepts whole refused
    rw [call, fullStop, if_pos failed] at stopped
    cases stopped

/-- What accepted sentences of one term each leave on the sink. -/
theorem AtStart.playAll_sentences {e : Encoder} (h : e.AtStart) (accepts : e.sink.Accepting)
    {sentences : List (List Call)} {ts : List (Term String)}
    (terms : sentences.map Term.ofCalls? = ts.map fun t => some [t])
    (stopped : ∀ entry ∈ (playAll Encoder.call e (sentences.flatMap (· ++ [.fullStop]))).1,
      entry.1 = .fullStop → entry.2 = .ok ()) :
    (∀ t ∈ ts, takes e.config t = true) ∧
      (playAll Encoder.call e (sentences.flatMap (· ++ [.fullStop]))).2.sink.content =
        e.sink.content ++ ts.flatMap (recordBytes e.config) := by
  induction sentences generalizing e ts with
  | nil =>
    obtain rfl := List.map_eq_nil_iff.mp terms.symm
    exact ⟨fun t among => absurd among List.not_mem_nil, (List.append_nil _).symm⟩
  | cons calls sentences ih =>
    obtain ⟨t, ts, rfl, whole, terms⟩ := List.map_eq_cons_iff.mp terms.symm
    rw [List.flatMap_cons, playAll_append] at stopped ⊢
    have last : ((playAll Encoder.call e calls).2.call .fullStop).1 = .ok () := by
      refine stopped (.fullStop, ((playAll Encoder.call e calls).2.call .fullStop).1)
        (List.mem_append_left _ ?_) rfl
      rw [playAll_append, playAll_cons]
      exact List.mem_append_right _ List.mem_cons_self
    have taken := h.takes_of_fullStop_ok accepts whole.symm last
    obtain ⟨e', eq, start, config, accepts', content⟩ := h.playAll_ok accepts whole.symm taken
    rw [eq] at stopped ⊢
    obtain ⟨others, all⟩ := ih start accepts' terms.symm fun entry among =>
      stopped entry (List.mem_append_right _ among)
    rw [config] at others all
    refine ⟨?_, ?_⟩
    · simpa [taken] using others
    · rw [all, content, List.flatMap_cons, List.append_assoc]

/-- Sentences whose terms the receiver takes are all accepted. -/
theorem AtStart.playAll_sentences_ok {e : Encoder} (h : e.AtStart) (accepts : e.sink.Accepting)
    {sentences : List (List Call)} {ts : List (Term String)}
    (terms : sentences.map Term.ofCalls? = ts.map fun t => some [t])
    (taken : ∀ t ∈ ts, takes e.config t = true) :
    ∀ entry ∈ (playAll Encoder.call e (sentences.flatMap (· ++ [.fullStop]))).1,
      entry.2 = .ok () := by
  induction sentences generalizing e ts with
  | nil => exact fun entry among => absurd among List.not_mem_nil
  | cons calls sentences ih =>
    obtain ⟨t, ts, rfl, whole, terms⟩ := List.map_eq_cons_iff.mp terms.symm
    obtain ⟨e', eq, start, config, accepts', -⟩ :=
      h.playAll_ok accepts whole.symm (taken t List.mem_cons_self)
    have others := ih start accepts' terms.symm fun u among =>
      config ▸ taken u (List.mem_cons_of_mem _ among)
    rw [List.flatMap_cons, playAll_append, eq]
    intro entry among
    rcases List.mem_append.mp among with first | later
    · obtain ⟨x, -, rfl⟩ := List.mem_map.mp first
      rfl
    · exact others entry later

end Encoder

/-- The bytes of accepted sentences, each of one term, decode to these terms in order, with a number
for every variable and an atom for every compound without arguments. -/
theorem decode_content_playAll (c : Config) {sink : Sink} (accepts : sink.Accepting)
    (fresh : sink.content = []) {sentences : List (List Call)} {ts : List (Term String)}
    (terms : sentences.map Term.ofCalls? = ts.map fun t => some [t])
    (stopped : ∀ entry ∈ (playAll Encoder.call (Encoder.new c sink)
      (sentences.flatMap (· ++ [.fullStop]))).1, entry.1 = .fullStop → entry.2 = .ok ()) :
    decode c (playAll Encoder.call (Encoder.new c sink)
      (sentences.flatMap (· ++ [.fullStop]))).2.sink.content =
        some (ts.map fun t => (t.map (Term.names [t]).idxOf).collapse) := by
  obtain ⟨taken, content⟩ :=
    (Encoder.atStart_new c sink).playAll_sentences accepts terms stopped
  have config : (Encoder.new c sink).config = c := rfl
  have nothing : (Encoder.new c sink).sink.content = [] := fresh
  rw [config] at taken content
  rw [content, nothing, List.nil_append, decode]
  exact readAll_flatMap (fun t among => reads_record (taken t among))
    (fun t _ => recordBytes_ne_nil c t) (Nat.le_refl _)

/-- An atom, and a compound with a variable that it holds twice and a compound without arguments. -/
def sampleSentences : List (List Call) :=
  [[.atom "a"],
    [.openTerm "f", .var "X", .var "X", .openTerm "g", .closeTerm, .closeTerm]]

theorem decode_content_playAll_standard :
    decode .standard (playAll Encoder.call (Encoder.new .standard .unlimited)
      (sampleSentences.flatMap (· ++ [.fullStop]))).2.sink.content =
        some [.atom "a", .compound "f" [.var 0, .var 0, .atom "g"]] := by
  let ts : List (Term String) := [.atom "a", .compound "f" [.var "X", .var "X", .compound "g" []]]
  have terms : sampleSentences.map Term.ofCalls? = ts.map fun t => some [t] := rfl
  have taken : ∀ t ∈ ts, takes .standard t = true := by
    simp [ts, Config.admits, Config.standard]
  have stopped := (Encoder.atStart_new .standard .unlimited).playAll_sentences_ok
    Sink.accepting_unlimited terms taken
  have back : (ts.map fun t => (t.map (Term.names [t]).idxOf).collapse) =
      [.atom "a", .compound "f" [.var 0, .var 0, .atom "g"]] := by
    simp [ts, Term.names, Term.vars, Term.varsAll, Term.map, Term.mapAll, Term.collapse,
      Term.collapseAll, List.eraseDups_cons]
  rw [← back]
  exact decode_content_playAll .standard Sink.accepting_unlimited rfl terms
    fun entry among _ => stopped entry among

end PrologWire.Swi
