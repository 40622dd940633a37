import PrologWire.Arena.Build
import PrologWire.Proofs.Sicstus.Delivery
import PrologWire.Proofs.Sicstus.Genuine

/-!
# Whole terms and their calls

A term can be written as a whole, or printed as calls with a full stop behind them. Both go well or
both leave the sinks alone, and what goes well is the same bytes, as long as the tree of the term is
genuine. Any other tree that can be written at all tells the two apart: the calls describe the
integers of the term, and not the texts that are kept for them.
-/

namespace PrologWire.Sicstus

/-- Makes the calls for the term that a handle stands for, and ends the sentence if they went well. -/
def printSentence (a : Arena) (h : Handle) (e : Encoder) : Answer × Encoder :=
  match a.printTerm h Encoder.call e with
  | (.ok (), e) => e.fullStop
  | (.error cause, e) => (.error cause, e)

/-- The term of a handle is written if it has pieces, and nothing is written otherwise. -/
theorem writeTerm_cases {w : Writer} (accepts : w.sink.Accepting) (a : Arena) (h : Handle) :
    (∃ ps w', pieces (a.tree h) = .ok ps ∧ w.writeTerm a h = (.ok (), w') ∧
      w'.sink.content = w.sink.content ++
        versionTag :: piecesBytes (ps.flatMap Piece.vars).eraseDups.idxOf ps) ∨
    ∃ cause w', (∀ ps, pieces (a.tree h) ≠ .ok ps) ∧ w.writeTerm a h = (.error cause, w') ∧
      w'.sink.content = w.sink.content := by
  rcases has : pieces (a.tree h) with cause | ps
  · obtain ⟨draft, eq⟩ := Writer.writeTerm_of_error (w := w) has
    exact .inr ⟨cause, _, by simp, eq, rfl⟩
  · obtain ⟨w', eq, -, content⟩ := Writer.writePieces_ok accepts ps
    exact .inl ⟨ps, w', rfl, (Writer.writeTerm_of_pieces has).trans eq, content⟩

/-- The term of a handle is printed if there is one with arities that fit, and nothing is written
otherwise. -/
theorem printSentence_cases {e : Encoder} (accepts : e.sink.Accepting) (start : e.AtStart)
    (a : Arena) (h : Handle) :
    (∃ u e', (a.tree h).term? = some u ∧ fits u = true ∧ printSentence a h e = (.ok (), e') ∧
      e'.sink.content = e.sink.content ++ sentenceBytes [u]) ∨
    ∃ cause e', (∀ u, (a.tree h).term? = some u → fits u = false) ∧
      printSentence a h e = (.error cause, e') ∧ e'.sink.content = e.sink.content := by
  have calls := (Encoder.keepsUp e.sink.content).makeCalls_cases (start.at_empty accepts)
    (Tree.fullStop_not_mem_script (a.tree h)) (a.tree h).script.lastAnswer
  have printed : a.printTerm h Encoder.call e = Script.makeCalls Encoder.call
    (a.tree h).script.lastAnswer (a.tree h).script.calls e := a.printTerm_eq_run_script h _ e
  have fitting (u : Term String) :
      fitsSoFar ((Outline.empty : Outline String).add u) = fits u := by
    simp [fitsSoFar]
  rw [printSentence, printed]
  obtain ⟨o, e', follows, eq, here⟩ | ⟨cause, e', eq, refused, useless⟩ := calls
  · -- all calls were made; the script may still end in a failure of its own
    rw [eq]
    rcases term : (a.tree h).term? with _ | u
    · rcases failure : (a.tree h).script.failure with _ | cause
      · have made := (Tree.failure_script_eq_none (a.tree h)).mp failure
        rw [term] at made
        cases made
      · rw [Script.lastAnswer, failure]
        exact .inr ⟨cause, e', by simp, rfl, here.content⟩
    · have unfailed : (a.tree h).script.failure = none :=
        (Tree.failure_script_eq_none (a.tree h)).mpr (Option.isSome_of_mem term)
      obtain rfl := Option.some.inj (follows.symm.trans (Tree.follow_script term .empty))
      obtain ⟨e'', stops, -, -, content⟩ := here.fullStop_ok
      rw [Script.lastAnswer, unfailed]
      exact .inl ⟨u, e'', rfl, (fitting u).symm.trans here.small, stops, content⟩
  · -- a call was refused, so that the term it belongs to has an arity that does not fit
    rw [eq]
    refine .inr ⟨cause, e', fun u term => ?_, rfl, refused.content⟩
    rw [← fitting]
    exact useless _ (Tree.follow_script term .empty)

/-! ## Both ways -/

/-- Writing a term as a whole and printing it go well together, and then bring the same bytes to their
sinks; otherwise both sinks stay as they were. -/
structure SameOutcome (w : Writer) (e : Encoder) (a : Arena) (h : Handle) : Prop where
  answers : (w.writeTerm a h).1 = .ok () ↔ (printSentence a h e).1 = .ok ()
  written : (w.writeTerm a h).1 = .ok () → ∃ bs,
    (w.writeTerm a h).2.sink.content = w.sink.content ++ bs ∧
      (printSentence a h e).2.sink.content = e.sink.content ++ bs
  refused : (w.writeTerm a h).1 ≠ .ok () →
    (w.writeTerm a h).2.sink.content = w.sink.content ∧
      (printSentence a h e).2.sink.content = e.sink.content

section

variable {w : Writer} {e : Encoder} {a : Arena} {h : Handle}

/-- A term that cannot be written cannot be printed. -/
theorem sameOutcome_of_refused (accepts : w.sink.Accepting) (accepts' : e.sink.Accepting)
    (start : e.AtStart) (refused : (w.writeTerm a h).1 ≠ .ok ()) : SameOutcome w e a h := by
  obtain ⟨ps, w', has, eq, -⟩ | ⟨cause, w', has, eq, content⟩ := writeTerm_cases accepts a h
  · rw [eq] at refused
    exact absurd rfl refused
  · obtain ⟨u, e', term, small, -⟩ | ⟨cause', e', -, eq', content'⟩ :=
      printSentence_cases accepts' start a h
    · obtain ⟨ps, has'⟩ := exists_pieces term small
      exact absurd has' (has ps)
    · refine ⟨?_, ?_, ?_⟩
      · rw [eq, eq']
        simp
      · rw [eq]
        intro written
        cases written
      · rw [eq, eq']
        exact fun _ => ⟨content, content'⟩

/-- A genuine tree that can be written is printed with the same bytes. -/
theorem sameOutcome_of_genuine (accepts : w.sink.Accepting) (accepts' : e.sink.Accepting)
    (start : e.AtStart) (written : (w.writeTerm a h).1 = .ok ())
    (same : (a.tree h).genuine = true) : SameOutcome w e a h := by
  obtain ⟨ps, w', has, eq, content⟩ | ⟨cause, w', has, eq, -⟩ := writeTerm_cases accepts a h
  · obtain ⟨u, term⟩ := exists_term? has same
    have m := matches_pieces has term
    obtain ⟨u', e', term', -, eq', content'⟩ | ⟨cause, e', useless, -⟩ :=
      printSentence_cases accepts' start a h
    · obtain rfl := Option.some.inj (term.symm.trans term')
      refine ⟨?_, ?_, ?_⟩
      · rw [eq, eq']
      · rw [eq, eq']
        exact fun _ => ⟨_, content, m.sentenceBytes_iff.mpr same ▸ content'⟩
      · rw [eq]
        intro refused
        exact absurd rfl refused
    · have large := useless u term
      rw [m.fits] at large
      cases large
  · rw [eq] at written
    cases written

/-- A tree that is written and printed with the same bytes is genuine. -/
theorem SameOutcome.genuine (s : SameOutcome w e a h) (accepts : w.sink.Accepting)
    (accepts' : e.sink.Accepting) (start : e.AtStart) (written : (w.writeTerm a h).1 = .ok ()) :
    (a.tree h).genuine = true := by
  have printed := s.answers.mp written
  obtain ⟨bs, left, right⟩ := s.written written
  obtain ⟨ps, w', has, eq, content⟩ | ⟨cause, w', has, eq, -⟩ := writeTerm_cases accepts a h
  · obtain ⟨u, e', term, -, eq', content'⟩ | ⟨cause, e', useless, eq', -⟩ :=
      printSentence_cases accepts' start a h
    · rw [eq, content, List.append_cancel_left_eq] at left
      rw [eq', content', List.append_cancel_left_eq] at right
      exact (matches_pieces has term).sentenceBytes_iff.mp (left.trans right.symm)
    · rw [eq'] at printed
      cases printed
  · rw [eq] at written
    cases written

end

/-- Writing a term as a whole and printing it have the same outcome if and only if the term is refused
or its tree is genuine. -/
theorem sameOutcome_iff {w : Writer} {e : Encoder} (accepts : w.sink.Accepting)
    (accepts' : e.sink.Accepting) (start : e.AtStart) (a : Arena) (h : Handle) :
    SameOutcome w e a h ↔ (w.writeTerm a h).1 ≠ .ok () ∨ (a.tree h).genuine = true := by
  constructor
  · intro same
    by_cases written : (w.writeTerm a h).1 = .ok ()
    · exact .inr (same.genuine accepts accepts' start written)
    · exact .inl written
  · intro good
    by_cases written : (w.writeTerm a h).1 = .ok ()
    · apply sameOutcome_of_genuine accepts accepts' start written
      rcases good with refused | same
      · exact absurd written refused
      · exact same
    · exact sameOutcome_of_refused accepts accepts' start written

/-- A compound of a list, of which two elements are no small integers, and a big integer. -/
def sampleTerm : Handle × Arena :=
  let (elems, a) := (Arena.create ⟨0⟩ ⟨0⟩).list [.ofHandle (.int 1), .ofHandle (.int 300), (·.var "X")]
  a.func "f" [.ofHandle elems, (·.integer 10000000000000000000000000)]

theorem sameOutcome_sampleTerm :
    SameOutcome (.new .unlimited) (.new .unlimited) sampleTerm.2 sampleTerm.1 :=
  (sameOutcome_iff Sink.accepting_unlimited Sink.accepting_unlimited
    (Encoder.atStart_new .unlimited) sampleTerm.2 sampleTerm.1).mpr (.inr (by decide +kernel))

/-- A big integer in an arena that is cleared, which keeps the name of its epoch, and then gets another
text. -/
def erasedInteger : Except TermError (Handle × Arena) :=
  let (h, a) := (Arena.create ⟨0⟩ ⟨0⟩).integer 10000000000000000000000000
  a.clear.map fun a => (h, (a.atom "these bytes are not digits").2)

theorem not_sameOutcome_erasedInteger : ∃ h a, erasedInteger = .ok (h, a) ∧
    ((Writer.new .unlimited).writeTerm a h).1 = .ok () ∧
      ¬SameOutcome (.new .unlimited) (.new .unlimited) a h := by
  -- the handle resolves to the text that took the place of its digits
  obtain ⟨⟨h, a⟩, made⟩ : ∃ made, erasedInteger = .ok made := ⟨_, rfl⟩
  have evaluated : erasedInteger.toOption.map
      (fun made => ((pieces (made.2.tree made.1)).toBool, (made.2.tree made.1).genuine)) =
        some (true, false) := by decide +kernel
  rw [made] at evaluated
  obtain ⟨has, other⟩ := Prod.mk.inj (Option.some.inj evaluated)
  have written : ((Writer.new .unlimited).writeTerm a h).1 = .ok () := by
    obtain ⟨ps, w', -, eq, -⟩ | ⟨cause, w', without, -⟩ :=
      writeTerm_cases (w := .new .unlimited) Sink.accepting_unlimited a h
    · rw [eq]
    · dsimp only at has
      rcases given : pieces (a.tree h) with cause | ps
      · rw [given] at has
        cases has
      · exact absurd given (without ps)
  refine ⟨h, a, made, written, fun same => ?_⟩
  have genuine := same.genuine Sink.accepting_unlimited Sink.accepting_unlimited
    (Encoder.atStart_new .unlimited) written
  rw [other] at genuine
  cases genuine

end PrologWire.Sicstus
