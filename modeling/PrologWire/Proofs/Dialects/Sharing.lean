import PrologWire.Proofs.Sicstus.AnySink
import PrologWire.Proofs.Sicstus.Renaming
import PrologWire.Proofs.Swi.Delivery
import PrologWire.Proofs.Swi.Renaming

/-!
# What bytes show of the names of variables

Of the names of variables only one thing is in the bytes of a sentence: where two of them are equal. Two
sentences that are accepted and the same but for the names of their variables are the same bytes exactly if the
names correspond one to one, in both dialects and for terms that are written as a whole, whatever was written
before with whatever names.
-/

namespace PrologWire

variable {σ ρ : Type}

/-- The requests bring these bytes to the sink. -/
def Consumer.Sends (m : Consumer σ ρ) (s : σ) (requests : List ρ) (bs : List UInt8) : Prop :=
  (m.sink (m.after s requests)).content = (m.sink s).content ++ bs

/-- If both sentences are accepted, the bytes that they bring to their sinks are the same exactly if the names of
their variables correspond one to one, position by position. -/
def Consumer.ShowsSharing (m : Consumer σ Call) (s s' : σ) (calls calls' : List Call) : Prop :=
  (m.take (m.after s calls) .fullStop).1 = .ok () → (m.take (m.after s' calls') .fullStop).1 = .ok () →
    ∃ bs bs', m.Sends s (calls ++ [.fullStop]) bs ∧ m.Sends s' (calls' ++ [.fullStop]) bs' ∧
      (bs = bs' ↔ OneToOne ((varNames calls).zip (varNames calls')))

/-- A consumer that writes the terms of a sentence as bytes that show sharing does so itself. -/
theorem Consumer.showsSharing_of_bytes {m : Consumer σ Call} {bytes : List (Term String) → List UInt8}
    (shows : ∀ ps : List (Term (String × String)),
      bytes (ps.map (Term.map Prod.fst)) = bytes (ps.map (Term.map Prod.snd)) ↔ OneToOne (ps.flatMap Term.vars))
    {s s' : σ} {calls calls' : List Call} (same : SameButNames calls calls')
    (writes : (m.take (m.after s calls) .fullStop).1 = .ok () →
      ∃ ts, Term.ofCalls? calls = some ts ∧ m.Sends s (calls ++ [.fullStop]) (bytes ts))
    (writes' : (m.take (m.after s' calls') .fullStop).1 = .ok () →
      ∃ ts, Term.ofCalls? calls' = some ts ∧ m.Sends s' (calls' ++ [.fullStop]) (bytes ts)) :
    m.ShowsSharing s s' calls calls' := by
  intro accepted accepted'
  obtain ⟨ts, terms, sent⟩ := writes accepted
  obtain ⟨ts', terms', sent'⟩ := writes' accepted'
  obtain ⟨ps, rfl, rfl, pairs⟩ := Term.exists_zip_of_calls same terms terms'
  exact ⟨_, _, sent, sent', pairs ▸ shows ps⟩

/-- A sentence that is accepted has terms, and their bytes come to the sink. -/
theorem Sicstus.Encoder.AtStart.sends {e : Sicstus.Encoder} (h : e.AtStart) (accepts : e.sink.Accepting)
    {calls : List Call} (going : Call.fullStop ∉ calls)
    (accepted : ((consumer.after e calls).call .fullStop).1 = .ok ()) :
    ∃ ts, Term.ofCalls? calls = some ts ∧
      consumer.Sends e (calls ++ [.fullStop]) (sentenceBytes ts) := by
  obtain ⟨ts, terms, -, content⟩ := h.terms_of_fullStop_ok accepts going accepted
  refine ⟨ts, terms, ?_⟩
  rw [Consumer.Sends, Consumer.after_concat]
  exact content

theorem Swi.Encoder.AtStart.sends {e : Swi.Encoder} (h : e.AtStart) (accepts : e.sink.Accepting)
    {calls : List Call} (going : Call.fullStop ∉ calls)
    (accepted : ((consumer.after e calls).call .fullStop).1 = .ok ()) :
    ∃ ts, Term.ofCalls? calls = some ts ∧
      consumer.Sends e (calls ++ [.fullStop]) (sentenceBytes e.config ts) := by
  obtain ⟨ts, terms, -, content⟩ := h.terms_of_fullStop_ok accepts going accepted
  refine ⟨ts, terms, ?_⟩
  rw [Consumer.Sends, Consumer.after_concat]
  exact content

/-- Two sentences that are accepted and the same but for the names of their variables are the same bytes exactly if
equal names of each stand where the other has equal names: for the encoders of both dialects, behind any history on
sinks that take everything, and for terms that are written as a whole, by writers in any state. -/
theorem showsSharing_of_sameButNames {s t : Sink} (accepts : s.Accepting) (accepts' : t.Accepting)
    {history history' : List Call} (begins : SentenceBegins history) (begins' : SentenceBegins history')
    {calls calls' : List Call} (going : Call.fullStop ∉ calls) (going' : Call.fullStop ∉ calls')
    (same : SameButNames calls calls') :
    Sicstus.Encoder.consumer.ShowsSharing (Sicstus.Encoder.consumer.after (.new s) history)
      (Sicstus.Encoder.consumer.after (.new t) history') calls calls' ∧
    (∀ c, Swi.Encoder.consumer.ShowsSharing (Swi.Encoder.consumer.after (.new c s) history)
      (Swi.Encoder.consumer.after (.new c t) history') calls calls') ∧
    ∀ (w w' : Sicstus.Writer) (a a' : Arena) (h h' : Handle), (a.tree h).SameButNames (a'.tree h') →
      (w.writeTerm a h).1 = .ok () → (w'.writeTerm a' h').1 = .ok () →
        ∃ bs bs', Sicstus.Writer.consumer.Sends w [(a, h)] bs ∧ Sicstus.Writer.consumer.Sends w' [(a', h')] bs' ∧
          (bs = bs' ↔ OneToOne ((a.tree h).vars.zip (a'.tree h').vars)) := by
  refine ⟨?_, fun c => ?_, ?_⟩
  · open Sicstus.Encoder in
    exact Consumer.showsSharing_of_bytes Sicstus.sentenceBytes_eq_iff same
      ((atStart_after begins s).sends (accepting_after accepts history) going)
      ((atStart_after begins' t).sends (accepting_after accepts' history') going')
  · open Swi.Encoder in
    have config (sink : Sink) (history : List Call) : (consumer.after (new c sink) history).config = c :=
      config_after _ history
    have left := (atStart_after begins c s).sends (accepting_after accepts history) going
    have right := (atStart_after begins' c t).sends (accepting_after accepts' history') going'
    rw [config] at left right
    exact Consumer.showsSharing_of_bytes (Swi.sentenceBytes_eq_iff c) same left right
  · intro w w' a a' h h' sameTrees written written'
    obtain ⟨⟨ps, has⟩, content⟩ := Sicstus.Writer.content_writeTerm written
    obtain ⟨⟨ps', has'⟩, content'⟩ := Sicstus.Writer.content_writeTerm written'
    exact ⟨_, _, content, content', Sicstus.treeSentence_eq_iff sameTrees has has'⟩

/-- The term `f(V, W, V)` with these names. -/
def sharedTree (v w : String) : Tree := .func (.leaf (.atom "f")) [.leaf (.var v), .leaf (.var w), .leaf (.var v)]

/-- An arena with the term `f(V, W, V)`, and the handle of the term. -/
def sharedTerm (v w : String) : Handle × Arena :=
  (Arena.create ⟨0⟩ ⟨0⟩).func "f" [(·.var v), (·.var w), (·.var v)]

/-- Behind a sentence of `Y` alone `f(X, Y, X)` is the same bytes as `f(A, X, A)` at the beginning, in both
dialects. Written as whole terms `f(X, Y, X)` and `f(A, A, A)` are not. -/
theorem showsSharing_of_sameButNames_compound :
    let history : List Call := [.var "Y", .fullStop]
    let calls : List Call := [.openTerm "f", .var "X", .var "Y", .var "X", .closeTerm]
    let calls' : List Call := [.openTerm "f", .var "A", .var "X", .var "A", .closeTerm]
    (∃ bs, Sicstus.Encoder.consumer.Sends (Sicstus.Encoder.consumer.after (.new .unlimited) history)
        (calls ++ [.fullStop]) bs ∧
      Sicstus.Encoder.consumer.Sends (.new .unlimited) (calls' ++ [.fullStop]) bs) ∧
    (∃ bs, Swi.Encoder.consumer.Sends (Swi.Encoder.consumer.after (.new .standard .unlimited) history)
        (calls ++ [.fullStop]) bs ∧
      Swi.Encoder.consumer.Sends (.new .standard .unlimited) (calls' ++ [.fullStop]) bs) ∧
    ∃ bs bs',
      Sicstus.Writer.consumer.Sends (.new .unlimited) [((sharedTerm "X" "Y").2, (sharedTerm "X" "Y").1)] bs ∧
      Sicstus.Writer.consumer.Sends (.new .unlimited) [((sharedTerm "A" "A").2, (sharedTerm "A" "A").1)] bs' ∧
      bs ≠ bs' := by
  intro history calls calls'
  obtain ⟨shows, shows', whole⟩ := showsSharing_of_sameButNames Sink.accepting_unlimited
    Sink.accepting_unlimited (.inr ⟨[.var "Y"], rfl⟩ : SentenceBegins history) (.inl rfl : SentenceBegins [])
    (by decide : Call.fullStop ∉ calls) (by decide : Call.fullStop ∉ calls') (by decide)
  have pairs : OneToOne ((varNames calls).zip (varNames calls')) := by decide
  have accepted {answer : Answer} (ok : answer.toBool = true) : answer = .ok () := by
    cases answer with
    | error cause => cases ok
    | ok => rfl
  refine ⟨?_, ?_, ?_⟩
  · obtain ⟨bs, bs', sent, sent', same⟩ := shows (accepted (by decide +kernel)) (accepted (by decide +kernel))
    obtain rfl := same.mpr pairs
    exact ⟨bs, sent, sent'⟩
  · obtain ⟨bs, bs', sent, sent', same⟩ :=
      shows' .standard (accepted (by decide +kernel)) (accepted (by decide +kernel))
    obtain rfl := same.mpr pairs
    exact ⟨bs, sent, sent'⟩
  · have tree : (sharedTerm "X" "Y").2.tree (sharedTerm "X" "Y").1 = sharedTree "X" "Y" := by rfl
    have tree' : (sharedTerm "A" "A").2.tree (sharedTerm "A" "A").1 = sharedTree "A" "A" := by rfl
    have written (a : Arena) (h : Handle) {v w : String} (is : a.tree h = sharedTree v w) :
        ((Sicstus.Writer.new .unlimited).writeTerm a h).1 = .ok () := by
      obtain ⟨ps, has⟩ : ∃ ps, Sicstus.pieces (sharedTree v w) = .ok ps := ⟨_, rfl⟩
      obtain ⟨w', eq, -⟩ :=
        Sicstus.Writer.writePieces_ok (w := .new .unlimited) Sink.accepting_unlimited ps
      rw [Sicstus.Writer.writeTerm_of_pieces (is ▸ has), eq]
    obtain ⟨bs, bs', sent, sent', same⟩ := whole _ _ _ _ _ _
      (tree ▸ tree' ▸ rfl : Tree.SameButNames (Arena.tree _ _) (Arena.tree _ _))
      (written _ _ tree) (written _ _ tree')
    rw [tree, tree'] at same
    exact ⟨bs, bs', sent, sent', mt same.mp (by decide)⟩

end PrologWire
