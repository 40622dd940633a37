import PrologWire.Proofs.Sicstus.Alike
import PrologWire.Proofs.Swi.Alike

/-!
# Full stops forget everything

What went wrong in a sentence, on the way to the sink or before, has no effect on the sentences after
its full stop. Of an encoder all that counts from there on is how its sink behaves, so that it cannot
be told from a new one; a writer of whole terms is like a new one after every term.
-/

namespace PrologWire

/-- After any calls and a full stop, however these were answered, and on any sink, an encoder cannot be
told from a new one whose sink behaves as its own does from there on. For a writer this holds after any
terms. -/
theorem fullStop_restarts :
    (∀ (sink fresh : Sink) (history : List Call),
      fresh.Alike (Sicstus.Encoder.consumer.after (.new sink) (history ++ [.fullStop])).sink →
      Sicstus.Encoder.consumer.Indistinguishable
        (Sicstus.Encoder.consumer.after (.new sink) (history ++ [.fullStop])) (.new fresh)) ∧
    (∀ (config : Swi.Config) (sink fresh : Sink) (history : List Call),
      fresh.Alike (Swi.Encoder.consumer.after (.new config sink) (history ++ [.fullStop])).sink →
      Swi.Encoder.consumer.Indistinguishable
        (Swi.Encoder.consumer.after (.new config sink) (history ++ [.fullStop]))
        (.new config fresh)) ∧
    (∀ (sink fresh : Sink) (history : List (Arena × Handle)),
      fresh.Alike (Sicstus.Writer.consumer.after (.new sink) history).sink →
      Sicstus.Writer.consumer.Indistinguishable
        (Sicstus.Writer.consumer.after (.new sink) history) (.new fresh)) := by
  refine ⟨?_, ?_, ?_⟩
  · intro sink fresh history behaves
    rw [Consumer.after_concat] at behaves ⊢
    exact (Sicstus.Encoder.alike_new_of_fullStop _ behaves).indistinguishable
  · intro config sink fresh history behaves
    rw [Consumer.after_concat] at behaves ⊢
    -- with nothing open there is no position that could lie behind the content
    have closed := (Swi.Encoder.atStart_fullStop
      (Swi.Encoder.consumer.after (.new config sink) history)).contexts
    have alike := Swi.Encoder.alike_new_of_fullStop _ behaves
    rw [Swi.Encoder.config_after] at alike
    exact alike.indistinguishable (.of_contexts_eq_nil closed)
  · intro sink fresh history behaves
    exact Sicstus.Writer.indistinguishable_of_alike ⟨behaves.room.symm, behaves.failsFlush.symm⟩

/-- A sink that takes one more byte and cannot be flushed. -/
def Sink.nearlyFull : Sink := ⟨#[0], some 1, true, 0⟩

/-- A sink that takes nothing more and cannot be flushed. -/
def Sink.full : Sink := ⟨#[], some 0, true, 7⟩

/-- A bracket too much in a list that is not closed, and an integer that is a record of its own. -/
def brokenCalls : List Call := [.int 7, .openList, .atom "a", .closeTerm]

theorem fullStop_restarts_nearlyFull :
    Sicstus.Encoder.consumer.Indistinguishable
      (Sicstus.Encoder.consumer.after (.new .nearlyFull) ([.int 7] ++ [.fullStop])) (.new .full) ∧
    Swi.Encoder.consumer.Indistinguishable
      (Swi.Encoder.consumer.after (.new .standard .nearlyFull) (brokenCalls ++ [.fullStop]))
      (.new .standard .full) ∧
    Sicstus.Writer.consumer.Indistinguishable
      (Sicstus.Writer.consumer.after (.new .nearlyFull) [(.create ⟨0⟩ ⟨0⟩, .int 7)])
      (.new .full) := by
  have has : Sicstus.pieces ((Arena.create ⟨0⟩ ⟨0⟩).tree (.int 7)) =
      .ok [.bytes (Sicstus.integerBytes "7")] := rfl
  have behaves : Sink.full.Alike (Sicstus.Writer.consumer.after (.new .nearlyFull)
      [(.create ⟨0⟩ ⟨0⟩, .int 7)]).sink := by
    show Sink.full.Alike
      ((Sicstus.Writer.new .nearlyFull).writeTerm (.create ⟨0⟩ ⟨0⟩) (.int 7)).2.sink
    rw [Sicstus.Writer.writeTerm_of_pieces has]
    exact ⟨by decide +kernel, by decide +kernel⟩
  exact ⟨fullStop_restarts.1 .nearlyFull .full [.int 7] ⟨by decide +kernel, by decide +kernel⟩,
    fullStop_restarts.2.1 .standard .nearlyFull .full brokenCalls
      ⟨by decide +kernel, by decide +kernel⟩,
    fullStop_restarts.2.2 .nearlyFull .full [(.create ⟨0⟩ ⟨0⟩, .int 7)] behaves⟩

end PrologWire
