import PrologWire.Proofs.Dialects.Lockstep
import PrologWire.Proofs.Swi.Varint

/-!
# Going back in the buffer

Both encoders go back to bytes that they have written. Whatever is called, in whatever order, whichever calls
are refused and wherever the sink stops: in every state that an encoder comes to, the positions that it has
kept lead to the headers that it wrote there, nothing of which was changed since, and what it will do there
stays inside the buffer. So no call ever tells of a position out of range.
-/

namespace PrologWire

/-- Calls in a row lead from a new consumer to a state that it can come to. -/
theorem Consumer.logged_playAll {σ : Type} {m : Consumer σ Call} {new : Sink → σ} {withSink : σ → Sink → σ}
    {log : List (Call × Answer)} {s : σ} (h : m.Logged new withSink log s) (calls : List Call) :
    m.Logged new withSink (log ++ (playAll m.take s calls).1) (playAll m.take s calls).2 := by
  induction calls generalizing log s with
  | nil =>
    rw [playAll, List.append_nil]
    exact h
  | cons c rest ih =>
    have after := ih (h.call c)
    rw [List.append_assoc] at after
    exact after

namespace Buffer

theorem exists_set_of_lt {b : Buffer} {position : Nat} (inside : position < b.length) (byte : UInt8) :
    ∃ b', b.set position byte = .ok b' := ⟨_, if_pos inside⟩

theorem exists_shiftRight_of_le {b : Buffer} {position : Nat} (inside : position ≤ b.length)
    (amount : Nat) : ∃ b', b.shiftRight position amount = .ok b' := ⟨_, if_pos inside⟩

end Buffer

namespace Sicstus.Encoder

/-- What has been opened can be closed: there is a context for each of these openings, the kept positions
increase to the inside and lie in the buffer, each at a zero behind its own functor, a run goes on only
in a list, and no call tells of a position out of range. -/
structure Patchable (e : Encoder) (opened : List Opening) : Prop where
  contexts : e.contexts.map Context.opening = opened
  increasing : (arityPositions e.contexts).Pairwise (· > ·)
  inside : ∀ p ∈ arityPositions e.contexts, p < e.buffer.length
  headers : ∀ x ∈ e.contexts, HasHeader e.buffer.content x
  inRun : e.inRun = true → e.contexts.head? = some .list
  set : ∀ p ∈ arityPositions e.contexts, ∀ byte, ∃ b, e.buffer.set p byte = .ok b
  unfaulty : ∀ c fault, (e.call c).1 ≠ .error (.buffer fault)

theorem Sound.patchable {e : Encoder} {opened : List Opening} (h : e.Sound opened) : e.Patchable opened := by
  have inside (p) (among : p ∈ arityPositions e.contexts) : p < e.buffer.length := by
    rw [← Buffer.length_content]
    exact h.headed.lt_length p among
  exact {
    contexts := h.contexts
    increasing := h.headed.increasing
    inside := inside
    headers := h.headed.headers
    inRun := h.inRun
    set := fun p among => Buffer.exists_set_of_lt (inside p among)
    unfaulty := fun c => (follows_call h c).ne_buffer }

end Sicstus.Encoder

namespace Swi

namespace Encoder

/-- What has been opened can be closed: the contexts are those of these openings, the kept positions
increase to the inside, each at the header as it was begun, the content reaches past the tag and the place for the
arity, which can be set and widened, and no call tells of a position out of range. -/
structure Patchable (e : Encoder) (opened : List Opening) : Prop where
  increasing : (starts e.contexts).Pairwise (· > ·)
  headers : List.Forall₂ (HasHeader e.config e.buffer.content) e.contexts opened
  inside : ∀ s ∈ starts e.contexts, s + 2 ≤ e.buffer.length
  set : ∀ s ∈ starts e.contexts, ∀ byte, ∃ b, e.buffer.set (s + 1) byte = .ok b
  shiftRight : ∀ s ∈ starts e.contexts, ∀ amount, ∃ b, e.buffer.shiftRight (s + 2) amount = .ok b
  unfaulty : ∀ c fault, (e.call c).1 ≠ .error (.buffer fault)

theorem Sound.patchable {e : Encoder} {opened : List Opening} (h : e.Sound opened) : e.Patchable opened := by
  have headed : Headed e.config e.contexts opened e.buffer.content := h
  have inside (s) (among : s ∈ starts e.contexts) : s + 2 ≤ e.buffer.length := by
    rw [← Buffer.length_content]
    exact headed.reaches s among
  exact {
    increasing := headed.increasing
    headers := headed.headers
    inside := inside
    set := fun s among => Buffer.exists_set_of_lt (inside s among)
    shiftRight := fun s among => Buffer.exists_shiftRight_of_le (inside s among)
    unfaulty := fun c => (follows_call h c).ne_buffer }

end Encoder

end Swi

/-- Whatever calls were made, refused ones too, while the sink did what it liked: encoders of both dialects can
go back to everything that is still open, and the fixed arrays for numbers in groups are never too short. -/
theorem patchable_of_logged (config : Swi.Config) {log log' : List (Call × Answer)} {e : Sicstus.Encoder}
    {f : Swi.Encoder}
    (h : Sicstus.Encoder.consumer.Logged .new (fun e sink => { e with sink := sink }) log e)
    (h' : Swi.Encoder.consumer.Logged (.new config) .withSink log' f) :
    e.Patchable (Opening.afterLog log) ∧
    f.config = config ∧ f.Patchable (Opening.afterLog log') ∧
    ∀ n < 2 ^ 64, 1 ≤ (Swi.varint n).length ∧ (Swi.varint n).length ≤ 10 := by
  have sound : e.Sound (Opening.afterLog log) := by
    refine h.opened_induction Sicstus.Encoder.sound_new (fun c here => here.call c) ?_
    exact fun _ here => ⟨here.contexts, here.headed, here.inRun⟩
  have sound' : f.config = config ∧ f.Sound (Opening.afterLog log') := by
    refine h'.opened_induction (P := fun (f : Swi.Encoder) opened => f.config = config ∧ f.Sound opened)
      (fun sink => ⟨rfl, Swi.Encoder.sound_new config sink⟩) ?_ ?_
    · exact fun c here => ⟨(Swi.Encoder.config_call _ c).trans here.1, here.2.call c⟩
    · exact fun _ here => here
  refine ⟨sound.patchable, sound'.1, sound'.2.patchable, fun n small => ⟨?_, Swi.length_varint_le small⟩⟩
  exact List.length_pos_iff.mpr (Swi.varint_ne_nil n)

/-- In `f(a, g([5` with a list closed too early, on sinks that are full from the beginning. -/
theorem patchable_of_logged_nested :
    let calls : List Call :=
      [.openTerm "f", .atom "a", .closeList, .openTerm "g", .openList, .int 5]
    let left := playAll Sicstus.Encoder.call (.new ⟨#[], some 0, true, 0⟩) calls
    let right := playAll Swi.Encoder.call (.new .standard ⟨#[], some 0, true, 0⟩) calls
    left.2.Patchable [.list, .term "g", .term "f"] ∧ right.2.Patchable [.list, .term "g", .term "f"] ∧
    Sicstus.arityPositions left.2.contexts = [10, 3] ∧ left.2.inRun = true ∧
    Swi.starts right.2.contexts = [8, 0] := by
  intro calls left right
  have opened : Opening.afterLog left.1 = [.list, .term "g", .term "f"] := by decide +kernel
  have opened' : Opening.afterLog right.1 = [.list, .term "g", .term "f"] := by decide +kernel
  have both := patchable_of_logged .standard
    (Consumer.logged_playAll (.new ⟨#[], some 0, true, 0⟩) calls)
    (Consumer.logged_playAll (.new ⟨#[], some 0, true, 0⟩) calls)
  rw [List.nil_append, List.nil_append] at both
  refine ⟨?_, ?_, by decide +kernel, by decide +kernel, by decide +kernel⟩
  · rw [← opened]
    exact both.1
  · rw [← opened']
    exact both.2.2.1

end PrologWire
