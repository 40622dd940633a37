import PrologWire.Proofs.Dialects.Refusal

/-!
# What calls have left open

What is open after some calls can be told from the calls and from what each of them was answered, without
the consumer: a call that was refused for what it says neither opens nor closes anything, and a closing
call that fails because of the sink has closed all the same. `Logged` are the states that a consumer can come
to by any calls while its sink changes between them, together with these calls and answers.
-/

namespace PrologWire

/-- The call was refused for what it says. -/
def Answer.isRefusal : Answer → Bool
  | .ok () => false
  | .error cause => cause.isRefusal

@[simp] theorem Answer.isRefusal_ofSink (possible : Bool) :
    (Answer.ofSink possible).isRefusal = false := by
  cases possible <;> rfl

/-- Something that a call has opened. -/
inductive Opening where
  | term (functor : String)
  | list
deriving DecidableEq, Inhabited

namespace Opening

/-- What is open after one more call, the innermost first. -/
def step (opened : List Opening) (c : Call) (answer : Answer) : List Opening :=
  match c with
  | .openTerm functor => if answer.isRefusal then opened else term functor :: opened
  | .openList => if answer.isRefusal then opened else list :: opened
  | .closeTerm | .closeList => if answer.isRefusal then opened else opened.tail
  | .fullStop => []
  | _ => opened

/-- What is open after some calls with these answers. -/
def afterLog (log : List (Call × Answer)) : List Opening :=
  log.foldl (fun opened entry => step opened entry.1 entry.2) []

@[simp] theorem afterLog_concat (log : List (Call × Answer)) (c : Call) (answer : Answer) :
    afterLog (log ++ [(c, answer)]) = step (afterLog log) c answer := by
  rw [afterLog, List.foldl_append]
  rfl

end Opening

/-- The states that a consumer can come to by any calls, with these calls and the answers to them, while its
sink changes between the calls in any way. -/
inductive Consumer.Logged {σ : Type} (m : Consumer σ Call) (new : Sink → σ) (withSink : σ → Sink → σ) :
    List (Call × Answer) → σ → Prop
  | new (sink : Sink) : m.Logged new withSink [] (new sink)
  | call {log : List (Call × Answer)} {s : σ} (h : m.Logged new withSink log s) (c : Call) :
      m.Logged new withSink (log ++ [(c, (m.take s c).1)]) (m.take s c).2
  | sink {log : List (Call × Answer)} {s : σ} (h : m.Logged new withSink log s) (sink : Sink) :
      m.Logged new withSink log (withSink s sink)

/-- What every call keeps up with what is open, and no change of the sink disturbs, holds of all states. -/
theorem Consumer.Logged.opened_induction {σ : Type} {m : Consumer σ Call} {new : Sink → σ}
    {withSink : σ → Sink → σ} {P : σ → List Opening → Prop} (begins : ∀ sink, P (new sink) [])
    (step : ∀ {s opened} c, P s opened → P (m.take s c).2 (Opening.step opened c (m.take s c).1))
    (quiet : ∀ {s opened} sink, P s opened → P (withSink s sink) opened)
    {log : List (Call × Answer)} {s : σ} (h : m.Logged new withSink log s) :
    P s (Opening.afterLog log) := by
  induction h with
  | new sink => exact begins sink
  | call h c ih =>
    rw [Opening.afterLog_concat]
    exact step c ih
  | sink h sink ih => exact quiet sink ih

/-! ## Bytes at a position -/

/-- The bytes stand in the content from a position on. -/
def StandsAt (content : List UInt8) (position : Nat) (bs : List UInt8) : Prop :=
  ∃ front back, content = front ++ bs ++ back ∧ front.length = position

namespace StandsAt

variable {content bs : List UInt8} {position : Nat}

theorem append (h : StandsAt content position bs) (more : List UInt8) :
    StandsAt (content ++ more) position bs := by
  obtain ⟨front, back, rfl, length⟩ := h
  exact ⟨front, back ++ more, List.append_assoc _ _ _, length⟩

end StandsAt

end PrologWire
