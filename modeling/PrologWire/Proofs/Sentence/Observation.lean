import PrologWire.Call
import PrologWire.Proofs.Wire.Content

/-!
# What is seen of a consumer from outside

Two consumers may differ in storage that nothing reads any more and in what their sinks received long
ago. Seen from outside they are the same if they answer every request in the same way, have as much
open afterwards, and pass on the same bytes. A relation of states that every request keeps, with the
same outcome on both sides, is enough to show this for all requests to come.
-/

namespace PrologWire

namespace Sink

/-- The sinks behave in the same way from here on, whatever they have received before. -/
structure Alike (s t : Sink) : Prop where
  room : s.room = t.room
  failsFlush : s.failsFlush = t.failsFlush

/-- On the way from `s` to `s'` and on the way from `t` to `t'` the same has been received, and the
sinks behave in the same way again. -/
structure SameReceived (s t s' t' : Sink) : Prop where
  alike : s'.Alike t'
  bytes : ∃ bs, s'.content = s.content ++ bs ∧ t'.content = t.content ++ bs
  flushes : ∃ n, s'.flushes = s.flushes + n ∧ t'.flushes = t.flushes + n

namespace Alike

variable {s t : Sink}

/-- Nothing has been received. -/
theorem sameReceived (h : s.Alike t) : SameReceived s t s t :=
  ⟨h, ⟨[], (List.append_nil _).symm, (List.append_nil _).symm⟩, ⟨0, rfl, rfl⟩⟩

/-- Of a write the sinks take the same bytes, and they agree on whether that was all. -/
theorem write (h : s.Alike t) (bs : Array UInt8) :
    ∃ complete s' t', s.write bs = (complete, s') ∧ t.write bs = (complete, t') ∧
      SameReceived s t s' t' := by
  have taken : s.fitting bs = t.fitting bs := by rw [fitting, fitting, h.room]
  have same : (t.write bs).1 = (s.write bs).1 := by rw [Sink.write, Sink.write, taken]
  refine ⟨(s.write bs).1, (s.write bs).2, (t.write bs).2, rfl, Prod.ext same rfl,
    ⟨?_, h.failsFlush⟩, ⟨(s.fitting bs).toList, ?_, ?_⟩, ⟨0, rfl, rfl⟩⟩
  · show s.room.map (· - (s.fitting bs).size) = t.room.map (· - (t.fitting bs).size)
    rw [taken, h.room]
  · exact Array.toList_append
  · rw [taken]
    exact Array.toList_append

/-- The sinks agree on whether they can be flushed. -/
theorem flush (h : s.Alike t) :
    ∃ flushed s' t', s.flush = (flushed, s') ∧ t.flush = (flushed, t') ∧
      SameReceived s t s' t' := by
  rw [Sink.flush, Sink.flush, h.failsFlush]
  split
  · exact ⟨_, _, _, rfl, rfl, h.sameReceived⟩
  · refine ⟨_, _, _, rfl, rfl, ⟨h.room, rfl⟩, ?_, ⟨1, rfl, rfl⟩⟩
    exact ⟨[], (List.append_nil _).symm, (List.append_nil _).symm⟩

end Alike

/-- What has been received in two stretches has been received in one. -/
theorem SameReceived.trans {s t s' t' s'' t'' : Sink} (h : SameReceived s t s' t')
    (h' : SameReceived s' t' s'' t'') : SameReceived s t s'' t'' := by
  obtain ⟨bs, left, right⟩ := h.bytes
  obtain ⟨bs', left', right'⟩ := h'.bytes
  obtain ⟨n, flushed, flushed₁⟩ := h.flushes
  obtain ⟨n', flushed', flushed₁'⟩ := h'.flushes
  refine ⟨h'.alike, ⟨bs ++ bs', ?_, ?_⟩, ⟨n + n', ?_, ?_⟩⟩
  · rw [left', left, List.append_assoc]
  · rw [right', right, List.append_assoc]
  · rw [flushed', flushed, Nat.add_assoc]
  · rw [flushed₁', flushed₁, Nat.add_assoc]

end Sink

/-! ## Observations -/

/-- What takes requests one after the other and sends bytes to a sink. -/
structure Consumer (σ ρ : Type) where
  take : σ → ρ → Answer × σ
  /-- How much is open. -/
  depth : σ → Nat
  sink : σ → Sink

/-- What is seen of one request. -/
structure Observation where
  answer : Answer
  /-- How much is open afterwards. -/
  depth : Nat
  /-- The bytes that reached the sink with the request. -/
  delivered : List UInt8
  /-- How often the sink was flushed with the request. -/
  flushes : Nat

namespace Consumer

variable {σ ρ : Type} (m : Consumer σ ρ)

/-- The state after some requests, whatever they were answered. -/
def after (s : σ) (requests : List ρ) : σ := requests.foldl (fun s r => (m.take s r).2) s

/-- The observation of a request that was made in a state and had an outcome. -/
def observation (s : σ) (outcome : Answer × σ) : Observation where
  answer := outcome.1
  depth := m.depth outcome.2
  delivered := (m.sink outcome.2).content.drop (m.sink s).content.length
  flushes := (m.sink outcome.2).flushes - (m.sink s).flushes

/-- The observations of requests that are made one after the other, whatever they are answered. -/
def observe (s : σ) : List ρ → List Observation
  | [] => []
  | r :: rest => m.observation s (m.take s r) :: observe (m.take s r).2 rest

/-- No requests tell the states apart. -/
def Indistinguishable (s t : σ) : Prop :=
  m.depth s = m.depth t ∧ ∀ requests, m.observe s requests = m.observe t requests

/-- A request has had the same outcome in `s` and in `t`, and what it has led to is related. -/
structure SameOutcome (R : σ → σ → Prop) (s t : σ) (x y : Answer × σ) : Prop where
  answer : x.1 = y.1
  related : R x.2 y.2
  received : Sink.SameReceived (m.sink s) (m.sink t) (m.sink x.2) (m.sink y.2)

variable {m} {R : σ → σ → Prop} {s t : σ}

@[simp] theorem after_nil : m.after s [] = s := rfl

@[simp] theorem after_cons (r : ρ) (rest : List ρ) :
    m.after s (r :: rest) = m.after (m.take s r).2 rest := rfl

/-- Requests in a row are made in two parts. -/
theorem after_append (xs ys : List ρ) : m.after s (xs ++ ys) = m.after (m.after s xs) ys :=
  List.foldl_append

@[simp] theorem after_concat (requests : List ρ) (r : ρ) :
    m.after s (requests ++ [r]) = (m.take (m.after s requests) r).2 :=
  after_append requests [r]

/-- What every request keeps holds after all of them. -/
theorem after_induction {P : σ → Prop} {requests : List ρ}
    (step : ∀ s, ∀ r ∈ requests, P s → P (m.take s r).2) (start : P s) :
    P (m.after s requests) := by
  induction requests generalizing s with
  | nil => exact start
  | cons r rest ih =>
    refine ih (fun s r' mem => step s r' (List.mem_cons_of_mem _ mem)) ?_
    exact step s r List.mem_cons_self start

/-- What was done before the sinks were reached does not matter. -/
theorem SameOutcome.of_sinks {s' t' : σ} {x y : Answer × σ} (h : m.SameOutcome R s' t' x y)
    (left : m.sink s' = m.sink s) (right : m.sink t' = m.sink t) : m.SameOutcome R s t x y := by
  have received := h.received
  rw [left, right] at received
  exact ⟨h.answer, h.related, received⟩

/-- The same outcome looks the same. -/
theorem SameOutcome.observation_eq {x y : Answer × σ} (h : m.SameOutcome R s t x y)
    (depth : m.depth x.2 = m.depth y.2) : m.observation s x = m.observation t y := by
  obtain ⟨bs, left, right⟩ := h.received.bytes
  obtain ⟨n, flushed, flushed'⟩ := h.received.flushes
  rw [observation, observation, h.answer, depth, left, right, flushed, flushed', List.drop_left,
    List.drop_left, Nat.add_sub_cancel_left, Nat.add_sub_cancel_left]

/-- Related states look the same under requests that have the same outcome in related states. -/
theorem observe_eq_of_step {requests : List ρ} (depth : ∀ {s t}, R s t → m.depth s = m.depth t)
    (step : ∀ {s t}, ∀ r ∈ requests, R s t → m.SameOutcome R s t (m.take s r) (m.take t r))
    (h : R s t) : m.observe s requests = m.observe t requests := by
  induction requests generalizing s t with
  | nil => rfl
  | cons r rest ih =>
    have same := step r List.mem_cons_self h
    have others := ih (fun r' among => step r' (List.mem_cons_of_mem r among)) same.related
    rw [observe, observe, same.observation_eq (depth same.related), others]

/-- Under such requests their sinks receive the same. -/
theorem sameReceived_of_step {requests : List ρ} (sinks : ∀ {s t}, R s t → (m.sink s).Alike (m.sink t))
    (step : ∀ {s t}, ∀ r ∈ requests, R s t → m.SameOutcome R s t (m.take s r) (m.take t r))
    (h : R s t) :
    Sink.SameReceived (m.sink s) (m.sink t) (m.sink (m.after s requests)) (m.sink (m.after t requests)) := by
  induction requests generalizing s t with
  | nil => exact (sinks h).sameReceived
  | cons r rest ih =>
    have same := step r List.mem_cons_self h
    exact same.received.trans (ih (fun r' among => step r' (List.mem_cons_of_mem r among)) same.related)

/-- Related states are indistinguishable if related states have as much open and every request has the
same outcome in them. -/
theorem indistinguishable_of_step (depth : ∀ {s t}, R s t → m.depth s = m.depth t)
    (step : ∀ {s t} r, R s t → m.SameOutcome R s t (m.take s r) (m.take t r)) (h : R s t) :
    m.Indistinguishable s t :=
  ⟨depth h, fun _ => observe_eq_of_step depth (fun r _ => step r) h⟩

end Consumer

end PrologWire
