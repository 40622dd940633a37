import PrologWire.Proofs.Sentence.Outline

/-!
# Runs over any calls

A producer that does not mind what it is answered makes all its calls, whatever they are. Of such a
run the answers are kept, and from these one reads which sentences were accepted: the calls between
two full stops, if the second went well.
-/

namespace PrologWire

/-- Makes all calls to a consumer, whatever they are answered, and keeps the answers. -/
def playAll {σ : Type} (consume : σ → Call → Answer × σ) (state : σ) :
    List Call → List (Call × Answer) × σ
  | [] => ([], state)
  | c :: rest =>
    let (answer, state) := consume state c
    let (log, state) := playAll consume state rest
    ((c, answer) :: log, state)

@[simp] theorem playAll_cons {σ : Type} (consume : σ → Call → Answer × σ) (state : σ) (c : Call)
    (rest : List Call) :
    playAll consume state (c :: rest) =
      ((c, (consume state c).1) :: (playAll consume (consume state c).2 rest).1,
        (playAll consume (consume state c).2 rest).2) := rfl

/-- Calls in a row are made in two parts. -/
theorem playAll_append {σ : Type} (consume : σ → Call → Answer × σ) (state : σ)
    (xs ys : List Call) :
    playAll consume state (xs ++ ys) =
      ((playAll consume state xs).1 ++ (playAll consume (playAll consume state xs).2 ys).1,
        (playAll consume (playAll consume state xs).2 ys).2) := by
  induction xs generalizing state with
  | nil => rfl
  | cons c rest ih => rw [List.cons_append, playAll_cons, playAll_cons, ih, List.cons_append]

/-- The calls of the sentences whose full stops went well; `before` are the calls of the first sentence
that have been made already. -/
def acceptedCalls (before : List Call) : List (Call × Answer) → List (List Call)
  | [] => []
  | (.fullStop, .ok ()) :: rest => before :: acceptedCalls [] rest
  | (.fullStop, .error _) :: rest => acceptedCalls [] rest
  | (c, _) :: rest => acceptedCalls (before ++ [c]) rest

/-- A call that is no full stop belongs to the sentence. -/
theorem acceptedCalls_cons {c : Call} (going : c ≠ .fullStop) (before : List Call) (answer : Answer)
    (rest : List (Call × Answer)) :
    acceptedCalls before ((c, answer) :: rest) = acceptedCalls (before ++ [c]) rest := by
  cases c with
  | fullStop => exact absurd rfl going
  | _ => rfl

/-- The calls of the sentences that are ended by a full stop, however this goes. -/
def endedCalls (before : List Call) : List Call → List (List Call)
  | [] => []
  | .fullStop :: rest => before :: endedCalls [] rest
  | c :: rest => endedCalls (before ++ [c]) rest

theorem endedCalls_cons {c : Call} (going : c ≠ .fullStop) (before rest : List Call) :
    endedCalls before (c :: rest) = endedCalls (before ++ [c]) rest := by
  cases c with
  | fullStop => exact absurd rfl going
  | _ => rfl

/-! ## Consumers that keep up with outlines -/

/-- `At` says that a consumer is where an outline is, `takes` which outlines it can write, and `Failed`
that it has refused a call of the sentence. It keeps up with outlines if it goes on with them call by
call and refuses whatever it cannot go on with. -/
structure KeepsUp {σ : Type} (consume : σ → Call → Answer × σ) (At : σ → Outline String → Prop)
    (takes : Outline String → Bool) (Failed : σ → Prop) : Prop where
  takes_of_at {s : σ} {o : Outline String} : At s o → takes o = true
  takes_of_step {o o' : Outline String} {c : Call} :
    o.step c = some o' → takes o' = true → takes o = true
  call_ok {s : σ} {o o' : Outline String} {c : Call} :
    At s o → o.step c = some o' → takes o' = true → ∃ s', consume s c = (.ok (), s') ∧ At s' o'
  call_error {s : σ} {o : Outline String} {c : Call} :
    At s o → c ≠ .fullStop → (∀ o', o.step c = some o' → takes o' = false) →
      ∃ cause s', consume s c = (.error cause, s') ∧ Failed s'
  failed_call {s : σ} {c : Call} : Failed s → c ≠ .fullStop → Failed (consume s c).2

namespace KeepsUp

variable {σ : Type} {consume : σ → Call → Answer × σ} {At : σ → Outline String → Prop}
  {takes : Outline String → Bool} {Failed : σ → Prop}

/-- Calls that end in an outline that cannot be written do so from the first such one on. -/
theorem takes_of_follow (k : KeepsUp consume At takes Failed) {o o' : Outline String} {calls : List Call}
    (follows : o.follow calls = some o') (ok : takes o' = true) : takes o = true := by
  induction calls generalizing o with
  | nil =>
    obtain rfl := Option.some.inj follows
    exact ok
  | cons c rest ih =>
    rw [Outline.follow] at follows
    split at follows
    · next after steps => exact k.takes_of_step steps (ih follows)
    · cases follows

/-- Calls up to the first that fails: either they all go well and have been followed, or one of them is
refused and what they end in, if anything, cannot be written. -/
theorem makeCalls_cases (k : KeepsUp consume At takes Failed) {s : σ} {o : Outline String}
    (here : At s o) {calls : List Call} (going : Call.fullStop ∉ calls) (last : Answer) :
    (∃ o' s', o.follow calls = some o' ∧ Script.makeCalls consume last calls s = (last, s') ∧
      At s' o') ∨
    ∃ cause s', Script.makeCalls consume last calls s = (.error cause, s') ∧ Failed s' ∧
      ∀ o', o.follow calls = some o' → takes o' = false := by
  induction calls generalizing s o with
  | nil => exact .inl ⟨o, s, rfl, rfl, here⟩
  | cons c rest ih =>
    rw [List.mem_cons, not_or] at going
    rw [Script.makeCalls, Outline.follow]
    obtain ⟨after, steps, taken⟩ | stuck := o.step_cases takes c
    · obtain ⟨s', eq, there⟩ := k.call_ok here steps taken
      rw [eq, steps]
      exact ih there going.2
    · obtain ⟨cause, s', eq, failed⟩ := k.call_error here (fun stop => going.1 stop.symm) stuck
      rw [eq]
      refine .inr ⟨cause, s', rfl, failed, ?_⟩
      -- whatever the calls end in, it could not be written from here on
      intro o' follows
      split at follows
      · next after steps =>
        by_cases taken : takes o' = true
        · have before := stuck after steps
          rw [k.takes_of_follow follows taken] at before
          cases before
        · exact Bool.eq_false_iff.mpr taken
      · cases follows

/-- Calls that end in an outline that can be written all go well. -/
theorem playAll_ok (k : KeepsUp consume At takes Failed) {s : σ} {o o' : Outline String}
    {calls : List Call} (here : At s o) (follows : o.follow calls = some o')
    (ok : takes o' = true) :
    ∃ s', playAll consume s calls = (calls.map (·, .ok ()), s') ∧ At s' o' := by
  induction calls generalizing s o with
  | nil =>
    obtain rfl := Option.some.inj follows
    exact ⟨s, rfl, here⟩
  | cons c rest ih =>
    rw [Outline.follow] at follows
    split at follows
    · next after steps =>
      obtain ⟨s', eq, there⟩ := k.call_ok here steps (k.takes_of_follow follows ok)
      obtain ⟨s'', eqs, thereafter⟩ := ih there follows
      exact ⟨s'', by rw [playAll_cons, eq, eqs, List.map_cons], thereafter⟩
    · cases follows

/-- A failure lasts until the full stop. -/
theorem failed_playAll (k : KeepsUp consume At takes Failed) {s : σ} (failed : Failed s)
    {calls : List Call} (going : Call.fullStop ∉ calls) : Failed (playAll consume s calls).2 := by
  induction calls generalizing s with
  | nil => exact failed
  | cons c rest ih =>
    rw [List.mem_cons, not_or] at going
    exact ih (k.failed_call failed fun stop => going.1 stop.symm) going.2

/-- Of calls that end in an outline that cannot be written one is refused. -/
theorem playAll_error (k : KeepsUp consume At takes Failed) {s : σ} {o o' : Outline String}
    {calls : List Call} (here : At s o) (follows : o.follow calls = some o')
    (bad : takes o' = false) :
    (∃ c cause, (c, .error cause) ∈ (playAll consume s calls).1) ∧
      Failed (playAll consume s calls).2 := by
  induction calls generalizing s o with
  | nil =>
    obtain rfl := Option.some.inj follows
    rw [k.takes_of_at here] at bad
    cases bad
  | cons c rest ih =>
    have going := Outline.fullStop_not_mem follows
    rw [List.mem_cons, not_or] at going
    rw [Outline.follow] at follows
    split at follows
    · next after steps =>
      rw [playAll_cons]
      by_cases ok : takes after = true
      · obtain ⟨s', eq, there⟩ := k.call_ok here steps ok
        obtain ⟨⟨c', cause, refused⟩, failed⟩ := ih there follows
        rw [eq]
        exact ⟨⟨c', cause, List.mem_cons_of_mem _ refused⟩, failed⟩
      · obtain ⟨cause, s', eq, failed⟩ := k.call_error here (fun stop => going.1 stop.symm)
          fun o'' steps' => by
            obtain rfl := Option.some.inj (steps.symm.trans steps')
            exact Bool.eq_false_iff.mpr ok
        rw [eq]
        exact ⟨⟨c, cause, List.mem_cons_self⟩, k.failed_playAll failed going.2⟩
    · cases follows

end KeepsUp

/-! ## In the middle of a sentence -/

/-- What is known of a consumer after the calls since the last full stop, whatever these were. -/
inductive Since {σ : Type} (At : σ → Outline String → Prop) (takes : Outline String → Bool)
    (Failed : σ → Prop) (s : σ) (calls : List Call) : Prop where
  | going (o : Outline String) (follows : Outline.empty.follow calls = some o) (here : At s o)
  | failed (failed : Failed s)
      (useless : ∀ o, Outline.empty.follow calls = some o → takes o = false)

/-- A call that is no full stop is one more of the sentence. -/
theorem Since.step {σ : Type} {consume : σ → Call → Answer × σ} {At : σ → Outline String → Prop}
    {takes : Outline String → Bool} {Failed : σ → Prop} {s : σ} {calls : List Call}
    (h : Since At takes Failed s calls) (k : KeepsUp consume At takes Failed) {c : Call}
    (going : c ≠ .fullStop) : Since At takes Failed (consume s c).2 (calls ++ [c]) := by
  -- the calls so far have at most one outline, and it is enough that this one cannot go on
  have useless (stuck : ∀ o, Outline.empty.follow calls = some o → ∀ o', o.step c = some o' →
      takes o' = false) (o' : Outline String)
      (follows : Outline.empty.follow (calls ++ [c]) = some o') : takes o' = false := by
    rw [Outline.follow_concat] at follows
    split at follows
    · exact stuck _ ‹_› _ follows
    · cases follows
  cases h with
  | going o follows here =>
    obtain ⟨o', steps, taken⟩ | stuck := o.step_cases takes c
    · obtain ⟨s', eq, there⟩ := k.call_ok here steps taken
      rw [eq]
      refine .going o' ?_ there
      rw [Outline.follow_concat, follows]
      exact steps
    · obtain ⟨cause, s', eq, failed⟩ := k.call_error here going stuck
      rw [eq]
      refine .failed failed (useless fun o' follows' => ?_)
      obtain rfl := Option.some.inj (follows.symm.trans follows')
      exact stuck
  | failed failed before =>
    refine .failed (k.failed_call failed going) (useless fun o follows o' steps => ?_)
    refine Bool.eq_false_iff.mpr fun taken => ?_
    exact Bool.eq_false_iff.mp (before o follows) (k.takes_of_step steps taken)

end PrologWire
