import PrologWire.Arena.Tree

/-!
# Walking terms

A walk visits a term and its subterms from the left to the right and ends at the first failure. It
is given by what it does at one level of a term. `Walk.descend` carries it out by recursion and is
what statements are about; `Walk.run` keeps what is still to be done on a stack of its own, so that
neither deep nor long terms are a burden, and `Walk.start_eq_descend` says that the two agree.
-/

namespace PrologWire

/-- Something that a walk has still to do. -/
inductive Step (β : Type) where
  /-- To visit a part of a term. -/
  | visit (h : Handle)
  /-- To put down something that belongs between the parts of a term or behind them. -/
  | put (piece : β)

/-- A walk with a state `σ`, pieces `β` and failures `ε`. -/
structure Walk (σ β ε : Type) where
  /-- The failure that comes of a term that cannot be resolved. -/
  unresolved : TermError → ε
  /-- What is to be done at one level of a term, the parts of which can be looked at. -/
  steps : (Handle → Except TermError (View Handle)) → View Handle → Except ε (List (Step β))
  /-- Puts down a piece. -/
  put : β → σ → Except ε Unit × σ

namespace Walk

variable {σ β ε : Type}

/-! ## By recursion -/

/-- Goes on with something else if all went well. -/
def thenDo (outcome : Except ε Unit × σ) (next : σ → Except ε Unit × σ) : Except ε Unit × σ :=
  match outcome with
  | (.ok (), s) => next s
  | (.error e, s) => (.error e, s)

@[simp] theorem thenDo_ok (s : σ) (next : σ → Except ε Unit × σ) :
    thenDo (.ok (), s) next = next s := rfl

@[simp] theorem thenDo_error (e : ε) (s : σ) (next : σ → Except ε Unit × σ) :
    thenDo (.error e, s) next = (.error e, s) := rfl

/-- Nothing comes of going on with nothing. -/
@[simp] theorem thenDo_done (outcome : Except ε Unit × σ) :
    thenDo outcome (fun s => (.ok (), s)) = outcome := by
  rcases outcome with ⟨cause | done, s⟩ <;> rfl

/-- It does not matter how going on twice is grouped. -/
theorem thenDo_thenDo (outcome : Except ε Unit × σ) (f g : σ → Except ε Unit × σ) :
    thenDo (thenDo outcome f) g = thenDo outcome fun s => thenDo (f s) g := by
  rcases outcome with ⟨cause | done, s⟩ <;> rfl

/-- Does one step after the other, with `go` for the visits. -/
def perform (w : Walk σ β ε) (go : Handle → σ → Except ε Unit × σ) :
    List (Step β) → σ → Except ε Unit × σ
  | [], s => (.ok (), s)
  | .visit h :: rest, s => thenDo (go h s) (perform w go rest)
  | .put piece :: rest, s => thenDo (w.put piece s) (perform w go rest)

/-- Steps in a row are done in two parts, the second if the first went well. -/
theorem perform_append (w : Walk σ β ε) (go : Handle → σ → Except ε Unit × σ)
    (xs ys : List (Step β)) :
    w.perform go (xs ++ ys) = fun s => thenDo (w.perform go xs s) (w.perform go ys) := by
  induction xs with
  | nil => rfl
  | cons step xs ih =>
    funext s
    cases step <;> simp only [List.cons_append, perform, thenDo_thenDo, ih]

/-- What is to be done at a term whose parts are allowed to have `depth` levels. -/
def expand (w : Walk σ β ε) (a : Arena) (depth : Nat) (h : Handle) : Except ε (List (Step β)) :=
  match a.view h with
  | .error cause => .error (w.unresolved cause)
  | .ok v => w.steps (a.look depth) v

/-- Walks a term that is allowed to have `depth` levels. -/
def descend (w : Walk σ β ε) (a : Arena) : Nat → Handle → σ → Except ε Unit × σ
  | 0, h, s => (.error (w.unresolved (.endlessTerm h)), s)
  | depth + 1, h, s =>
    match w.expand a depth h with
    | .error e => (.error e, s)
    | .ok steps => w.perform (w.descend a depth) steps s

/-! ## With a stack -/

/-- The depths that are left to the steps on a stack. -/
structure Depths where
  toList : List Nat

/-- One stack comes from another by putting any number of lesser depths in the place of the
topmost. -/
def Depths.Follows (s t : Depths) : Prop :=
  ∃ depth above rest, t.toList = depth :: rest ∧ s.toList = above ++ rest ∧
    ∀ d, d ∈ above → d < depth

/-- A stack with a topmost depth can be worked off if the stack below can. -/
theorem Depths.acc_cons (depth : Nat) (rest : List Nat) (h : Acc Depths.Follows ⟨rest⟩) :
    Acc Depths.Follows ⟨depth :: rest⟩ := by
  induction depth using Nat.strongRecOn generalizing rest with
  | ind depth lesser =>
    constructor
    rintro ⟨after⟩ ⟨d, above, below, top, rfl, small⟩
    obtain ⟨rfl, rfl⟩ := List.cons.inj top
    clear top
    induction above with
    | nil => exact h
    | cons x above ih =>
      exact lesser x (small x List.mem_cons_self) (above ++ rest)
        (ih fun y hy => small y (List.mem_cons_of_mem x hy))

/-- Every stack can be worked off. -/
theorem Depths.wellFounded_follows : WellFounded Depths.Follows := by
  constructor
  rintro ⟨depths⟩
  induction depths with
  | nil =>
    constructor
    rintro ⟨after⟩ ⟨d, above, below, top, -⟩
    cases top
  | cons depth rest ih => exact Depths.acc_cons depth rest ih

instance : WellFoundedRelation Depths := ⟨Depths.Follows, Depths.wellFounded_follows⟩

/-- The depths of the steps on a stack. -/
def depths (stack : List (Nat × Step β)) : Depths := ⟨stack.map Prod.fst⟩

/-- Taking a step off a stack leads on. -/
theorem follows_tail (top : Nat × Step β) (rest : List (Nat × Step β)) :
    Depths.Follows (depths rest) (depths (top :: rest)) :=
  ⟨top.1, [], rest.map Prod.fst, rfl, rfl, fun _ h => absurd h List.not_mem_nil⟩

/-- The stack with further steps, each with the same depth left to it. -/
def pushSteps (depth : Nat) (steps : List (Step β)) (rest : List (Nat × Step β)) :
    List (Nat × Step β) :=
  steps.map (fun step => (depth, step)) ++ rest

/-- Putting steps one level further down in the place of a step leads on. -/
theorem follows_pushSteps (depth : Nat) (step : Step β) (steps : List (Step β))
    (rest : List (Nat × Step β)) :
    Depths.Follows (depths (pushSteps depth steps rest)) (depths ((depth + 1, step) :: rest)) := by
  refine ⟨depth + 1, (steps.map fun step => (depth, step)).map Prod.fst, rest.map Prod.fst, rfl,
    List.map_append, ?_⟩
  intro d inside
  obtain ⟨p, there, rfl⟩ := List.mem_map.mp inside
  obtain ⟨step, -, rfl⟩ := List.mem_map.mp there
  exact Nat.lt_succ_self depth

/-- Does the steps on a stack, the topmost first. -/
def run (w : Walk σ β ε) (a : Arena) (stack : List (Nat × Step β)) (s : σ) : Except ε Unit × σ :=
  match stack with
  | [] => (.ok (), s)
  | (_, .put piece) :: rest =>
    match w.put piece s with
    | (.ok (), s) => run w a rest s
    | (.error e, s) => (.error e, s)
  | (0, .visit h) :: _ => (.error (w.unresolved (.endlessTerm h)), s)
  | (depth + 1, .visit h) :: rest =>
    match w.expand a depth h with
    | .error e => (.error e, s)
    | .ok steps => run w a (pushSteps depth steps rest) s
termination_by depths stack
decreasing_by
  · exact follows_tail _ _
  · exact follows_pushSteps _ _ _ _

/-- A visit on top of a stack is a walk by recursion, and then the rest. -/
theorem run_visit (w : Walk σ β ε) (a : Arena) (depth : Nat) (h : Handle)
    (rest : List (Nat × Step β)) (s : σ) :
    w.run a ((depth, .visit h) :: rest) s = thenDo (w.descend a depth h s) (w.run a rest) := by
  induction depth generalizing h rest s with
  | zero => rw [run, descend, thenDo_error]
  | succ depth visits =>
    rw [run, descend]
    rcases w.expand a depth h with cause | steps
    · rfl
    · show w.run a (pushSteps depth steps rest) s =
        thenDo (w.perform (w.descend a depth) steps s) (w.run a rest)
      induction steps generalizing s with
      | nil => rfl
      | cons step steps ih =>
        have push : pushSteps depth (step :: steps) rest =
          (depth, step) :: pushSteps depth steps rest := rfl
        cases step with
        | visit part => rw [push, visits, perform, thenDo_thenDo, funext ih]
        | put piece =>
          rw [push, run, perform, thenDo_thenDo]
          rcases w.put piece s with ⟨cause | done, after⟩
          · rfl
          · exact ih after

/-- Walks the term that a handle stands for. -/
def start (w : Walk σ β ε) (a : Arena) (h : Handle) (s : σ) : Except ε Unit × σ :=
  w.run a [(a.maxDepth, .visit h)] s

/-- The walk with a stack does what the walk by recursion does. -/
theorem start_eq_descend (w : Walk σ β ε) (a : Arena) (h : Handle) (s : σ) :
    w.start a h s = w.descend a a.maxDepth h s := by
  have nothing : w.run a [] = fun s => (.ok (), s) := by
    funext s
    rw [run]
  rw [start, run_visit, nothing, thenDo_done]

end Walk

end PrologWire
