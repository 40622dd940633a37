import PrologWire.Arena.Walk
import PrologWire.Call
import PrologWire.Sicstus.Segments
import PrologWire.Wire.Sink
import PrologWire.Wire.VarTable

/-!
# Whole terms into SICStus bytes

A term that is there as a whole needs no patching: arities are known before anything is written. A
sentence is encoded in memory first, so a term that cannot be written leaves nothing on the sink.
`pieces` has what a term is written as; `Writer.writeTerm` writes the term that a handle stands for
piece by piece, and `writeTerm_of_pieces` says that these are the pieces of its tree.
-/

namespace PrologWire.Sicstus

/-! ## Pieces of a sentence -/

/-- A piece of what a term is written as. -/
inductive Piece where
  | bytes (bs : List UInt8)
  /-- A variable, whose number depends on the variables before it. -/
  | var (name : String)
  /-- A run of list elements. -/
  | codes (bs : List UInt8)
  /-- What stands before every other list element. -/
  | element
  /-- The end of a list. -/
  | close
deriving DecidableEq, Inhabited

/-- A sentence in the making. -/
structure Draft where
  buffer : Buffer
  vars : VarTable
deriving Inhabited

namespace Draft

/-- A sentence with no bytes yet, in storage that may have been used before. -/
def restart (d : Draft) : Draft := ⟨d.buffer.clear, .empty⟩

/-- Appends bytes. -/
def put (d : Draft) (bs : List UInt8) : Draft := { d with buffer := d.buffer.append bs }

/-- Appends a variable. -/
def putVar (d : Draft) (name : String) : Draft :=
  let (ordinal, vars) := d.vars.ordinal name
  { d with vars := vars }.put (variableBytes ordinal)

/-- Appends a piece. -/
def add (d : Draft) : Piece → Draft
  | .bytes bs => d.put bs
  | .var name => d.putVar name
  | .codes bs => d.put (runTag :: bs ++ [0])
  | .element => d.put [elementTag]
  | .close => d.put [endTag]

end Draft

/-! ## The pieces of a tree -/

/-- What a term without parts is written as. -/
def leafPiece : Leaf → Except WireError Piece
  | .int value => .ok (.bytes (integerBytes (toString value.toInt)))
  | .bigint digits => .ok (.bytes (integerBytes digits))
  | .real value => .ok (.bytes (floatBytes value))
  | .atom name => .ok (.bytes (atomBytes name))
  | .var name => .ok (.var name)
  | .str _ => .error (.unsupportedTerm .str)

/-- What comes before the arguments of a compound, if there are not too many. -/
def compoundPiece (name : String) (arity : Nat) : Except WireError Piece :=
  if maxArity < arity then .error (.arityOverflow name arity)
  else .ok (.bytes (compoundBytes name (UInt8.ofNat arity)))

/-- The piece of a small integer before other list elements; next to a run it belongs to the run. -/
def joinCodes (byte : UInt8) : List Piece → List Piece
  | .codes bs :: rest => .codes (byte :: bs) :: rest
  | rest => .codes [byte] :: rest

mutual

/-- The pieces of a term. The elements of a list have to resolve before any of them is written. -/
def pieces : Tree → Except WireError (List Piece)
  | .leaf l => do .ok [← leafPiece l]
  | .list elems =>
    -- of several elements that do not resolve the last is reported
    match lastUnresolved? Tree.view elems with
    | some cause => .error (.term cause)
    | none => do .ok ((← elemPieces elems) ++ [.close])
  | .func functor args =>
    match functor.functorName with
    | .error cause => .error (.term cause)
    | .ok name => do .ok ((← compoundPiece name args.length) :: (← argPieces args))
  | .tuple _ => .error (.unsupportedTerm .tuple)
  | .broken cause => .error (.term cause)

/-- The pieces of the arguments of a compound. -/
def argPieces : List Tree → Except WireError (List Piece)
  | [] => .ok []
  | t :: rest => do .ok ((← pieces t) ++ (← argPieces rest))

/-- The pieces of the elements of a list. -/
def elemPieces : List Tree → Except WireError (List Piece)
  | [] => .ok []
  | t :: rest =>
    match smallByte? t.view with
    | some byte => do .ok (joinCodes byte (← elemPieces rest))
    | none => do .ok (.element :: (← pieces t) ++ (← elemPieces rest))

end

/-- The pieces of a list by its segments. -/
def segmentPieces : List (Segment Tree) → Except WireError (List Piece)
  | [] => .ok []
  | .run bs :: rest => do .ok (.codes bs :: (← segmentPieces rest))
  | .single t :: rest => do .ok (.element :: (← pieces t) ++ (← segmentPieces rest))

theorem segmentPieces_joinRun (byte : UInt8) (segments : List (Segment Tree)) :
    segmentPieces (joinRun byte segments) =
      (do .ok (joinCodes byte (← segmentPieces segments))) := by
  rcases segments with _ | ⟨bs | t, rest⟩
  · rfl
  · rw [joinRun, segmentPieces, segmentPieces]
    cases segmentPieces rest <;> rfl
  · have alone : joinRun byte (.single t :: rest) = .run [byte] :: .single t :: rest := rfl
    rw [alone, segmentPieces, segmentPieces]
    rcases pieces t with cause | ps
    · rfl
    · rcases segmentPieces rest with cause | qs <;> rfl

/-- The pieces of a list are those of its segments. -/
theorem elemPieces_eq_segmentPieces (elems : List Tree) :
    elemPieces elems = segmentPieces (segmentsOf (fun t => smallByte? t.view) elems) := by
  induction elems with
  | nil => rfl
  | cons t rest ih =>
    rw [elemPieces, segmentsOf, ih]
    cases smallByte? t.view with
    | none => rfl
    | some byte => exact (segmentPieces_joinRun byte _).symm

/-! ## Writing the pieces -/

namespace Writer

/-- The steps for a segment of a list. -/
def segmentSteps : Segment Handle → List (Step Piece)
  | .run bs => [.put (.codes bs)]
  | .single h => [.put .element, .visit h]

/-- What is to be written at one level of a term. -/
def steps (look : Handle → Except TermError (View Handle)) :
    View Handle → Except WireError (List (Step Piece))
  | .leaf l =>
    match leafPiece l with
    | .error cause => .error cause
    | .ok piece => .ok [.put piece]
  | .list elems =>
    match Grouping.ofElements look elems with
    | .error cause => .error (.term cause)
    | .ok segments => .ok (segments.flatMap segmentSteps ++ [.put .close])
  | .func functor args =>
    match View.functorName (look functor) with
    | .error cause => .error (.term cause)
    | .ok name =>
      match compoundPiece name args.length with
      | .error cause => .error cause
      | .ok piece => .ok (.put piece :: args.map Step.visit)
  | .tuple _ => .error (.unsupportedTerm .tuple)

/-- The walk that appends the pieces of a term. -/
def walk : Walk Draft Piece WireError where
  unresolved := .term
  steps := steps
  put piece d := (.ok (), d.add piece)

/-- The outcome of a walk that adds pieces, if there are any, and fails otherwise. -/
def Added (d : Draft) (ps : Except WireError (List Piece)) (r : Answer × Draft) : Prop :=
  match ps with
  | .ok ps => r = (.ok (), ps.foldl Draft.add d)
  | .error cause => ∃ after, r = (.error cause, after)

/-- Going on after some pieces with others adds all of them. -/
theorem Added.thenDo {d : Draft} {xs ys : Except WireError (List Piece)} {r : Answer × Draft}
    {next : Draft → Answer × Draft} (first : Added d xs r) (second : ∀ d, Added d ys (next d)) :
    Added d (do .ok ((← xs) ++ (← ys))) (Walk.thenDo r next) := by
  cases xs with
  | error cause =>
    obtain ⟨after, rfl⟩ := first
    exact ⟨after, rfl⟩
  | ok xs =>
    obtain rfl := first
    have both := second (xs.foldl Draft.add d)
    cases ys with
    | error cause => exact both
    | ok ys => exact both.trans (by rw [List.foldl_append])

/-- Putting down a piece adds it. -/
theorem added_put (piece : Piece) (d : Draft) : Added d (.ok [piece]) (walk.put piece d) := rfl

/-- Visiting the arguments of a compound adds their pieces. -/
theorem added_args {go : Handle → Draft → Answer × Draft} {f : Handle → Tree}
    (each : ∀ h d, Added d (pieces (f h)) (go h d)) (hs : List Handle) (d : Draft) :
    Added d (argPieces (hs.map f)) (walk.perform go (hs.map Step.visit) d) := by
  induction hs generalizing d with
  | nil => exact rfl
  | cons h rest ih => exact (each h d).thenDo ih

/-- Visiting the segments of a list adds their pieces. -/
theorem added_segments {go : Handle → Draft → Answer × Draft} {f : Handle → Tree}
    (each : ∀ h d, Added d (pieces (f h)) (go h d)) (segments : List (Segment Handle)) (d : Draft) :
    Added d (segmentPieces (segments.map (.map f)))
      (walk.perform go (segments.flatMap segmentSteps) d) := by
  induction segments generalizing d with
  | nil => exact rfl
  | cons segment rest ih =>
    rw [List.map_cons, List.flatMap_cons]
    cases segment with
    | run bs => exact (added_put (.codes bs) d).thenDo ih
    | single h =>
      have all := (added_put .element d).thenDo fun d => (each h d).thenDo ih
      revert all
      rw [Segment.map, segmentPieces]
      rcases pieces (f h) with cause | xs
      · exact id
      · rcases segmentPieces (rest.map (.map f)) with cause | ys <;> exact id

/-- Walking a term adds the pieces of its tree. -/
theorem added_descend (a : Arena) (depth : Nat) (h : Handle) (d : Draft) :
    Added d (pieces (a.unfold depth h)) (walk.descend a depth h d) := by
  induction depth generalizing h d with
  | zero => exact ⟨_, rfl⟩
  | succ depth each =>
    have seen := a.view_unfold depth
    rw [Walk.descend, Walk.expand, Arena.unfold_succ]
    rcases a.view h with cause | v
    · exact ⟨_, rfl⟩
    · dsimp only
      rw [show walk.steps = steps from rfl]
      cases v with
      | leaf l =>
        show Added d (pieces (.leaf l)) _
        rw [pieces, steps]
        rcases leafPiece l with cause | piece
        · exact ⟨_, rfl⟩
        · exact added_put piece d
      | list elems =>
        show Added d (pieces (.list (elems.map (a.unfold depth)))) _
        rw [pieces, steps, Grouping.ofElements_eq, lastUnresolved?_map (a.unfold depth) _ seen]
        rcases lastUnresolved? (a.look depth) elems with _ | cause
        · have same (h : Handle) : smallByte? (a.unfold depth h).view =
              smallByte? (a.look depth h) := by
            rw [seen, smallByte?_map]
          have cut : segmentsOf (fun t => smallByte? t.view) (elems.map (a.unfold depth)) =
              (segmentsOf (fun h => smallByte? (a.look depth h)) elems).map (.map (a.unfold depth)) :=
            segmentsOf_map (fun t => smallByte? t.view) (a.unfold depth) same elems
          have last : walk.perform (walk.descend a depth) [.put .close] = walk.put .close := rfl
          dsimp only
          rw [Walk.perform_append, last, elemPieces_eq_segmentPieces, cut]
          exact (added_segments each _ d).thenDo (added_put .close)
        · exact ⟨_, rfl⟩
      | tuple elems => exact ⟨_, rfl⟩
      | func functor args =>
        show Added d (pieces (.func (a.unfold depth functor) (args.map (a.unfold depth)))) _
        rw [pieces, steps, Arena.functorName_unfold, List.length_map]
        rcases View.functorName (a.look depth functor) with cause | name
        · exact ⟨_, rfl⟩
        · dsimp only
          rcases compoundPiece name args.length with cause | piece
          · exact ⟨_, rfl⟩
          · exact (added_put piece d).thenDo (added_args each args)

end Writer

/-- The writer of a stream of terms. -/
structure Writer where
  draft : Draft
  sink : Sink
deriving Inhabited

namespace Writer

/-- A writer that has written nothing. -/
def new (sink : Sink) : Writer := ⟨⟨.empty, .empty⟩, sink⟩

/-- Writes the bytes of the draft to the sink and flushes it, as far as it lets. -/
def deliver (w : Writer) : Answer × Writer :=
  let (complete, sink) := w.sink.write w.draft.buffer.bytes
  if complete then
    let (flushed, sink) := sink.flush
    (.ofSink flushed, { w with sink := sink })
  else (.ofSink complete, { w with sink := sink })

/-- Writes the term that a handle stands for as one sentence. -/
def writeTerm (w : Writer) (a : Arena) (h : Handle) : Answer × Writer :=
  let ⟨draft, sink⟩ := w
  match walk.start a h (draft.restart.put [versionTag]) with
  | (.error cause, draft) => (.error cause, ⟨draft.restart, sink⟩)
  | (.ok (), draft) => deliver ⟨draft, sink⟩

/-- Writes a term whose pieces are known as one sentence. -/
def writePieces (w : Writer) (ps : List Piece) : Answer × Writer :=
  deliver { w with draft := ps.foldl Draft.add (w.draft.restart.put [versionTag]) }

/-- A term that has pieces is written as these. -/
theorem writeTerm_of_pieces {w : Writer} {a : Arena} {h : Handle} {ps : List Piece}
    (has : pieces (a.tree h) = .ok ps) : w.writeTerm a h = w.writePieces ps := by
  have added := added_descend a a.maxDepth h (w.draft.restart.put [versionTag])
  rw [← Arena.tree, has] at added
  rw [writeTerm, Walk.start_eq_descend, added]
  rfl

/-- A term that has no pieces is refused and leaves nothing on the sink. -/
theorem writeTerm_of_error {w : Writer} {a : Arena} {h : Handle} {cause : WireError}
    (has : pieces (a.tree h) = .error cause) :
    ∃ draft : Draft, w.writeTerm a h = (.error cause, ⟨draft.restart, w.sink⟩) := by
  obtain ⟨draft, added⟩ := has ▸ added_descend a a.maxDepth h (w.draft.restart.put [versionTag])
  exact ⟨draft, by rw [writeTerm, Walk.start_eq_descend, added]⟩

end Writer

end PrologWire.Sicstus
