import PrologWire.Arena.Calls
import PrologWire.Arena.Display
import PrologWire.Proofs.Arena.Grounded
import PrologWire.Proofs.Arena.LiveTerms
import PrologWire.Sicstus.Writer

/-!
# Every walk ends

In an arena where every slot holds something that lies in front of it, the way down a term leads to ever
lower slots. So a walk that visits parts only comes to an end from any handle, also without a limit for
depths, and the limit that the walks of this library have is never what ends them.
-/

namespace PrologWire

variable {σ β ε : Type}

namespace Walk

/-- The loop that takes one step after the other off a stack, without a limit for depths, ends with this
outcome. -/
inductive Ends (w : Walk σ β ε) (a : Arena) : List (Step β) → σ → Except ε Unit × σ → Prop where
  | done (s : σ) : Ends w a [] s (.ok (), s)
  | put {piece : β} {rest : List (Step β)} {s s' : σ} {r : Except ε Unit × σ} :
    w.put piece s = (.ok (), s') → Ends w a rest s' r → Ends w a (.put piece :: rest) s r
  | failed {piece : β} {rest : List (Step β)} {s s' : σ} {e : ε} :
    w.put piece s = (.error e, s') → Ends w a (.put piece :: rest) s (.error e, s')
  | unresolved {h : Handle} {rest : List (Step β)} {s : σ} {cause : TermError} :
    a.view h = .error cause → Ends w a (.visit h :: rest) s (.error (w.unresolved cause), s)
  | refused {h : Handle} {v : View Handle} {rest : List (Step β)} {s : σ} {e : ε} :
    a.view h = .ok v → w.steps a.view v = .error e → Ends w a (.visit h :: rest) s (.error e, s)
  | visit {h : Handle} {v : View Handle} {steps rest : List (Step β)} {s : σ}
    {r : Except ε Unit × σ} : a.view h = .ok v → w.steps a.view v = .ok steps →
    Ends w a (steps ++ rest) s r → Ends w a (.visit h :: rest) s r

/-- The walk visits nothing but parts of what it is at, and looks at nothing else. -/
structure VisitsParts (w : Walk σ β ε) : Prop where
  mem_parts {look : Handle → Except TermError (View Handle)} {v : View Handle} {steps : List (Step β)}
    {k : Handle} : w.steps look v = .ok steps → .visit k ∈ steps → k ∈ v.parts
  congr {look look' : Handle → Except TermError (View Handle)} {v : View Handle} :
    (∀ k ∈ v.parts, look k = look' k) → w.steps look v = w.steps look' v

variable {w : Walk σ β ε} {a : Arena}

/-- If every visit ends so that what is below on the stack goes on, steps in a row do. -/
theorem ends_perform {go : Handle → σ → Except ε Unit × σ} {steps : List (Step β)}
    (visits : ∀ k, .visit k ∈ steps → ∀ rest next, (∀ s, w.Ends a rest s (next s)) →
      ∀ s, w.Ends a (.visit k :: rest) s (thenDo (go k s) next))
    {rest : List (Step β)} {next : σ → Except ε Unit × σ} (goes : ∀ s, w.Ends a rest s (next s)) (s : σ) :
    w.Ends a (steps ++ rest) s (thenDo (w.perform go steps s) next) := by
  induction steps generalizing s with
  | nil => exact goes s
  | cons step steps ih =>
    have others := ih fun k among => visits k (List.mem_cons_of_mem _ among)
    cases step with
    | visit k =>
      rw [perform, thenDo_thenDo]
      exact visits k List.mem_cons_self (steps ++ rest) _ others s
    | put piece =>
      rw [perform, thenDo_thenDo]
      rcases outcome : w.put piece s with ⟨cause | done, after⟩
      · exact .failed outcome
      · exact .put outcome (others after)

end Walk

namespace Arena

variable {a : Arena} {names : List EpochId} {known : List Handle} {h k : Handle}

/-- The one handle is that of a part of the other. -/
def IsPart (a : Arena) (k h : Handle) : Prop := ∃ v, a.view h = .ok v ∧ k ∈ v.parts

/-- The parts are in slots below a certain one. -/
def PartsBelow (a : Arena) (n : Nat) (h : Handle) : Prop :=
  ∀ k, a.IsPart k h → ∃ i < n, a.slots[i]? = some k

/-- What is in a stretch is in a slot before its end. -/
theorem exists_lt_stop_of_slotsAt {s : Slice} {hs : List Handle} (given : a.slotsAt s = .ok hs)
    (among : k ∈ hs) : ∃ i < s.stop, a.slots[i]? = some k := by
  unfold slotsAt at given
  cases found : a.locate (·.slotStart) a.slots.size s with
  | error fault =>
    rw [found] at given
    cases given
  | ok r =>
    obtain ⟨-, -, -, -, -, range, -⟩ := locate_eq_ok found
    rw [found] at given
    obtain rfl : (a.slots.extract r.1 r.2).toList = hs := Except.ok.inj given
    obtain ⟨j, here⟩ := List.mem_iff_getElem?.mp among
    rw [Array.getElem?_toList, Array.getElem?_extract, range] at here
    split at here
    · next inside =>
      refine ⟨s.start.toNat + j, ?_, here⟩
      rw [Slice.stop]
      dsimp only at inside
      omega
    · cases here

/-- Below a slot are the parts of what it holds. -/
theorem Grounded.partsBelow (g : a.Grounded names known) {i : Nat} (here : a.slots[i]? = some h) :
    a.PartsBelow i h := by
  rintro k ⟨v, seen, part⟩
  obtain ⟨kind, s, hs, rfl, given, among⟩ := exists_slotsAt_of_mem_parts seen part
  obtain ⟨j, before, held⟩ := exists_lt_stop_of_slotsAt given among
  rcases g.slot_cases here with ⟨cause, unseen⟩ | front
  · rw [seen] at unseen
    cases unseen
  · exact ⟨j, by omega, held⟩

/-- Of any handle the parts are in slots. -/
theorem partsBelow_size (a : Arena) (h : Handle) : a.PartsBelow a.slots.size h := by
  rintro k ⟨v, seen, part⟩
  obtain ⟨i, held⟩ := List.mem_iff_getElem?.mp (mem_slots_of_mem_parts seen part)
  rw [Array.getElem?_toList] at held
  exact ⟨i, (Array.getElem?_eq_some_iff.mp held).1, held⟩

/-- No way down a term is endless. -/
theorem Grounded.wellFounded_isPart (g : a.Grounded names known) : WellFounded a.IsPart := by
  -- by the number of slots that the parts are below, which is less for each part
  have acc (n : Nat) {h : Handle} (below : a.PartsBelow n h) : Acc a.IsPart h := by
    induction n using Nat.strongRecOn generalizing h with
    | ind n ih =>
      constructor
      intro k part
      obtain ⟨i, lower, held⟩ := below k part
      exact ih i lower (g.partsBelow held)
  exact ⟨fun h => acc _ (a.partsBelow_size h)⟩

/-- A visit ends as the walk by recursion does, if this has one level more to go down than there are slots
below, and then what is below on the stack goes on. -/
theorem Grounded.ends_visit (g : a.Grounded names known) {w : Walk σ β ε} (visits : w.VisitsParts)
    {n depth : Nat} (below : a.PartsBelow n h) (deep : n < depth) {rest : List (Step β)}
    {next : σ → Except ε Unit × σ} (goes : ∀ s, w.Ends a rest s (next s)) (s : σ) :
    w.Ends a (.visit h :: rest) s (Walk.thenDo (w.descend a depth h s) next) := by
  induction n using Nat.strongRecOn generalizing h depth rest next s with
  | ind n ih =>
    obtain ⟨depth, rfl⟩ := Nat.exists_eq_add_one_of_ne_zero (Nat.ne_zero_of_lt deep)
    rw [Walk.descend, Walk.expand]
    cases seen : a.view h with
    | error cause => exact .unresolved seen
    | ok v =>
      -- where there are parts to look at, there is a level left for it
      have looks : w.steps (a.look depth) v = w.steps a.view v := by
        refine visits.congr fun k part => ?_
        obtain ⟨i, lower, -⟩ := below k ⟨v, seen, part⟩
        obtain ⟨less, rfl⟩ := Nat.exists_eq_add_one_of_ne_zero (n := depth) (by omega)
        rfl
      dsimp only
      rw [looks]
      cases done : w.steps a.view v with
      | error e => exact .refused seen done
      | ok steps =>
        refine .visit seen done (Walk.ends_perform ?_ goes s)
        intro k among rest next goes s
        obtain ⟨i, lower, held⟩ := below k ⟨v, seen, visits.mem_parts done among⟩
        exact ih i lower (g.partsBelow held) (by omega) goes s

/-- From any handle the loop ends with the outcome of the walk. -/
theorem Grounded.ends_start (g : a.Grounded names known) {w : Walk σ β ε} (visits : w.VisitsParts)
    (h : Handle) (s : σ) : w.Ends a [.visit h] s (w.start a h s) := by
  rw [Walk.start_eq_descend, ← Walk.thenDo_done (w.descend a a.maxDepth h s)]
  refine g.ends_visit visits (a.partsBelow_size h) ?_ .done s
  rw [maxDepth]
  omega

end Arena

/-! ## The walks of terms -/

/-- The visits of some handles visit nothing else. -/
theorem mem_of_visit_mem_map {hs : List Handle} {k : Handle}
    (among : (Step.visit k : Step β) ∈ hs.map Step.visit) : k ∈ hs := by
  obtain ⟨h, inside, same⟩ := List.mem_map.mp among
  obtain rfl := Step.visit.inj same
  exact inside

/-- Neither is anything else visited when there are pieces between the visits. -/
theorem mem_of_visit_mem_intersperse {hs : List Handle} {k : Handle} {piece : β}
    (among : .visit k ∈ (hs.map Step.visit).intersperse (.put piece)) : k ∈ hs := by
  induction hs with
  | nil => cases among
  | cons h rest ih =>
    cases rest with
    | nil =>
      have inside : k ∈ [h] := mem_of_visit_mem_map among
      exact inside
    | cons next rest =>
      rw [List.map_cons, List.map_cons, List.intersperse_cons_cons, List.mem_cons, List.mem_cons] at among
      rcases among with here | between | later
      · exact Step.visit.inj here ▸ List.mem_cons_self
      · cases between
      · exact List.mem_cons_of_mem _ (ih later)

namespace Sicstus.Writer

/-- An element that stands by itself is one of the list. -/
theorem mem_of_single_mem_segmentsOf {small? : Handle → Option UInt8} {elems : List Handle} {k : Handle}
    (among : .single k ∈ segmentsOf small? elems) : k ∈ elems := by
  induction elems with
  | nil => cases among
  | cons h rest ih =>
    rw [segmentsOf] at among
    split at among
    · refine List.mem_cons_of_mem _ (ih ?_)
      revert among
      rcases segmentsOf small? rest with _ | ⟨bs | x, others⟩ <;> simp [joinRun]
    · rcases List.mem_cons.mp among with here | later
      · exact Segment.single.inj here ▸ List.mem_cons_self
      · exact List.mem_cons_of_mem _ (ih later)

/-- For the elements of a list nothing is visited but these. -/
theorem mem_of_visit_mem_segmentSteps {look : Handle → Except TermError (View Handle)}
    {elems : List Handle} {segments : List (Segment Handle)} {k : Handle}
    (cut : Grouping.ofElements look elems = .ok segments)
    (among : .visit k ∈ segments.flatMap segmentSteps) : k ∈ elems := by
  rw [Grouping.ofElements_eq] at cut
  split at cut
  · cases cut
  · obtain rfl := Except.ok.inj cut
    obtain ⟨segment, inside, here⟩ := List.mem_flatMap.mp among
    cases segment with
    | run bs => simp [segmentSteps] at here
    | single h =>
      obtain rfl : k = h := by simpa [segmentSteps] using here
      exact mem_of_single_mem_segmentsOf inside

/-- Elements are grouped by what looks at them show. -/
theorem foldlM_step_congr {look look' : Handle → Except TermError (View Handle)} {elems : List Handle}
    (same : ∀ k ∈ elems, look k = look' k) (g : Grouping Handle) :
    elems.foldlM (Grouping.step look) g = elems.foldlM (Grouping.step look') g := by
  induction elems generalizing g with
  | nil => rfl
  | cons h rest ih =>
    have others := ih fun k among => same k (List.mem_cons_of_mem h among)
    rw [List.foldlM_cons, List.foldlM_cons, Grouping.step, Grouping.step, same h List.mem_cons_self,
      funext others]

theorem visitsParts_walk : walk.VisitsParts where
  mem_parts {look v steps k} done among := by
    cases v with
    | leaf l =>
      simp only [walk, Writer.steps] at done
      split at done
      · cases done
      · obtain rfl := Except.ok.inj done
        simp at among
    | list elems =>
      simp only [walk, Writer.steps] at done
      split at done
      · cases done
      · obtain rfl := Except.ok.inj done
        rcases List.mem_append.mp among with inner | last
        · exact mem_of_visit_mem_segmentSteps ‹_› inner
        · simp at last
    | func functor args =>
      simp only [walk, Writer.steps] at done
      split at done
      · cases done
      · split at done
        · cases done
        · obtain rfl := Except.ok.inj done
          rcases List.mem_cons.mp among with first | inner
          · cases first
          · exact List.mem_cons_of_mem _ (mem_of_visit_mem_map inner)
    | tuple elems => cases done
  congr {look look' v} same := by
    cases v with
    | leaf l => rfl
    | list elems =>
      have groups : elems.reverse.foldlM (Grouping.step look) ⟨[], #[]⟩ =
          elems.reverse.foldlM (Grouping.step look') ⟨[], #[]⟩ :=
        foldlM_step_congr (fun k among => same k (List.mem_reverse.mp among)) _
      show Writer.steps look (.list elems) = Writer.steps look' (.list elems)
      rw [Writer.steps, Writer.steps, Grouping.ofElements, Grouping.ofElements, groups]
    | func functor args =>
      show Writer.steps look (.func functor args) = Writer.steps look' (.func functor args)
      rw [Writer.steps, Writer.steps, same functor List.mem_cons_self]
    | tuple elems => rfl

end Sicstus.Writer

theorem Print.visitsParts_walk (consume : σ → Call → Answer × σ) : (walk consume).VisitsParts where
  mem_parts {look v steps k} done among := by
    have inner {opening closing : Call} {hs : List Handle}
        (among : .visit k ∈ between opening closing hs) : k ∈ hs := by
      rcases List.mem_cons.mp among with first | rest
      · cases first
      · rcases List.mem_append.mp rest with inside | last
        · exact mem_of_visit_mem_map inside
        · simp at last
    cases v with
    | leaf l =>
      simp only [walk, Print.steps] at done
      split at done
      · obtain rfl := Except.ok.inj done
        simp at among
      · cases done
    | list elems =>
      cases elems with
      | nil =>
        obtain rfl := Except.ok.inj done
        simp at among
      | cons first rest =>
        obtain rfl := Except.ok.inj done
        exact inner among
    | func functor args =>
      simp only [walk, Print.steps] at done
      split at done
      · obtain rfl := Except.ok.inj done
        exact List.mem_cons_of_mem _ (inner among)
      · cases done
    | tuple elems => cases done
  congr {look look' v} same := by
    cases v with
    | leaf l => rfl
    | list elems => cases elems <;> rfl
    | func functor args =>
      show Print.steps look (.func functor args) = Print.steps look' (.func functor args)
      rw [Print.steps, Print.steps, same functor List.mem_cons_self]
    | tuple elems => rfl

theorem Display.visitsParts_walk : walk.VisitsParts where
  mem_parts {look v steps k} done among := by
    have inner {close : String} {hs : List Handle} (among : .visit k ∈ parts close hs) : k ∈ hs := by
      rcases List.mem_append.mp among with inside | last
      · exact mem_of_visit_mem_intersperse inside
      · simp at last
    cases v with
    | leaf l =>
      obtain rfl := Except.ok.inj done
      simp at among
    | list elems | tuple elems =>
      obtain rfl := Except.ok.inj done
      rcases List.mem_cons.mp among with first | rest
      · cases first
      · exact inner rest
    | func functor args =>
      simp only [walk, Display.steps] at done
      split at done
      · cases done
      · obtain rfl := Except.ok.inj done
        rcases List.mem_cons.mp among with first | rest
        · cases first
        · exact List.mem_cons_of_mem _ (inner rest)
  congr {look look' v} same := by
    cases v with
    | func functor args =>
      show Display.steps look (.func functor args) = Display.steps look' (.func functor args)
      rw [Display.steps, Display.steps, same functor List.mem_cons_self]
    | leaf l => rfl
    | list elems => rfl
    | tuple elems => rfl

namespace Arena

/-- In every arena that is reached by making terms, beginning epochs and erasing epochs other than the
bottom one, a compound, list or tuple in a slot does not resolve or ends before the slot. No term there
contains itself, and from any handle at all the loops that encode a term, print it or display it end, with
the outcome that they have in this library. -/
theorem Reached.walks_end {a : Arena} {names : List EpochId} {known : List Handle}
    (reached : a.Reached names known) :
    (∀ k kind s, a.slots[k]? = some (.node kind s) →
      (∃ cause, a.view (.node kind s) = .error cause) ∨ s.stop ≤ k) ∧
    WellFounded a.IsPart ∧
    ∀ h, (∀ d, Sicstus.Writer.walk.Ends a [.visit h] d (Sicstus.Writer.walk.start a h d)) ∧
      (∀ (σ : Type) (consume : σ → Call → Answer × σ) (s : σ),
        (Print.walk consume).Ends a [.visit h] s (a.printTerm h consume s)) ∧
      ∀ out, Display.walk.Ends a [.visit h] out (Display.walk.start a h out) := by
  have g := reached.grounded
  refine ⟨fun k kind s here => g.slot_cases here, g.wellFounded_isPart, fun h => ⟨?_, ?_, ?_⟩⟩
  · exact g.ends_start Sicstus.Writer.visitsParts_walk h
  · exact fun σ consume => g.ends_start (Print.visitsParts_walk consume) h
  · exact g.ends_start Display.visitsParts_walk h

/-- A list with a tuple that is made while the list is. -/
def nested : Operation :=
  .list [.integer 1, .work [.tuple [.integer 2]] (.node .tuple ⟨⟨1⟩, 1, 1⟩)]

/-- A list with another one in it, of which the epoch has been erased. -/
def outlived : Operation := .list [.term (.node .list ⟨⟨1⟩, 0, 3⟩)]

/-- An arena where a list has been made in an epoch, the epoch has been erased, and the list has been put
where it was itself before. -/
def recycled : Arena :=
  Operation.performAll [.beginEpoch ⟨1⟩, nested, .truncate ⟨1⟩, .beginEpoch ⟨2⟩, outlived]
    (create ⟨0⟩ ⟨0⟩)

/-- What it has given back, from the elements of the first list to the second list. -/
def recycledHandles : List Handle :=
  [.int 1, .int 2, .node .tuple ⟨⟨1⟩, 1, 1⟩, .node .list ⟨⟨1⟩, 0, 3⟩, .node .list ⟨⟨2⟩, 0, 1⟩]

theorem walks_end_recycled :
    recycled.Reached [⟨0⟩, ⟨1⟩, ⟨2⟩] recycledHandles ∧
      recycled.slots[0]? = some (.node .list ⟨⟨1⟩, 0, 3⟩) ∧
      (∃ cause, recycled.view (.node .list ⟨⟨1⟩, 0, 3⟩) = .error cause) ∧
      Display.walk.Ends recycled [.visit (.node .list ⟨⟨2⟩, 0, 1⟩)] ""
        (Display.walk.start recycled (.node .list ⟨⟨2⟩, 0, 1⟩) "") := by
  have reached : recycled.Reached [⟨0⟩, ⟨1⟩, ⟨2⟩] recycledHandles := by
    have begun := (Reached.create ⟨0⟩ ⟨0⟩).begin ⟨1⟩ (by decide) (by decide)
    have tuple : (Handle.node .tuple ⟨⟨1⟩, 1, 1⟩).IsAmong [.int 1, .int 2, .node .tuple ⟨⟨1⟩, 1, 1⟩] :=
      fun _ _ _ => by decide
    have made := begun.build nested ⟨trivial, ⟨⟨⟨trivial, trivial⟩, trivial⟩, tuple⟩, trivial⟩
    have again := (made.erase ⟨1⟩ (by decide)).begin ⟨2⟩ (by decide) (by decide)
    have stale : (Handle.node .list ⟨⟨1⟩, 0, 3⟩).IsAmong
        [.int 1, .int 2, .node .tuple ⟨⟨1⟩, 1, 1⟩, .node .list ⟨⟨1⟩, 0, 3⟩] := fun _ _ _ => by decide
    exact again.build outlived ⟨stale, trivial⟩
  have slot : recycled.slots[0]? = some (.node .list ⟨⟨1⟩, 0, 3⟩) := rfl
  refine ⟨reached, slot, ?_, (reached.walks_end.2.2 _).2.2 ""⟩
  rcases reached.walks_end.1 0 .list ⟨⟨1⟩, 0, 3⟩ slot with unseen | front
  · exact unseen
  · exact absurd front (by decide)

end Arena

end PrologWire
