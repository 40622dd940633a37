import PrologWire.Arena.Builder
import PrologWire.Proofs.Arena.Stored
import PrologWire.Proofs.Sentence.Run

/-!
# Building terms call by call

A builder keeps the handles of whole terms, in the frames of what is open and outside of them. `At` says
that they stand for the terms of an outline. Every call that an outline can go on with keeps it so, since
storages only grow and what is closed is made of the handles of its parts, and no other call succeeds.
-/

namespace PrologWire

namespace Builder

/-- A frame has the parts of something open. -/
def Fits (a : Arena) : Frame → Unclosed String → Prop
  | .compound functor reversed, .compound functor' parts =>
    functor = functor' ∧ List.Forall₂ a.Stores reversed.reverse parts
  | .list reversed, .list parts => List.Forall₂ a.Stores reversed.reverse parts
  | _, _ => False

/-- The frame of an open compound. -/
theorem Fits.of_compound {a : Arena} {f : Frame} {functor : String} {parts : List (Term String)}
    (h : Fits a f (.compound functor parts)) :
    ∃ reversed, f = .compound functor reversed ∧ List.Forall₂ a.Stores reversed.reverse parts := by
  cases f with
  | compound name reversed =>
    obtain ⟨rfl, stored⟩ := h
    exact ⟨reversed, rfl, stored⟩
  | list reversed => exact h.elim

/-- The frame of an open list. -/
theorem Fits.of_list {a : Arena} {f : Frame} {parts : List (Term String)} (h : Fits a f (.list parts)) :
    ∃ reversed, f = .list reversed ∧ List.Forall₂ a.Stores reversed.reverse parts := by
  cases f with
  | compound name reversed => exact h.elim
  | list reversed => exact ⟨reversed, rfl, h⟩

/-- The builder is where an outline is, and has built no other sentence since the arena it began with. -/
structure At (start : Arena) (b : Builder) (o : Outline String) : Prop where
  grows : start.Grows b.arena
  whole : List.Forall₂ b.arena.Stores b.pending.reverse o.whole
  unclosed : List.Forall₂ (Fits b.arena) b.frames o.unclosed
  finished : b.finished = []

theorem at_new (start : Arena) : At start (new start) .empty := ⟨.refl start, .nil, .nil, rfl⟩

/-- Making a term changes the arena and then adds the handle. -/
theorem make_eq (b : Builder) (construct : Arena → Handle × Arena) :
    b.make construct =
      (.ok (), ({ b with arena := (construct b.arena).2 } : Builder).add (construct b.arena).1) := rfl

theorem items_eq (reversed : List Handle) :
    items reversed = reversed.reverse.map Item.ofHandle := List.map_reverse.symm

section

variable {start : Arena} {b : Builder} {o : Outline String} {t : Term String}

namespace At

/-- Terms stay stored when the arena grows. -/
theorem grow (h : At start b o) (orderly : start.Orderly) {a : Arena} (grows : b.arena.Grows a) :
    At start { b with arena := a } o := by
  have stored (k : Handle) (t : Term String) (here : b.arena.Stores k t) : a.Stores k t :=
    here.grow (h.grows.orderly orderly) grows
  refine ⟨h.grows.trans grows, h.whole.imp stored, h.unclosed.imp ?_, h.finished⟩
  rintro f (⟨functor, parts⟩ | parts) fits
  · obtain ⟨reversed, rfl, before⟩ := fits.of_compound
    exact ⟨rfl, before.imp stored⟩
  · obtain ⟨reversed, rfl, before⟩ := fits.of_list
    exact before.imp stored

/-- One more handle of a term. -/
theorem add (h : At start b o) {k : Handle} (stored : b.arena.Stores k t) :
    At start (b.add k) (o.add t) := by
  have concat {reversed : List Handle} {parts : List (Term String)}
      (before : List.Forall₂ b.arena.Stores reversed.reverse parts) :
      List.Forall₂ b.arena.Stores (k :: reversed).reverse (parts ++ [t]) := by
    rw [List.reverse_cons]
    exact List.rel_append before (.cons stored .nil)
  obtain ⟨arena, frames, pending, finished⟩ := b
  obtain ⟨whole, unclosed⟩ := o
  obtain ⟨grows, wholes, opened, finished⟩ := h
  -- the handle goes to the innermost frame, as the term to the innermost of what is open
  cases opened with
  | nil => exact ⟨grows, concat wholes, .nil, finished⟩
  | @cons f u fs us fits outer =>
    rcases u with ⟨functor, parts⟩ | parts
    · obtain ⟨reversed, rfl, before⟩ := fits.of_compound
      exact ⟨grows, wholes, .cons ⟨rfl, concat before⟩ outer, finished⟩
    · obtain ⟨reversed, rfl, before⟩ := fits.of_list
      exact ⟨grows, wholes, .cons (concat before) outer, finished⟩

/-- One more term made. -/
theorem make (h : At start b o) (orderly : start.Orderly) (construct : Arena → Handle × Arena)
    (grows : b.arena.Grows (construct b.arena).2)
    (stored : (construct b.arena).2.Stores (construct b.arena).1 t) :
    ∃ b', b.make construct = (.ok (), b') ∧ At start b' (o.add t) :=
  ⟨_, make_eq b construct, (h.grow orderly grows).add stored⟩

/-- Something opened. -/
theorem push (h : At start b o) {f : Frame} {u : Unclosed String} (fits : Fits b.arena f u) :
    At start { b with frames := f :: b.frames } (o.push u) :=
  ⟨h.grows, h.whole, .cons fits h.unclosed, h.finished⟩

end At

/-- The innermost frame has the parts of the innermost of what is open. -/
theorem At.exists_frame {whole : List (Term String)} {u : Unclosed String}
    {outer : List (Unclosed String)} (h : At start b ⟨whole, u :: outer⟩) :
    ∃ f rest, b.frames = f :: rest ∧ Fits b.arena f u ∧
      At start { b with frames := rest } ⟨whole, outer⟩ := by
  obtain ⟨f, rest, fits, outside, frames⟩ := List.forall₂_cons_right_iff.mp h.unclosed
  exact ⟨f, rest, frames, fits, h.grows, h.whole, outside, h.finished⟩

/-- Closing a compound. -/
theorem At.closeTerm {whole : List (Term String)} {functor : String} {parts : List (Term String)}
    {outer : List (Unclosed String)} (h : At start b ⟨whole, .compound functor parts :: outer⟩)
    (orderly : start.Orderly) (distinct : start.ids.Nodup) :
    ∃ b', b.closeTerm = (.ok (), b') ∧
      At start b' (.add ⟨whole, outer⟩ (.compound functor parts)) := by
  obtain ⟨f, rest, frames, fits, here⟩ := h.exists_frame
  obtain ⟨reversed, rfl, stored⟩ := fits.of_compound
  have orderlyNow := h.grows.orderly orderly
  have distinctNow : b.arena.ids.Nodup := h.grows.ids_eq ▸ distinct
  rw [Builder.closeTerm, frames]
  apply here.make orderly (fun a => a.func functor (items reversed))
  · rw [items_eq]
    exact b.arena.grows_func functor _
  · rw [items_eq]
    exact Arena.stores_func orderlyNow distinctNow stored functor

/-- Closing a list. -/
theorem At.closeList {whole parts : List (Term String)} {outer : List (Unclosed String)}
    (h : At start b ⟨whole, .list parts :: outer⟩) (orderly : start.Orderly)
    (distinct : start.ids.Nodup) :
    ∃ b', b.closeList = (.ok (), b') ∧ At start b' (.add ⟨whole, outer⟩ (.list parts)) := by
  obtain ⟨f, rest, frames, fits, here⟩ := h.exists_frame
  obtain ⟨reversed, rfl, stored⟩ := fits.of_list
  have orderlyNow := h.grows.orderly orderly
  have distinctNow : b.arena.ids.Nodup := h.grows.ids_eq ▸ distinct
  rw [Builder.closeList, frames]
  apply here.make orderly (fun a => a.list (items reversed))
  · rw [items_eq]
    exact b.arena.grows_list _
  · rw [items_eq]
    exact Arena.stores_list orderlyNow distinctNow stored

/-- A call that an outline can go on with succeeds. -/
theorem At.call_ok {o' : Outline String} {c : Call} (h : At start b o) (orderly : start.Orderly)
    (distinct : start.ids.Nodup) (goes : o.step c = some o') :
    ∃ b', b.call c = (.ok (), b') ∧ At start b' o' := by
  have orderlyNow := h.grows.orderly orderly
  have distinctNow : b.arena.ids.Nodup := h.grows.ids_eq ▸ distinct
  cases c with
  | openTerm functor =>
    obtain rfl := Option.some.inj goes
    exact ⟨_, rfl, h.push ⟨rfl, .nil⟩⟩
  | openList =>
    obtain rfl := Option.some.inj goes
    exact ⟨_, rfl, h.push (f := .list []) .nil⟩
  | closeTerm =>
    obtain ⟨whole, functor, parts, outer, rfl, rfl⟩ := Outline.closeTerm?_eq_some goes
    exact h.closeTerm orderly distinct
  | closeList =>
    obtain ⟨whole, parts, outer, rfl, rfl⟩ := Outline.closeList?_eq_some goes
    exact h.closeList orderly distinct
  | emptyList =>
    obtain rfl := Option.some.inj goes
    exact ⟨_, rfl, h.add fun _ => rfl⟩
  | atom name =>
    obtain rfl := Option.some.inj goes
    exact h.make orderly (·.atom name) (b.arena.grows_text .atom name)
      (Arena.stores_atom orderlyNow distinctNow name)
  | int value =>
    obtain rfl := Option.some.inj goes
    exact ⟨_, rfl, h.add (b.arena.stores_int value)⟩
  | bigint value =>
    obtain rfl := Option.some.inj goes
    exact h.make orderly (·.integer value) (b.arena.grows_integer value)
      (Arena.stores_integer orderlyNow distinctNow value)
  | float value =>
    obtain rfl := Option.some.inj goes
    exact ⟨_, rfl, h.add fun _ => rfl⟩
  | var name =>
    obtain rfl := Option.some.inj goes
    exact h.make orderly (·.var name) (b.arena.grows_text .var name)
      (Arena.stores_var orderlyNow distinctNow name)
  | fullStop => cases goes
  | flush =>
    obtain rfl := Option.some.inj goes
    exact ⟨b, rfl, h⟩

/-- Any other call is refused. -/
theorem At.call_error {c : Call} (h : At start b o) (going : c ≠ .fullStop) (stuck : o.step c = none) :
    ∃ cause, b.call c = (.error cause, b) := by
  -- a closing call has no frame to close, or one of the other kind
  obtain ⟨whole, _ | ⟨u, outer⟩⟩ := o
  · have outermost : b.frames = [] := List.forall₂_nil_right_iff.mp h.unclosed
    cases c with
    | closeTerm => exact ⟨_, by rw [call, Builder.closeTerm, outermost]⟩
    | closeList => exact ⟨_, by rw [call, Builder.closeList, outermost]⟩
    | fullStop => exact absurd rfl going
    | _ => cases stuck
  · obtain ⟨f, rest, frames, fits, -⟩ := h.exists_frame
    cases c with
    | closeTerm =>
      rcases u with ⟨functor, parts⟩ | parts
      · cases stuck
      · obtain ⟨reversed, rfl, -⟩ := fits.of_list
        exact ⟨_, by rw [call, Builder.closeTerm, frames]⟩
    | closeList =>
      rcases u with ⟨functor, parts⟩ | parts
      · obtain ⟨reversed, rfl, -⟩ := fits.of_compound
        exact ⟨_, by rw [call, Builder.closeList, frames]⟩
      · cases stuck
    | fullStop => exact absurd rfl going
    | _ => cases stuck

/-- A full stop behind a whole term finishes it. -/
theorem At.fullStop_ok (h : At start b ⟨[t], []⟩) :
    ∃ k, b.fullStop = (.ok (), { b with frames := [], pending := [], finished := [k] }) ∧
      b.arena.Stores k t := by
  obtain ⟨arena, frames, pending, finished⟩ := b
  obtain ⟨-, whole, unclosed, finished⟩ := h
  obtain rfl : frames = [] := List.forall₂_nil_right_iff.mp unclosed
  obtain ⟨k, rest, stored, none, reversed⟩ := List.forall₂_cons_right_iff.mp whole
  obtain rfl := List.forall₂_nil_right_iff.mp none
  obtain rfl : pending = [k] := List.reverse_eq_iff.mp reversed
  dsimp only at finished
  exact ⟨k, by rw [finished]; rfl, stored⟩

/-- The builder goes on with everything. -/
theorem keepsUp (start : Arena) (orderly : start.Orderly) (distinct : start.ids.Nodup) :
    KeepsUp call (At start) (fun _ => true) fun _ => True where
  takes_of_at _ := rfl
  takes_of_step _ _ := rfl
  call_ok h goes _ := h.call_ok orderly distinct goes
  call_error {b o c} h going stuck := by
    have none : o.step c = none := by
      rcases step : o.step c with _ | o'
      · rfl
      · cases stuck o' step
    obtain ⟨cause, eq⟩ := h.call_error going none
    exact ⟨cause, b, eq, trivial⟩
  failed_call _ _ := trivial

end

end Builder

end PrologWire
