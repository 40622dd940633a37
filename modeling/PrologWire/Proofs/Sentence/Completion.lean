import PrologWire.Proofs.Sentence.Observation
import PrologWire.Proofs.Sentence.Run

/-!
# How far a sentence gets, and how it can be ended

A consumer goes on with the calls of a sentence up to the first that it refuses. `Outline.furthest` is
the outline that it has then, and `Outline.closing` are the calls that close whatever is open in an
outline, so that a full stop may follow.
-/

namespace PrologWire

/-- A sentence begins behind the calls: there are none, or the last is a full stop. -/
def SentenceBegins (history : List Call) : Prop :=
  history = [] ∨ ∃ earlier, history = earlier ++ [.fullStop]

/-- Without its answers a run is what comes of it. -/
theorem Consumer.playAll_snd {σ : Type} (m : Consumer σ Call) (s : σ) (calls : List Call) :
    (playAll m.take s calls).2 = m.after s calls := by
  induction calls generalizing s with
  | nil => rfl
  | cons c rest ih => exact ih _

/-- More calls that are no full stop belong to the sentence. -/
theorem Since.after {σ : Type} {m : Consumer σ Call} {At : σ → Outline String → Prop}
    {takes : Outline String → Bool} {Failed : σ → Prop} {s : σ} {before calls : List Call}
    (h : Since At takes Failed s before) (k : KeepsUp m.take At takes Failed)
    (going : Call.fullStop ∉ calls) : Since At takes Failed (m.after s calls) (before ++ calls) := by
  induction calls generalizing s before with
  | nil =>
    rw [List.append_nil]
    exact h
  | cons c rest ih =>
    rw [List.mem_cons, not_or] at going
    rw [List.append_cons]
    exact ih (h.step k fun stop => going.1 stop.symm) going.2

namespace Unclosed

variable {ν : Type}

/-- The call that closes it. -/
def closeCall : Unclosed ν → Call
  | compound _ _ => .closeTerm
  | list _ => .closeList

/-- The term that it is when it is closed now. -/
def closed : Unclosed ν → Term ν
  | compound functor parts => .compound functor parts
  | list parts => .list parts

@[simp] theorem closeCall_add (t : Term ν) (u : Unclosed ν) : (u.add t).closeCall = u.closeCall := by
  cases u <;> rfl

end Unclosed

namespace Outline

/-! ## Up to the first refused call -/

/-- The outline after the calls up to the first after which there would be none that can be
written. -/
def furthest (takes : Outline String → Bool) (o : Outline String) : List Call → Outline String
  | [] => o
  | c :: rest =>
    match o.step c with
    | some after => if takes after then after.furthest takes rest else o
    | none => o

variable {takes : Outline String → Bool} {o after : Outline String} {c : Call} {rest : List Call}

/-- A call that is gone on with. -/
theorem furthest_cons (steps : o.step c = some after) (taken : takes after = true) :
    o.furthest takes (c :: rest) = after.furthest takes rest := by
  rw [furthest, steps]
  exact if_pos taken

/-- A call that is refused ends the way. -/
theorem furthest_cons_of_stuck (stuck : ∀ after, o.step c = some after → takes after = false) :
    o.furthest takes (c :: rest) = o := by
  rw [furthest]
  cases steps : o.step c with
  | none => rfl
  | some after => exact if_neg (Bool.eq_false_iff.mp (stuck after steps))

/-! ## Closing all that is open -/

/-- The calls that close all that is open, from the inside to the outside. -/
def closing (o : Outline String) : List Call := o.unclosed.map Unclosed.closeCall

/-- Closing what is innermost makes it a term of what is around it. -/
theorem step_closeCall (whole : List (Term String)) (u : Unclosed String)
    (outer : List (Unclosed String)) :
    step ⟨whole, u :: outer⟩ u.closeCall = some (add ⟨whole, outer⟩ u.closed) := by
  cases u <;> rfl

/-- The same calls close what is open when there is one more term. -/
theorem closing_add (o : Outline String) (t : Term String) : (o.add t).closing = o.closing := by
  obtain ⟨whole, _ | ⟨u, outer⟩⟩ := o
  · rfl
  · simp [closing, add]

/-- No full stop is among the closing calls. -/
theorem fullStop_notMem_closing (o : Outline String) : Call.fullStop ∉ o.closing := by
  intro among
  obtain ⟨u, -, eq⟩ := List.mem_map.mp among
  cases u <;> cases eq

/-- After its closing calls an outline has nothing open, and what closing the innermost keeps still
holds. -/
theorem exists_follow_closing {P : Outline String → Prop}
    (closes : ∀ whole u outer, P ⟨whole, u :: outer⟩ → P (add ⟨whole, outer⟩ u.closed))
    {o : Outline String} (h : P o) : ∃ ts, o.follow o.closing = some ⟨ts, []⟩ ∧ P ⟨ts, []⟩ := by
  induction size : o.unclosed.length generalizing o with
  | zero =>
    obtain ⟨whole, unclosed⟩ := o
    obtain rfl := List.eq_nil_of_length_eq_zero size
    exact ⟨whole, rfl, h⟩
  | succ n ih =>
    obtain ⟨whole, unclosed⟩ := o
    obtain ⟨u, outer, rfl⟩ := List.exists_cons_of_length_eq_add_one size
    -- one thing less is open after the first call, and the other calls are those that close the rest
    have fewer : (add ⟨whole, outer⟩ u.closed).unclosed.length = n := by
      cases outer with
      | nil => exact Nat.succ.inj size
      | cons v outer => exact Nat.succ.inj size
    obtain ⟨ts, follows, holds⟩ := ih (closes whole u outer h) fewer
    refine ⟨ts, ?_, holds⟩
    rw [closing_add] at follows
    show follow ⟨whole, u :: outer⟩ (u.closeCall :: closing ⟨whole, outer⟩) = _
    rw [follow, step_closeCall]
    exact follows

end Outline

end PrologWire
