import Mathlib.Data.List.Forall2
import PrologWire.Proofs.Dialects.Openings

/-!
# Where the headers of open compounds stand

The encoder goes back to the header of a compound when it is closed: to fill in the arity, or to cut the
header off. In every state that it can come to, after refused calls and failed writes too, the position that
it has kept is that of the header as it was begun, with the functor of the call that opened the
compound, and the headers of what is around it come before. A closing call changes the content from its
own header on, and every other call only adds to it, so that the outer positions stay good.
-/

namespace PrologWire.Swi

/-- What a compound begins with before its arity is known. -/
def openHeader (c : Config) (functor : String) : List UInt8 :=
  compoundTag :: 0 :: atomBytes c functor.toList

/-- Every context is that of what was opened, and the headers of compounds stand in the content from the
outside to the inside, each behind all of those around it. -/
def Headed (c : Config) : List Context → List Opening → List UInt8 → Prop
  | [], [], _ => True
  | .list :: outer, .list :: around, content => Headed c outer around content
  | .compound start _ :: outer, .term functor :: around, content =>
    ∃ front back, content = front ++ openHeader c functor ++ back ∧ front.length = start ∧
      Headed c outer around front
  | _, _, _ => False

/-- The context is that of what was opened, and if this is a compound, its header stands in the content
where the context says. -/
def HasHeader (c : Config) (content : List UInt8) : Context → Opening → Prop
  | .list, .list => True
  | .compound start _, .term functor => StandsAt content start (openHeader c functor)
  | _, _ => False

/-- The positions that the contexts of compounds have kept, the innermost first. -/
def starts : List Context → List Nat
  | [] => []
  | .list :: outer => starts outer
  | .compound start _ :: outer => start :: starts outer

theorem HasHeader.append {c : Config} {content : List UInt8} {x : Context} {o : Opening}
    (h : HasHeader c content x o) (more : List UInt8) : HasHeader c (content ++ more) x o := by
  cases x <;> cases o
  · exact h.elim
  · trivial
  · exact StandsAt.append h more
  · exact h.elim

namespace Headed

variable {c : Config} {contexts outer : List Context} {opened : List Opening}
  {content : List UInt8} {start arity : Nat}

theorem eq_nil (h : Headed c [] opened content) : opened = [] := by
  cases opened with
  | nil => rfl
  | cons o around => exact h.elim

/-- The innermost context is that of a list. -/
theorem of_list (h : Headed c (.list :: outer) opened content) :
    ∃ around, opened = .list :: around ∧ Headed c outer around content := by
  rcases opened with _ | ⟨_ | _, around⟩
  · exact h.elim
  · exact h.elim
  · exact ⟨around, rfl, h⟩

/-- The innermost context is that of a compound. -/
theorem of_compound (h : Headed c (.compound start arity :: outer) opened content) :
    ∃ functor around front back, opened = .term functor :: around ∧
      content = front ++ openHeader c functor ++ back ∧ front.length = start ∧
      Headed c outer around front := by
  rcases opened with _ | ⟨functor | _, around⟩
  · exact h.elim
  · obtain ⟨front, back, same, length, outside⟩ := h
    exact ⟨functor, around, front, back, rfl, same, length, outside⟩
  · exact h.elim

/-- More bytes do no harm. -/
theorem append (h : Headed c contexts opened content) (more : List UInt8) :
    Headed c contexts opened (content ++ more) := by
  induction contexts generalizing opened with
  | nil =>
    obtain rfl := h.eq_nil
    trivial
  | cons x outer ih =>
    cases x with
    | list =>
      obtain ⟨around, rfl, outside⟩ := h.of_list
      exact ih outside
    | compound start arity =>
      obtain ⟨functor, around, front, back, rfl, rfl, length, outside⟩ := h.of_compound
      exact ⟨front, back ++ more, List.append_assoc _ _ _, length, outside⟩

/-- The headers stand where the contexts say. -/
theorem headers (h : Headed c contexts opened content) :
    List.Forall₂ (HasHeader c content) contexts opened := by
  induction contexts generalizing opened content with
  | nil =>
    rw [h.eq_nil]
    exact .nil
  | cons x outer ih =>
    cases x with
    | list =>
      obtain ⟨around, rfl, outside⟩ := h.of_list
      exact .cons trivial (ih outside)
    | compound start arity =>
      obtain ⟨functor, around, front, back, rfl, rfl, length, outside⟩ := h.of_compound
      refine .cons ⟨front, back, rfl, length⟩ ((ih outside).imp fun _ _ before => ?_)
      rw [List.append_assoc]
      exact before.append _

/-- The content reaches past the tag and the place for the arity. -/
theorem reaches (h : Headed c contexts opened content) :
    ∀ s ∈ starts contexts, s + 2 ≤ content.length := by
  induction contexts generalizing opened content with
  | nil => exact fun s among => absurd among List.not_mem_nil
  | cons x outer ih =>
    cases x with
    | list =>
      obtain ⟨around, rfl, outside⟩ := h.of_list
      exact ih outside
    | compound start arity =>
      obtain ⟨functor, around, front, back, rfl, rfl, rfl, outside⟩ := h.of_compound
      have here : front.length + 2 ≤ (front ++ openHeader c functor ++ back).length := by
        simp only [openHeader, List.length_append, List.length_cons]
        omega
      refine List.forall_mem_cons.mpr ⟨here, fun s among => ?_⟩
      have before := ih outside s among
      omega

/-- The positions increase from the outside to the inside. -/
theorem increasing (h : Headed c contexts opened content) : (starts contexts).Pairwise (· > ·) := by
  induction contexts generalizing opened content with
  | nil => exact .nil
  | cons x outer ih =>
    cases x with
    | list =>
      obtain ⟨around, rfl, outside⟩ := h.of_list
      exact ih outside
    | compound start arity =>
      obtain ⟨functor, around, front, back, rfl, rfl, rfl, outside⟩ := h.of_compound
      refine .cons (fun s among => ?_) (ih outside)
      have before := outside.reaches s among
      omega

end Headed

namespace Encoder

/-- The contexts are those of what was opened, with their headers in the content. -/
def Sound (e : Encoder) (opened : List Opening) : Prop :=
  Headed e.config e.contexts opened e.buffer.content

/-- Nothing is open in a new encoder. -/
theorem sound_new (config : Config) (sink : Sink) : (new config sink).Sound [] := trivial

namespace Sound

variable {e : Encoder} {opened : List Opening}

theorem put (h : e.Sound opened) (bs : List UInt8) : (e.put bs).Sound opened := by
  rw [Sound, content_put]
  exact h.append bs

/-- Room for one more term changes no position. -/
theorem beginTerm (h : e.Sound opened) : e.beginTerm.Sound opened := by
  rw [Sound] at h
  unfold Encoder.beginTerm
  split
  · exact h
  · exact put h [consTag]
  · next start arity outer here =>
    rw [here] at h
    obtain ⟨functor, around, front, back, rfl, same, length, outside⟩ := h.of_compound
    exact ⟨front, back, same, length, outside⟩

/-- A record of its own is written only if nothing is open. -/
theorem writeDirect (h : e.Sound opened) (direct : e.isDirect = true) (record : List UInt8) :
    (e.writeDirect record).2.Sound opened := by
  have outermost := contexts_eq_nil_of_isDirect direct
  rw [Sound, outermost] at h
  have after : (e.writeDirect record).2.contexts = [] := outermost
  rw [Sound, after, h.eq_nil]
  trivial

theorem leaf (h : e.Sound opened) (record code : List UInt8) :
    (if e.isDirect then e.writeDirect record else (.ok (), e.beginTerm.put code)).2.Sound opened := by
  split
  · next direct => exact h.writeDirect direct record
  · exact h.beginTerm.put code

theorem putClosed (h : e.Sound opened) (code : List UInt8) : (e.putClosed code).2.Sound opened := by
  unfold Encoder.putClosed
  split
  · next direct => exact h.writeDirect direct _
  · exact h.put code

end Sound

/-- Of a term that is closed only the sink can be the reason that it fails. -/
theorem not_isRefusal_putClosed (e : Encoder) (code : List UInt8) :
    (e.putClosed code).1.isRefusal = false := by
  unfold putClosed
  split
  · exact Answer.isRefusal_ofSink _
  · rfl

namespace Sound

variable {e : Encoder} {opened : List Opening}

theorem openTerm (h : e.Sound opened) (functor : String) :
    (e.openTerm functor).2.Sound (Opening.step opened (.openTerm functor) (e.openTerm functor).1) := by
  unfold Encoder.openTerm
  split
  · -- the header comes behind all that is there
    refine ⟨e.beginTerm.buffer.content, [], ?_, Buffer.length_content _, h.beginTerm⟩
    rw [List.append_nil]
    exact content_put _ _
  · exact h

/-- A compound that is closed leaves the headers around it alone. -/
theorem closeTerm (h : e.Sound opened) :
    e.closeTerm.2.Sound (Opening.step opened .closeTerm e.closeTerm.1) := by
  have headed : Headed e.config e.contexts opened e.buffer.content := h
  rcases here : e.contexts with _ | ⟨_ | ⟨start, _ | arity⟩, outer⟩
  case cons.compound.zero =>
    rw [here] at headed
    obtain ⟨functor, around, front, back, rfl, same, rfl, outside⟩ := headed.of_compound
    rw [List.append_assoc] at same
    have cut : Sound { e with buffer := e.buffer.setLength front.length, contexts := outer } around := by
      rw [Sound, Buffer.content_setLength same]
      exact outside
    rw [closeTerm_of_lone here, Opening.step, not_isRefusal_putClosed]
    exact cut.putClosed _
  case cons.compound.succ =>
    rw [here] at headed
    obtain ⟨functor, around, front, back, rfl, same, rfl, outside⟩ := headed.of_compound
    have parted : e.buffer.content =
        (front ++ [compoundTag]) ++ 0 :: (atomBytes e.config functor.toList ++ back) := by
      rw [same]
      simp [openHeader]
    have inside : front.length + 1 < e.buffer.length := by
      rw [← Buffer.length_content, parted]
      simp
    have patched := content_patchArity parted (arity + 1)
    rw [List.length_append, List.length_singleton, List.append_assoc, List.append_assoc] at patched
    rw [closeTerm_of_parts here, if_pos inside]
    show Headed e.config outer around (patchArity e.buffer (front.length + 1) (arity + 1)).content
    rw [patched]
    exact outside.append _
  all_goals
    rw [Encoder.closeTerm, here]
    exact h

theorem openList (h : e.Sound opened) : e.openList.Sound (.list :: opened) := h.beginTerm

theorem closeList (h : e.Sound opened) :
    e.closeList.2.Sound (Opening.step opened .closeList e.closeList.1) := by
  have headed : Headed e.config e.contexts opened e.buffer.content := h
  rcases here : e.contexts with _ | ⟨_ | ⟨start, arity⟩, outer⟩
  case cons.list =>
    rw [here] at headed
    obtain ⟨around, rfl, outside⟩ := headed.of_list
    have taken : Sound { e with contexts := outer } around := outside
    rw [Encoder.closeList, here]
    dsimp only
    rw [Opening.step, not_isRefusal_putClosed]
    exact taken.putClosed _
  all_goals
    rw [Encoder.closeList, here]
    exact h

theorem int (h : e.Sound opened) (value : Int64) : (e.int value).2.Sound opened := by
  unfold Encoder.int
  split
  · exact h.leaf _ _
  · exact h

/-- Every call keeps the contexts up with what is open. -/
theorem call (h : e.Sound opened) (x : Call) :
    (e.call x).2.Sound (Opening.step opened x (e.call x).1) := by
  cases x with
  | openTerm functor => exact h.openTerm functor
  | closeTerm => exact h.closeTerm
  | openList => exact h.openList
  | closeList => exact h.closeList
  | emptyList =>
    have closed := h.openList.closeList
    have unrefused : e.openList.closeList.1.isRefusal = false := not_isRefusal_putClosed _ _
    rw [Opening.step, unrefused] at closed
    exact closed
  | atom name =>
    rw [Encoder.call, atom]
    split
    · exact h.leaf _ _
    · exact h
  | int value => exact h.int value
  | bigint value =>
    rw [Encoder.call, bigint]
    split
    · exact h.int _
    · exact h
  | float value =>
    have begun := h.beginTerm.put (floatTag :: floatBytes value)
    simp only [Sound, Encoder.call, float]
    exact begun
  | var name =>
    have numbered (vars : VarTable) : Sound { e.beginTerm with vars := vars } opened := h.beginTerm
    exact (numbered _).put _
  | fullStop =>
    have start := atStart_fullStop e
    have after : (e.call .fullStop).2.contexts = [] := start.contexts
    rw [Sound, after]
    trivial
  | flush => exact h

end Sound

end Encoder

end PrologWire.Swi
