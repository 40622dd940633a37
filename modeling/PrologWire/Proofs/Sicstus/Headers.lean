import PrologWire.Proofs.Dialects.Openings
import PrologWire.Proofs.Sicstus.AnySink

/-!
# Where the arity bytes of open compounds stand

A compound has a header in the buffer as soon as it has an argument, and the encoder goes back to the
last byte of this header when the compound is closed. In every state that it can come to, after refused calls
too, the position that it has kept is that of a zero byte behind the functor of the call that opened the
compound, and the headers of what is around it come before. A run of small integers is not ended only
if the innermost context is a list.
-/

namespace PrologWire.Sicstus

/-- What a compound begins with before its arity is known. -/
def openHeader (functor : String) : List UInt8 := compoundTag :: zeroEnded functor

/-- What was opened with a context. -/
def Context.opening : Context → Opening
  | list => .list
  | compound functor _ _ => .term functor

/-- The headers of compounds with arguments stand in the content from the outside to the inside, each behind
all of those around it, and the arity byte of each is a zero. -/
def Headed : List Context → List UInt8 → Prop
  | [], _ => True
  | .list :: outer, content | .compound _ _ 0 :: outer, content => Headed outer content
  | .compound functor position (_ + 1) :: outer, content =>
    ∃ front back, content = front ++ openHeader functor ++ 0 :: back ∧
      (front ++ openHeader functor).length = position ∧ Headed outer front

/-- The positions of arity bytes that the contexts have kept, the innermost first. -/
def arityPositions : List Context → List Nat
  | [] => []
  | .list :: outer | .compound _ _ 0 :: outer => arityPositions outer
  | .compound _ position (_ + 1) :: outer => position :: arityPositions outer

/-- If the context is that of a compound with arguments, its header stands in the content, with a zero for
the arity where the context says. -/
def HasHeader (content : List UInt8) : Context → Prop
  | .list | .compound _ _ 0 => True
  | .compound functor position (_ + 1) =>
    ∃ start, start + (openHeader functor).length = position ∧
      StandsAt content start (openHeader functor ++ [0])

theorem HasHeader.append {content : List UInt8} {x : Context} (h : HasHeader content x)
    (more : List UInt8) : HasHeader (content ++ more) x := by
  rcases x with _ | ⟨functor, position, _ | arity⟩
  · trivial
  · trivial
  · obtain ⟨start, place, stands⟩ := h
    exact ⟨start, place, stands.append more⟩

namespace Headed

variable {contexts outer : List Context} {content : List UInt8} {functor : String}
  {position arity : Nat}

/-- More bytes do no harm. -/
theorem append (h : Headed contexts content) (more : List UInt8) :
    Headed contexts (content ++ more) := by
  induction contexts with
  | nil => trivial
  | cons x outer ih =>
    rcases x with _ | ⟨functor, position, _ | arity⟩
    · exact ih h
    · exact ih h
    · obtain ⟨front, back, rfl, place, outside⟩ := h
      exact ⟨front, back ++ more, List.append_assoc _ _ _, place, outside⟩

/-- The headers stand where the contexts say. -/
theorem headers (h : Headed contexts content) : ∀ x ∈ contexts, HasHeader content x := by
  induction contexts generalizing content with
  | nil => exact fun x among => absurd among List.not_mem_nil
  | cons x outer ih =>
    rcases x with _ | ⟨functor, position, _ | arity⟩
    · exact List.forall_mem_cons.mpr ⟨trivial, ih h⟩
    · exact List.forall_mem_cons.mpr ⟨trivial, ih h⟩
    · obtain ⟨front, back, rfl, rfl, outside⟩ := h
      refine List.forall_mem_cons.mpr ⟨⟨front.length, ?_, front, back, ?_, rfl⟩, fun y among => ?_⟩
      · exact (List.length_append ..).symm
      · simp
      · rw [List.append_assoc]
        exact (ih outside y among).append _

/-- The positions lie inside the content. -/
theorem lt_length (h : Headed contexts content) : ∀ p ∈ arityPositions contexts, p < content.length := by
  induction contexts generalizing content with
  | nil => exact fun p among => absurd among List.not_mem_nil
  | cons x outer ih =>
    rcases x with _ | ⟨functor, position, _ | arity⟩
    · exact ih h
    · exact ih h
    · obtain ⟨front, back, rfl, rfl, outside⟩ := h
      have inside : (front ++ openHeader functor).length <
          (front ++ openHeader functor ++ 0 :: back).length := by simp
      refine List.forall_mem_cons.mpr ⟨inside, fun p among => ?_⟩
      have behind : front.length ≤ (front ++ openHeader functor).length := by simp
      exact Nat.lt_trans (Nat.lt_of_lt_of_le (ih outside p among) behind) inside

/-- The positions increase from the outside to the inside. -/
theorem increasing (h : Headed contexts content) : (arityPositions contexts).Pairwise (· > ·) := by
  induction contexts generalizing content with
  | nil => exact .nil
  | cons x outer ih =>
    rcases x with _ | ⟨functor, position, _ | arity⟩
    · exact ih h
    · exact ih h
    · obtain ⟨front, back, rfl, rfl, outside⟩ := h
      refine .cons (fun p among => ?_) (ih outside)
      have before := outside.lt_length p among
      rw [List.length_append]
      omega

end Headed

namespace Encoder

/-- The contexts are those of what was opened, with their headers in the content, and only the elements of
a list that is innermost can be in a run. -/
structure Sound (e : Encoder) (opened : List Opening) : Prop where
  contexts : e.contexts.map Context.opening = opened
  headed : Headed e.contexts e.buffer.content
  inRun : e.inRun = true → e.contexts.head? = some .list

/-- Nothing is open in a new encoder. -/
theorem sound_new (sink : Sink) : (new sink).Sound [] := ⟨rfl, trivial, nofun⟩

namespace Sound

variable {e : Encoder} {opened : List Opening}

/-- Where no run goes on nothing has to be said about runs. -/
theorem of_ended (contexts : e.contexts.map Context.opening = opened)
    (headed : Headed e.contexts e.buffer.content) (ended : e.inRun = false) : e.Sound opened :=
  ⟨contexts, headed, fun going => absurd (ended.symm.trans going) Bool.false_ne_true⟩

theorem put (h : e.Sound opened) (bs : List UInt8) : (e.put bs).Sound opened :=
  ⟨h.contexts, content_put e bs ▸ h.headed.append bs, h.inRun⟩

theorem endRun (h : e.Sound opened) : e.endRun.Sound opened := by
  refine of_ended ?_ ?_ (inRun_endRun e)
  · rw [contexts_endRun]
    exact h.contexts
  · rw [contexts_endRun, content_endRun]
    exact h.headed.append _

/-- No run goes on where room was made for a term. -/
theorem inRun_beginTerm (h : e.Sound opened) : e.beginTerm.inRun = false := by
  have run := h.inRun
  rcases here : e.contexts with _ | ⟨_ | ⟨functor, position, _ | arity⟩, outer⟩
  case cons.list =>
    rw [beginTerm_of_list here]
    exact inRun_endRun e
  all_goals
    rw [here] at run
    simp only [Encoder.beginTerm, here]
    refine Bool.eq_false_iff.mpr fun going => ?_
    cases run going

/-- With the first argument of a compound its header comes behind all that is there. -/
theorem beginTerm (h : e.Sound opened) : e.beginTerm.Sound opened := by
  have ended := h.inRun_beginTerm
  have headed := h.headed
  have contexts := h.contexts
  rcases here : e.contexts with _ | ⟨_ | ⟨functor, position, _ | arity⟩, outer⟩ <;>
    rw [here] at headed contexts
  case nil =>
    have same : e.beginTerm = e := by rw [Encoder.beginTerm, here]
    rw [same]
    exact h
  case cons.list =>
    rw [beginTerm_of_list here]
    exact h.endRun.put _
  case cons.compound.zero =>
    refine of_ended ?_ ?_ ended <;> rw [beginTerm_of_first here]
    · exact contexts
    · refine ⟨e.buffer.content, [], ?_, ?_, headed⟩
      · show ((e.put (openHeader functor)).put [0]).buffer.content = _
        rw [content_put, content_put]
      · rw [← Buffer.length_content, content_put]
        rfl
  case cons.compound.succ =>
    have more : e.beginTerm =
        { e with contexts := .compound functor position (arity + 1 + 1) :: outer } := by
      rw [Encoder.beginTerm, here]
      rfl
    refine of_ended ?_ ?_ ended <;> rw [more]
    · exact contexts
    · exact headed

theorem leaf (h : e.Sound opened) (bs : List UInt8) : (e.leaf bs).2.Sound opened := h.beginTerm.put bs

theorem openTerm (h : e.Sound opened) (functor : String) :
    (e.openTerm functor).2.Sound (.term functor :: opened) := by
  refine of_ended ?_ h.beginTerm.headed h.inRun_beginTerm
  rw [← h.beginTerm.contexts]
  rfl

theorem openList (h : e.Sound opened) : e.openList.Sound (.list :: opened) where
  contexts := by rw [← h.beginTerm.contexts]; rfl
  headed := h.beginTerm.headed
  inRun _ := rfl

/-- The arity of a compound that is closed takes the place of a zero byte behind all headers around it. -/
theorem closeTerm (h : e.Sound opened) :
    e.closeTerm.2.Sound (Opening.step opened .closeTerm e.closeTerm.1) := by
  have headed := h.headed
  obtain rfl := h.contexts
  rcases here : e.contexts with _ | ⟨_ | ⟨functor, position, _ | arity⟩, outer⟩ <;> rw [here] at headed
  case cons.compound.zero =>
    have taken : Sound { e with contexts := outer } (outer.map Context.opening) := by
      refine ⟨rfl, headed, fun going => ?_⟩
      have inList := h.inRun going
      rw [here] at inList
      cases inList
    rw [Encoder.closeTerm, here]
    exact taken.put _
  case cons.compound.succ =>
    obtain ⟨front, back, same, rfl, outside⟩ := headed
    have inside : (front ++ openHeader functor).length < e.buffer.length := by
      rw [← Buffer.length_content, same]
      simp
    rw [closeTerm_of_parts here]
    by_cases exceeds : maxArity < arity + 1
    · rw [if_pos exceeds]
      exact ⟨here ▸ rfl, h.headed, h.inRun⟩
    · rw [if_neg exceeds, if_pos inside]
      refine ⟨rfl, ?_, fun going => ?_⟩
      · show Headed outer (e.buffer.replace _ _).content
        rw [Buffer.content_replace same, List.append_assoc]
        exact outside.append _
      · have inList := h.inRun going
        rw [here] at inList
        cases inList
  all_goals
    have mismatched : e.closeTerm = e.fail (.mismatchedClose .term) := by rw [Encoder.closeTerm, here]
    rw [mismatched]
    exact ⟨here ▸ rfl, h.headed, h.inRun⟩

theorem closeList (h : e.Sound opened) :
    e.closeList.2.Sound (Opening.step opened .closeList e.closeList.1) := by
  have headed := h.headed
  obtain rfl := h.contexts
  rcases here : e.contexts with _ | ⟨_ | ⟨functor, position, arity⟩, outer⟩ <;> rw [here] at headed
  case cons.list =>
    have ended : Sound ({ e with contexts := outer } : Encoder).endRun (outer.map Context.opening) := by
      refine of_ended ?_ ?_ (inRun_endRun _)
      · rw [contexts_endRun]
      · rw [contexts_endRun, content_endRun]
        exact headed.append _
    rw [Encoder.closeList, here]
    exact ended.put _
  all_goals
    have mismatched : e.closeList = e.fail (.mismatchedClose .list) := by rw [Encoder.closeList, here]
    rw [mismatched]
    exact ⟨here ▸ rfl, h.headed, h.inRun⟩

/-- A run begins only in a list. -/
theorem int (h : e.Sound opened) (value : Int64) : (e.int value).2.Sound opened := by
  unfold Encoder.int
  split
  · next outer byte here _ =>
    dsimp only
    split
    · exact h.put _
    · exact ⟨h.contexts, content_put e _ ▸ h.headed.append _, fun _ => congrArg List.head? here⟩
  · exact h.leaf _

/-- Every call keeps the contexts up with what is open. -/
theorem call (h : e.Sound opened) (x : Call) :
    (e.call x).2.Sound (Opening.step opened x (e.call x).1) := by
  cases x with
  | openTerm functor => exact h.openTerm functor
  | closeTerm => exact h.closeTerm
  | openList => exact h.openList
  | closeList => exact h.closeList
  | emptyList => exact h.openList.closeList
  | atom name => exact h.leaf _
  | int value => exact h.int value
  | bigint value =>
    rw [Encoder.call, bigint]
    split
    · exact h.int _
    · exact h.leaf _
  | float value => exact h.leaf _
  | var name =>
    have numbered (vars : VarTable) : Sound { e.beginTerm with vars := vars } opened :=
      ⟨h.beginTerm.contexts, h.beginTerm.headed, h.beginTerm.inRun⟩
    exact (numbered _).put _
  | fullStop =>
    have start : (e.call .fullStop).2.AtStart := atStart_fullStop e
    refine of_ended (congrArg (List.map Context.opening) start.contexts) ?_ start.inRun
    rw [start.contexts]
    trivial
  | flush => exact ⟨h.contexts, h.headed, h.inRun⟩

end Sound
end Encoder
end PrologWire.Sicstus
