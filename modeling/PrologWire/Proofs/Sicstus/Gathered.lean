import PrologWire.Proofs.Sentence.Layout
import PrologWire.Proofs.Sicstus.Code
import PrologWire.Proofs.Wire.Content
import PrologWire.Sicstus.Encoder

/-!
# What the encoder has gathered of a sentence

`Holds` ties the buffer, the contexts and the run of an encoder to the outline of the sentence: the
buffer has the bytes of whole terms and, from the outside to the inside, what is written of the
compounds and lists that are open. The arity byte of an open compound is a zero at the place that its
context knows. Each operation has one lemma that says what it does to the outline. Variables are
numbers here, and what the operations do to the table of names is left to the calls.
-/

namespace PrologWire.Sicstus

/-! ## The layout of an outline -/

/-- What is written of something open. A compound without a part is not written yet, because it can
still become an atom. -/
def unclosedBytes (begun : Bool) : Unclosed Nat → List UInt8
  | .list parts =>
    if begun then (listSoFar parts).ended ++ [elementTag] else (listSoFar parts).bytes
  | .compound functor parts =>
    if parts.isEmpty && !begun then [] else compoundBytes functor 0 ++ codeAll parts

/-- The context of something open. That of a compound with parts knows the place of the arity. -/
def FitsContext (start : Nat) (begun : Bool) : Context → Unclosed Nat → Prop
  | .list, .list _ => True
  | .compound functor position arity, .compound functor' parts =>
    functor = functor' ∧ arity = parts.length + begun.toNat ∧
      (arity ≠ 0 → position = start + (compoundTag :: zeroEnded functor).length)
  | _, _ => False

/-- The context of an open list. -/
theorem FitsContext.of_list {start : Nat} {begun : Bool} {c : Context} {parts : List (Term Nat)}
    (h : FitsContext start begun c (.list parts)) : c = .list := by
  cases c with
  | list => rfl
  | compound functor position arity => exact h.elim

/-- The context of an open compound. -/
theorem FitsContext.of_compound {start : Nat} {begun : Bool} {c : Context} {functor : String}
    {parts : List (Term Nat)} (h : FitsContext start begun c (.compound functor parts)) :
    ∃ position, c = .compound functor position (parts.length + begun.toNat) ∧
      (parts.length + begun.toNat ≠ 0 →
        position = start + (compoundTag :: zeroEnded functor).length) := by
  cases c with
  | list => exact h.elim
  | compound functor' position arity =>
    obtain ⟨rfl, rfl, place⟩ := h
    exact ⟨position, rfl, place⟩

/-- What the encoder writes of an outline. -/
def layout : Layout Context := ⟨codeAll, unclosedBytes, FitsContext⟩

@[simp] theorem layout_whole : layout.whole = codeAll := rfl

@[simp] theorem layout_unclosed : layout.unclosed = unclosedBytes := rfl

/-- The innermost of what is open is a list that ends in a run. -/
def endsInRun : List (Unclosed Nat) → Bool
  | .list parts :: _ => (listSoFar parts).inRun
  | _ => false

/-- The byte of a term that goes on with a run, or begins one, where it comes in an outline. -/
def joins? (o : Outline Nat) (t : Term Nat) : Option UInt8 :=
  match o.unclosed with
  | .list _ :: _ => smallElement? t
  | _ => none

/-- What is no small integer never joins a run. -/
theorem joins?_eq_none {o : Outline Nat} {t : Term Nat} (h : smallElement? t = none) :
    joins? o t = none := by
  unfold joins?
  split
  · exact h
  · rfl

namespace Encoder

/-- The encoder has written an outline; the flag tells whether room was made for another term. -/
structure Holds (begun : Bool) (e : Encoder) (o : Outline Nat) : Prop where
  content : e.buffer.content = layout.bytes begun o.whole o.unclosed
  located : layout.Located begun o.whole e.contexts o.unclosed
  inRun : e.inRun = (!begun && endsInRun o.unclosed)

/-! ## What the operations leave alone -/

@[simp] theorem vars_endRun (e : Encoder) : e.endRun.vars = e.vars := by
  unfold endRun
  split <;> rfl

@[simp] theorem failed_endRun (e : Encoder) : e.endRun.failed = e.failed := by
  unfold endRun
  split <;> rfl

@[simp] theorem sink_endRun (e : Encoder) : e.endRun.sink = e.sink := by
  unfold endRun
  split <;> rfl

@[simp] theorem contexts_endRun (e : Encoder) : e.endRun.contexts = e.contexts := by
  unfold endRun
  split <;> rfl

@[simp] theorem vars_beginTerm (e : Encoder) : e.beginTerm.vars = e.vars := by
  unfold beginTerm
  split <;> simp [put]

@[simp] theorem failed_beginTerm (e : Encoder) : e.beginTerm.failed = e.failed := by
  unfold beginTerm
  split <;> simp [put]

@[simp] theorem sink_beginTerm (e : Encoder) : e.beginTerm.sink = e.sink := by
  unfold beginTerm
  split <;> simp [put]

/-! ## One lemma for each operation -/

@[simp] theorem content_put (e : Encoder) (bs : List UInt8) :
    (e.put bs).buffer.content = e.buffer.content ++ bs := Buffer.content_append _ _

@[simp] theorem inRun_endRun (e : Encoder) : e.endRun.inRun = false := by
  unfold endRun
  split
  · rfl
  · simpa using ‹¬e.inRun = true›

@[simp] theorem content_endRun (e : Encoder) :
    e.endRun.buffer.content = e.buffer.content ++ if e.inRun then [0] else [] := by
  unfold endRun
  split <;> simp

/-- Every list element that is not in a run has its own beginning, and the run before it ends. -/
theorem beginTerm_of_list {e : Encoder} {outer : List Context} (h : e.contexts = .list :: outer) :
    e.beginTerm = e.endRun.put [elementTag] := by
  rw [beginTerm, h]

/-- Making room for a term begins a part of the innermost of what is open. -/
theorem Holds.beginTerm {e : Encoder} {o : Outline Nat} (h : e.Holds false o) :
    e.beginTerm.Holds true o := by
  obtain ⟨buffer, vars, contexts, inRun, failed, sink⟩ := e
  obtain ⟨content, located, run⟩ := h
  obtain ⟨whole, _ | ⟨⟨functor, parts⟩ | parts, outer⟩⟩ := o
  · obtain rfl := located.eq_nil
    exact ⟨content, located, run⟩
  · obtain ⟨c, cs, rfl, fits, outside⟩ := located.exists_cons
    clear located
    obtain ⟨position, rfl, place⟩ := fits.of_compound
    rcases parts with _ | ⟨part, parts⟩
    · -- the first part: nothing is written of the compound yet
      simp only [Layout.bytes, layout_unclosed, unclosedBytes, List.isEmpty_nil, Bool.not_false,
        Bool.and_self, if_true, List.append_nil] at content
      refine ⟨?_, ⟨⟨rfl, rfl, fun _ => ?_⟩, outside⟩, run⟩
      · simp [Encoder.beginTerm, content, Layout.bytes, unclosedBytes, compoundBytes, codeAll]
      · rw [← Buffer.length_content, content_put, content, List.length_append]
    · refine ⟨?_, ⟨⟨rfl, rfl, fun _ => place ?_⟩, outside⟩, run⟩
      · simpa [Encoder.beginTerm, Layout.bytes, unclosedBytes] using content
      · simp
  · obtain ⟨c, cs, rfl, fits, outside⟩ := located.exists_cons
    clear located
    obtain rfl := fits.of_list
    have same : inRun = (listSoFar parts).inRun := run
    simp only [Layout.bytes, layout_unclosed, unclosedBytes, Bool.false_eq_true, if_false]
      at content
    rw [beginTerm_of_list rfl]
    refine ⟨?_, ?_, inRun_endRun _⟩
    · simp [content, Layout.bytes, unclosedBytes, ListSoFar.ended, same]
    · rw [put, contexts_endRun]
      exact ⟨trivial, outside⟩

/-- A term that is written where room was made for it is one more whole term. -/
theorem Holds.complete {e : Encoder} {o : Outline Nat} {t : Term Nat}
    (content : e.buffer.content = layout.bytes true o.whole o.unclosed ++ code t)
    (located : layout.Located true o.whole e.contexts o.unclosed) (run : e.inRun = false)
    (alone : joins? o t = none) : e.Holds false (o.add t) := by
  obtain ⟨whole, _ | ⟨⟨functor, parts⟩ | parts, outer⟩⟩ := o
  · have outermost := located.eq_nil
    refine ⟨?_, outermost ▸ trivial, run⟩
    rw [content]
    exact (codeAll_concat whole t).symm
  · obtain ⟨c, cs, same, fits, outside⟩ := located.exists_cons
    obtain ⟨position, rfl, place⟩ := fits.of_compound
    refine ⟨?_, ?_, run⟩
    · simp [content, Outline.add, Unclosed.add, Layout.bytes, unclosedBytes]
    · rw [same]
      exact ⟨⟨rfl, by simp, place⟩, outside⟩
  · obtain ⟨c, cs, same, fits, outside⟩ := located.exists_cons
    obtain rfl := fits.of_list
    have single : smallElement? t = none := alone
    refine ⟨?_, ?_, ?_⟩
    · simp [content, Outline.add, Unclosed.add, Layout.bytes, unclosedBytes, ListSoFar.put, single]
    · rw [same]
      exact ⟨trivial, outside⟩
    · simp [run, Outline.add, Unclosed.add, endsInRun, ListSoFar.put, single]

/-- Writing a term that joins no run. -/
theorem Holds.leaf {e : Encoder} {o : Outline Nat} (h : e.Holds false o) {t : Term Nat}
    (alone : joins? o t = none) : (e.beginTerm.put (code t)).Holds false (o.add t) := by
  have begun := h.beginTerm
  refine .complete ?_ begun.located begun.inRun alone
  rw [content_put, begun.content]

/-- Writing a small integer in a list. -/
theorem Holds.join {e : Encoder} {whole : List (Term Nat)} {parts : List (Term Nat)}
    {outer : List (Unclosed Nat)} (h : e.Holds false ⟨whole, .list parts :: outer⟩) {t : Term Nat}
    {byte : UInt8} (small : smallElement? t = some byte) :
    (if e.inRun then e.put [byte] else { e.put [runTag, byte] with inRun := true }).Holds false
      ⟨whole, .list (parts ++ [t]) :: outer⟩ := by
  obtain ⟨content, located, run⟩ := h
  have same : e.inRun = (listSoFar parts).inRun := run
  have goes : layout.Located false whole e.contexts (.list (parts ++ [t]) :: outer) := by
    obtain ⟨c, cs, eq, fits, outside⟩ := located.exists_cons
    obtain rfl := fits.of_list
    rw [eq]
    exact ⟨trivial, outside⟩
  simp only [Layout.bytes, layout_unclosed, unclosedBytes, Bool.false_eq_true, if_false] at content
  split
  · next going =>
    refine ⟨?_, goes, ?_⟩
    · simp [content, Layout.bytes, unclosedBytes, ListSoFar.put, small, ← same, going]
    · simp [put, endsInRun, ListSoFar.put, small, going]
  · next ended =>
    rw [Bool.not_eq_true] at ended
    refine ⟨?_, goes, ?_⟩
    · simp [put, content, Layout.bytes, unclosedBytes, ListSoFar.put, small, ← same, ended]
    · simp [endsInRun, ListSoFar.put, small]

/-- Opening a compound. -/
theorem Holds.openTerm {e : Encoder} {o : Outline Nat} (h : e.Holds false o) (functor : String) :
    (e.openTerm functor).2.Holds false (o.push (.compound functor [])) := by
  have begun := h.beginTerm
  refine ⟨?_, ⟨⟨rfl, rfl, fun parted => absurd rfl parted⟩, begun.located⟩, begun.inRun⟩
  simp [Encoder.openTerm, begun.content, Outline.push, Layout.bytes, unclosedBytes]

/-- Opening a list. -/
theorem Holds.openList {e : Encoder} {o : Outline Nat} (h : e.Holds false o) :
    e.openList.Holds false (o.push (.list [])) := by
  have begun := h.beginTerm
  refine ⟨?_, ⟨trivial, begun.located⟩, begun.inRun⟩
  simp [Encoder.openList, begun.content, Outline.push, Layout.bytes, unclosedBytes, listSoFar]

/-- Closing a compound that has not too many arguments. -/
theorem Holds.closeTerm {e : Encoder} {whole : List (Term Nat)} {functor : String}
    {parts : List (Term Nat)} {outer : List (Unclosed Nat)}
    (h : e.Holds false ⟨whole, .compound functor parts :: outer⟩) (few : parts.length ≤ maxArity) :
    ∃ e', e.closeTerm = (.ok (), e') ∧
      e'.Holds false (.add ⟨whole, outer⟩ (.compound functor parts)) ∧
      e'.vars = e.vars := by
  obtain ⟨buffer, vars, contexts, inRun, failed, sink⟩ := e
  obtain ⟨content, located, run⟩ := h
  obtain ⟨c, cs, rfl, fits, outside⟩ := located.exists_cons
  clear located
  obtain ⟨position, rfl, place⟩ := fits.of_compound
  have alone : joins? ⟨whole, outer⟩ (.compound functor parts) = none := joins?_eq_none rfl
  rcases parts with _ | ⟨part, parts⟩
  · -- nothing was written of the compound, which is an atom now
    simp only [Layout.bytes, layout_unclosed, unclosedBytes, List.isEmpty_nil, Bool.not_false,
      Bool.and_self, if_true, List.append_nil] at content
    refine ⟨_, rfl, .complete ?_ outside run alone, rfl⟩
    simp [content, code]
  · have inside := place (by simp)
    simp only [Layout.bytes, layout_unclosed, unclosedBytes, List.isEmpty_cons, Bool.false_and,
      Bool.false_eq_true, if_false, compoundBytes] at content
    -- the arity byte stands between the name and the arguments
    have split : buffer.content = (layout.bytes true whole outer ++ compoundTag :: zeroEnded functor) ++
        0 :: codeAll (part :: parts) := by simpa using content
    have patched := Buffer.content_replace split (UInt8.ofNat (part :: parts).length)
    rw [List.length_append, ← inside] at patched
    have before : position < buffer.length := by
      rw [inside, ← Buffer.length_content, content]
      simp
    refine ⟨_, (if_neg (Nat.not_lt.mpr few)).trans (if_pos before), .complete ?_ outside run alone, rfl⟩
    rw [code]
    simpa [compoundBytes] using patched

/-- Closing a compound that has too many arguments. -/
theorem Holds.closeTerm_of_maxArity_lt {e : Encoder} {whole : List (Term Nat)} {functor : String}
    {parts : List (Term Nat)} {outer : List (Unclosed Nat)}
    (h : e.Holds false ⟨whole, .compound functor parts :: outer⟩) (many : maxArity < parts.length) :
    e.closeTerm = e.fail (.arityOverflow functor parts.length) := by
  obtain ⟨c, cs, same, fits, outside⟩ := h.located.exists_cons
  obtain ⟨position, rfl, place⟩ := fits.of_compound
  rcases parts with _ | ⟨part, parts⟩
  · cases many
  · rw [Encoder.closeTerm, same]
    exact if_pos many

/-- Closing a list. -/
theorem Holds.closeList {e : Encoder} {whole : List (Term Nat)} {parts : List (Term Nat)}
    {outer : List (Unclosed Nat)} (h : e.Holds false ⟨whole, .list parts :: outer⟩) :
    ∃ e', e.closeList = (.ok (), e') ∧ e'.Holds false (.add ⟨whole, outer⟩ (.list parts)) ∧
      e'.vars = e.vars := by
  obtain ⟨buffer, vars, contexts, inRun, failed, sink⟩ := e
  obtain ⟨content, located, run⟩ := h
  obtain ⟨c, cs, rfl, fits, outside⟩ := located.exists_cons
  clear located
  obtain rfl := fits.of_list
  have same : inRun = (listSoFar parts).inRun := run
  have alone : joins? ⟨whole, outer⟩ (.list parts) = none := joins?_eq_none rfl
  simp only [Layout.bytes, layout_unclosed, unclosedBytes, Bool.false_eq_true, if_false] at content
  refine ⟨_, rfl, .complete ?_ ?_ (inRun_endRun _) alone, ?_⟩
  · simp [content, code_list, ListSoFar.ended, same]
  · rw [put, contexts_endRun]
    exact outside
  · simp [put]

/-- An integer, whether it joins a run or not. -/
theorem Holds.int {e : Encoder} {o : Outline Nat} (h : e.Holds false o) (value : Int64) :
    ∃ e', e.int value = (.ok (), e') ∧ e'.Holds false (o.add (.integer value.toInt)) ∧
      e'.vars = e.vars := by
  -- outside lists, and beyond the bytes of a run, an integer is a leaf like any other
  have alone (single : joins? o (.integer value.toInt) = none)
      (plain : e.int value = e.leaf (integerBytes (toString value.toInt))) :
      ∃ e', e.int value = (.ok (), e') ∧ e'.Holds false (o.add (.integer value.toInt)) ∧
        e'.vars = e.vars := by
    have written := h.leaf single
    rw [code] at written
    exact ⟨_, plain, written, by simp [put]⟩
  obtain ⟨whole, _ | ⟨⟨functor, parts⟩ | parts, outer⟩⟩ := o
  · refine alone rfl ?_
    rw [Encoder.int, h.located.eq_nil]
  · obtain ⟨c, cs, same, fits, outside⟩ := h.located.exists_cons
    obtain ⟨position, rfl, place⟩ := fits.of_compound
    refine alone rfl ?_
    rw [Encoder.int, same]
  · obtain ⟨c, cs, same, fits, outside⟩ := h.located.exists_cons
    obtain rfl := fits.of_list
    rcases small : runByte? value with _ | byte
    · refine alone small ?_
      rw [Encoder.int, same, small]
    · refine ⟨_, ?_, h.join small, ?_⟩
      · rw [Encoder.int, same, small]
      · split <;> rfl

end Encoder

end PrologWire.Sicstus
