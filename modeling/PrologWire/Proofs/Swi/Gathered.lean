import PrologWire.Proofs.Sentence.Layout
import PrologWire.Proofs.Swi.Code
import PrologWire.Proofs.Swi.Varint
import PrologWire.Proofs.Wire.Content
import PrologWire.Swi.Encoder

/-!
# What the encoder has gathered of a sentence

`Holds` ties an encoder and what it has sent since the beginning of the sentence to the outline of the
sentence. Lone terms that come before any other have gone to the sink, and the buffer has the code of
the rest: of whole terms and, from the outside to the inside, of the compounds and lists that are
open. The arity of an open compound is a zero behind the tag, at the place that its context knows.
Each operation has one lemma that says what it does to the outline. Variables are numbers here, and
what the operations do to the table of names is left to the calls.
-/

namespace PrologWire.Swi

open Buffer

/-! ## Arities -/

/-- The arity takes the place of one byte, and what comes behind it moves as far as it must. -/
theorem content_patchArity {b : Buffer} {front back : List UInt8} {old : UInt8}
    (h : b.content = front ++ old :: back) (arity : Nat) :
    (patchArity b front.length arity).content = front ++ varint arity ++ back := by
  have filled : 0 < (varint arity).length := List.length_pos_iff.mpr (varint_ne_nil arity)
  unfold patchArity
  split
  · next byte one => rw [content_replace h, one, List.append_assoc, List.singleton_append]
  · refine content_fill (fun i before => (getElem?_storage_widen h _ i).1 before)
      (fun i behind => ?_) ?_
    · have place : front.length + 1 + ((varint arity).length - 1) + i =
          front.length + (varint arity).length + i := by omega
      rw [← place]
      exact (getElem?_storage_widen h _ i).2 behind
    · have whole : b.length = front.length + 1 + back.length := by
        rw [← length_content, h, List.length_append, List.length_cons]
        omega
      show b.length + ((varint arity).length - 1) = _
      omega

/-- The steps in which an arity is put in its place, as the buffer checks them. -/
def patchSteps (b : Buffer) (position arity : Nat) : Except Fault Buffer :=
  match varint arity with
  | [byte] => b.set position byte
  | bytes => do
    let wider ← b.shiftRight (position + 1) (bytes.length - 1)
    return ((wider.setLength position).append bytes).setLength wider.length

/-- Inside the content all checks pass. -/
theorem patchSteps_eq_ok {b : Buffer} {position : Nat} (inside : position < b.length) (arity : Nat) :
    patchSteps b position arity = .ok (patchArity b position arity) := by
  have shift (amount : Nat) : b.shiftRight (position + 1) amount = .ok (b.widen (position + 1) amount) :=
    if_pos inside
  unfold patchSteps patchArity
  rcases varint arity with _ | ⟨byte, _ | ⟨second, others⟩⟩
  · simp only [shift]
    rfl
  · exact if_pos inside
  · simp only [shift]
    rfl

/-- Putting an arity in the place of a byte of the content passes all checks and replaces this byte alone:
the bytes of the arity stand between what was before it and what was behind it. Whatever the storage holds
behind the content does not come into it. -/
theorem patchSteps_splices (b : Buffer) {position : Nat} (inside : position < b.length) (arity : Nat) :
    patchSteps b position arity = .ok (patchArity b position arity) ∧
      (patchArity b position arity).content =
        b.content.take position ++ varint arity ++ b.content.drop (position + 1) := by
  refine ⟨patchSteps_eq_ok inside arity, ?_⟩
  obtain ⟨front, old, back, parted, rfl⟩ := exists_content_eq inside
  have behind : (front ++ old :: back).drop (front.length + 1) = back := by
    rw [← List.singleton_append, ← List.append_assoc]
    exact List.drop_left' List.length_append
  rw [content_patchArity parted, parted, List.take_left, behind]

/-- Four bytes of storage, of which three are content and the last is left from earlier content. -/
def littleRoom : Buffer := ((withCapacity 1).append [9, 9, 9, 9]).clear.append [13, 0, 7]

/-- An arity of three bytes, for which the storage has to grow. -/
theorem patchSteps_splices_littleRoom :
    1 < littleRoom.length ∧ patchSteps littleRoom 1 20000 = .ok (patchArity littleRoom 1 20000) ∧
      (patchArity littleRoom 1 20000).content = [13, 0x81, 0x9c, 0x20, 7] := by
  have inside : 1 < littleRoom.length := by decide
  obtain ⟨passes, content⟩ := patchSteps_splices littleRoom inside 20000
  have spliced : littleRoom.content.take 1 ++ varint 20000 ++ littleRoom.content.drop 2 =
      [13, 0x81, 0x9c, 0x20, 7] := by decide +kernel
  exact ⟨inside, passes, content.trans spliced⟩

/-! ## Terms that are not gathered -/

section

variable {ν : Type} (c : Config)

/-- The terms that go through the buffer: all from the first on that has no record of its own. -/
def buffered : List (Term ν) → List (Term ν)
  | [] => []
  | t :: rest =>
    match directRecord? c t with
    | some _ => buffered rest
    | none => t :: rest

/-- The records of the terms that do not go through the buffer. -/
def loneRecords : List (Term ν) → List UInt8
  | [] => []
  | t :: rest =>
    match directRecord? c t with
    | some record => record ++ loneRecords rest
    | none => []

variable {c} {ts : List (Term ν)} {t : Term ν}

/-- A lone term after nothing but lone terms is not gathered. -/
theorem lone_concat {record : List UInt8} (h : buffered c ts = [])
    (lone : directRecord? c t = some record) :
    buffered c (ts ++ [t]) = [] ∧ loneRecords c (ts ++ [t]) = loneRecords c ts ++ record := by
  induction ts with
  | nil => simp [buffered, loneRecords, lone]
  | cons first rest ih =>
    rw [buffered] at h
    split at h
    · next record' before =>
      -- the first term is lone, too, because nothing is gathered
      obtain ⟨nothing, more⟩ := ih h
      simp [buffered, loneRecords, before, nothing, more]
    · cases h

/-- Any other term is gathered. -/
theorem gathered_concat (h : buffered c ts = [] → directRecord? c t = none) :
    buffered c (ts ++ [t]) = buffered c ts ++ [t] ∧
      loneRecords c (ts ++ [t]) = loneRecords c ts := by
  induction ts with
  | nil => simp [buffered, loneRecords, h rfl]
  | cons first rest ih =>
    rcases before : directRecord? c first with _ | record
    · -- behind a term that is gathered all others are
      simp [buffered, loneRecords, before]
    · simp only [buffered, before] at h
      obtain ⟨more, same⟩ := ih h
      simp [buffered, loneRecords, before, more, same]

/-- A term with a record of its own takes up no words. -/
theorem wordCount_of_directRecord? {record : List UInt8} (h : directRecord? c t = some record) :
    wordCount c t = 0 := by
  obtain ⟨name, rfl | rfl, -⟩ | ⟨value, rfl, -⟩ | ⟨rfl, -⟩ := directRecord?_eq_some c h
  · rfl
  · rfl
  · rfl
  · rfl

end

/-! ## The layout of an outline -/

/-- What is gathered of something open. -/
def unclosedCode (c : Config) (begun : Bool) : Unclosed Nat → List UInt8
  | .list parts => elementsCode c parts ++ if begun then [consTag] else []
  | .compound functor parts =>
    compoundTag :: 0 :: atomBytes c functor.toList ++ codeAll c parts

/-- The words of something open that are counted already. -/
def unclosedWords (c : Config) (begun : Bool) : Unclosed Nat → Nat
  | .list parts => consWords * (parts.length + begun.toNat) + wordCountAll c parts
  | .compound _ parts => wordCountAll c parts

/-- The context of something open. That of a compound knows where it starts. -/
def FitsContext (start : Nat) (begun : Bool) : Context → Unclosed Nat → Prop
  | .list, .list _ => True
  | .compound start' arity, .compound _ parts =>
    start' = start ∧ arity = parts.length + begun.toNat
  | _, _ => False

/-- The context of an open list. -/
theorem FitsContext.of_list {start : Nat} {begun : Bool} {x : Context} {parts : List (Term Nat)}
    (h : FitsContext start begun x (.list parts)) : x = .list := by
  cases x with
  | list => rfl
  | compound start' arity => exact h.elim

/-- The context of an open compound. -/
theorem FitsContext.of_compound {start : Nat} {begun : Bool} {x : Context} {functor : String}
    {parts : List (Term Nat)} (h : FitsContext start begun x (.compound functor parts)) :
    x = .compound start (parts.length + begun.toNat) := by
  cases x with
  | list => exact h.elim
  | compound start' arity =>
    obtain ⟨rfl, rfl⟩ := h
    rfl

/-- What the encoder gathers of an outline. -/
def layout (c : Config) : Layout Context :=
  ⟨fun whole => codeAll c (buffered c whole), unclosedCode c, FitsContext⟩

@[simp] theorem layout_whole (c : Config) (whole : List (Term Nat)) :
    (layout c).whole whole = codeAll c (buffered c whole) := rfl

@[simp] theorem layout_unclosed (c : Config) : (layout c).unclosed = unclosedCode c := rfl

/-- The words of an outline that are counted already. -/
def wordsSoFar (c : Config) (begun : Bool) (whole : List (Term Nat)) : List (Unclosed Nat) → Nat
  | [] => wordCountAll c whole
  | u :: outer => wordsSoFar c true whole outer + unclosedWords c begun u

namespace Encoder

/-- The encoder for `c` has gathered an outline, after `sent` was on the sink when the sentence began;
the flag tells whether room was made for another term. -/
structure Holds (c : Config) (sent : List UInt8) (begun : Bool) (e : Encoder) (o : Outline Nat) :
    Prop where
  config : e.config = c
  content : e.buffer.content = (layout c).bytes begun o.whole o.unclosed
  located : (layout c).Located begun o.whole e.contexts o.unclosed
  counted : e.words = wordsSoFar c begun o.whole o.unclosed
  unfailed : e.failed = false
  accepts : e.sink.Accepting
  delivered : e.sink.content = sent ++ loneRecords c o.whole

variable {c : Config} {sent : List UInt8} {e : Encoder} {o : Outline Nat}

@[simp] theorem content_put (e : Encoder) (bs : List UInt8) :
    (e.put bs).buffer.content = e.buffer.content ++ bs := Buffer.content_append _ _

@[simp] theorem vars_beginTerm (e : Encoder) : e.beginTerm.vars = e.vars := by
  unfold beginTerm
  split <;> rfl

@[simp] theorem vars_float (e : Encoder) (value : Binary64) : (e.float value).2.vars = e.vars := by
  simp only [float, put, vars_beginTerm]

/-! ## One lemma for each operation -/

/-- Making room for a term begins a part of the innermost of what is open. -/
theorem Holds.beginTerm (h : Holds c sent false e o) : Holds c sent true e.beginTerm o := by
  obtain ⟨config, buffer, vars, contexts, words, failed, sink⟩ := e
  obtain ⟨same, content, located, counted, unfailed, accepts, delivered⟩ := h
  obtain ⟨whole, _ | ⟨⟨functor, parts⟩ | parts, outer⟩⟩ := o
  · obtain rfl := located.eq_nil
    exact ⟨same, content, located, counted, unfailed, accepts, delivered⟩
  · obtain ⟨x, xs, rfl, fits, outside⟩ := located.exists_cons
    clear located
    obtain rfl := fits.of_compound
    exact ⟨same, content, ⟨⟨rfl, rfl⟩, outside⟩, counted, unfailed, accepts, delivered⟩
  · obtain ⟨x, xs, rfl, fits, outside⟩ := located.exists_cons
    clear located
    obtain rfl := fits.of_list
    refine ⟨same, ?_, ⟨trivial, outside⟩, ?_, unfailed, accepts, delivered⟩
    -- an element comes with the tag and the words of its cell
    · simp only [Layout.bytes, layout_unclosed, unclosedCode] at content
      simp [Encoder.beginTerm, content, Layout.bytes, unclosedCode]
    · simp only [wordsSoFar, unclosedWords] at counted ⊢
      simp only [Encoder.beginTerm, counted, consWords, Bool.toNat_true, Bool.toNat_false]
      omega

/-- A leaf is a record of its own if nothing is open and nothing is gathered. -/
theorem Holds.isDirect_iff (h : Holds c sent true e o) :
    e.isDirect = true ↔ o.unclosed = [] ∧ buffered c o.whole = [] := by
  obtain ⟨whole, unclosed⟩ := o
  have contexts : e.contexts = [] ↔ unclosed = [] := by
    rw [← List.length_eq_zero_iff, h.located.length_eq, List.length_eq_zero_iff]
  simp only [isDirect, h.unfailed, Bool.not_false, Bool.and_true, Bool.and_eq_true,
    List.isEmpty_iff, Buffer.isEmpty_iff_content, contexts, h.content]
  refine and_congr_right fun outermost => ?_
  subst outermost
  exact codeAll_eq_nil c

/-- A term whose code is put where room was made for it is one more whole term. -/
theorem Holds.complete {t : Term Nat} (config : e.config = c)
    (content : e.buffer.content = (layout c).bytes true o.whole o.unclosed ++ code c t)
    (located : (layout c).Located true o.whole e.contexts o.unclosed)
    (counted : e.words = wordsSoFar c true o.whole o.unclosed + wordCount c t)
    (unfailed : e.failed = false) (accepts : e.sink.Accepting)
    (delivered : e.sink.content = sent ++ loneRecords c o.whole)
    (gathered : o.unclosed = [] → buffered c o.whole = [] → directRecord? c t = none) :
    Holds c sent false e (o.add t) := by
  obtain ⟨whole, _ | ⟨⟨functor, parts⟩ | parts, outer⟩⟩ := o
  · have outermost := located.eq_nil
    obtain ⟨more, same⟩ := gathered_concat (gathered rfl)
    refine ⟨config, ?_, outermost ▸ trivial, ?_, unfailed, accepts, ?_⟩
    · simp [content, Outline.add, Layout.bytes, more]
    · simp [counted, Outline.add, wordsSoFar]
    · simp [delivered, Outline.add, same]
  · obtain ⟨x, xs, same, fits, outside⟩ := located.exists_cons
    obtain rfl := fits.of_compound
    refine ⟨config, ?_, ?_, ?_, unfailed, accepts, delivered⟩
    · simp [content, Outline.add, Unclosed.add, Layout.bytes, unclosedCode]
    · rw [same]
      exact ⟨⟨rfl, by simp⟩, outside⟩
    · simp [counted, Outline.add, Unclosed.add, wordsSoFar, unclosedWords, Nat.add_assoc]
  · obtain ⟨x, xs, same, fits, outside⟩ := located.exists_cons
    obtain rfl := fits.of_list
    refine ⟨config, ?_, ?_, ?_, unfailed, accepts, delivered⟩
    · simp [content, Outline.add, Unclosed.add, Layout.bytes, unclosedCode]
    · rw [same]
      exact ⟨trivial, outside⟩
    · simp [counted, Outline.add, Unclosed.add, wordsSoFar, unclosedWords, Nat.add_assoc]

/-- A leaf where room was made for it is a record of its own or one more part. -/
theorem Holds.leaf (h : Holds c sent true e o) {t : Term Nat} {record : List UInt8}
    (lone : directRecord? c t = some record) :
    ∃ e', (if e.isDirect then e.writeDirect record else (.ok (), e.put (code c t))) = (.ok (), e') ∧
      Holds c sent false e' (o.add t) ∧ e'.vars = e.vars := by
  split
  · next direct =>
    obtain ⟨whole, unclosed⟩ := o
    obtain ⟨rfl, nothing⟩ := h.isDirect_iff.mp direct
    -- the record goes through the empty buffer straight to the sink
    have empty : e.buffer.content = [] := by
      rw [h.content]
      exact (codeAll_eq_nil c).mpr nothing
    obtain ⟨sink', write, content, accepts⟩ := h.accepts.write (e.put record).buffer.bytes
    obtain ⟨still, sent'⟩ := lone_concat nothing lone
    have written : (e.put record).buffer.bytes.toList = record := by
      rw [← Buffer.content, content_put, empty, List.nil_append]
    have same : (e.put record).sink = e.sink := rfl
    refine ⟨{ e.put record with sink := sink', buffer := (e.put record).buffer.clear }, ?_, ?_, rfl⟩
    · rw [writeDirect]
      simp only [same, write]
      rfl
    · refine ⟨h.config, ?_, h.located.eq_nil ▸ trivial, ?_, h.unfailed, accepts, ?_⟩
      · simp [Outline.add, Layout.bytes, still, codeAll]
      · have zero := wordCount_of_directRecord? lone
        have counted : e.words = wordCountAll c whole := h.counted
        simp [put, counted, Outline.add, wordsSoFar, zero]
      · rw [content, h.delivered, written, Outline.add, sent', List.append_assoc]
  · next part =>
    refine ⟨_, rfl, .complete h.config ?_ h.located ?_ h.unfailed h.accepts h.delivered ?_, rfl⟩
    · rw [content_put, h.content]
    · rw [wordCount_of_directRecord? lone]
      exact h.counted
    · intro outside nothing
      exact absurd (h.isDirect_iff.mpr ⟨outside, nothing⟩) part

/-- Whether a leaf is a record of its own can be asked after making room for it. -/
theorem beginTerm_leaf (e : Encoder) (record bs : List UInt8) :
    (if e.isDirect then e.writeDirect record else (.ok (), e.beginTerm.put bs)) =
      if e.beginTerm.isDirect then e.beginTerm.writeDirect record
      else (.ok (), e.beginTerm.put bs) := by
  obtain ⟨config, buffer, vars, contexts, words, failed, sink⟩ := e
  rcases contexts with _ | ⟨_ | _, outer⟩ <;> rfl

/-- Writing an atom or an integer. -/
theorem Holds.lone (h : Holds c sent false e o) {t : Term Nat} {record : List UInt8}
    (lone : directRecord? c t = some record) :
    ∃ e', (if e.isDirect then e.writeDirect record else (.ok (), e.beginTerm.put (code c t))) =
        (.ok (), e') ∧ Holds c sent false e' (o.add t) ∧ e'.vars = e.vars := by
  obtain ⟨e', eq, holds, vars⟩ := h.beginTerm.leaf lone
  exact ⟨e', (beginTerm_leaf e record _).trans eq, holds, vars.trans (vars_beginTerm e)⟩

/-- Writing a float. -/
theorem Holds.float (h : Holds c sent false e o) (value : Binary64) :
    Holds c sent false (e.float value).2 (o.add (.float value)) := by
  have begun := h.beginTerm
  simp only [Encoder.float, put]
  refine .complete begun.config ?_ begun.located ?_ begun.unfailed begun.accepts begun.delivered
    fun _ _ => rfl
  · simp [begun.content, code]
  · simp [begun.counted, begun.config, wordCount]

/-- Writing the number of a variable. -/
theorem Holds.variable (h : Holds c sent false e o) (ordinal : Nat) :
    Holds c sent false (e.beginTerm.put (variableTag :: varint ordinal))
      (o.add (.var ordinal)) := by
  have begun := h.beginTerm
  refine .complete begun.config ?_ begun.located ?_ begun.unfailed begun.accepts begun.delivered
    fun _ _ => rfl
  · simp [begun.content, code]
  · simp [put, begun.counted, wordCount]

/-- Opening a compound. -/
theorem Holds.openTerm (h : Holds c sent false e o) {functor : String}
    (admitted : c.admits functor.toList = true) :
    ∃ e', e.openTerm functor = (.ok (), e') ∧
      Holds c sent false e' (o.push (.compound functor [])) ∧ e'.vars = e.vars := by
  have begun := h.beginTerm
  have start : e.beginTerm.buffer.length =
      ((layout c).bytes true o.whole o.unclosed).length := by
    rw [← begun.content, Buffer.length_content]
  refine ⟨_, if_pos (h.config.symm ▸ admitted), ⟨begun.config, ?_, ⟨⟨start, rfl⟩, begun.located⟩, ?_,
    begun.unfailed, begun.accepts, begun.delivered⟩, vars_beginTerm e⟩
  · exact (content_put _ _).trans (by
      simp [begun.content, begun.config, Outline.push, Layout.bytes, unclosedCode, codeAll])
  · simpa [Encoder.put, Outline.push, wordsSoFar, unclosedWords, wordCountAll] using begun.counted

/-- Opening a list. -/
theorem Holds.openList (h : Holds c sent false e o) :
    Holds c sent false e.openList (o.push (.list [])) := by
  have begun := h.beginTerm
  refine ⟨begun.config, ?_, ⟨trivial, begun.located⟩, ?_, begun.unfailed, begun.accepts,
    begun.delivered⟩
  · simp [Encoder.openList, begun.content, Outline.push, Layout.bytes, unclosedCode, elementsCode]
  · simpa [Encoder.openList, Outline.push, wordsSoFar, unclosedWords, wordCountAll]
      using begun.counted

/-- Without arguments a compound is cut back to its functor. -/
theorem closeTerm_of_arity_zero {start : Nat} {outer : List Context}
    (h : e.contexts = .compound start 0 :: outer) :
    e.closeTerm =
      ({ e with buffer := e.buffer.setLength start, contexts := outer } : Encoder).putClosed
        (e.buffer.drop (start + 2)) := by
  rw [closeTerm, h]
  rfl

/-- Closing a compound without arguments leaves its name. -/
theorem Holds.closeTerm_nil {whole : List (Term Nat)} {functor : String}
    {outer : List (Unclosed Nat)} (h : Holds c sent false e ⟨whole, .compound functor [] :: outer⟩) :
    ∃ e', e.closeTerm = (.ok (), e') ∧
      Holds c sent false e' (.add ⟨whole, outer⟩ (.compound functor [])) ∧ e'.vars = e.vars := by
  obtain ⟨rfl, content, located, counted, unfailed, accepts, delivered⟩ := h
  obtain ⟨x, xs, same, fits, outside⟩ := located.exists_cons
  obtain rfl := fits.of_compound
  have split : e.buffer.content = (layout e.config).bytes true whole outer ++
      compoundTag :: 0 :: atomBytes e.config functor.toList := by
    simpa [Layout.bytes, unclosedCode, codeAll] using content
  -- behind the tag and the place of the arity there is nothing but the functor
  have name : e.buffer.drop (((layout e.config).bytes true whole outer).length + 2) =
      atomBytes e.config functor.toList := by
    rw [Buffer.drop_eq_drop_content, split, ← List.drop_drop, List.drop_left]
    rfl
  have closed : Holds e.config sent true
      { e with
        buffer := e.buffer.setLength ((layout e.config).bytes true whole outer).length
        contexts := xs } ⟨whole, outer⟩ :=
    ⟨rfl, Buffer.content_setLength split, outside, counted, unfailed, accepts, delivered⟩
  obtain ⟨e', eq, holds, vars⟩ := closed.leaf (t := .compound functor []) rfl
  refine ⟨e', ?_, holds, vars⟩
  rw [closeTerm_of_arity_zero same, name]
  exact eq

/-- Closing a compound with arguments puts their number in its place. -/
theorem Holds.closeTerm_cons {whole : List (Term Nat)} {functor : String} {part : Term Nat}
    {parts : List (Term Nat)} {outer : List (Unclosed Nat)}
    (h : Holds c sent false e ⟨whole, .compound functor (part :: parts) :: outer⟩) :
    ∃ e', e.closeTerm = (.ok (), e') ∧
      Holds c sent false e' (.add ⟨whole, outer⟩ (.compound functor (part :: parts))) ∧
      e'.vars = e.vars := by
  obtain ⟨rfl, content, located, counted, unfailed, accepts, delivered⟩ := h
  obtain ⟨x, xs, same, fits, outside⟩ := located.exists_cons
  obtain rfl := fits.of_compound
  -- the zero behind the tag gives its place to the arity, and all bytes behind it move
  have split : e.buffer.content = ((layout e.config).bytes true whole outer ++ [compoundTag]) ++
      0 :: (atomBytes e.config functor.toList ++ codeAll e.config (part :: parts)) := by
    simpa [Layout.bytes, unclosedCode] using content
  have inside : ((layout e.config).bytes true whole outer).length + 1 < e.buffer.length := by
    rw [← Buffer.length_content, split]
    simp
  have patched := content_patchArity split (part :: parts).length
  rw [List.length_append] at patched
  rw [Encoder.closeTerm, same]
  refine ⟨_, if_pos inside, .complete rfl (patched.trans ?_) outside ?_ unfailed accepts delivered
    fun _ _ => rfl, rfl⟩
  · simp [code]
  · simp only [wordsSoFar, unclosedWords] at counted
    simp [counted, wordCount]
    omega

/-- Closing a list. -/
theorem Holds.closeList {whole : List (Term Nat)} {parts : List (Term Nat)}
    {outer : List (Unclosed Nat)} (h : Holds c sent false e ⟨whole, .list parts :: outer⟩) :
    ∃ e', e.closeList = (.ok (), e') ∧ Holds c sent false e' (.add ⟨whole, outer⟩ (.list parts)) ∧
      e'.vars = e.vars := by
  obtain ⟨rfl, content, located, counted, unfailed, accepts, delivered⟩ := h
  obtain ⟨x, xs, same, fits, outside⟩ := located.exists_cons
  obtain rfl := fits.of_list
  simp only [Layout.bytes, layout_unclosed, unclosedCode, Bool.false_eq_true, if_false,
    List.append_nil] at content
  simp only [wordsSoFar, unclosedWords] at counted
  rw [Encoder.closeList, same]
  rcases parts with _ | ⟨part, parts⟩
  · have closed : Holds e.config sent true { e with contexts := xs } ⟨whole, outer⟩ :=
      ⟨rfl, by simpa [elementsCode] using content, outside, by simpa [wordCountAll] using counted,
        unfailed, accepts, delivered⟩
    exact closed.leaf (t := .list []) rfl
  · -- the buffer has elements, so what is closed is no record of its own
    have filled : e.buffer.isEmpty = false := by
      rw [Bool.eq_false_iff, ne_eq, Buffer.isEmpty_iff_content, content]
      simp [elementsCode]
    have part : ({ e with contexts := xs } : Encoder).isDirect = false := by
      simp [isDirect, filled]
    refine ⟨_, if_neg (by simp [part]), .complete rfl ?_ outside ?_ unfailed accepts delivered
      fun _ _ => rfl, rfl⟩
    · rw [content_put, content, code, List.append_assoc]
    · simp [Encoder.put, counted, wordCount]

end Encoder

end PrologWire.Swi
