import PrologWire.Proofs.Swi.AnySink

/-!
# What depends on the receiver

Of its receiver an encoder reads the size of words; the order of bytes, the system and the switch for wide
atoms are read for names outside Latin-1 alone. So with names in Latin-1 it does the same for all receivers
with words of one size. The size of words is in the header of a record and in the words that the term takes
up, and nowhere else.
-/

namespace PrologWire.Swi

/-! ## Receivers with words of one size -/

/-- The name of the atom or the functor in a call has no characters outside Latin-1. -/
def inLatin1 : Call → Bool
  | .openTerm functor => isLatin1 functor.toList
  | .atom name => isLatin1 name.toList
  | _ => true

section

variable {c d : Config}

theorem atomBytes_congr {name : List Char} (latin : isLatin1 name = true) :
    atomBytes c name = atomBytes d name := by
  rw [atomBytes, atomBytes, if_pos latin, if_pos latin]

theorem admits_of_isLatin1 {name : List Char} (latin : isLatin1 name = true) : c.admits name = true := by
  rw [Config.admits, latin, Bool.or_true]

variable (words : c.wordSize = d.wordSize)

include words

theorem header_congr : c.header = d.header := by rw [Config.header, Config.header, words]

theorem intBits_congr : c.intBits = d.intBits := by rw [Config.intBits, Config.intBits, words]

theorem holdsInt_congr (value : Int64) : c.holdsInt value = d.holdsInt value := by
  rw [Config.holdsInt, Config.holdsInt, Config.intLimit, Config.intLimit, intBits_congr words]

end

namespace Encoder

/-- The encoder with another receiver. -/
def withConfig (d : Config) (e : Encoder) : Encoder := { e with config := d }

section

variable (e : Encoder) {d : Config}

theorem beginTerm_withConfig : (e.withConfig d).beginTerm = e.beginTerm.withConfig d := by
  rcases e with ⟨config, buffer, vars, _ | ⟨_ | _, outer⟩, words, failed, sink⟩ <;> rfl

theorem openList_withConfig : (e.withConfig d).openList = e.openList.withConfig d := by
  rw [openList, openList, beginTerm_withConfig]
  rfl

theorem leaf_withConfig (record code : List UInt8) :
    (if (e.withConfig d).isDirect then (e.withConfig d).writeDirect record
      else (.ok (), (e.withConfig d).beginTerm.put code)) =
    (if e.isDirect then e.writeDirect record else (.ok (), e.beginTerm.put code)).map id (withConfig d) := by
  have same : (e.withConfig d).isDirect = e.isDirect := rfl
  rw [same, beginTerm_withConfig]
  split <;> rfl

variable (words : e.config.wordSize = d.wordSize)

include words

theorem putClosed_withConfig (code : List UInt8) :
    (e.withConfig d).putClosed code = (e.putClosed code).map id (withConfig d) := by
  have same : (e.withConfig d).isDirect = e.isDirect := rfl
  have header : (e.withConfig d).directAtomHeader = e.directAtomHeader :=
    congrArg (· ||| atomBit ||| groundBit) (header_congr words).symm
  rw [putClosed, putClosed, same, header]
  split <;> rfl

theorem closeTerm_withConfig :
    (e.withConfig d).closeTerm = e.closeTerm.map id (withConfig d) := by
  have contexts : (e.withConfig d).contexts = e.contexts := rfl
  have buffer : (e.withConfig d).buffer = e.buffer := rfl
  rcases here : e.contexts with _ | ⟨_ | ⟨start, _ | arity⟩, outer⟩
  case cons.compound.succ =>
    rw [closeTerm_of_parts here, closeTerm_of_parts (contexts.trans here), buffer]
    split <;> rfl
  case cons.compound.zero =>
    rw [closeTerm_of_lone here, closeTerm_of_lone (contexts.trans here)]
    exact putClosed_withConfig { e with buffer := e.buffer.setLength start, contexts := outer } words _
  all_goals rw [closeTerm, closeTerm, contexts, here]; rfl

theorem closeList_withConfig :
    (e.withConfig d).closeList = e.closeList.map id (withConfig d) := by
  have contexts : (e.withConfig d).contexts = e.contexts := rfl
  rw [closeList, closeList, contexts]
  split
  · next outer here => exact putClosed_withConfig { e with contexts := outer } words _
  · rfl

theorem int_withConfig (value : Int64) :
    (e.withConfig d).int value = (e.int value).map id (withConfig d) := by
  have holds : (e.withConfig d).config.holdsInt value = e.config.holdsInt value :=
    (holdsInt_congr words value).symm
  have bits : (e.withConfig d).config.intBits = e.config.intBits := (intBits_congr words).symm
  have header : (e.withConfig d).directIntHeader = e.directIntHeader :=
    congrArg (· ||| intBit ||| groundBit) (header_congr words).symm
  rw [int, int, holds, bits, header]
  split
  · exact e.leaf_withConfig _ _
  · rfl

theorem writeRecord_withConfig :
    (e.withConfig d).writeRecord = e.writeRecord.map id (withConfig d) := by
  have header : (e.withConfig d).config.header = e.config.header := (header_congr words).symm
  have start : (e.withConfig d).recordStart = e.recordStart := by
    rw [recordStart, recordStart, header]
    rfl
  have sink : (e.withConfig d).sink = e.sink := rfl
  rw [writeRecord, writeRecord, start, sink]
  dsimp only
  split <;> rfl

theorem fullStop_withConfig :
    (e.withConfig d).fullStop = e.fullStop.map id (withConfig d) := by
  have failed : (e.withConfig d).failed = e.failed := rfl
  have contexts : (e.withConfig d).contexts = e.contexts := rfl
  have buffer : (e.withConfig d).buffer = e.buffer := rfl
  rw [fullStop, fullStop, failed, contexts, buffer, writeRecord_withConfig e words]
  split
  · rfl
  · split
    · rfl
    · cases e.buffer.isEmpty with
      | true => rfl
      | false =>
        have answer : (e.writeRecord.map id (withConfig d)).1 = e.writeRecord.1 := rfl
        dsimp only
        rw [if_neg Bool.false_ne_true, if_neg Bool.false_ne_true, answer]
        split <;> rfl

/-- A call has the same answer for both receivers and leaves the same, if its name is in Latin-1. -/
theorem call_withConfig {x : Call} (latin : inLatin1 x = true) :
    (e.withConfig d).call x = (e.call x).map id (withConfig d) := by
  cases x with
  | openTerm functor =>
    have left : (e.withConfig d).config.admits functor.toList = true := admits_of_isLatin1 latin
    have right : e.config.admits functor.toList = true := admits_of_isLatin1 latin
    have code : atomBytes (e.beginTerm.withConfig d).config functor.toList =
        atomBytes e.beginTerm.config functor.toList := atomBytes_congr latin
    rw [call, call, openTerm, openTerm, if_pos left, if_pos right, beginTerm_withConfig]
    dsimp only
    rw [code]
    rfl
  | closeTerm => exact e.closeTerm_withConfig words
  | openList =>
    rw [call, call, openList_withConfig]
    rfl
  | closeList => exact e.closeList_withConfig words
  | emptyList =>
    rw [call, call, openList_withConfig]
    exact e.openList.closeList_withConfig ((congrArg Config.wordSize (config_beginTerm e)).trans words)
  | atom name =>
    have left : (e.withConfig d).config.admits name.toList = true := admits_of_isLatin1 latin
    have right : e.config.admits name.toList = true := admits_of_isLatin1 latin
    have code : atomBytes (e.withConfig d).config name.toList = atomBytes e.config name.toList :=
      atomBytes_congr latin
    have header : (e.withConfig d).directAtomHeader = e.directAtomHeader :=
      congrArg (· ||| atomBit ||| groundBit) (header_congr words).symm
    rw [call, call, atom, atom, if_pos left, if_pos right, code, header]
    exact e.leaf_withConfig _ _
  | int value => exact e.int_withConfig words value
  | bigint value =>
    rw [call, call, bigint, bigint]
    split
    · exact e.int_withConfig words _
    · rfl
  | float value =>
    have size : ((e.beginTerm.withConfig d).put (floatTag :: floatBytes value)).config.wordSize =
        (e.beginTerm.put (floatTag :: floatBytes value)).config.wordSize :=
      (congrArg Config.wordSize (config_beginTerm e)).trans words |>.symm
    rw [call, call, float, float, beginTerm_withConfig, size]
    rfl
  | var name =>
    rw [call, call, var, var, beginTerm_withConfig]
    rfl
  | fullStop => exact e.fullStop_withConfig words
  | flush => rfl

end

/-! ## Two runs -/

/-- What an encoder is given: a call, or another behaviour of its sink from then on. -/
inductive Input where
  | call (x : Call)
  | sink (room : Option Nat) (failsFlush : Bool)

/-- An encoder on a sink whose behaviour is changed from outside. -/
def exposed : Consumer Encoder Input where
  take e
    | .call x => e.call x
    | .sink room failsFlush => (.ok (), e.withSink { e.sink with room := room, failsFlush := failsFlush })
  depth := depth
  sink := (·.sink)

/-- The first encoder would be like the second if it wrote for the same receiver, and both receivers have
words of one size. -/
structure Akin (e f : Encoder) : Prop where
  words : e.config.wordSize = f.config.wordSize
  alike : (e.withConfig f.config).Alike f
  nested : e.WellNested

theorem akin_new {c d : Config} (words : c.wordSize = d.wordSize) {s t : Sink} (sinks : s.Alike t) :
    Akin (new c s) (new d t) :=
  ⟨words, ⟨⟨rfl, rfl, rfl, rfl, rfl, rfl⟩, sinks⟩, .of_contexts_eq_nil rfl⟩

namespace Akin

variable {e f : Encoder} (h : Akin e f)

include h

theorem call {x : Call} (latin : inLatin1 x = true) :
    exposed.SameOutcome Akin e f (e.call x) (f.call x) := by
  have same := h.alike.call h.nested x
  rw [call_withConfig e h.words latin] at same
  have related : Alike ((e.call x).2.withConfig f.config) (f.call x).2 := same.related
  rw [← config_call f x] at related
  refine ⟨same.answer, ⟨?_, related, h.nested.call x⟩, same.received⟩
  rw [config_call, config_call]
  exact h.words

theorem sink (room : Option Nat) (failsFlush : Bool) :
    exposed.SameOutcome Akin e f (exposed.take e (.sink room failsFlush))
      (exposed.take f (.sink room failsFlush)) := by
  have sinks : Sink.Alike { e.sink with room := room, failsFlush := failsFlush }
      { f.sink with room := room, failsFlush := failsFlush } := ⟨rfl, rfl⟩
  exact ⟨rfl, ⟨h.words, ⟨h.alike.sentence.withSinks _ _, sinks⟩, h.nested⟩, sinks,
    ⟨[], (List.append_nil _).symm, (List.append_nil _).symm⟩, ⟨0, rfl, rfl⟩⟩

end Akin

/-- Encoders for receivers with words of one size are seen to do the same, and their sinks receive the
same, if all names are in Latin-1. -/
theorem observe_new_eq {c d : Config} (words : c.wordSize = d.wordSize) {s t : Sink} (sinks : s.Alike t)
    {inputs : List Input} (latin : ∀ x, Input.call x ∈ inputs → inLatin1 x = true) :
    exposed.observe (new c s) inputs = exposed.observe (new d t) inputs ∧
      Sink.SameReceived s t (exposed.after (new c s) inputs).sink (exposed.after (new d t) inputs).sink := by
  have step {e f : Encoder} (i : Input) (among : i ∈ inputs) (h : Akin e f) :
      exposed.SameOutcome Akin e f (exposed.take e i) (exposed.take f i) := by
    cases i with
    | call x => exact h.call (latin x among)
    | sink room failsFlush => exact h.sink room failsFlush
  exact ⟨Consumer.observe_eq_of_step (fun h => h.alike.depth) step (akin_new words sinks),
    Consumer.sameReceived_of_step (fun h => h.alike.sinks) step (akin_new words sinks)⟩

end Encoder

/-! ## Receivers with words of two sizes -/

/-- A record without what the size of words decides. -/
inductive Frame where
  /-- A record of its own: bits of the header, and code. -/
  | lone (bits : UInt8) (code : List UInt8)
  /-- Any other record: bits of the header, the field for the number of variables, and code. -/
  | sized (bits : UInt8) (vars code : List UInt8)

/-- The record for words of a size, of a term that takes up so many of them. -/
def Frame.bytes (size : WordSize) (words : Nat) : Frame → List UInt8
  | .lone bits code => (size.bits ||| versionBits ||| bits) :: code
  | .sized bits vars code =>
    (size.bits ||| versionBits ||| bits) :: varint code.length ++ varint words ++ vars ++ code

/-- The record of a term without what the size of words decides. -/
def frame (c : Config) (t : Term String) : Frame :=
  match t with
  | .atom name => .lone (atomBit ||| groundBit) (atomBytes c name.toList)
  | .compound functor [] => .lone (atomBit ||| groundBit) (atomBytes c functor.toList)
  | .integer value => .lone (intBit ||| groundBit) (intBytes value)
  | .list [] => .lone (atomBit ||| groundBit) [nilTag]
  | t =>
    let vars := (Term.names [t]).length
    .sized (if t.vars = [] then groundBit else 0) (if vars = 0 then [] else varint vars)
      (code c (t.map (Term.names [t]).idxOf))

theorem frame_of_gathered (c : Config) {t : Term String} (gathered : directRecord? c t = none) :
    frame c t = .sized (if t.vars = [] then groundBit else 0)
      (if (Term.names [t]).length = 0 then [] else varint (Term.names [t]).length)
      (code c (t.map (Term.names [t]).idxOf)) := by
  cases t with
  | atom name => cases gathered
  | integer value => cases gathered
  | float value => rfl
  | var name => rfl
  | compound functor args =>
    cases args with
    | nil => cases gathered
    | cons arg rest => rfl
  | list elems =>
    cases elems with
    | nil => cases gathered
    | cons elem rest => rfl

/-- The record of a term is its frame with the header and the words for the receiver. -/
theorem recordBytes_eq_bytes_frame (c : Config) (t : Term String) :
    recordBytes c t = (frame c t).bytes c.wordSize (wordCount c t) := by
  rcases lone : directRecord? c t with _ | record
  · have bits : (if t.vars = [] then c.header ||| groundBit else c.header) =
        c.wordSize.bits ||| versionBits ||| if t.vars = [] then groundBit else 0 := by
      split
      · rfl
      · exact (UInt8.or_zero (a := c.header)).symm
    rw [frame_of_gathered c lone, Frame.bytes, ← bits, recordBytes, lone]
  · have whole : recordBytes c t = record := by rw [recordBytes, lone]
    rw [whole]
    obtain ⟨name, rfl | rfl, rfl⟩ | ⟨value, rfl, rfl⟩ | ⟨rfl, rfl⟩ := directRecord?_eq_some c lone
    · rw [frame, Frame.bytes, ← UInt8.or_assoc]
      rfl
    · rw [frame, Frame.bytes, ← UInt8.or_assoc]
      rfl
    · rw [frame, Frame.bytes, ← UInt8.or_assoc]
      rfl
    · rw [frame, Frame.bytes, ← UInt8.or_assoc]
      rfl

section

variable (c : Config) (size : WordSize)

theorem atomBytes_withSize (name : List Char) :
    atomBytes { c with wordSize := size } name = atomBytes c name := rfl

mutual

theorem code_withSize : ∀ t : Term Nat, code { c with wordSize := size } t = code c t
  | .atom _ | .integer _ | .float _ | .var _ => rfl
  | .compound functor args => by rw [code, code, codeAll_withSize args, atomBytes_withSize]
  | .list elems => by rw [code, code, elementsCode_withSize elems]

theorem codeAll_withSize : ∀ ts : List (Term Nat), codeAll { c with wordSize := size } ts = codeAll c ts
  | [] => rfl
  | t :: rest => by rw [codeAll, codeAll, code_withSize t, codeAll_withSize rest]

theorem elementsCode_withSize :
    ∀ ts : List (Term Nat), elementsCode { c with wordSize := size } ts = elementsCode c ts
  | [] => rfl
  | t :: rest => by rw [elementsCode, elementsCode, code_withSize t, elementsCode_withSize rest]

end

theorem frame_withSize (t : Term String) : frame { c with wordSize := size } t = frame c t := by
  cases t with
  | atom name => rfl
  | integer value => rfl
  | float value => rfl
  | var name => rfl
  | compound functor args =>
    cases args with
    | nil => rfl
    | cons arg rest => exact congrArg (Frame.sized _ _) (code_withSize c size _)
  | list elems =>
    cases elems with
    | nil => rfl
    | cons elem rest => exact congrArg (Frame.sized _ _) (code_withSize c size _)

end

namespace Encoder

variable {e : Encoder}

/-- Calls that all go well do the same on a sink that takes everything. -/
theorem playAll_unbounded {calls : List Call}
    (well : ∀ entry ∈ (playAll Encoder.call e calls).1, entry.2 = .ok ()) :
    playAll Encoder.call e.unbounded calls =
      ((playAll Encoder.call e calls).1, (playAll Encoder.call e calls).2.unbounded) := by
  induction calls generalizing e with
  | nil => rfl
  | cons x rest ih =>
    rw [playAll_cons, List.forall_mem_cons] at well
    have first : (e.call x).1 = .ok () := well.1
    rw [playAll_cons, playAll_cons, e.carries_call x first, ih well.2, first]

/-- A sentence of one term whose calls all go well has brought the record of the term to the sink. -/
theorem AtStart.content_playAll (start : e.AtStart) {calls : List Call} {t : Term String}
    (whole : Term.ofCalls? calls = some [t])
    (well : ∀ entry ∈ (playAll Encoder.call e (calls ++ [.fullStop])).1, entry.2 = .ok ()) :
    (playAll Encoder.call e (calls ++ [.fullStop])).2.sink.content =
      e.sink.content ++ (frame e.config t).bytes e.config.wordSize (wordCount e.config t) := by
  have begins : e.unbounded.AtStart := ⟨start.buffer, start.vars, start.contexts, start.words, start.failed⟩
  have record := (playAll_fullStop_record begins (Sink.accepting_unbounded e.sink) whole).2
  rw [playAll_unbounded well] at record
  exact (record well).trans (congrArg (e.sink.content ++ ·) (recordBytes_eq_bytes_frame e.config t))

/-- What the receiver has to do with the bytes. Between two receivers with words of one size no calls with
names in Latin-1 make a difference, on sinks that behave in the same way and may change their behaviour
together between the calls: all answers are the same, and the sinks receive the same bytes. Between two
receivers that differ in the size of words alone there is no difference in code, that is in the bytes of
integers, of names and of whole terms; and when a sentence of one term goes well for both, on whatever sinks,
their records differ at most in the bits of the header for the size of words and in the number of words that
the term takes up. -/
theorem neutral_but_for_wordSize (c : Config) :
    (∀ (d : Config) (s t : Sink) (inputs : List Input), c.wordSize = d.wordSize → s.Alike t →
      (∀ x, Input.call x ∈ inputs → inLatin1 x = true) →
      exposed.observe (new c s) inputs = exposed.observe (new d t) inputs ∧
        Sink.SameReceived s t (exposed.after (new c s) inputs).sink (exposed.after (new d t) inputs).sink) ∧
    (∀ (size : WordSize) (u : Term Nat), code { c with wordSize := size } u = code c u) ∧
    ∀ (size : WordSize) (e f : Encoder) (calls : List Call) (t : Term String),
      e.AtStart → e.config = c → f.AtStart → f.config = { c with wordSize := size } →
      Term.ofCalls? calls = some [t] →
      (∀ entry ∈ (playAll Encoder.call e (calls ++ [.fullStop])).1, entry.2 = .ok ()) →
      (∀ entry ∈ (playAll Encoder.call f (calls ++ [.fullStop])).1, entry.2 = .ok ()) →
      (playAll Encoder.call e (calls ++ [.fullStop])).2.sink.content =
          e.sink.content ++ (frame c t).bytes c.wordSize (wordCount c t) ∧
        (playAll Encoder.call f (calls ++ [.fullStop])).2.sink.content =
          f.sink.content ++ (frame c t).bytes size (wordCount { c with wordSize := size } t) := by
  refine ⟨fun d s t inputs words sinks latin => observe_new_eq words sinks latin, code_withSize c, ?_⟩
  rintro size e f calls t start rfl start' config whole well well'
  refine ⟨start.content_playAll whole well, ?_⟩
  rw [start'.content_playAll whole well', config, frame_withSize]

/-- A receiver of another kind with words of the same size. -/
def otherwise : Config := ⟨.eight, .big, .windows, false⟩

/-- A compound with a float and an atom, of which only three bytes reach the sink. -/
def mixedInputs : List Input :=
  [.call (.openTerm "é"), .call (.float ⟨0x3ff0000000000000⟩), .call (.atom "a"), .call .closeTerm,
    .sink (some 3) true, .call .fullStop]

/-- A compound with an integer and a float. -/
def floatTerm : Term String := .compound "f" [.integer 7, .float ⟨0x3ff0000000000000⟩]

def floatCalls : List Call := [.openTerm "f", .int 7, .float ⟨0x3ff0000000000000⟩, .closeTerm]

theorem neutral_but_for_wordSize_standard :
    exposed.observe (new .standard .unlimited) mixedInputs =
        exposed.observe (new otherwise ⟨#[1], none, false, 3⟩) mixedInputs ∧
      (playAll Encoder.call (new .standard .unlimited) (floatCalls ++ [.fullStop])).2.sink.content =
        [0x72, 17, 4, 13, 2, 11, 1, 0x66, 4, 1, 7, 14, 0, 0, 0, 0, 0, 0, 0xf0, 0x3f] ∧
      (playAll Encoder.call (new ⟨.four, .little, .other, true⟩ .unlimited)
          (floatCalls ++ [.fullStop])).2.sink.content =
        [0x71, 17, 5, 13, 2, 11, 1, 0x66, 4, 1, 7, 14, 0, 0, 0, 0, 0, 0, 0xf0, 0x3f] := by
  obtain ⟨same, -, records⟩ := neutral_but_for_wordSize .standard
  have latin : ∀ x, Input.call x ∈ mixedInputs → inLatin1 x = true := by
    intro x among
    simp only [mixedInputs, List.mem_cons, Input.call.injEq, List.not_mem_nil, or_false, reduceCtorEq,
      false_or] at among
    rcases among with rfl | rfl | rfl | rfl | rfl <;> decide
  have whole : Term.ofCalls? floatCalls = some [floatTerm] := rfl
  have well (c : Config) (taken : takes c floatTerm = true) :
      ∀ entry ∈ (playAll Encoder.call (new c .unlimited) (floatCalls ++ [.fullStop])).1,
        entry.2 = .ok () := by
    rw [(playAll_fullStop_record (atStart_new c .unlimited) Sink.accepting_unlimited whole).1, ← takes_iff]
    exact taken
  obtain ⟨eight, four⟩ := records .four _ _ floatCalls floatTerm (atStart_new _ .unlimited) rfl
    (atStart_new ⟨.four, .little, .other, true⟩ .unlimited) rfl whole (well _ (by decide))
    (well _ (by decide))
  refine ⟨(same otherwise .unlimited ⟨#[1], none, false, 3⟩ mixedInputs rfl ⟨rfl, rfl⟩ latin).1,
    eight.trans ?_, four.trans ?_⟩
  · decide +kernel
  · decide +kernel

end Encoder

end PrologWire.Swi
