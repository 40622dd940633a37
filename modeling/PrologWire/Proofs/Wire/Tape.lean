import PrologWire.Proofs.Wire.Content
import PrologWire.Sicstus.Format

/-!
# Buffers are tapes

A client of a buffer sees what it would see of a tape that has no end and is all zeros at first: writes go
at the length and move it, and all else that moves the length leaves the bytes where they are. How much
storage a buffer has, and in which steps it came to it, cannot be seen. So bytes in the middle can be
written anew: the length goes back to them, they are written, and the length returns to where it was.
-/

namespace PrologWire

/-- A tape of bytes without an end, and how many of them are content. -/
@[ext] structure Tape where
  cells : Nat → UInt8
  length : Nat

namespace Tape

/-- A tape on which nothing has been written. -/
def blank : Tape := ⟨fun _ => 0, 0⟩

/-- The bytes up to the length. -/
def content (t : Tape) : List UInt8 := (List.range t.length).map t.cells

/-- Writes bytes at the length, which moves behind them. -/
def write (t : Tape) (bs : List UInt8) : Tape where
  cells i := if t.length ≤ i ∧ i < t.length + bs.length then bs.getD (i - t.length) 0 else t.cells i
  length := t.length + bs.length

/-- Overwrites one byte of the content. -/
def set (t : Tape) (position : Nat) (byte : UInt8) : Except Buffer.Fault Tape :=
  if position < t.length then .ok { t with cells := fun i => if i = position then byte else t.cells i }
  else .error (.setBeyond position t.length)

/-- Copies the bytes from a position to the length to the right, and moves the length as far. -/
def shiftRight (t : Tape) (position amount : Nat) : Except Buffer.Fault Tape :=
  if position ≤ t.length then
    .ok
      { cells := fun i =>
          if position + amount ≤ i ∧ i < t.length + amount then t.cells (i - amount) else t.cells i
        length := t.length + amount }
  else .error (.shiftBeyond position t.length)

/-- Moves the length. -/
def setLength (t : Tape) (length : Nat) : Tape := { t with length := length }

theorem getElem?_content (t : Tape) (i : Nat) :
    t.content[i]? = if i < t.length then some (t.cells i) else none := by
  rw [content, List.getElem?_map]
  split
  · next inside => rw [List.getElem?_range inside, Option.map_some]
  · next outside =>
    rw [List.getElem?_eq_none (by rw [List.length_range]; omega), Option.map_none]

/-- Two writes in a row are one. -/
theorem write_write (t : Tape) (bs cs : List UInt8) : (t.write bs).write cs = t.write (bs ++ cs) := by
  apply Tape.ext
  · funext i
    simp only [write, List.getD_eq_getElem?_getD, List.length_append]
    by_cases before : i < t.length
    · rw [if_neg (by omega), if_neg (by omega), if_neg (by omega)]
    · by_cases first : i < t.length + bs.length
      · rw [if_neg (by omega), if_pos (by omega), if_pos (by omega),
          List.getElem?_append_left (by omega)]
      · by_cases second : i < t.length + bs.length + cs.length
        · rw [if_pos (by omega), if_pos (by omega), List.getElem?_append_right (by omega), Nat.sub_sub]
        · rw [if_neg (by omega), if_neg (by omega), if_neg (by omega)]
  · simp only [write, List.length_append, Nat.add_assoc]

theorem write_nil (t : Tape) : t.write [] = t := by
  apply Tape.ext
  · funext i
    show (if t.length ≤ i ∧ i < t.length + 0 then _ else _) = _
    rw [if_neg (by omega)]
  · rfl

end Tape

namespace Buffer

/-! ## What clients do -/

/-- The bytes of a text. -/
def utf8 (s : String) : List UInt8 := s.toUTF8.data.toList

/-- What a client writes. -/
inductive Write where
  | push (byte : UInt8)
  | append (bs : List UInt8)
  /-- A text with a zero byte behind it. -/
  | zeroEnded (s : String)
  /-- The text of a value, which comes in pieces. -/
  | shown (pieces : List String)

/-- What a client does with a buffer. -/
inductive Operation where
  | write (w : Write)
  | set (position : Nat) (byte : UInt8)
  | shiftRight (position amount : Nat)
  | setLength (length : Nat)
  | clear

/-- The buffer after a write. -/
def Write.perform : Write → Buffer → Buffer
  | .push byte, b => b.push byte
  | .append bs, b => b.append bs
  | .zeroEnded s, b => (b.append (utf8 s)).push 0
  | .shown pieces, b => pieces.foldl (fun b piece => b.append (utf8 piece)) b

/-- The bytes that are written. -/
def Write.written : Write → List UInt8
  | .push byte => [byte]
  | .append bs => bs
  | .zeroEnded s => Sicstus.zeroEnded s
  | .shown pieces => pieces.flatMap utf8

/-- What comes of an operation on a buffer. -/
def Operation.perform : Operation → Buffer → Except Fault Buffer
  | .write w, b => .ok (w.perform b)
  | .set position byte, b => b.set position byte
  | .shiftRight position amount, b => b.shiftRight position amount
  | .setLength length, b => .ok (b.setLength length)
  | .clear, b => .ok b.clear

/-- What comes of an operation on a tape. -/
def Operation.onTape : Operation → Tape → Except Fault Tape
  | .write w, t => .ok (t.write w.written)
  | .set position byte, t => t.set position byte
  | .shiftRight position amount, t => t.shiftRight position amount
  | .setLength length, t => .ok (t.setLength length)
  | .clear, t => .ok (t.setLength 0)

/-- Something that a client does to one of several buffers, each of which may be copied. -/
inductive Step where
  | act (k : Nat) (op : Operation)
  | clone (k : Nat)

/-! ## What clients see -/

/-- What a client sees after an operation. -/
structure Sight where
  length : Nat
  isEmpty : Bool
  content : List UInt8
  /-- Why the operation was refused, if it was. -/
  fault : Option Fault
deriving DecidableEq

/-- Something that takes the operations of a buffer, and what can be seen of it. -/
structure Medium (σ : Type) where
  perform : Operation → σ → Except Fault σ
  look : σ → Option Fault → Sight

/-- Buffers. -/
def medium : Medium Buffer := ⟨Operation.perform, fun b => .mk b.length b.isEmpty b.content⟩

/-- Tapes. -/
def tapes : Medium Tape := ⟨Operation.onTape, fun t => .mk t.length (t.length = 0) t.content⟩

namespace Medium

variable {σ τ : Type}

/-- An operation, and what is seen after it. One that is refused changes nothing. -/
def act (m : Medium σ) (op : Operation) (s : σ) : Sight × σ :=
  match m.perform op s with
  | .ok s => (m.look s none, s)
  | .error fault => (m.look s (some fault), s)

/-- A step, and what is seen after it of the one that it is about. A copy comes behind all others. -/
def step (m : Medium σ) (all : List σ) : Step → Option Sight × List σ
  | .act k op =>
    match all[k]? with
    | none => (none, all)
    | some s => (some (m.act op s).1, all.set k (m.act op s).2)
  | .clone k =>
    match all[k]? with
    | none => (none, all)
    | some s => (some (m.look s none), all ++ [s])

/-- What is seen after each of the steps. -/
def sights (m : Medium σ) : List σ → List Step → List (Option Sight)
  | _, [] => []
  | all, next :: rest => (m.step all next).1 :: m.sights (m.step all next).2 rest

/-- One medium stands for another if each operation on the one is the operation on the other, and both
look the same. -/
structure StandsFor (n : Medium τ) (m : Medium σ) (f : σ → τ) : Prop where
  perform : ∀ op s, n.perform op (f s) = (m.perform op s).map f
  look : ∀ s, n.look (f s) = m.look s

namespace StandsFor

variable {n : Medium τ} {m : Medium σ} {f : σ → τ}

theorem act (stands : n.StandsFor m f) (op : Operation) (s : σ) :
    n.act op (f s) = ((m.act op s).1, f (m.act op s).2) := by
  unfold Medium.act
  rw [stands.perform]
  rcases m.perform op s with fault | s'
  · exact Prod.ext (congrFun (stands.look s) _) rfl
  · exact Prod.ext (congrFun (stands.look s') _) rfl

theorem step (stands : n.StandsFor m f) (all : List σ) (next : Step) :
    n.step (all.map f) next = ((m.step all next).1, (m.step all next).2.map f) := by
  cases next with
  | act k op =>
    simp only [Medium.step, List.getElem?_map]
    rcases all[k]? with _ | s
    · rfl
    · simp only [Option.map_some, stands.act, List.map_set]
  | clone k =>
    simp only [Medium.step, List.getElem?_map]
    rcases all[k]? with _ | s
    · rfl
    · simp only [Option.map_some, stands.look, List.map_append, List.map_cons, List.map_nil]

/-- After any steps the same is seen. -/
theorem sights (stands : n.StandsFor m f) (all : List σ) (steps : List Step) :
    n.sights (all.map f) steps = m.sights all steps := by
  induction steps generalizing all with
  | nil => rfl
  | cons next rest ih => simp only [Medium.sights, stands.step, ih]

end StandsFor

end Medium

/-! ## The tape of a buffer -/

/-- The storage of a buffer, with zeros behind it. -/
def tape (b : Buffer) : Tape := ⟨fun i => b.storage[i]?.getD 0, b.length⟩

theorem tape_withCapacity (capacity : Nat) : (withCapacity capacity).tape = Tape.blank := by
  apply Tape.ext
  · funext i
    show (Array.replicate (max capacity 1) (0 : UInt8))[i]?.getD 0 = 0
    rw [Array.getElem?_replicate]
    split <;> rfl
  · rfl

/-- The content is what is on the tape. -/
theorem content_tape (b : Buffer) : b.tape.content = b.content := by
  have stored := b.length_le
  apply List.ext_getElem?
  intro i
  rw [Tape.getElem?_content, getElem?_content]
  show (if i < b.length then some (b.storage[i]?.getD 0) else none) = _
  split
  · next inside =>
    have within : i < b.storage.size := by omega
    rw [Array.getElem?_eq_getElem within, Option.getD_some]
  · rfl

/-- Storage grows by zeros, which were on the tape before. -/
theorem getD_grow (storage : Array UInt8) (needed i : Nat) :
    (grow storage needed)[i]?.getD 0 = storage[i]?.getD 0 := by
  by_cases old : i < storage.size
  · rw [getElem?_grow _ _ _ old]
  · unfold grow
    split
    · rfl
    · rw [Array.getElem?_append_right (by omega), Array.getElem?_replicate,
        Array.getElem?_eq_none (by omega)]
      split <;> rfl

/-- Bytes that are written over stored ones are on the tape. -/
theorem getD_overwrite {storage : Array UInt8} {position : Nat} {bs : List UInt8}
    (fits : position + bs.length ≤ storage.size) (i : Nat) :
    (overwrite storage position bs)[i]?.getD 0 =
      if position ≤ i ∧ i < position + bs.length then bs.getD (i - position) 0
      else storage[i]?.getD 0 := by
  rw [getElem?_overwrite _ _ _ _ fits, List.getD_eq_getElem?_getD]
  split <;> rfl

theorem tape_append (b : Buffer) (bs : List UInt8) : (b.append bs).tape = b.tape.write bs := by
  have room := needed_le_size_grow b.storage (b.length + bs.length) b.storage_pos
  apply Tape.ext
  · funext i
    show (overwrite (grow b.storage (b.length + bs.length)) b.length bs)[i]?.getD 0 = _
    rw [getD_overwrite room, getD_grow]
    rfl
  · rfl

theorem tape_setLength (b : Buffer) (length : Nat) :
    (b.setLength length).tape = b.tape.setLength length := by
  apply Tape.ext
  · funext i
    exact getD_grow b.storage length i
  · rfl

theorem tape_set (b : Buffer) (position : Nat) (byte : UInt8) :
    b.tape.set position byte = (b.set position byte).map tape := by
  have stored := b.length_le
  show (if position < b.length then _ else _) = Except.map tape (if position < b.length then _ else _)
  by_cases inside : position < b.length
  · rw [if_pos inside, if_pos inside]
    refine congrArg Except.ok (Tape.ext ?_ rfl)
    funext i
    show (if i = position then byte else b.storage[i]?.getD 0) =
      (b.storage.setIfInBounds position byte)[i]?.getD 0
    rw [Array.getElem?_setIfInBounds]
    by_cases here : i = position
    · rw [if_pos here, if_pos here.symm, if_pos (by omega), Option.getD_some]
    · rw [if_neg here, if_neg (Ne.symm here)]
  · rw [if_neg inside, if_neg inside]
    rfl

theorem tape_shiftRight (b : Buffer) (position amount : Nat) :
    b.tape.shiftRight position amount = (b.shiftRight position amount).map tape := by
  have stored := b.length_le
  have room := needed_le_size_grow b.storage (b.length + amount) b.storage_pos
  show (if position ≤ b.length then _ else _) = Except.map tape (if position ≤ b.length then _ else _)
  by_cases inside : position ≤ b.length
  · rw [if_pos inside, if_pos inside]
    refine congrArg Except.ok (Tape.ext ?_ rfl)
    funext i
    have moved : (b.drop position).length = b.length - position := by
      rw [drop_eq_drop_content, List.length_drop, length_content]
    show (if position + amount ≤ i ∧ i < b.length + amount then b.storage[i - amount]?.getD 0
        else b.storage[i]?.getD 0) =
      (overwrite (grow b.storage (b.length + amount)) (position + amount) (b.drop position))[i]?.getD 0
    rw [getD_overwrite (by rw [moved]; omega), getD_grow, moved]
    by_cases new : position + amount ≤ i ∧ i < b.length + amount
    · -- what was moved here stood `amount` places to the left
      have origin : position + (i - (position + amount)) = i - amount := by omega
      rw [if_pos new, if_pos (by omega), List.getD_eq_getElem?_getD, drop_eq_drop_content,
        List.getElem?_drop, getElem?_content, origin, if_pos (by omega)]
    · rw [if_neg new, if_neg (by omega)]
  · rw [if_neg inside, if_neg inside]
    rfl

theorem tape_clear (b : Buffer) : b.clear.tape = b.tape.setLength 0 := rfl

/-- A write goes to the length of the tape. -/
theorem tape_write (w : Write) (b : Buffer) : (w.perform b).tape = b.tape.write w.written := by
  cases w with
  | push byte => exact tape_append b [byte]
  | append bs => exact tape_append b bs
  | zeroEnded s =>
    show ((b.append (utf8 s)).append [0]).tape = _
    rw [tape_append, tape_append, Tape.write_write]
    rfl
  | shown pieces =>
    show (pieces.foldl (fun b piece => b.append (utf8 piece)) b).tape = b.tape.write (pieces.flatMap utf8)
    induction pieces generalizing b with
    | nil => exact (Tape.write_nil b.tape).symm
    | cons piece rest ih => rw [List.foldl_cons, ih, tape_append, Tape.write_write, List.flatMap_cons]

/-- The tape of a buffer stands for the buffer. -/
theorem standsFor_tape : tapes.StandsFor medium tape where
  perform op b := by
    cases op with
    | write w => exact congrArg Except.ok (tape_write w b).symm
    | set position byte => exact tape_set b position byte
    | shiftRight position amount => exact tape_shiftRight b position amount
    | setLength length => exact congrArg Except.ok (tape_setLength b length).symm
    | clear => exact congrArg Except.ok (tape_clear b).symm
  look b := by
    show Sight.mk b.length (b.length = 0) b.tape.content = _
    rw [content_tape]
    rfl

/-! ## Writing in the middle -/

/-- The buffer after writes in a row. -/
def writeAll (b : Buffer) (ws : List Write) : Buffer := ws.foldl (fun b w => w.perform b) b

theorem tape_writeAll (b : Buffer) (ws : List Write) :
    (b.writeAll ws).tape = b.tape.write (ws.flatMap Write.written) := by
  induction ws generalizing b with
  | nil => exact (Tape.write_nil b.tape).symm
  | cons w rest ih =>
    show ((w.perform b).writeAll rest).tape = _
    rw [ih, tape_write, Tape.write_write, List.flatMap_cons]

/-- Writes with the length moved back, and then forward again, replace the bytes at their place. -/
theorem content_rewritten (b : Buffer) {position : Nat} {ws : List Write}
    (inside : position + (ws.flatMap Write.written).length ≤ b.length) :
    (((b.setLength position).writeAll ws).setLength b.length).content =
      b.content.take position ++ ws.flatMap Write.written ++
        b.content.drop (position + (ws.flatMap Write.written).length) := by
  have front : (b.content.take position).length = position := by
    rw [List.length_take, length_content]
    omega
  rw [← content_tape, tape_setLength, tape_writeAll, tape_setLength]
  apply List.ext_getElem?
  intro i
  rw [Tape.getElem?_content]
  show (if i < b.length then
    some (if position ≤ i ∧ i < position + (ws.flatMap Write.written).length then
      (ws.flatMap Write.written).getD (i - position) 0 else b.tape.cells i) else none) = _
  by_cases within : i < b.length
  · have here : b.content[i]? = some (b.tape.cells i) := by
      rw [← content_tape, Tape.getElem?_content]
      exact if_pos within
    rw [if_pos within]
    by_cases before : i < position
    · rw [if_neg (by omega), List.append_assoc, List.getElem?_append_left (by omega),
        List.getElem?_take_of_lt before, here]
    · by_cases behind : position + (ws.flatMap Write.written).length ≤ i
      · rw [if_neg (by omega), List.getElem?_append_right (by rw [List.length_append]; omega),
          List.length_append, front, List.getElem?_drop, Nat.add_sub_of_le behind, here]
      · rw [if_pos (by omega), List.append_assoc, List.getElem?_append_right (by omega), front,
          List.getElem?_append_left (by omega), List.getD_eq_getElem?_getD,
          List.getElem?_eq_getElem (by omega), Option.getD_some]
  · have outside : b.content.length ≤ i := by
      rw [length_content]
      omega
    rw [if_neg within, List.getElem?_append_right (by rw [List.length_append]; omega),
      List.length_append, front, List.getElem?_drop, Nat.add_sub_of_le (by omega),
      List.getElem?_eq_none outside]

/-- After any steps a client of a buffer sees what it would see of a tape, whatever storage the buffer
began with. Of buffers with the same tape it sees the same for ever. Bytes that are written with the
length moved back replace those at their place and no others. -/
theorem sights_withCapacity (capacity : Nat) (steps : List Step) :
    medium.sights [withCapacity capacity] steps = tapes.sights [Tape.blank] steps ∧
      (∀ bs cs : List Buffer, bs.map tape = cs.map tape → medium.sights bs steps = medium.sights cs steps) ∧
      ∀ (b : Buffer) (position : Nat) (ws : List Write),
        position + (ws.flatMap Write.written).length ≤ b.length →
        (((b.setLength position).writeAll ws).setLength b.length).content =
          b.content.take position ++ ws.flatMap Write.written ++
            b.content.drop (position + (ws.flatMap Write.written).length) := by
  refine ⟨?_, ?_, fun b position ws inside => b.content_rewritten inside⟩
  · rw [← standsFor_tape.sights, List.map_singleton, tape_withCapacity]
  · intro bs cs same
    rw [← standsFor_tape.sights bs, same, standsFor_tape.sights]

/-- A buffer of so much storage with the header of a compound in it. -/
def headed (capacity : Nat) : Buffer := (withCapacity capacity).append [13, 0, 11, 1, 102]

/-- A copy goes its own way: the one is shifted beyond its storage, and the other is too short to be set. -/
def parting : List Step := [.clone 0, .act 0 (.shiftRight 2 70), .act 1 (.set 9 0), .act 0 (.set 9 0)]

theorem sights_withCapacity_headed :
    [headed 1].map tape = [headed 100].map tape ∧
      medium.sights [headed 1] parting = medium.sights [headed 100] parting ∧
      1 + ([.append [0x81], .push 0].flatMap Write.written).length ≤ (headed 1).length ∧
      ((((headed 1).setLength 1).writeAll [.append [0x81], .push 0]).setLength (headed 1).length).content =
        [13, 0x81, 0, 1, 102] := by
  have tapeHeaded (capacity : Nat) : (headed capacity).tape = Tape.blank.write [13, 0, 11, 1, 102] := by
    rw [headed, tape_append, tape_withCapacity]
  have same : [headed 1].map tape = [headed 100].map tape := by
    rw [List.map_singleton, List.map_singleton, tapeHeaded, tapeHeaded]
  obtain ⟨-, independent, rewritten⟩ := sights_withCapacity 1 parting
  refine ⟨same, independent _ _ same, by decide, ?_⟩
  rw [rewritten (headed 1) 1 _ (by decide)]
  decide +kernel

end Buffer

end PrologWire
