import PrologWire.Wire.Buffer
import PrologWire.Wire.Sink

/-!
# The contents of buffers and sinks as lists

What the operations of a buffer do to its content, stated on lists, on which the bytes of a sentence
are put together, and what a sink that accepts everything has received.
-/

namespace PrologWire

namespace Buffer

/-- The content in order. -/
def content (b : Buffer) : List UInt8 := b.bytes.toList

@[simp] theorem length_content (b : Buffer) : b.content.length = b.length := by
  rw [content, Array.length_toList, size_bytes]

@[simp] theorem content_empty : empty.content = [] := by rw [content, bytes_empty]

@[simp] theorem content_clear (b : Buffer) : b.clear.content = [] := by rw [content, bytes_clear]

@[simp] theorem content_append (b : Buffer) (bs : List UInt8) :
    (b.append bs).content = b.content ++ bs := by
  simp [content]

/-- A buffer is empty if it has no content. -/
theorem isEmpty_iff_content (b : Buffer) : b.isEmpty = true ↔ b.content = [] := by
  rw [isEmpty, decide_eq_true_eq, ← length_content, List.length_eq_zero_iff]

/-- A position inside the content parts it. -/
theorem exists_content_eq {b : Buffer} {position : Nat} (inside : position < b.length) :
    ∃ front old back, b.content = front ++ old :: back ∧ front.length = position := by
  have here : position < b.content.length := by rwa [length_content]
  refine ⟨b.content.take position, b.content[position], b.content.drop (position + 1), ?_, ?_⟩
  · rw [List.getElem_cons_drop, List.take_append_drop]
  · exact List.length_take_of_le (Nat.le_of_lt here)

/-- A byte between two stretches of the content is replaced, and these stay. -/
theorem content_replace {b : Buffer} {front back : List UInt8} {old : UInt8}
    (h : b.content = front ++ old :: back) (byte : UInt8) :
    (b.replace front.length byte).content = front ++ byte :: back := by
  have inside : front.length < b.length := by
    rw [← length_content, h, List.length_append, List.length_cons]
    omega
  rw [content, bytes_replace inside, Array.toList_setIfInBounds, ← content, h,
    List.set_append_right _ _ (Nat.le_refl _), Nat.sub_self, List.set_cons_zero]

/-- The content from a position on. -/
theorem drop_eq_drop_content (b : Buffer) (position : Nat) :
    b.drop position = b.content.drop position := by
  rw [drop_eq_extract, content, Array.toList_extract, List.extract_eq_take_drop]
  have all : (b.bytes.toList.drop position).length = b.length - position := by
    rw [List.length_drop, Array.length_toList, size_bytes]
  exact List.take_of_length_le (Nat.le_of_eq all)

/-- A smaller length cuts the content off. -/
theorem content_setLength {b : Buffer} {front back : List UInt8}
    (h : b.content = front ++ back) : (b.setLength front.length).content = front := by
  have shorter : front.length ≤ b.length := by
    rw [← length_content, h, List.length_append]
    omega
  rw [content, bytes_setLength_of_le b _ shorter, Array.toList_extract, ← content, h,
    List.extract_eq_take_drop, List.drop_zero, Nat.sub_zero, List.take_left]

/-! ## Content in storage -/

/-- The content is what the storage holds up to the length. -/
theorem getElem?_content (b : Buffer) (i : Nat) :
    b.content[i]? = if i < b.length then b.storage[i]? else none := by
  rw [content, Array.getElem?_toList, getElem?_bytes]

/-- Storage that is large enough does not grow. -/
theorem grow_of_le {storage : Array UInt8} {needed : Nat} (h : needed ≤ storage.size) :
    grow storage needed = storage := if_pos h

/-- Moving content to the right keeps it in storage, before the gap and behind it. -/
theorem getElem?_storage_widen {b : Buffer} {front back : List UInt8} {old : UInt8}
    (h : b.content = front ++ old :: back) (amount i : Nat) :
    (i < front.length → (b.widen (front.length + 1) amount).storage[i]? = front[i]?) ∧
    (i < back.length →
      (b.widen (front.length + 1) amount).storage[front.length + 1 + amount + i]? = back[i]?) := by
  have moved : b.drop (front.length + 1) = back := by
    rw [drop_eq_drop_content, h, ← List.singleton_append, ← List.append_assoc]
    exact List.drop_left' (by simp)
  have whole : b.length = front.length + 1 + back.length := by
    rw [← length_content, h, List.length_append, List.length_cons]
    omega
  have room := needed_le_size_grow b.storage (b.length + amount) b.storage_pos
  have stored (j : Nat) : (b.widen (front.length + 1) amount).storage[j]? =
      if front.length + 1 + amount ≤ j ∧ j < front.length + 1 + amount + back.length then
        back[j - (front.length + 1 + amount)]?
      else (grow b.storage (b.length + amount))[j]? := by
    show (overwrite (grow b.storage (b.length + amount)) (front.length + 1 + amount)
      (b.drop (front.length + 1)))[j]? = _
    rw [moved]
    exact getElem?_overwrite _ _ _ _ (by omega)
  constructor
  · intro before
    have known := b.getElem?_content i
    rw [if_pos (by omega), h, List.getElem?_append_left before] at known
    rw [stored, if_neg (by omega), getElem?_grow _ _ _ (by have := b.length_le; omega), known]
  · intro behind
    rw [stored, if_pos (by omega), Nat.add_sub_cancel_left]

/-- Bytes written into the gap fill it: what comes before it stays, and the length goes back to the
end of what was moved. -/
theorem content_fill {b : Buffer} {front back bytes : List UInt8}
    (before : ∀ i < front.length, b.storage[i]? = front[i]?)
    (behind : ∀ i < back.length, b.storage[front.length + bytes.length + i]? = back[i]?)
    (whole : b.length = front.length + bytes.length + back.length) :
    (((b.setLength front.length).append bytes).setLength b.length).content =
      front ++ bytes ++ back := by
  have size := b.length_le
  have storage : (((b.setLength front.length).append bytes).setLength b.length).storage =
      overwrite b.storage front.length bytes := by
    show grow (overwrite (grow (grow b.storage front.length) (front.length + bytes.length))
      front.length bytes) b.length = _
    rw [grow_of_le (show front.length ≤ b.storage.size by omega),
      grow_of_le (show front.length + bytes.length ≤ b.storage.size by omega),
      grow_of_le (by rwa [size_overwrite])]
  apply List.ext_getElem?
  intro i
  rw [getElem?_content, storage, getElem?_overwrite _ _ _ _ (by omega)]
  show (if i < b.length then _ else _) = _
  by_cases inFront : i < front.length
  · rw [if_pos (by omega), if_neg (by omega), before i inFront, List.append_assoc,
      List.getElem?_append_left inFront]
  · by_cases inBytes : i < front.length + bytes.length
    · rw [if_pos (by omega), if_pos (by omega), List.append_assoc,
        List.getElem?_append_right (by omega), List.getElem?_append_left (by omega)]
    · rw [List.getElem?_append_right (by rw [List.length_append]; omega), List.length_append]
      by_cases inBack : i < b.length
      · have last := behind (i - (front.length + bytes.length)) (by omega)
        rw [Nat.add_sub_of_le (by omega)] at last
        rw [if_pos inBack, if_neg (by omega), last]
      · rw [if_neg inBack, List.getElem?_eq_none (by omega)]

end Buffer

namespace Sink

/-- The bytes received, in order. -/
def content (s : Sink) : List UInt8 := s.written.toList

/-- All bytes of a complete write fit. -/
theorem fitting_eq_self {s : Sink} {bs : Array UInt8} (complete : (s.write bs).1 = true) :
    s.fitting bs = bs := by
  rw [write, decide_eq_true_eq, fitting] at complete
  rw [fitting]
  rcases bound : s.room with _ | room
  · rfl
  · rw [bound] at complete
    dsimp only at complete
    rw [Array.size_extract] at complete
    exact Array.extract_eq_self_of_le (by omega)

/-- A write that was complete brought all of its bytes. -/
theorem content_of_write {s s' : Sink} {bs : Array UInt8} (h : s.write bs = (true, s')) :
    s'.content = s.content ++ bs.toList := by
  have all : s.fitting bs = bs := fitting_eq_self (congrArg Prod.fst h)
  obtain rfl : (s.write bs).2 = s' := congrArg Prod.snd h
  show (s.written ++ s.fitting bs).toList = _
  rw [all, Array.toList_append]
  rfl

@[simp] theorem content_flush (s : Sink) : s.flush.2.content = s.content := by
  unfold flush
  split <;> rfl

/-- The sink, taking everything from here on. -/
def unbounded (s : Sink) : Sink := { s with room := none, failsFlush := false }

/-- A complete write is as good on a sink that takes everything. -/
theorem write_unbounded {s : Sink} {bs : Array UInt8} (complete : (s.write bs).1 = true) :
    s.unbounded.write bs = (true, (s.write bs).2.unbounded) := by
  rw [write_of_room_eq_none _ _ rfl, Prod.mk.injEq]
  refine ⟨rfl, ?_⟩
  show _ = { (s.write bs).2 with room := none, failsFlush := false }
  rw [write, fitting_eq_self complete]
  rfl

/-- So is a flush that succeeded. -/
theorem flush_unbounded {s : Sink} (flushed : s.flush.1 = true) :
    s.unbounded.flush = (true, s.flush.2.unbounded) := by
  unfold flush at flushed ⊢
  split at flushed
  · cases flushed
  · next possible =>
    rw [if_neg possible]
    rfl

/-- The sink takes every byte and can be flushed. -/
structure Accepting (s : Sink) : Prop where
  room : s.room = none
  flushes : s.failsFlush = false

/-- Without a bound and a fault a sink takes everything. -/
theorem accepting_unlimited : unlimited.Accepting := ⟨rfl, rfl⟩

theorem accepting_unbounded (s : Sink) : s.unbounded.Accepting := ⟨rfl, rfl⟩

namespace Accepting

variable {s : Sink}

/-- Every write arrives whole. -/
theorem write (h : s.Accepting) (bs : Array UInt8) :
    ∃ s', s.write bs = (true, s') ∧ s'.content = s.content ++ bs.toList ∧ s'.Accepting := by
  refine ⟨_, s.write_of_room_eq_none bs h.room, ?_, ⟨h.room, h.flushes⟩⟩
  rw [content, Array.toList_append]
  rfl

/-- Every flush succeeds. -/
theorem flush (h : s.Accepting) :
    ∃ s', s.flush = (true, s') ∧ s'.content = s.content ∧ s'.Accepting := by
  refine ⟨{ s with flushes := s.flushes + 1 }, ?_, rfl, ⟨h.room, h.flushes⟩⟩
  rw [Sink.flush, h.flushes]
  rfl

/-- A sink that takes everything does so after a write. -/
theorem after_write (h : s.Accepting) (bs : Array UInt8) : (s.write bs).2.Accepting := by
  obtain ⟨s', eq, -, accepts⟩ := h.write bs
  rw [eq]
  exact accepts

/-- A sink that takes everything does so after a flush. -/
theorem after_flush (h : s.Accepting) : s.flush.2.Accepting := by
  obtain ⟨s', eq, -, accepts⟩ := h.flush
  rw [eq]
  exact accepts

end Accepting

end Sink

end PrologWire
