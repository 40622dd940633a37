/-!
# A byte buffer that can be patched

Encoders append to a buffer and come back later to bytes whose value was not known yet. The bytes
up to the length are the content. The storage behind them grows by doubling, starts as zeros, and
keeps what was written to it when the length is moved back, so that the length can be moved forward
again over the same bytes.
-/

namespace PrologWire

/-- Bytes in storage, and how many of them are content. -/
structure Buffer where
  storage : Array UInt8
  length : Nat
  length_le : length ≤ storage.size
  storage_pos : 0 < storage.size

namespace Buffer

/-- A position outside the content was given to an operation on the content. -/
inductive Fault where
  | setBeyond (position length : Nat)
  | shiftBeyond (position length : Nat)
deriving DecidableEq, Repr

/-- The wording of a fault. -/
def Fault.message : Fault → String
  | setBeyond position length => s!"set at {position} beyond length {length}"
  | shiftBeyond position length => s!"shift at {position} beyond length {length}"

/-- An empty buffer with storage for `capacity` bytes, one at least. -/
def withCapacity (capacity : Nat) : Buffer where
  storage := Array.replicate (max capacity 1) 0
  length := 0
  length_le := Nat.zero_le _
  storage_pos := by rw [Array.size_replicate]; omega

/-- An empty buffer with storage for 64 bytes. -/
def empty : Buffer := withCapacity 64

instance : Inhabited Buffer := ⟨empty⟩

/-- The content. -/
def bytes (b : Buffer) : Array UInt8 := b.storage.extract 0 b.length

/-- There is no content. -/
def isEmpty (b : Buffer) : Bool := b.length = 0

/-! ## Storage -/

/-- The first of `capacity`, `2 * capacity`, `4 * capacity`, … that is at least `needed`. -/
def doubledTo (capacity needed : Nat) : Nat :=
  if needed ≤ capacity ∨ capacity = 0 then capacity
  else doubledTo (2 * capacity) needed
termination_by needed - capacity

/-- Doubling goes on until there is room. -/
theorem le_doubledTo (capacity needed : Nat) (h : 0 < capacity) :
    needed ≤ doubledTo capacity needed := by
  fun_induction doubledTo capacity needed with
  | case1 capacity done => omega
  | case2 capacity more ih => exact ih (by omega)

/-- Doubling never shrinks. -/
theorem self_le_doubledTo (capacity needed : Nat) : capacity ≤ doubledTo capacity needed := by
  fun_induction doubledTo capacity needed with
  | case1 => exact Nat.le_refl _
  | case2 capacity more ih => omega

/-- Makes the storage hold `needed` bytes at least, with zeros in the new places. -/
def grow (storage : Array UInt8) (needed : Nat) : Array UInt8 :=
  if needed ≤ storage.size then storage
  else storage ++ Array.replicate (doubledTo storage.size needed - storage.size) 0

/-- Storage that has grown holds what was needed. -/
theorem needed_le_size_grow (storage : Array UInt8) (needed : Nat) (h : 0 < storage.size) :
    needed ≤ (grow storage needed).size := by
  have := le_doubledTo storage.size needed h
  have := self_le_doubledTo storage.size needed
  grind [grow]

/-- Growing never shrinks. -/
theorem size_le_size_grow (storage : Array UInt8) (needed : Nat) :
    storage.size ≤ (grow storage needed).size := by
  grind [grow]

/-- Growing keeps what is stored. -/
theorem getElem?_grow (storage : Array UInt8) (needed i : Nat) (h : i < storage.size) :
    (grow storage needed)[i]? = storage[i]? := by
  unfold grow
  split
  · rfl
  · rw [Array.getElem?_append_left h]

/-- Overwrites places of the storage from `position` on with the given bytes. -/
def overwrite (storage : Array UInt8) (position : Nat) : List UInt8 → Array UInt8
  | [] => storage
  | byte :: rest => overwrite (storage.setIfInBounds position byte) (position + 1) rest

@[simp] theorem size_overwrite (storage : Array UInt8) (position : Nat) (bs : List UInt8) :
    (overwrite storage position bs).size = storage.size := by
  induction bs generalizing storage position with
  | nil => rfl
  | cons byte rest ih => simp [overwrite, ih]

/-- Overwriting changes the places of the given bytes and no others. -/
theorem getElem?_overwrite (storage : Array UInt8) (position : Nat) (bs : List UInt8) (i : Nat)
    (h : position + bs.length ≤ storage.size) :
    (overwrite storage position bs)[i]? =
      if position ≤ i ∧ i < position + bs.length then bs[i - position]? else storage[i]? := by
  induction bs generalizing storage position with
  | nil =>
    rw [overwrite, if_neg]
    rw [List.length_nil]
    omega
  | cons byte rest ih =>
    rw [List.length_cons] at h ⊢
    have fits : position + 1 + rest.length ≤ (storage.setIfInBounds position byte).size := by
      rw [Array.size_setIfInBounds]
      omega
    rw [overwrite, ih _ _ fits, Array.getElem?_setIfInBounds]
    rcases Nat.lt_trichotomy i position with before | here | behind
    · rw [if_neg (by omega), if_neg (by omega), if_neg (by omega)]
    · subst here
      rw [if_neg (by omega), if_pos rfl, if_pos (by omega), if_pos (by omega), Nat.sub_self,
        List.getElem?_cons_zero]
    · have step : i - position = (i - (position + 1)) + 1 := by omega
      rw [step, List.getElem?_cons_succ]
      by_cases inside : i < position + 1 + rest.length
      · rw [if_pos (by omega), if_pos (by omega)]
      · rw [if_neg (by omega), if_neg (by omega), if_neg (by omega)]

/-! ## Operations on the content -/

/-- Appends bytes to the content. -/
def append (b : Buffer) (bs : List UInt8) : Buffer :=
  let grown := grow b.storage (b.length + bs.length)
  { storage := overwrite grown b.length bs
    length := b.length + bs.length
    length_le := by
      have := needed_le_size_grow b.storage (b.length + bs.length) b.storage_pos
      simpa [grown] using this
    storage_pos := by
      have := size_le_size_grow b.storage (b.length + bs.length)
      have := b.storage_pos
      simp only [size_overwrite, grown]
      omega }

/-- Appends one byte to the content. -/
def push (b : Buffer) (byte : UInt8) : Buffer := b.append [byte]

/-- Replaces the byte at a position of the content. -/
def replace (b : Buffer) (position : Nat) (byte : UInt8) : Buffer :=
  { b with
    storage := b.storage.setIfInBounds position byte
    length_le := by simpa using b.length_le
    storage_pos := by simpa using b.storage_pos }

/-- Replaces one byte of the content. -/
def set (b : Buffer) (position : Nat) (byte : UInt8) : Except Fault Buffer :=
  if position < b.length then .ok (b.replace position byte)
  else .error (.setBeyond position b.length)

/-- Moves the length. Bytes behind a smaller length stay in storage. -/
def setLength (b : Buffer) (length : Nat) : Buffer where
  storage := grow b.storage length
  length := length
  length_le := needed_le_size_grow b.storage length b.storage_pos
  storage_pos := by
    have := size_le_size_grow b.storage length
    have := b.storage_pos
    omega

/-- The content from a position on. -/
def drop (b : Buffer) (position : Nat) : List UInt8 :=
  (b.storage.extract position b.length).toList

/-- Moves the content from a position inside it on `amount` places to the right. The vacated places
keep their bytes. -/
def widen (b : Buffer) (position amount : Nat) : Buffer :=
  let moved := b.drop position
  let longer := b.setLength (b.length + amount)
  { longer with
    storage := overwrite longer.storage (position + amount) moved
    length_le := by simpa using longer.length_le
    storage_pos := by simpa using longer.storage_pos }

/-- Moves the content from `position` on `amount` places to the right. -/
def shiftRight (b : Buffer) (position amount : Nat) : Except Fault Buffer :=
  if position ≤ b.length then .ok (b.widen position amount)
  else .error (.shiftBeyond position b.length)

/-- Forgets the content; the storage stays. -/
def clear (b : Buffer) : Buffer := { b with length := 0, length_le := Nat.zero_le _ }

/-! ## What the operations do to the content -/

@[simp] theorem bytes_empty : empty.bytes = #[] := by
  simp [bytes, empty, withCapacity]

@[simp] theorem size_bytes (b : Buffer) : b.bytes.size = b.length := by
  rw [bytes, Array.size_extract, Nat.min_eq_left b.length_le, Nat.sub_zero]

/-- The content is the storage up to the length. -/
theorem getElem?_bytes (b : Buffer) (i : Nat) :
    b.bytes[i]? = if i < b.length then b.storage[i]? else none := by
  rw [bytes, Array.getElem?_extract, Nat.min_eq_left b.length_le, Nat.sub_zero, Nat.zero_add]

/-- Appended bytes stand behind the content, whatever the storage held there. -/
@[simp] theorem bytes_append (b : Buffer) (bs : List UInt8) :
    (b.append bs).bytes = b.bytes ++ bs.toArray := by
  have room := needed_le_size_grow b.storage (b.length + bs.length) b.storage_pos
  have stored := b.length_le
  apply Array.ext_getElem?
  intro i
  have after : (b.append bs).bytes[i]? =
      if i < b.length + bs.length then
        (overwrite (grow b.storage (b.length + bs.length)) b.length bs)[i]?
      else none := getElem?_bytes (b.append bs) i
  rw [after, getElem?_overwrite _ _ _ _ room, Array.getElem?_append, size_bytes]
  by_cases old : i < b.length
  · rw [if_pos (by omega), if_neg (by omega), if_pos old, getElem?_grow _ _ _ (by omega),
      getElem?_bytes, if_pos old]
  · have tail : bs.toArray[i - b.length]? = bs[i - b.length]? := List.getElem?_toArray
    rw [if_neg old, tail]
    by_cases inside : i < b.length + bs.length
    · rw [if_pos inside, if_pos (by omega)]
    · rw [if_neg inside, List.getElem?_eq_none (by omega)]

@[simp] theorem bytes_clear (b : Buffer) : b.clear.bytes = #[] := by simp [bytes, clear]

/-- Replacing a byte of the content changes that byte alone. -/
theorem bytes_replace {b : Buffer} {position : Nat} (inside : position < b.length) (byte : UInt8) :
    (b.replace position byte).bytes = b.bytes.setIfInBounds position byte := by
  have stored := b.length_le
  have after (i : Nat) : (b.replace position byte).bytes[i]? =
      if i < b.length then (b.storage.setIfInBounds position byte)[i]? else none :=
    getElem?_bytes (b.replace position byte) i
  apply Array.ext_getElem?
  intro i
  rw [after, Array.getElem?_setIfInBounds, Array.getElem?_setIfInBounds, size_bytes,
    getElem?_bytes]
  by_cases here : position = i
  · subst here
    rw [if_pos inside, if_pos rfl, if_pos (by omega), if_pos rfl, if_pos inside]
  · rw [if_neg here, if_neg here]

/-- Setting a byte changes that byte alone. -/
theorem bytes_set {b b' : Buffer} {position : Nat} {byte : UInt8}
    (h : b.set position byte = .ok b') : b'.bytes = b.bytes.setIfInBounds position byte := by
  unfold set at h
  split at h
  · next inside =>
    obtain rfl := Except.ok.inj h
    exact bytes_replace inside byte
  · cases h

/-- The content from a position on is cut from the content. -/
theorem drop_eq_extract (b : Buffer) (position : Nat) :
    b.drop position = (b.bytes.extract position b.length).toList := by
  rw [drop, bytes, Array.extract_extract, Nat.zero_add, Nat.zero_add, Nat.min_self]

/-- A smaller length cuts the content off. -/
theorem bytes_setLength_of_le (b : Buffer) (length : Nat) (h : length ≤ b.length) :
    (b.setLength length).bytes = b.bytes.extract 0 length := by
  have := b.length_le
  have : length ≤ b.storage.size := by omega
  simp [bytes, setLength, grow, this, h]

end Buffer

end PrologWire
