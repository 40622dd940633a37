import PrologWire.Arena.Error

/-!
# Arenas

An arena keeps the texts and the parts of terms in two growing storages. Its epochs form a stack:
each owns the storage written since it began, and erasing one erases those above it too. The bottom
epoch can be emptied but never goes away.
-/

namespace PrologWire

/-- A live epoch: its name and where its share of the two storages begins. -/
structure Epoch where
  id : EpochId
  byteStart : Nat
  slotStart : Nat
deriving DecidableEq, Inhabited

/-- The storages of terms. -/
structure Arena where
  id : ArenaId
  /-- The live epochs, the oldest first. -/
  epochs : List Epoch
  epochs_ne_nil : epochs ≠ []
  /-- Texts and digits. -/
  bytes : ByteArray
  /-- Functors, arguments and elements. -/
  slots : Array Handle

namespace Arena

/-- How many epochs can be live at once. -/
def maxLiveEpochs : Nat := 8

/-- An arena with nothing in it, whose bottom epoch has the given name. -/
def create (id : ArenaId) (bottom : EpochId) : Arena where
  id := id
  epochs := [⟨bottom, 0, 0⟩]
  epochs_ne_nil := by simp
  bytes := ByteArray.empty
  slots := #[]

instance : Inhabited Arena := ⟨create ⟨0⟩ ⟨0⟩⟩

/-- The epoch in which terms are made. -/
def current (a : Arena) : Epoch := a.epochs.getLast a.epochs_ne_nil

/-- The epoch that never goes away. -/
def bottom (a : Arena) : Epoch := a.epochs.head a.epochs_ne_nil

/-! ## Epochs -/

/-- Begins a new epoch with the given name on top of the others. -/
def beginEpoch (a : Arena) (fresh : EpochId) : Except TermError Arena :=
  if a.epochs.length < maxLiveEpochs then
    .ok { a with
      epochs := a.epochs ++ [⟨fresh, a.bytes.size, a.slots.size⟩]
      epochs_ne_nil := by simp }
  else .error .liveEpochsExceeded

/-- Erases an epoch and those above it. The bottom epoch is emptied and stays. -/
def truncate (a : Arena) (id : EpochId) : Except TermError Arena :=
  match a.epochs.findIdx? (·.id = id) with
  | none => .error (.invalidEpoch id)
  | some i =>
    -- what was written before the epoch began stays
    let erased := a.epochs.getD i a.bottom
    .ok { a with
      epochs := a.epochs.take (max i 1)
      epochs_ne_nil := by
        have := a.epochs_ne_nil
        simp only [ne_eq, List.take_eq_nil_iff, this, or_false]
        omega
      bytes := a.bytes.extract 0 erased.byteStart
      slots := a.slots.extract 0 erased.slotStart }

/-- Erases the current epoch. -/
def truncateCurrent (a : Arena) : Except TermError Arena := a.truncate a.current.id

/-- Erases everything. -/
def clear (a : Arena) : Except TermError Arena := a.truncate a.bottom.id

/-! ## Look-up -/

/-- Where the share of an epoch begins and ends in a storage of `size` entries: it ends where the
next epoch begins. -/
def shareOf? (start : Epoch → Nat) (size : Nat) (id : EpochId) : List Epoch → Option (Nat × Nat)
  | [] => none
  | e :: above =>
    if e.id = id then some (start e, (above.head?.map start).getD size)
    else shareOf? start size id above

/-- Why a stretch of storage cannot be given. -/
inductive SliceFault where
  /-- Its epoch is not live, or does not own it. -/
  | stale
  /-- The sum of its offset and its length does not fit in 32 bits. -/
  | overflow
deriving DecidableEq

/-- The first offset of a stretch of storage and the offset behind it, if its epoch is live and
owns it. -/
def locate (a : Arena) (start : Epoch → Nat) (size : Nat) (s : Slice) :
    Except SliceFault (Nat × Nat) :=
  match shareOf? start size s.epoch a.epochs with
  | none => .error .stale
  | some (first, last) =>
    if s.start.toNat < first ∨ last < s.start.toNat + s.length.toNat then .error .stale
    else if s.start.toNat + s.length.toNat < UInt32.size then
      .ok (s.start.toNat, s.start.toNat + s.length.toNat)
    else .error .overflow

/-- The bytes of a stretch of the byte storage. -/
def bytesAt (a : Arena) (s : Slice) : Except SliceFault ByteArray :=
  (a.locate (·.byteStart) a.bytes.size s).map fun r => a.bytes.extract r.1 r.2

/-- The handles of a stretch of the slot storage. -/
def slotsAt (a : Arena) (s : Slice) : Except SliceFault (List Handle) :=
  (a.locate (·.slotStart) a.slots.size s).map fun r => (a.slots.extract r.1 r.2).toList

/-! ## Appending -/

/-- The stretch of the current epoch between two offsets, of which the last 32 bits are kept. If the
storage was cut below the first one in between, the difference of the two wraps. -/
def sliceBetween (a : Arena) (start stop : Nat) : Slice :=
  ⟨a.current.id, UInt32.ofNat start, UInt32.ofNat stop - UInt32.ofNat start⟩

/-- The length of a stretch between two offsets in order. -/
theorem length_sliceBetween (a : Arena) {start stop : Nat} (order : start ≤ stop) :
    (a.sliceBetween start stop).length = UInt32.ofNat (stop - start) :=
  (UInt32.ofNat_sub order).symm

/-- Appends a text to the byte storage. -/
def appendText (a : Arena) (text : String) : Slice × Arena :=
  (a.sliceBetween a.bytes.size (a.bytes.size + text.utf8ByteSize),
    { a with bytes := a.bytes ++ text.toUTF8 })

/-- Appends a handle to the slot storage. -/
def pushSlot (a : Arena) (h : Handle) : Arena := { a with slots := a.slots.push h }

end Arena

end PrologWire
