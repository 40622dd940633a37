import PrologWire.Arena.Basic

/-!
# Epochs in arrays of fixed length

The live epochs of an arena can be kept in arrays that never grow, one for their names and one for the
starts of their shares in each storage, with the place of the current epoch. Behind that place is what was
left over by epochs that were erased, and it is never looked at. `live` has the epochs that such a table
stands for, and `toArena` the arena. The operations on epochs and the look-up of stretches are those of that
arena, so that tables and lists go on to stand for each other whatever is done.
-/

namespace PrologWire

open Arena (maxLiveEpochs)

/-- Live epochs in arrays of fixed length. -/
structure EpochTable where
  current : Fin maxLiveEpochs
  ids : Vector EpochId maxLiveEpochs
  byteStarts : Vector Nat maxLiveEpochs
  slotStarts : Vector Nat maxLiveEpochs

namespace EpochTable

/-- One epoch in a table of zeros. -/
def create (bottom : EpochId) : EpochTable where
  current := ⟨0, by decide⟩
  ids := (Vector.replicate maxLiveEpochs ⟨0⟩).set 0 bottom (by decide)
  byteStarts := Vector.replicate maxLiveEpochs 0
  slotStarts := Vector.replicate maxLiveEpochs 0

/-- The places up to that of the current epoch. -/
def places (t : EpochTable) : List (Fin maxLiveEpochs) :=
  (List.finRange maxLiveEpochs).take (t.current + 1)

/-- Puts a new epoch behind the current one, if there is a place for it. -/
def push? (t : EpochTable) (fresh : EpochId) (byteStart slotStart : Nat) : Option EpochTable :=
  if room : t.current.val + 1 < maxLiveEpochs then
    some {
      current := ⟨t.current.val + 1, room⟩
      ids := t.ids.set (t.current.val + 1) fresh room
      byteStarts := t.byteStarts.set (t.current.val + 1) byteStart room
      slotStarts := t.slotStarts.set (t.current.val + 1) slotStart room }
  else none

/-- The place of a live epoch. -/
def place? (t : EpochTable) (id : EpochId) : Option (Fin maxLiveEpochs) :=
  t.places.find? fun i => t.ids[i] = id

/-- Makes the epoch below a place the current one, or the bottom epoch if there is none below. -/
def popTo (t : EpochTable) (i : Fin maxLiveEpochs) : EpochTable :=
  { t with current := ⟨i.val - 1, Nat.lt_of_le_of_lt (Nat.sub_le _ _) i.isLt⟩ }

/-- Where the share of a live epoch begins and ends in a storage of `size` entries: the current one has the
rest, and any other ends where the next begins. -/
def share (t : EpochTable) (starts : Vector Nat maxLiveEpochs) (size : Nat) (i : Fin maxLiveEpochs) :
    Nat × Nat :=
  (starts[i], if below : i < t.current then starts.get ⟨i.val + 1, by omega⟩ else size)

/-! ## The epochs of a table -/

/-- The epoch at a place. -/
def entry (t : EpochTable) (i : Fin maxLiveEpochs) : Epoch := ⟨t.ids[i], t.byteStarts[i], t.slotStarts[i]⟩

/-- The live epochs, the oldest first. -/
def live (t : EpochTable) : List Epoch := t.places.map t.entry

theorem length_places (t : EpochTable) : t.places.length = t.current.val + 1 := by
  rw [places, List.length_take, List.length_finRange]
  omega

theorem length_live (t : EpochTable) : t.live.length = t.current.val + 1 := by
  rw [live, List.length_map, length_places]

theorem live_ne_nil (t : EpochTable) : t.live ≠ [] := by
  rw [← List.length_pos_iff, length_live]
  exact Nat.succ_pos _

theorem getElem_places (t : EpochTable) {j : Nat} (inside : j < t.places.length) :
    (t.places[j]).val = j := by
  simp [places]

/-- At a place up to that of the current epoch is its epoch, and there is nothing behind. -/
theorem getElem?_live (t : EpochTable) (i : Fin maxLiveEpochs) :
    t.live[i.val]? = if i ≤ t.current then some (t.entry i) else none := by
  rw [live, List.getElem?_map]
  split
  · next inside =>
    have bound : i.val < t.places.length := by
      rw [length_places]
      omega
    rw [List.getElem?_eq_getElem bound, Option.map_some]
    exact congrArg (some ∘ t.entry) (Fin.ext (t.getElem_places bound))
  · next behind =>
    rw [List.getElem?_eq_none (by rw [length_places]; omega)]
    rfl

theorem le_current_of_mem_places {t : EpochTable} {i : Fin maxLiveEpochs} (among : i ∈ t.places) :
    i ≤ t.current := by
  obtain ⟨j, inside, rfl⟩ := List.mem_iff_getElem.mp among
  have value := t.getElem_places inside
  rw [length_places] at inside
  omega

/-- The place of an epoch is its place in the list. -/
theorem findIdx?_live (t : EpochTable) (id : EpochId) :
    t.live.findIdx? (·.id = id) = (t.place? id).map Fin.val := by
  rw [live, List.findIdx?_map, place?, List.findIdx?_eq_map_findFinIdx?_val,
    List.find?_eq_map_findFinIdx?_getElem, Option.map_map]
  refine congrArg (Option.map · _) (funext fun j => ?_)
  exact (t.getElem_places j.isLt).symm

theorem live_create (bottom : EpochId) : (create bottom).live = [⟨bottom, 0, 0⟩] := rfl

/-- A new epoch comes last. -/
theorem live_push? {t u : EpochTable} {fresh : EpochId} {byteStart slotStart : Nat}
    (pushed : t.push? fresh byteStart slotStart = some u) :
    u.live = t.live ++ [⟨fresh, byteStart, slotStart⟩] := by
  rw [push?] at pushed
  split at pushed
  · next room =>
    obtain rfl := Option.some.inj pushed
    have last : (List.finRange maxLiveEpochs)[t.current.val + 1]? = some ⟨t.current.val + 1, room⟩ := by
      simp [room]
    rw [live, places, List.take_add_one, last, Option.toList_some, List.map_append]
    congr 1
    · -- in front of the new place the entries are the same
      refine List.map_congr_left fun i among => ?_
      have before : t.current.val + 1 ≠ i.val := by
        have := le_current_of_mem_places (t := t) among
        omega
      simp only [entry, Fin.getElem_fin, Vector.getElem_set_ne _ _ before]
    · simp only [entry, Fin.getElem_fin, Vector.getElem_set_self, List.map_cons, List.map_nil]
  · cases pushed

/-- There is room for a new epoch as long as fewer are live than can be. -/
theorem push?_eq_none_iff (t : EpochTable) (fresh : EpochId) (byteStart slotStart : Nat) :
    t.push? fresh byteStart slotStart = none ↔ ¬t.live.length < maxLiveEpochs := by
  rw [length_live, push?]
  split <;> simp [*]

/-- Erasing epochs leaves those below, and the bottom epoch at least. -/
theorem live_popTo {t : EpochTable} {i : Fin maxLiveEpochs} (inside : i ≤ t.current) :
    (t.popTo i).live = t.live.take (max i.val 1) := by
  have kept : min (max i.val 1) (t.current.val + 1) = i.val - 1 + 1 := by omega
  rw [live, live, ← List.map_take, places, places, List.take_take, kept]
  rfl

end EpochTable

/-! ## Look-up in a list -/

/-- The share of an epoch by its place in the list. -/
theorem Arena.shareOf?_eq_findIdx? (start : Epoch → Nat) (size : Nat) (id : EpochId) (epochs : List Epoch) :
    shareOf? start size id epochs = (epochs.findIdx? (·.id = id)).bind fun i =>
      epochs[i]?.map fun e => (start e, (epochs[i + 1]?.map start).getD size) := by
  induction epochs with
  | nil => rfl
  | cons e above ih =>
    rw [shareOf?, List.findIdx?_cons]
    by_cases same : e.id = id
    · rw [if_pos same, if_pos (decide_eq_true same), List.head?_eq_getElem?]
      rfl
    · rw [if_neg same, if_neg (by simpa using same), ih]
      cases above.findIdx? (·.id = id) <;> rfl

/-! ## Arenas with a table -/

/-- The storages of terms, with the epochs in a table. -/
structure TabledArena where
  id : ArenaId
  table : EpochTable
  bytes : ByteArray
  slots : Array Handle

namespace TabledArena

/-- An arena with nothing in it. -/
def create (id : ArenaId) (bottom : EpochId) : TabledArena := ⟨id, .create bottom, .empty, #[]⟩

/-- Begins a new epoch on top of the others. -/
def beginEpoch (x : TabledArena) (fresh : EpochId) : Except TermError TabledArena :=
  match x.table.push? fresh x.bytes.size x.slots.size with
  | none => .error .liveEpochsExceeded
  | some table => .ok { x with table := table }

/-- Erases an epoch and those above it. -/
def truncate (x : TabledArena) (id : EpochId) : Except TermError TabledArena :=
  match x.table.place? id with
  | none => .error (.invalidEpoch id)
  | some i =>
    .ok { x with
      table := x.table.popTo i
      bytes := x.bytes.extract 0 x.table.byteStarts[i]
      slots := x.slots.extract 0 x.table.slotStarts[i] }

/-- Erases the current epoch. -/
def truncateCurrent (x : TabledArena) : Except TermError TabledArena :=
  x.truncate x.table.ids[x.table.current]

/-- Erases everything. -/
def clear (x : TabledArena) : Except TermError TabledArena := x.truncate x.table.ids[0]

/-- Where a stretch of storage is, if its epoch is live and owns it. -/
def locate (x : TabledArena) (starts : Vector Nat maxLiveEpochs) (size : Nat) (s : Slice) :
    Except Arena.SliceFault (Nat × Nat) :=
  match x.table.place? s.epoch with
  | none => .error .stale
  | some i =>
    let (first, last) := x.table.share starts size i
    if s.start.toNat < first ∨ last < s.start.toNat + s.length.toNat then .error .stale
    else if s.start.toNat + s.length.toNat < UInt32.size then
      .ok (s.start.toNat, s.start.toNat + s.length.toNat)
    else .error .overflow

/-- The arena with the epochs of the table in a list. -/
def toArena (x : TabledArena) : Arena := ⟨x.id, x.table.live, x.table.live_ne_nil, x.bytes, x.slots⟩

theorem toArena_create (id : ArenaId) (bottom : EpochId) :
    (create id bottom).toArena = Arena.create id bottom := rfl

theorem toArena_beginEpoch (x : TabledArena) (fresh : EpochId) :
    (x.beginEpoch fresh).map toArena = x.toArena.beginEpoch fresh := by
  have room := x.table.push?_eq_none_iff fresh x.bytes.size x.slots.size
  rw [beginEpoch, Arena.beginEpoch]
  cases pushed : x.table.push? fresh x.bytes.size x.slots.size with
  | none => exact (if_neg (room.mp pushed)).symm
  | some table =>
    have few : x.table.live.length < maxLiveEpochs := by
      refine Decidable.not_not.mp fun full => ?_
      rw [room.mpr full] at pushed
      cases pushed
    refine Eq.trans ?_ (if_pos few).symm
    simp only [Except.map, toArena, EpochTable.live_push? pushed]

theorem toArena_truncate (x : TabledArena) (id : EpochId) :
    (x.truncate id).map toArena = x.toArena.truncate id := by
  have found : x.toArena.epochs.findIdx? (·.id = id) = (x.table.place? id).map Fin.val :=
    x.table.findIdx?_live id
  rw [truncate, Arena.truncate, found]
  cases place : x.table.place? id with
  | none => rfl
  | some i =>
    have inside := EpochTable.le_current_of_mem_places (List.mem_of_find?_eq_some place)
    have erased : x.toArena.epochs.getD i.val x.toArena.bottom = x.table.entry i := by
      have here : x.toArena.epochs[i.val]? = some (x.table.entry i) :=
        (x.table.getElem?_live i).trans (if_pos inside)
      rw [List.getD_eq_getElem?_getD, here, Option.getD_some]
    simp only [Option.map_some, erased]
    simp only [Except.map, toArena, EpochTable.live_popTo inside]
    rfl

theorem toArena_truncateCurrent (x : TabledArena) :
    x.truncateCurrent.map toArena = x.toArena.truncateCurrent := by
  have current : x.toArena.current = x.table.entry x.table.current := by
    have last : x.table.live.getLast? = x.table.live[x.table.current.val]? := by
      rw [List.getLast?_eq_getElem?, x.table.length_live, Nat.add_sub_cancel]
    have here := (x.table.getElem?_live x.table.current).trans (if_pos (Nat.le_refl _))
    rw [← last, List.getLast?_eq_some_getLast x.table.live_ne_nil] at here
    exact Option.some.inj here
  rw [truncateCurrent, toArena_truncate, Arena.truncateCurrent, current]
  rfl

theorem toArena_clear (x : TabledArena) : x.clear.map toArena = x.toArena.clear := by
  have bottom : x.toArena.bottom = x.table.entry ⟨0, by decide⟩ := by
    have first := (x.table.getElem?_live ⟨0, by decide⟩).trans (if_pos (Nat.zero_le _))
    rw [← List.head?_eq_getElem?, List.head?_eq_some_head x.table.live_ne_nil] at first
    exact Option.some.inj first
  rw [clear, toArena_truncate, Arena.clear, bottom]
  rfl

/-- A stretch is looked up in a table as it is in the list, by the array of the starts that count. -/
theorem locate_eq {x : TabledArena} {starts : Vector Nat maxLiveEpochs} {start : Epoch → Nat}
    (same : ∀ i, start (x.table.entry i) = starts[i]) (size : Nat) (s : Slice) :
    x.locate starts size s = x.toArena.locate start size s := by
  have share : Arena.shareOf? start size s.epoch x.toArena.epochs =
      (x.table.place? s.epoch).map (x.table.share starts size) := by
    have found : x.toArena.epochs.findIdx? (·.id = s.epoch) = (x.table.place? s.epoch).map Fin.val :=
      x.table.findIdx?_live s.epoch
    rw [Arena.shareOf?_eq_findIdx?, found]
    cases place : x.table.place? s.epoch with
    | none => rfl
    | some i =>
      have inside := EpochTable.le_current_of_mem_places (List.mem_of_find?_eq_some place)
      have here : x.toArena.epochs[i.val]? = some (x.table.entry i) :=
        (x.table.getElem?_live i).trans (if_pos inside)
      have next : (x.toArena.epochs[i.val + 1]?.map start).getD size =
          if below : i < x.table.current then starts.get ⟨i.val + 1, by omega⟩ else size := by
        show (x.table.live[i.val + 1]?.map start).getD size = _
        split
        · next below =>
          have above := (x.table.getElem?_live ⟨i.val + 1, by omega⟩).trans (if_pos below)
          rw [above]
          exact same _
        · next top =>
          rw [List.getElem?_eq_none (by rw [x.table.length_live]; omega)]
          rfl
      rw [Option.map_some, Option.bind_some, here, Option.map_some, next, same]
      rfl
  rw [locate, Arena.locate, share]
  cases x.table.place? s.epoch <;> rfl

theorem locate_byteStarts (x : TabledArena) (s : Slice) :
    x.locate x.table.byteStarts x.bytes.size s =
      x.toArena.locate (·.byteStart) x.toArena.bytes.size s :=
  locate_eq (fun _ => rfl) _ s

theorem locate_slotStarts (x : TabledArena) (s : Slice) :
    x.locate x.table.slotStarts x.slots.size s =
      x.toArena.locate (·.slotStart) x.toArena.slots.size s :=
  locate_eq (fun _ => rfl) _ s

end TabledArena

/-! ## Runs -/

/-- What is done to an arena: epochs are begun and erased, and the storages grow. -/
inductive StorageAction where
  | beginEpoch (fresh : EpochId)
  | truncate (id : EpochId)
  | append (bytes : ByteArray) (slots : Array Handle)

/-- The arena after an action, which is the same if the action fails. -/
def Arena.act (a : Arena) : StorageAction → Arena
  | .beginEpoch fresh => (a.beginEpoch fresh).toOption.getD a
  | .truncate id => (a.truncate id).toOption.getD a
  | .append bytes slots => { a with bytes := a.bytes ++ bytes, slots := a.slots ++ slots }

/-- The same for an arena with a table. -/
def TabledArena.act (x : TabledArena) : StorageAction → TabledArena
  | .beginEpoch fresh => (x.beginEpoch fresh).toOption.getD x
  | .truncate id => (x.truncate id).toOption.getD x
  | .append bytes slots => { x with bytes := x.bytes ++ bytes, slots := x.slots ++ slots }

namespace TabledArena

theorem toArena_act (x : TabledArena) (action : StorageAction) :
    (x.act action).toArena = x.toArena.act action := by
  cases action with
  | beginEpoch fresh =>
    rw [act, Arena.act, ← toArena_beginEpoch]
    cases x.beginEpoch fresh <;> rfl
  | truncate id =>
    rw [act, Arena.act, ← toArena_truncate]
    cases x.truncate id <;> rfl
  | append bytes slots => rfl

/-- Whatever is done, a table stands for the same epochs as the list, and look-up finds the same in both. -/
theorem toArena_run (x : TabledArena) (actions : List StorageAction) :
    (actions.foldl act x).toArena = actions.foldl Arena.act x.toArena := by
  induction actions generalizing x with
  | nil => rfl
  | cons action rest ih => rw [List.foldl_cons, ih, toArena_act, List.foldl_cons]

end TabledArena

end PrologWire
