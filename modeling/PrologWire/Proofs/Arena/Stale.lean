import PrologWire.Arena.View
import PrologWire.Proofs.Arena.History

/-!
# Handles of erased epochs

A handle carries the name of the epoch that its storage belongs to, and resolves only while an epoch
of that name is live and owns the storage. The name of an epoch that goes away never comes back, so
the handles of such an epoch are stale for good. The bottom epoch does not go away: it is emptied
and keeps its name, and a handle from before is stale only until its stretch of storage is filled
again.
-/

namespace PrologWire

/-- The epoch whose name a handle carries. A handle that needs no storage carries none. -/
def Handle.epoch? : Handle → Option EpochId
  | .int _ | .real _ | .short _ _ => none
  | .bigint s | .long _ s | .node _ s => some s.epoch

/-- The names of the epochs that are begun. -/
def Event.begun (events : List Event) : List EpochId := events.filterMap Event.begun?

/-! ## Names of live epochs -/

namespace Event

theorem begun_append (events later : List Event) :
    begun (events ++ later) = begun events ++ begun later := List.filterMap_append

/-- An erasure begins nothing. -/
theorem begun_erasure (a : Arena) (id : EpochId) : begun (a.erasure id) = [] := by
  rw [begun, Arena.erasure, List.filterMap_map]
  apply List.filterMap_eq_nil_iff.mpr
  intro e _
  rfl

end Event

namespace Arena

/-- The bottom epoch is the first one. -/
theorem bottom_of_epochs {a : Arena} {e : Epoch} {above : List Epoch} (h : a.epochs = e :: above) :
    a.bottom = e := by
  unfold bottom
  simp only [h, List.head_cons]

/-- An erasure leaves names of live epochs, and of those that it erases at most the bottom one. -/
theorem ids_of_truncate_eq_ok {a b : Arena} {id : EpochId} (h : a.truncate id = .ok b) :
    b.ids.Sublist a.ids ∧ ∀ e, .erased e ∈ a.erasure id →
      e ∈ a.ids ∧ (a.ids.Nodup → e ∈ b.ids → e = a.bottom.id) := by
  obtain ⟨kept, first, gone, split, here, before, epochs, -⟩ := truncate_eq_ok h
  rw [erasure_eq split here before]
  have ids : a.ids = kept.map Epoch.id ++ (first :: gone).map Epoch.id := by
    rw [Arena.ids, split, List.map_append]
  cases kept with
  | nil =>
    have bottom := bottom_of_epochs split
    have left : b.ids = [first.id] := by rw [Arena.ids, epochs, if_pos rfl, List.map_singleton]
    rw [left, ids]
    refine ⟨List.singleton_sublist.mpr List.mem_cons_self, ?_⟩
    intro e erased
    obtain ⟨x, among, eq⟩ := List.mem_map.mp erased
    obtain rfl := Event.erased.inj eq
    refine ⟨List.mem_map_of_mem among, ?_⟩
    intro _ live
    rw [bottom]
    exact List.mem_singleton.mp live
  | cons below rest =>
    have left : b.ids = (below :: rest).map Epoch.id := by
      rw [Arena.ids, epochs, if_neg (List.cons_ne_nil _ _)]
    rw [left, ids]
    refine ⟨List.sublist_append_left _ _, ?_⟩
    intro e erased
    obtain ⟨x, among, eq⟩ := List.mem_map.mp erased
    obtain rfl := Event.erased.inj eq
    have gone := List.mem_map_of_mem (f := Epoch.id) among
    refine ⟨List.mem_append_right _ gone, ?_⟩
    intro distinct live
    exact absurd rfl ((List.nodup_append.mp distinct).2.2 _ live _ gone)

end Arena

namespace Course

variable {a b : Arena} {events : List Event}

/-- The bottom epoch stays. -/
theorem bottom_eq (h : Course a events b) : b.bottom = a.bottom := by
  have bottom (a : Arena) : ∃ above, a.epochs = a.bottom :: above :=
    ⟨a.epochs.tail, (List.cons_head_tail a.epochs_ne_nil).symm⟩
  induction h with
  | stay a => rfl
  | @grow a b _ _ grows _ ih =>
    obtain ⟨above, epochs⟩ := bottom a
    rw [ih, Arena.bottom_of_epochs (grows.epochs.trans epochs)]
  | @begin a b _ _ _ begins _ ih =>
    obtain ⟨above, epochs⟩ := bottom a
    obtain ⟨begun, -, -⟩ := Arena.beginEpoch_eq_ok begins
    rw [epochs] at begun
    rw [ih, Arena.bottom_of_epochs begun]
  | @erase a b _ _ _ erases _ ih =>
    obtain ⟨kept, first, gone, split, -, -, epochs, -⟩ := Arena.truncate_eq_ok erases
    cases kept with
    | nil => rw [ih, Arena.bottom_of_epochs split, Arena.bottom_of_epochs epochs]
    | cons e rest => rw [ih, Arena.bottom_of_epochs split, Arena.bottom_of_epochs epochs]

/-- An epoch that is live was live before or was begun since. -/
theorem mem_ids (h : Course a events b) {e : EpochId} (live : e ∈ b.ids) :
    e ∈ a.ids ∨ e ∈ Event.begun events := by
  induction h with
  | stay a => exact .inl live
  | grow grows _ ih =>
    have before := ih live
    rwa [Arena.ids, grows.epochs] at before
  | @begin a b _ fresh _ begins _ ih =>
    obtain ⟨epochs, -, -⟩ := Arena.beginEpoch_eq_ok begins
    rcases ih live with before | since
    · rw [Arena.ids, epochs, List.map_append, List.mem_append] at before
      rcases before with before | new
      · exact .inl before
      · rw [List.mem_singleton.mp new]
        exact .inr List.mem_cons_self
    · exact .inr (List.mem_cons_of_mem fresh since)
  | erase erases _ ih =>
    rw [Event.begun_append, Event.begun_erasure, List.nil_append]
    rcases ih live with before | since
    · exact .inl ((Arena.ids_of_truncate_eq_ok erases).1.subset before)
    · exact .inr since

/-- An epoch that was erased is not live again, unless it is the bottom one. Every name is given
once. -/
theorem not_mem_ids_of_erased (h : Course a events b)
    (distinct : (a.ids ++ Event.begun events).Nodup) {e : EpochId} (erased : .erased e ∈ events)
    (above : e ≠ a.bottom.id) : e ∉ b.ids := by
  induction h with
  | stay a => cases erased
  | grow grows rest ih =>
    have bottom := (of_grows grows).bottom_eq
    have ids : Arena.ids _ = Arena.ids _ := congrArg (List.map Epoch.id) grows.epochs
    exact ih (ids ▸ distinct) erased (bottom ▸ above)
  | begin begins rest ih =>
    obtain ⟨epochs, -, -⟩ := Arena.beginEpoch_eq_ok begins
    have bottom := (begin begins (stay _)).bottom_eq
    refine ih ?_ ?_ (bottom ▸ above)
    · rw [Arena.ids, epochs, List.map_append, List.append_assoc]
      exact distinct
    · rcases List.mem_cons.mp erased with begun | erased
      · cases begun
      · exact erased
  | erase erases rest ih =>
    have bottom := (erase erases (stay _)).bottom_eq
    obtain ⟨fewer, gone⟩ := Arena.ids_of_truncate_eq_ok erases
    rw [Event.begun_append, Event.begun_erasure, List.nil_append] at distinct
    rcases List.mem_append.mp erased with now | later
    · obtain ⟨live, remains⟩ := gone e now
      intro again
      -- it is not among what is left now, and its name is not given another time
      rcases rest.mem_ids again with left | since
      · exact above (remains (List.nodup_append.mp distinct).1 left)
      · exact (List.nodup_append.mp distinct).2.2 e live e since rfl
    · exact ih (distinct.sublist (fewer.append_right _)) later (bottom ▸ above)

end Course

/-! ## Looking at a stale handle -/

namespace Arena

/-- No live epoch of the name that the handle carries owns the stretch of storage that it names. -/
def IsStale (a : Arena) : Handle → Prop
  | .bigint s | .long _ s => a.locate (·.byteStart) a.bytes.size s = .error .stale
  | .node _ s => a.locate (·.slotStart) a.slots.size s = .error .stale
  | .int _ | .real _ | .short _ _ => False

/-- Where the share of the bottom epoch ends in a storage of `size` entries. -/
def bottomEnd (a : Arena) (start : Epoch → Nat) (size : Nat) : Nat :=
  (a.epochs.tail.head?.map start).getD size

/-- The stretch of storage that a handle names ends behind the share of the bottom epoch. -/
def ExceedsBottom (a : Arena) : Handle → Prop
  | .bigint s | .long _ s =>
    a.bottomEnd (·.byteStart) a.bytes.size < s.start.toNat + s.length.toNat
  | .node _ s => a.bottomEnd (·.slotStart) a.slots.size < s.start.toNat + s.length.toNat
  | .int _ | .real _ | .short _ _ => False

/-- A look at a text is invalid if the stretch of storage is stale, and only then. -/
theorem textAt_eq_invalidTerm_iff (a : Arena) (h : Handle) (s : Slice) :
    a.textAt h s = .error (.invalidTerm h) ↔
      a.locate (·.byteStart) a.bytes.size s = .error .stale := by
  unfold textAt bytesAt
  rcases a.locate (·.byteStart) a.bytes.size s with fault | r
  · cases fault <;> simp [Except.map, SliceFault.error]
  · simp only [Except.map, reduceCtorEq, iff_false]
    split <;> simp

/-- A look at a handle is invalid if the handle is stale, and only then. -/
theorem view_eq_invalidTerm_iff (a : Arena) (h : Handle) :
    a.view h = .error (.invalidTerm h) ↔ a.IsStale h := by
  cases h with
  | int value => simp [view, IsStale]
  | real value => simp [view, IsStale]
  | short kind text =>
    rw [view]
    split <;> simp [IsStale]
  | bigint digits =>
    rw [IsStale, ← textAt_eq_invalidTerm_iff a (.bigint digits), view]
    cases a.textAt (.bigint digits) digits <;> simp [Except.map]
  | long kind text =>
    rw [IsStale, ← textAt_eq_invalidTerm_iff a (.long kind text), view]
    cases a.textAt (.long kind text) text <;> simp [Except.map]
  | node kind slots =>
    unfold IsStale view slotsAt
    dsimp only
    rcases a.locate (·.slotStart) a.slots.size slots with fault | r
    · cases fault <;> simp [Except.map, SliceFault.error]
    · simp only [Except.map, reduceCtorEq, iff_false]
      split <;> simp_all

/-- A name that no live epoch has has no share of a storage. -/
theorem shareOf?_eq_none {epochs : List Epoch} {start : Epoch → Nat} {size : Nat} {id : EpochId}
    (absent : id ∉ epochs.map Epoch.id) : shareOf? start size id epochs = none := by
  induction epochs with
  | nil => rfl
  | cons e above ih =>
    rw [List.map_cons, List.mem_cons, not_or] at absent
    rw [shareOf?, if_neg (Ne.symm absent.1), ih absent.2]

/-- The share of the bottom epoch. -/
theorem shareOf?_bottom (a : Arena) (start : Epoch → Nat) (size : Nat) :
    shareOf? start size a.bottom.id a.epochs = some (start a.bottom, a.bottomEnd start size) := by
  have epochs : a.epochs = a.bottom :: a.epochs.tail := (List.cons_head_tail a.epochs_ne_nil).symm
  rw [epochs, shareOf?, if_pos rfl]
  rfl

/-- A stretch of an epoch that is not live is stale. -/
theorem locate_of_not_mem_ids {a : Arena} {start : Epoch → Nat} {size : Nat} {s : Slice}
    (absent : s.epoch ∉ a.ids) : a.locate start size s = .error .stale := by
  rw [locate, shareOf?_eq_none absent]

/-- A stretch of the bottom epoch, which begins at zero, is stale if it ends behind the share. -/
theorem locate_bottom_eq_stale_iff {a : Arena} {start : Epoch → Nat} {size : Nat} {s : Slice}
    (here : s.epoch = a.bottom.id) (zero : start a.bottom = 0) :
    a.locate start size s = .error .stale ↔
      a.bottomEnd start size < s.start.toNat + s.length.toNat := by
  rw [locate, here, shareOf?_bottom, zero]
  dsimp only
  split
  · next outside => simpa using outside
  · next inside =>
    simp only [Nat.not_lt_zero, false_or] at inside
    split <;> simp [inside]

/-- The handles of an epoch that is not live are stale. -/
theorem isStale_of_not_mem_ids {a : Arena} {h : Handle} {e : EpochId} (carries : h.epoch? = some e)
    (absent : e ∉ a.ids) : a.IsStale h := by
  cases h with
  | bigint s =>
    obtain rfl := Option.some.inj carries
    exact locate_of_not_mem_ids absent
  | long kind s =>
    obtain rfl := Option.some.inj carries
    exact locate_of_not_mem_ids absent
  | node kind s =>
    obtain rfl := Option.some.inj carries
    exact locate_of_not_mem_ids absent
  | _ => cases carries

/-- The handles of the bottom epoch are stale as long as they exceed its share. -/
theorem isStale_bottom_iff {a : Arena} {h : Handle} (carries : h.epoch? = some a.bottom.id)
    (bytes : a.bottom.byteStart = 0) (slots : a.bottom.slotStart = 0) :
    a.IsStale h ↔ a.ExceedsBottom h := by
  cases h with
  | bigint s => exact locate_bottom_eq_stale_iff (Option.some.inj carries) bytes
  | long kind s => exact locate_bottom_eq_stale_iff (Option.some.inj carries) bytes
  | node kind s => exact locate_bottom_eq_stale_iff (Option.some.inj carries) slots
  | _ => cases carries

/-- After any operations, a handle whose epoch was erased is invalid if and only if its epoch was
not the bottom one, or its stretch of storage has not been filled again. -/
theorem view_eq_invalidTerm_iff_of_erased {id : ArenaId} {bottom : EpochId} {ops : List Operation}
    (distinct : (bottom :: Event.begun (Operation.eventsAll ops (create id bottom))).Nodup)
    {h : Handle} {e : EpochId} (carries : h.epoch? = some e)
    (erased : .erased e ∈ Operation.eventsAll ops (create id bottom)) :
    (Operation.performAll ops (create id bottom)).view h = .error (.invalidTerm h) ↔
      e ≠ bottom ∨ (Operation.performAll ops (create id bottom)).ExceedsBottom h := by
  have course := Operation.course_all ops (create id bottom)
  have same : (Operation.performAll ops (create id bottom)).bottom = ⟨bottom, 0, 0⟩ :=
    course.bottom_eq
  rw [view_eq_invalidTerm_iff]
  by_cases here : e = bottom
  · have named : h.epoch? = some (Operation.performAll ops (create id bottom)).bottom.id := by
      rw [carries, same, here]
    rw [isStale_bottom_iff named (by rw [same]) (by rw [same])]
    simp [here]
  · have absent := course.not_mem_ids_of_erased distinct erased here
    simp [here, isStale_of_not_mem_ids carries absent]

/-- A name in an epoch that goes away, and another name that takes its place in a new epoch. -/
def replacedName : List Operation :=
  [.beginEpoch ⟨1⟩, .text .atom "the name that was there before", .truncate ⟨1⟩, .beginEpoch ⟨2⟩,
    .text .atom "other bytes in the same place!"]

theorem view_replacedName :
    ∃ h a, (Operation.text .atom "the name that was there before").perform
        (Operation.performAll [.beginEpoch ⟨1⟩] (create ⟨0⟩ ⟨0⟩)) = (.made h, a) ∧
      (Operation.performAll replacedName (create ⟨0⟩ ⟨0⟩)).view h = .error (.invalidTerm h) := by
  refine ⟨_, _, rfl, ?_⟩
  apply (view_eq_invalidTerm_iff_of_erased (e := ⟨1⟩) _ rfl _).mpr
  · left
    decide
  · decide +kernel
  · decide +kernel

/-- A name in the bottom epoch, which is emptied, and another name that takes its place. -/
def refilledName : List Operation :=
  [.text .atom "the name that was there before", .clear,
    .text .atom "other bytes in the same place!"]

theorem view_refilledName :
    ∃ h a, (Operation.text .atom "the name that was there before").perform (create ⟨0⟩ ⟨0⟩) =
        (.made h, a) ∧ h.epoch? = some ⟨0⟩ ∧
      .erased ⟨0⟩ ∈ Operation.eventsAll refilledName (create ⟨0⟩ ⟨0⟩) ∧
      (Operation.performAll refilledName (create ⟨0⟩ ⟨0⟩)).view h =
        .ok (.leaf (.atom "other bytes in the same place!")) := by
  refine ⟨_, _, rfl, rfl, ?_, ?_⟩
  · decide +kernel
  · rfl

end Arena

end PrologWire
