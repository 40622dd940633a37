import PrologWire.Proofs.Arena.Shares

/-!
# Epochs as scopes

An epoch is a scope for what is made in it. While it is live, the epochs below it and their storage stay
what they were when it began: whatever is made lies behind its start, and an erasure that spares it cuts
the storages behind its start. So erasing it gives back the arena in which it began.
-/

namespace PrologWire

/-! ## How many epochs are live -/

/-- No more epochs are live than can be. -/
theorem Course.length_epochs_le {a b : Arena} {events : List Event} (h : Course a events b)
    (few : a.epochs.length ≤ Arena.maxLiveEpochs) : b.epochs.length ≤ Arena.maxLiveEpochs := by
  induction h with
  | stay a => exact few
  | grow grows _ ih =>
    apply ih
    rwa [grows.epochs]
  | @begin a b _ fresh _ begins _ ih =>
    apply ih
    unfold Arena.beginEpoch at begins
    split at begins
    · next room =>
      obtain rfl := Except.ok.inj begins
      rw [List.length_append]
      exact room
    · cases begins
  | @erase a b _ _ _ erases _ ih =>
    apply ih
    obtain ⟨kept, first, gone, split, -, -, epochs, -⟩ := Arena.truncate_eq_ok erases
    rw [split, List.length_append, List.length_cons] at few
    rw [epochs]
    split
    · exact Nat.le_trans (by omega : 1 ≤ kept.length + (gone.length + 1)) few
    · omega

namespace Arena

theorem length_epochs_pos (a : Arena) : 1 ≤ a.epochs.length :=
  List.length_pos_iff.mpr a.epochs_ne_nil

/-- An epoch can be begun unless all epochs that there can be are live. -/
theorem beginEpoch_eq_error_iff (a : Arena) (fresh : EpochId) (cause : TermError) :
    a.beginEpoch fresh = .error cause ↔
      maxLiveEpochs ≤ a.epochs.length ∧ cause = .liveEpochsExceeded := by
  unfold beginEpoch
  split
  · next room =>
    constructor
    · intro fails
      cases fails
    · rintro ⟨full, -⟩
      omega
  · next full =>
    constructor
    · intro fails
      exact ⟨Nat.le_of_not_lt full, (Except.error.inj fails).symm⟩
    · rintro ⟨-, rfl⟩
      rfl

/-- The epoch that was begun is the current one. -/
theorem current_of_beginEpoch_eq_ok {a b : Arena} {fresh : EpochId}
    (begins : a.beginEpoch fresh = .ok b) : b.current.id = fresh := by
  unfold beginEpoch at begins
  split at begins
  · obtain rfl := Except.ok.inj begins
    simp only [current, List.getLast_concat]
  · cases begins

/-- An epoch can be erased if and only if it is live. -/
theorem truncate_eq_error_iff (a : Arena) (id : EpochId) (cause : TermError) :
    a.truncate id = .error cause ↔ id ∉ a.ids ∧ cause = .invalidEpoch id := by
  unfold truncate
  split
  · next absent =>
    have dead : id ∉ a.ids := by
      intro live
      obtain ⟨e, among, same⟩ := List.mem_map.mp live
      have other := List.findIdx?_eq_none_iff.mp absent e among
      simp [same] at other
    constructor
    · intro fails
      exact ⟨dead, (Except.error.inj fails).symm⟩
    · rintro ⟨-, rfl⟩
      rfl
  · next i found =>
    have live : id ∈ a.ids := by
      obtain ⟨inside, here, -⟩ := List.findIdx?_eq_some_iff_getElem.mp found
      exact List.mem_map.mpr ⟨a.epochs[i], List.getElem_mem inside, by simpa using here⟩
    constructor
    · intro fails
      cases fails
    · rintro ⟨dead, -⟩
      exact absurd live dead

/-- An epoch that is the first of its name is erased with those above it. -/
theorem exists_truncate_eq_ok {a : Arena} {below above : List Epoch} {e : Epoch}
    (split : a.epochs = below ++ e :: above) (first : ∀ x ∈ below, x.id ≠ e.id) :
    ∃ b, a.truncate e.id = .ok b ∧ b.epochs = (if below = [] then [e] else below) ∧
      b.bytes = a.bytes.extract 0 e.byteStart ∧ b.slots = a.slots.extract 0 e.slotStart := by
  have upTo {xs ys : List Epoch} {x : Epoch} (before : ∀ y ∈ xs, y.id ≠ e.id) (here : x.id = e.id) :
      (xs ++ x :: ys).takeWhile (·.id ≠ e.id) = xs := by
    rw [List.takeWhile_append_of_pos (by simpa using before), List.takeWhile_cons_of_neg (by simpa using here),
      List.append_nil]
  have live : e.id ∈ a.ids := by
    rw [ids, split, List.map_append]
    exact List.mem_append_right _ List.mem_cons_self
  cases result : a.truncate e.id with
  | error cause => exact absurd live ((truncate_eq_error_iff a e.id cause).mp result).1
  | ok b =>
    obtain ⟨kept, found, gone, split', here, before, epochs, bytes, slots⟩ := truncate_eq_ok result
    obtain rfl : kept = below := by
      rw [← upTo before here, ← split', split, upTo first rfl]
    obtain ⟨rfl, -⟩ := List.cons.inj (List.append_cancel_left (split'.symm.trans split))
    exact ⟨b, rfl, epochs, bytes, slots⟩

/-! ## What an arena keeps of an earlier one -/

/-- The second arena has what the first has: its epochs, with others on top that begin behind its
storages, and what is in them. -/
structure Extends (a b : Arena) : Prop where
  epochs : ∃ inner, b.epochs = a.epochs ++ inner ∧
    ∀ e ∈ inner, a.bytes.size ≤ e.byteStart ∧ a.slots.size ≤ e.slotStart
  bytes : ∃ bs, b.bytes = a.bytes ++ bs
  slots : ∃ hs, b.slots = a.slots ++ hs

namespace Extends

variable {a b c : Arena} {id : EpochId}

theorem refl (a : Arena) : a.Extends a :=
  ⟨⟨[], (List.append_nil _).symm, fun _ none => absurd none List.not_mem_nil⟩,
    ⟨.empty, ByteArray.append_empty.symm⟩, ⟨#[], Array.append_empty.symm⟩⟩

theorem size_bytes_le (h : a.Extends b) : a.bytes.size ≤ b.bytes.size := by
  obtain ⟨bs, bytes⟩ := h.bytes
  rw [bytes, ByteArray.size_append]
  exact Nat.le_add_right _ _

theorem size_slots_le (h : a.Extends b) : a.slots.size ≤ b.slots.size := by
  obtain ⟨hs, slots⟩ := h.slots
  rw [slots, Array.size_append]
  exact Nat.le_add_right _ _

/-- What is made goes behind what is there. -/
theorem grow (h : a.Extends b) (grows : b.Grows c) : a.Extends c := by
  obtain ⟨bs, bytes⟩ := h.bytes
  obtain ⟨bs', bytes'⟩ := grows.bytes
  obtain ⟨hs, slots⟩ := h.slots
  obtain ⟨hs', slots'⟩ := grows.slots
  refine ⟨?_, ⟨bs ++ bs', ?_⟩, ⟨hs ++ hs', ?_⟩⟩
  · rw [grows.epochs]
    exact h.epochs
  · rw [bytes', bytes, ByteArray.append_assoc]
  · rw [slots', slots, Array.append_assoc]

/-- An epoch begins behind what is there. -/
theorem begin (h : a.Extends b) {fresh : EpochId} (begins : b.beginEpoch fresh = .ok c) :
    a.Extends c := by
  obtain ⟨inner, epochs, behind⟩ := h.epochs
  obtain ⟨epochs', bytes, slots⟩ := beginEpoch_eq_ok begins
  refine ⟨⟨inner ++ [⟨fresh, b.bytes.size, b.slots.size⟩], ?_, ?_⟩, ?_, ?_⟩
  · rw [epochs', epochs, List.append_assoc]
  · intro e among
    rcases List.mem_append.mp among with before | new
    · exact behind e before
    · rw [List.mem_singleton.mp new]
      exact ⟨h.size_bytes_le, h.size_slots_le⟩
  · rw [bytes]
    exact h.bytes
  · rw [slots]
    exact h.slots

/-- An erasure that spares the epoch that was current leaves what is there. -/
theorem erase (h : a.Extends b) (erases : b.truncate id = .ok c)
    (spared : .erased a.current.id ∉ b.erasure id) : a.Extends c := by
  obtain ⟨kept, first, gone, split, here, before, epochs', bytes', slots'⟩ := truncate_eq_ok erases
  obtain ⟨inner, epochs, behind⟩ := h.epochs
  have remains : a.current ∉ first :: gone := by
    intro goes
    apply spared
    rw [erasure_eq split here before]
    exact List.mem_map.mpr ⟨a.current, goes, rfl⟩
  -- the current epoch would go with any of those below it, so the first one to go is above all of them
  obtain ⟨between, keeps, inside⟩ : ∃ between,
      kept = a.epochs ++ between ∧ inner = between ++ first :: gone := by
    rcases List.append_eq_append_iff.mp (epochs.symm.trans split) with
      ⟨between, keeps, later⟩ | ⟨lost, front, later⟩
    · exact ⟨between, keeps, later⟩
    · rcases List.eq_nil_or_concat lost with none | ⟨others, last, some⟩
      · subst none
        rw [List.append_nil] at front
        exact ⟨[], by rw [front, List.append_nil], later.symm⟩
      · subst some
        refine absurd ?_ remains
        have top : a.current = last := by
          unfold current
          simp only [front, List.concat_eq_append, ← List.append_assoc, List.getLast_concat]
        rw [top, later, List.concat_eq_append]
        simp
  have starts := behind first (by rw [inside]; simp)
  obtain ⟨bs, bytes⟩ := h.bytes
  obtain ⟨hs, slots⟩ := h.slots
  refine ⟨⟨between, ?_, ?_⟩, ⟨bs.extract 0 (first.byteStart - a.bytes.size), ?_⟩,
    ⟨hs.extract 0 (first.slotStart - a.slots.size), ?_⟩⟩
  · rw [epochs', if_neg (by rw [keeps]; simp [a.epochs_ne_nil]), keeps]
  · intro e among
    apply behind
    rw [inside]
    exact List.mem_append_left _ among
  · rw [bytes', bytes, ByteArray.extract_append, Nat.zero_sub]
    congr 1
    ext1
    rw [ByteArray.data_extract]
    exact Array.extract_eq_self_of_le starts.1
  · rw [slots', slots, Array.extract_append, Nat.zero_sub]
    congr 1
    exact Array.extract_eq_self_of_le starts.2

/-- Erasing the epoch in which an arena began gives back what was there before. -/
theorem exists_truncate {begun : Arena} {scope : EpochId} (begins : a.beginEpoch scope = .ok begun)
    (h : begun.Extends b) (new : scope ∉ a.ids) :
    ∃ c, b.truncate scope = .ok c ∧ c.epochs = a.epochs ∧ c.bytes = a.bytes ∧ c.slots = a.slots := by
  obtain ⟨epochs', bytes', slots'⟩ := beginEpoch_eq_ok begins
  obtain ⟨inner, epochs, -⟩ := h.epochs
  rw [epochs', List.append_assoc, List.singleton_append] at epochs
  have others : ∀ e ∈ a.epochs, e.id ≠ scope := by
    rintro e among rfl
    exact new (List.mem_map_of_mem among)
  obtain ⟨c, erases, left, bytesLeft, slotsLeft⟩ := exists_truncate_eq_ok epochs others
  obtain ⟨bs, bytes⟩ := h.bytes
  obtain ⟨hs, slots⟩ := h.slots
  refine ⟨c, erases, ?_, ?_, ?_⟩
  · rw [left, if_neg a.epochs_ne_nil]
  · rw [bytesLeft, bytes, bytes']
    exact ByteArray.extract_append_eq_left rfl
  · rw [slotsLeft, slots, slots']
    simp

end Extends

end Arena

/-- As long as the current epoch is not erased, everything stays. -/
theorem Course.extends {a b c : Arena} {events : List Event} (h : Course b events c)
    (before : a.Extends b) (spared : .erased a.current.id ∉ events) : a.Extends c := by
  induction h with
  | stay b => exact before
  | grow grows _ ih => exact ih (before.grow grows) spared
  | begin begins _ ih =>
    exact ih (before.begin begins) fun later => spared (List.mem_cons_of_mem _ later)
  | erase erases _ ih =>
    rw [List.mem_append, not_or] at spared
    exact ih (before.erase erases spared.1) spared.2

/-! ## The name of an arena -/

namespace Arena

theorem id_text (a : Arena) (kind : TextKind) (s : String) : (a.text kind s).2.id = a.id := by
  unfold text
  split <;> rfl

theorem id_integer (a : Arena) (value : Int) : (a.integer value).2.id = a.id := by
  unfold integer
  split <;> rfl

theorem id_of_truncate_eq_ok {a b : Arena} {id : EpochId} (erases : a.truncate id = .ok b) :
    b.id = a.id := by
  unfold truncate at erases
  split at erases
  · cases erases
  · obtain rfl := Except.ok.inj erases
    rfl

theorem id_of_beginEpoch_eq_ok {a b : Arena} {id : EpochId} (begins : a.beginEpoch id = .ok b) :
    b.id = a.id := by
  unfold beginEpoch at begins
  split at begins
  · obtain rfl := Except.ok.inj begins
    rfl
  · cases begins

theorem id_ofChange {a : Arena} {result : Except TermError Arena}
    (keeps : ∀ b, result = .ok b → b.id = a.id) : (Outcome.ofChange a result).2.id = a.id := by
  cases result with
  | ok b => exact keeps b rfl
  | error cause => rfl

end Arena

mutual

/-- No operation changes the name of the arena. -/
theorem Operation.id_perform : ∀ (op : Operation) (a : Arena), (op.perform a).2.id = a.id
  | .text kind s, a => a.id_text kind s
  | .integer value, a => a.id_integer value
  | .func name [], a => a.id_text .atom name
  | .func name (arg :: args), a => by
    have parts := Argument.id_pushItems (arg :: args) ((a.atom name).2.pushSlot (a.atom name).1)
    exact parts.trans (a.id_text .atom name)
  | .funcOfItems [], a => rfl
  | .funcOfItems (first :: args), a => by
    have functor := first.id_item a
    have parts := Argument.id_pushItems args ((first.item a).2.pushSlot (first.item a).1)
    rw [Operation.perform, Argument.items, Arena.funcOfItems]
    dsimp only
    split
    · cases args with
      | nil => exact functor
      | cons arg rest => exact parts.trans functor
    · exact functor
  | .list [], a => rfl
  | .list (item :: rest), a => Argument.id_pushItems (item :: rest) a
  | .tuple [], a => rfl
  | .tuple (item :: rest), a => Argument.id_pushItems (item :: rest) a
  | .beginEpoch _, _ => Arena.id_ofChange fun _ begins => Arena.id_of_beginEpoch_eq_ok begins
  | .truncate _, _ => Arena.id_ofChange fun _ erases => Arena.id_of_truncate_eq_ok erases
  | .truncateCurrent, _ => Arena.id_ofChange fun _ erases => Arena.id_of_truncate_eq_ok erases
  | .clear, _ => Arena.id_ofChange fun _ erases => Arena.id_of_truncate_eq_ok erases

theorem Operation.id_performAll : ∀ (ops : List Operation) (a : Arena),
    (Operation.performAll ops a).id = a.id
  | [], _ => rfl
  | op :: rest, a => (Operation.id_performAll rest (op.perform a).2).trans (op.id_perform a)

theorem Argument.id_item : ∀ (arg : Argument) (a : Arena), (arg.item a).2.id = a.id
  | .term _, _ => rfl
  | .name s, a => a.id_text .atom s
  | .integer value, a => a.id_integer value
  | .work ops _, a => Operation.id_performAll ops a

theorem Argument.id_pushItems : ∀ (args : List Argument) (a : Arena),
    (a.pushItems (Argument.items args)).id = a.id
  | [], _ => rfl
  | arg :: rest, a =>
    (Argument.id_pushItems rest ((arg.item a).2.pushSlot (arg.item a).1)).trans (arg.id_item a)

end

/-! ## Scopes -/

namespace Operation

open Arena

theorem perform_beginEpoch_eq_done {a b : Arena} {fresh : EpochId}
    (begins : (beginEpoch fresh).perform a = (.done, b)) : a.beginEpoch fresh = .ok b := by
  rw [perform] at begins
  cases result : a.beginEpoch fresh with
  | ok c =>
    rw [result] at begins
    obtain ⟨-, rfl⟩ := Prod.mk.inj begins
    rfl
  | error cause =>
    rw [result] at begins
    cases begins

/-- In any arena that operations have led to, at least one epoch is live, and no more than there can be.
To begin one succeeds as long as fewer are live, and otherwise fails and leaves the arena as it is; to
erase one that is not live fails and leaves the arena as it is. Erasing an epoch gives back the very arena
in which it began, whatever was done in the meantime that did not erase it. -/
theorem truncate_restores {id : ArenaId} {bottom : EpochId} {ops : List Operation} {a : Arena}
    (reached : performAll ops (create id bottom) = a) :
    (1 ≤ a.epochs.length ∧ a.epochs.length ≤ maxLiveEpochs) ∧
    (∀ fresh, a.epochs.length < maxLiveEpochs ∧
        (∃ b, (beginEpoch fresh).perform a = (.done, b) ∧ b.current.id = fresh) ∨
      a.epochs.length = maxLiveEpochs ∧
        (beginEpoch fresh).perform a = (.failed .liveEpochsExceeded, a)) ∧
    (∀ e, e ∉ a.ids → (truncate e).perform a = (.failed (.invalidEpoch e), a)) ∧
    ∀ (fresh : EpochId) (begun : Arena) (later : List Operation), fresh ∉ a.ids →
      (beginEpoch fresh).perform a = (.done, begun) → .erased fresh ∉ eventsAll later begun →
      (truncate fresh).perform (performAll later begun) = (.done, a) := by
  have course := course_all ops (create id bottom)
  rw [reached] at course
  have few : a.epochs.length ≤ maxLiveEpochs := course.length_epochs_le (by
    show 1 ≤ maxLiveEpochs
    decide)
  refine ⟨⟨a.length_epochs_pos, few⟩, ?_, ?_, ?_⟩
  · intro fresh
    rcases Nat.lt_or_ge a.epochs.length maxLiveEpochs with room | full
    · left
      refine ⟨room, ?_⟩
      rw [perform]
      cases result : a.beginEpoch fresh with
      | ok b => exact ⟨b, rfl, current_of_beginEpoch_eq_ok result⟩
      | error cause =>
        have full := ((a.beginEpoch_eq_error_iff fresh cause).mp result).1
        exact absurd full (Nat.not_le_of_lt room)
    · right
      refine ⟨Nat.le_antisymm few full, ?_⟩
      rw [perform, (a.beginEpoch_eq_error_iff fresh _).mpr ⟨full, rfl⟩]
      rfl
  · intro e dead
    rw [perform, (a.truncate_eq_error_iff e _).mpr ⟨dead, rfl⟩]
    rfl
  · intro fresh begun later new begins spared
    have begins := perform_beginEpoch_eq_done begins
    -- the scope is the current epoch when it begins, and what was there then is there to the end
    have kept := (course_all later begun).extends (.refl begun)
      (by rwa [current_of_beginEpoch_eq_ok begins])
    obtain ⟨c, erases, epochs, bytes, slots⟩ := Extends.exists_truncate begins kept new
    have named : c.id = a.id := by
      rw [id_of_truncate_eq_ok erases, id_performAll, id_of_beginEpoch_eq_ok begins]
    rw [perform, erases]
    obtain ⟨cid, cepochs, cfilled, cbytes, cslots⟩ := c
    dsimp only at epochs bytes slots named
    subst epochs bytes slots named
    rfl

/-- A name and a list in two epochs. -/
def outerTerms : List Operation :=
  [.text .atom "a name in the bottom epoch", .beginEpoch ⟨1⟩, .list [.integer 1, .name "elem"]]

/-- What may happen in a scope: a compound with a closure that makes a list in an epoch of its own, an
epoch that does not exist, and a nested epoch that goes away with a text in it. -/
def nestedWork : List Operation :=
  [.func "the name of a compound" [.work [.beginEpoch ⟨3⟩, .list [.integer 7], .truncate ⟨3⟩] .nil],
    .truncate ⟨9⟩, .beginEpoch ⟨4⟩, .text .str "a text in a nested epoch", .truncateCurrent]

theorem truncate_restores_outerTerms :
    (truncate ⟨2⟩).perform (performAll (.beginEpoch ⟨2⟩ :: nestedWork)
        (performAll outerTerms (create ⟨0⟩ ⟨0⟩))) =
      (.done, performAll outerTerms (create ⟨0⟩ ⟨0⟩)) := by
  obtain ⟨-, -, -, restores⟩ := @truncate_restores ⟨0⟩ ⟨0⟩ outerTerms _ rfl
  apply restores ⟨2⟩ _ nestedWork _ rfl
  · decide +kernel
  · decide +kernel

end Operation

end PrologWire
