import PrologWire.Proofs.Arena.Shares
import Mathlib.Data.List.Forall2

/-!
# What constructors make

The handle that a constructor returns shows what the constructor was given: a text its text, an
integer its value, and a compound, a list or a tuple its parts in order. It keeps showing it until
the epoch in which it was made is erased, whatever else is made, begun or erased meanwhile.
-/

namespace PrologWire

/-! ## What was given -/

/-- What a text views as. The atom `[]` views as the empty list. -/
def View.ofText (kind : TextKind) (s : String) : View Handle :=
  if kind = .atom ∧ s = "[]" then .list [] else .leaf (Leaf.ofText kind s)

/-- What an integer views as. Outside the 64-bit range it is its decimal digits. -/
def View.ofInteger (value : Int) : View Handle :=
  if Int64.minValue.toInt ≤ value ∧ value ≤ Int64.maxValue.toInt then
    .leaf (.int (Int64.ofInt value))
  else .leaf (.bigint (toString value))

/-- The part is a term that is there already or a plain value. -/
def Argument.isPlain : Argument → Bool
  | .work _ _ => false
  | .term _ | .name _ | .integer _ => true

/-- The parts that an operation is given. -/
def Operation.args : Operation → List Argument
  | .func _ args | .funcOfItems args | .list args | .tuple args => args
  | .text _ _ | .integer _ | .beginEpoch _ | .truncate _ | .truncateCurrent | .clear => []

/-- The handle is the part that was given, or shows the value that was given for it. -/
inductive Argument.Given (b : Arena) : Argument → Handle → Prop where
  | term (h : Handle) : Given b (.term h) h
  | name {s : String} {h : Handle} : b.view h = .ok (.ofText .atom s) → Given b (.name s) h
  | integer {value : Int} {h : Handle} : b.view h = .ok (.ofInteger value) →
    Given b (.integer value) h

/-- The handle shows what the constructor was given. -/
def Operation.Given (b : Arena) : Operation → Handle → Prop
  | .text kind s, h => b.view h = .ok (.ofText kind s)
  | .integer value, h => b.view h = .ok (.ofInteger value)
  | .func name [], h => b.view h = .ok (.ofText .atom name)
  | .func name (arg :: args), h => ∃ functor hs, b.view h = .ok (.func functor hs) ∧
    b.view functor = .ok (.ofText .atom name) ∧ List.Forall₂ (Argument.Given b) (arg :: args) hs
  | .funcOfItems [], _ => False
  | .funcOfItems [first], h => first.Given b h
  | .funcOfItems (first :: arg :: args), h => ∃ functor hs, b.view h = .ok (.func functor hs) ∧
    first.Given b functor ∧ List.Forall₂ (Argument.Given b) (arg :: args) hs
  | .list items, h => ∃ hs, b.view h = .ok (.list hs) ∧ List.Forall₂ (Argument.Given b) items hs
  | .tuple [], h => b.view h = .ok (.leaf (.atom "unit"))
  | .tuple (item :: items), h => ∃ hs, b.view h = .ok (.tuple hs) ∧
    List.Forall₂ (Argument.Given b) (item :: items) hs
  | .beginEpoch _, _ | .truncate _, _ | .truncateCurrent, _ | .clear, _ => False

namespace Arena

/-! ## Looks that stay the same -/

/-- A handle shows the same as long as the share of the epoch that it carries keeps what it has. -/
theorem view_of_keeps {a b : Arena} {h : Handle} {v : View Handle}
    (kept : ∀ e, h.epoch? = some e → Keeps e a b) (seen : a.view h = .ok v) : b.view h = .ok v := by
  have text (s : Slice) (kept : Keeps s.epoch a b) {t : String} (seen : a.textAt h s = .ok t) :
      b.textAt h s = .ok t := by
    unfold textAt at seen ⊢
    cases bytes : a.bytesAt s with
    | error fault =>
      rw [bytes] at seen
      cases seen
    | ok bs =>
      rw [bytes] at seen
      rw [kept.bytesAt rfl bytes]
      exact seen
  cases h with
  | int value => exact seen
  | real value => exact seen
  | short kind t => exact seen
  | bigint s =>
    rw [view] at seen ⊢
    cases shown : a.textAt (.bigint s) s with
    | error cause =>
      rw [shown] at seen
      cases seen
    | ok t =>
      rw [shown] at seen
      rw [text s (kept _ rfl) shown]
      exact seen
  | long kind s =>
    rw [view] at seen ⊢
    cases shown : a.textAt (.long kind s) s with
    | error cause =>
      rw [shown] at seen
      cases seen
    | ok t =>
      rw [shown] at seen
      rw [text s (kept _ rfl) shown]
      exact seen
  | node kind s =>
    unfold view at seen ⊢
    dsimp only at seen ⊢
    cases slots : a.slotsAt s with
    | error fault =>
      rw [slots] at seen
      cases seen
    | ok hs =>
      rw [slots] at seen
      rw [(kept _ rfl).slotsAt rfl slots]
      exact seen

/-! ## The current epoch -/

/-- The share of the current epoch reaches to the end of the storage. -/
theorem shareOf?_current {a : Arena} (distinct : a.ids.Nodup) (start : Epoch → Nat) (size : Nat) :
    shareOf? start size a.current.id a.epochs = some (start a.current, size) := by
  have top (below : List Epoch) (e : Epoch) (other : e.id ∉ below.map Epoch.id) :
      shareOf? start size e.id (below ++ [e]) = some (start e, size) := by
    induction below with
    | nil => exact if_pos rfl
    | cons x below ih =>
      rw [List.map_cons, List.mem_cons, not_or] at other
      rw [List.cons_append, shareOf?, if_neg (Ne.symm other.1)]
      exact ih other.2
  have split : a.epochs = a.epochs.dropLast ++ [a.current] :=
    (List.dropLast_append_getLast a.epochs_ne_nil).symm
  rw [ids, split, List.map_append, List.nodup_append] at distinct
  rw [split]
  apply top
  intro among
  exact distinct.2.2 _ among _ List.mem_cons_self rfl

/-- The share of the current epoch begins within the storages. -/
theorem Orderly.current_le {a : Arena} (orderly : a.Orderly) :
    a.current.byteStart ≤ a.bytes.size ∧ a.current.slotStart ≤ a.slots.size := by
  have among : a.current ∈ a.epochs := List.getLast_mem a.epochs_ne_nil
  exact ⟨orderly.bytes.le_size (List.mem_map_of_mem among),
    orderly.slots.le_size (List.mem_map_of_mem among)⟩

namespace Grows

variable {a b c : Arena}

theorem trans (first : a.Grows b) (second : b.Grows c) : a.Grows c := by
  obtain ⟨bs, bytes⟩ := first.bytes
  obtain ⟨bs', bytes'⟩ := second.bytes
  obtain ⟨hs, slots⟩ := first.slots
  obtain ⟨hs', slots'⟩ := second.slots
  refine ⟨second.epochs.trans first.epochs, ⟨bs ++ bs', ?_⟩, ⟨hs ++ hs', ?_⟩⟩
  · rw [bytes', bytes, ByteArray.append_assoc]
  · rw [slots', slots, Array.append_assoc]

/-- The current epoch stays the same while storages grow. -/
theorem current_eq (h : a.Grows b) : b.current = a.current := by
  unfold current
  simp only [h.epochs]

theorem ids_eq (h : a.Grows b) : b.ids = a.ids := congrArg (List.map Epoch.id) h.epochs

end Grows

/-- A stretch of the current epoch is looked up by what 32 bits keep of its offset and of its length. Their
sum can be too great for 32 bits again, but it does not lie behind the storage. -/
theorem locate_sliceBetween_eq {a b : Arena} (start : Epoch → Nat) {size first last : Nat}
    (same : b.epochs = a.epochs) (distinct : a.ids.Nodup) (order : first ≤ last) (high : last ≤ size) :
    b.locate start size (a.sliceBetween first last) =
      if first % UInt32.size < start a.current then .error .stale
      else if first % UInt32.size + (last - first) % UInt32.size < UInt32.size then
        .ok (first % UInt32.size, first % UInt32.size + (last - first) % UInt32.size)
      else .error .overflow := by
  have place : (a.sliceBetween first last).start.toNat = first % UInt32.size := UInt32.toNat_ofNat'
  have length : (a.sliceBetween first last).length.toNat = (last - first) % UInt32.size := by
    rw [a.length_sliceBetween order]
    exact UInt32.toNat_ofNat'
  have share : shareOf? start size (a.sliceBetween first last).epoch b.epochs =
      some (start a.current, size) := by
    rw [same]
    exact shareOf?_current distinct start size
  have within : ¬size < first % UInt32.size + (last - first) % UInt32.size := by
    have := Nat.mod_le first UInt32.size
    have := Nat.mod_le (last - first) UInt32.size
    omega
  unfold locate
  rw [share]
  dsimp only
  rw [place, length]
  simp only [or_iff_left within]

/-- The stretch between two offsets of the current epoch can be given. -/
theorem locate_sliceBetween {a b : Arena} {start : Epoch → Nat} {size first last : Nat}
    (same : b.epochs = a.epochs) (distinct : a.ids.Nodup) (low : start a.current ≤ first)
    (order : first ≤ last) (high : last ≤ size) (small : size < UInt32.size) :
    b.locate start size (a.sliceBetween first last) = .ok (first, last) := by
  have place : first % UInt32.size = first := Nat.mod_eq_of_lt (by omega)
  have length : (last - first) % UInt32.size = last - first := Nat.mod_eq_of_lt (by omega)
  rw [locate_sliceBetween_eq start same distinct order high, place, length, Nat.add_sub_cancel' order,
    if_neg (by omega), if_pos (by omega)]

/-! ## Leaves -/

theorem fromUTF8?_toUTF8 (s : String) : String.fromUTF8? s.toUTF8 = some s := dif_pos s.isValidUTF8

/-- A text that was appended is at its stretch. -/
theorem textAt_appendText {a : Arena} (orderly : a.Orderly) (distinct : a.ids.Nodup) (h : Handle)
    (s : String) (small : (a.appendText s).2.bytes.size < UInt32.size) :
    (a.appendText s).2.textAt h (a.appendText s).1 = .ok s := by
  have size : (a.appendText s).2.bytes.size = a.bytes.size + s.utf8ByteSize := by
    show (a.bytes ++ s.toUTF8).size = _
    rw [ByteArray.size_append]
    rfl
  have located : (a.appendText s).2.locate Epoch.byteStart (a.appendText s).2.bytes.size
      (a.appendText s).1 = .ok (a.bytes.size, a.bytes.size + s.utf8ByteSize) :=
    locate_sliceBetween rfl distinct orderly.current_le.1 (Nat.le_add_right _ _)
      (Nat.le_of_eq size.symm) small
  have bytes :
      (a.bytes ++ s.toUTF8).extract a.bytes.size (a.bytes.size + s.utf8ByteSize) = s.toUTF8 :=
    ByteArray.extract_append_eq_right rfl rfl
  have taken : (a.appendText s).2.bytesAt (a.appendText s).1 = .ok s.toUTF8 := by
    rw [bytesAt, located]
    exact congrArg Except.ok bytes
  simp only [textAt, taken, fromUTF8?_toUTF8]

theorem slots_text (a : Arena) (kind : TextKind) (s : String) :
    (a.text kind s).2.slots = a.slots := by
  unfold text
  split <;> rfl

/-- A text carries no epoch but the current one. -/
theorem epoch?_text {a : Arena} {kind : TextKind} {s : String} {e : EpochId}
    (carries : (a.text kind s).1.epoch? = some e) : e = a.current.id := by
  unfold text at carries
  split at carries
  · cases carries
  · exact (Option.some.inj carries).symm

/-- A short text shows its text. -/
theorem view_short (a : Arena) (kind : TextKind) (text : ShortText) :
    a.view (.short kind text) = .ok (.ofText kind text.text) := by
  have nil : Handle.short kind text = Handle.nil ↔ kind = .atom ∧ text.text = "[]" := by
    obtain ⟨s, fits⟩ := text
    simp [Handle.nil]
  rw [view, View.ofText]
  simp only [nil]
  split <;> rfl

/-- A long text is not that of the empty list. -/
theorem ofText_of_long {kind : TextKind} {s : String} (long : ¬s.utf8ByteSize ≤ 14) :
    View.ofText kind s = .leaf (Leaf.ofText kind s) := by
  refine if_neg ?_
  rintro ⟨-, rfl⟩
  exact long (by decide)

/-- A text shows its text. -/
theorem view_text {a b : Arena} (orderly : a.Orderly) (distinct : a.ids.Nodup) {kind : TextKind}
    {s : String} (small : (a.text kind s).2.bytes.size < UInt32.size)
    (kept : ∀ e, (a.text kind s).1.epoch? = some e → Keeps e (a.text kind s).2 b) :
    b.view (a.text kind s).1 = .ok (.ofText kind s) := by
  apply view_of_keeps kept
  unfold text at small ⊢
  by_cases short : s.utf8ByteSize ≤ 14
  · rw [dif_pos short]
    exact view_short _ kind ⟨s, short⟩
  · rw [dif_neg short] at small ⊢
    rw [ofText_of_long short]
    show ((a.appendText s).2.textAt _ (a.appendText s).1).map _ = _
    rw [textAt_appendText orderly distinct _ s small]
    rfl

/-- An integer carries no epoch but the current one. -/
theorem epoch?_integer {a : Arena} {value : Int} {e : EpochId}
    (carries : (a.integer value).1.epoch? = some e) : e = a.current.id := by
  unfold integer at carries
  split at carries
  · cases carries
  · exact (Option.some.inj carries).symm

/-- An integer shows its value, or its digits. -/
theorem view_integer {a b : Arena} (orderly : a.Orderly) (distinct : a.ids.Nodup) {value : Int}
    (small : (a.integer value).2.bytes.size < UInt32.size)
    (kept : ∀ e, (a.integer value).1.epoch? = some e → Keeps e (a.integer value).2 b) :
    b.view (a.integer value).1 = .ok (.ofInteger value) := by
  apply view_of_keeps kept
  unfold integer at small ⊢
  by_cases fits : Int64.minValue.toInt ≤ value ∧ value ≤ Int64.maxValue.toInt
  · rw [if_pos fits, View.ofInteger, if_pos fits]
    rfl
  · rw [if_neg fits] at small ⊢
    rw [View.ofInteger, if_neg fits]
    show ((a.appendText (toString value)).2.textAt _ (a.appendText (toString value)).1).map _ = _
    rw [textAt_appendText orderly distinct _ _ small]
    rfl

end Arena

/-! ## Parts -/

namespace Argument

open Arena

variable {a b : Arena} {arg : Argument}

/-- A plain part only lets the storages grow. -/
theorem grows_item (plain : arg.isPlain) (a : Arena) : a.Grows (arg.item a).2 := by
  cases arg with
  | term h => exact .refl a
  | name s => exact a.grows_text .atom s
  | integer value => exact a.grows_integer value
  | work ops h => cases plain

/-- A plain part leaves the slots as they are. -/
theorem slots_item (plain : arg.isPlain) : (arg.item a).2.slots = a.slots := by
  cases arg with
  | term h => rfl
  | name s => exact slots_text a .atom s
  | integer value =>
    show (a.integer value).2.slots = _
    unfold Arena.integer
    split <;> rfl
  | work ops h => cases plain

/-- The handle of a plain part is what was given. -/
theorem given_item (plain : arg.isPlain) (orderly : a.Orderly) (distinct : a.ids.Nodup)
    (small : (arg.item a).2.bytes.size < UInt32.size) (kept : Keeps a.current.id (arg.item a).2 b) :
    arg.Given b (arg.item a).1 := by
  cases arg with
  | term h => exact .term h
  | name s =>
    refine .name (view_text orderly distinct small ?_)
    intro e carries
    rw [epoch?_text carries]
    exact kept
  | integer value =>
    refine .integer (view_integer orderly distinct small ?_)
    intro e carries
    rw [epoch?_integer carries]
    exact kept
  | work ops h => cases plain

/-- Plain parts only let the storages grow. -/
theorem grows_pushItems {args : List Argument} (plain : ∀ arg ∈ args, arg.isPlain) (a : Arena) :
    a.Grows (a.pushItems (items args)) := by
  induction args generalizing a with
  | nil => exact .refl a
  | cons arg rest ih =>
    have first := grows_item (plain arg List.mem_cons_self) a
    have slot := grows_pushSlot (arg.item a).2 (arg.item a).1
    exact (first.trans slot).trans (ih (fun x among => plain x (List.mem_cons_of_mem _ among)) _)

/-- Plain parts append one handle each, which is what was given. -/
theorem given_pushItems {args : List Argument} (plain : ∀ arg ∈ args, arg.isPlain)
    (orderly : a.Orderly) (distinct : a.ids.Nodup)
    (small : (a.pushItems (items args)).bytes.size < UInt32.size)
    (kept : Keeps a.current.id (a.pushItems (items args)) b) :
    ∃ hs, (a.pushItems (items args)).slots = a.slots ++ hs.toArray ∧
      List.Forall₂ (Argument.Given b) args hs := by
  induction args generalizing a with
  | nil => exact ⟨[], Array.append_empty.symm, .nil⟩
  | cons arg rest ih =>
    have plainFirst := plain arg List.mem_cons_self
    have plainRest : ∀ x ∈ rest, x.isPlain := fun x among => plain x (List.mem_cons_of_mem _ among)
    have made := grows_item plainFirst a
    have slot := grows_pushSlot (arg.item a).2 (arg.item a).1
    have next := made.trans slot
    have later := grows_pushItems plainRest ((arg.item a).2.pushSlot (arg.item a).1)
    have orderlyMade := made.orderly orderly
    obtain ⟨hs, slots, given⟩ := ih plainRest (next.orderly orderly) (next.ids_eq ▸ distinct) small
      (next.current_eq ▸ kept)
    refine ⟨(arg.item a).1 :: hs, ?_, .cons ?_ given⟩
    · show (((arg.item a).2.pushSlot (arg.item a).1).pushItems (items rest)).slots = _
      rw [slots]
      show (arg.item a).2.slots.push _ ++ _ = _
      rw [slots_item plainFirst]
      simp
    · refine given_item plainFirst orderly distinct ?_ ?_
      · exact Nat.lt_of_le_of_lt (slot.trans later).size_bytes_le small
      · exact ((slot.trans later).keeps orderlyMade _).trans kept

end Argument

/-! ## Compounds, lists and tuples -/

namespace Arena

variable {a b c : Arena}

theorem view_func {s : Slice} {functor : Handle} {hs : List Handle}
    (slots : b.slotsAt s = .ok (functor :: hs)) :
    b.view (.node .func s) = .ok (.func functor hs) := by
  unfold view
  dsimp only
  rw [slots]

theorem view_list {s : Slice} {hs : List Handle} (slots : b.slotsAt s = .ok hs) :
    b.view (.node .list s) = .ok (.list hs) := by
  unfold view
  dsimp only
  rw [slots]
  cases hs <;> rfl

theorem view_tuple {s : Slice} {hs : List Handle} (slots : b.slotsAt s = .ok hs) :
    b.view (.node .tuple s) = .ok (.tuple hs) := by
  unfold view
  dsimp only
  rw [slots]
  cases hs <;> rfl

/-- A node of the current epoch has as its slots what was appended since its start was noted. -/
theorem slotsAt_nodeFrom (grows : a.Grows c) (orderly : a.Orderly) (distinct : a.ids.Nodup)
    {hs : List Handle} (slots : c.slots = a.slots ++ hs.toArray)
    (small : c.slots.size < UInt32.size) :
    c.slotsAt (c.sliceBetween a.slots.size c.slots.size) = .ok hs := by
  have low : c.current.slotStart ≤ a.slots.size := by
    rw [grows.current_eq]
    exact orderly.current_le.2
  have located := locate_sliceBetween (b := c) rfl (grows.ids_eq ▸ distinct) low grows.size_slots_le
    (Nat.le_refl _) small
  rw [slotsAt, located]
  show Except.ok (c.slots.extract a.slots.size c.slots.size).toList = _
  rw [slots]
  simp

/-- A list or a tuple of plain parts has what was given for them. -/
theorem slotsAt_pushItems {args : List Argument} (plain : ∀ arg ∈ args, arg.isPlain)
    (orderly : a.Orderly) (distinct : a.ids.Nodup)
    (bytesFit : (a.pushItems (Argument.items args)).bytes.size < UInt32.size)
    (slotsFit : (a.pushItems (Argument.items args)).slots.size < UInt32.size)
    (kept : Keeps a.current.id (a.pushItems (Argument.items args)) b) :
    ∃ hs, b.slotsAt ((a.pushItems (Argument.items args)).sliceBetween a.slots.size
        (a.pushItems (Argument.items args)).slots.size) = .ok hs ∧
      List.Forall₂ (Argument.Given b) args hs := by
  have grows := Argument.grows_pushItems plain a
  obtain ⟨hs, slots, given⟩ := Argument.given_pushItems plain orderly distinct bytesFit kept
  refine ⟨hs, kept.slotsAt ?_ (slotsAt_nodeFrom grows orderly distinct slots slotsFit), given⟩
  exact congrArg Epoch.id grows.current_eq

/-- A compound of plain parts has its functor and what was given for its arguments. -/
theorem view_compound {functor : Handle} {arg : Argument} {args : List Argument}
    (plain : ∀ x ∈ arg :: args, x.isPlain) (orderly : a.Orderly) (distinct : a.ids.Nodup)
    (bytesFit : (a.compound functor (Argument.items (arg :: args))).2.bytes.size < UInt32.size)
    (slotsFit : (a.compound functor (Argument.items (arg :: args))).2.slots.size < UInt32.size)
    (kept : Keeps a.current.id (a.compound functor (Argument.items (arg :: args))).2 b) :
    ∃ hs, b.view (a.compound functor (Argument.items (arg :: args))).1 = .ok (.func functor hs) ∧
      List.Forall₂ (Argument.Given b) (arg :: args) hs := by
  have slot := grows_pushSlot a functor
  have rest := Argument.grows_pushItems plain (a.pushSlot functor)
  obtain ⟨hs, slots, given⟩ := Argument.given_pushItems (a := a.pushSlot functor) plain
    (slot.orderly orderly) (slot.ids_eq ▸ distinct) bytesFit (slot.current_eq ▸ kept)
  refine ⟨hs, ?_, given⟩
  have pushed : ((a.pushSlot functor).pushItems (Argument.items (arg :: args))).slots =
      a.slots ++ (functor :: hs).toArray := by
    rw [slots]
    show a.slots.push functor ++ _ = _
    simp
  have now := slotsAt_nodeFrom (slot.trans rest) orderly distinct pushed slotsFit
  have same : ((a.pushSlot functor).pushItems (Argument.items (arg :: args))).current.id =
      a.current.id := congrArg Epoch.id (slot.trans rest).current_eq
  have later := kept.slotsAt same now
  exact view_func later

end Arena

namespace Operation

open Arena

variable {a b : Arena} {h : Handle}

/-- A compound shows its name and its arguments. -/
theorem given_func {name : String} {args : List Argument} (plain : ∀ arg ∈ args, arg.isPlain)
    (orderly : a.Orderly) (distinct : a.ids.Nodup)
    (bytesFit : (a.func name (Argument.items args)).2.bytes.size < UInt32.size)
    (slotsFit : (a.func name (Argument.items args)).2.slots.size < UInt32.size)
    (kept : ∀ e, (a.func name (Argument.items args)).1.epoch? = some e →
      Keeps e (a.func name (Argument.items args)).2 b) :
    (func name args).Given b (a.func name (Argument.items args)).1 := by
  cases args with
  | nil => exact view_text orderly distinct bytesFit kept
  | cons arg rest =>
    have named := a.grows_text .atom name
    have slot := grows_pushSlot (a.atom name).2 (a.atom name).1
    have later := slot.trans (Argument.grows_pushItems plain _)
    have current := (named.trans later).current_eq
    have whole : Keeps a.current.id (a.func name (Argument.items (arg :: rest))).2 b :=
      kept _ (congrArg (fun e : Epoch => some e.id) current)
    obtain ⟨hs, seen, given⟩ :=
      view_compound plain (named.orderly orderly) (named.ids_eq ▸ distinct)
      bytesFit slotsFit (named.current_eq ▸ whole)
    refine ⟨_, hs, seen, ?_, given⟩
    -- the name lies below the arguments in the same epoch
    refine view_text orderly distinct (Nat.lt_of_le_of_lt later.size_bytes_le bytesFit) ?_
    intro e carries
    rw [epoch?_text carries]
    exact (later.keeps (named.orderly orderly) _).trans whole

/-- A compound shows its functor and its arguments. -/
theorem given_funcOfItems {items : List Argument} {made : Arena}
    (plain : ∀ arg ∈ items, arg.isPlain) (orderly : a.Orderly) (distinct : a.ids.Nodup)
    (makes : a.funcOfItems (Argument.items items) = (.ok h, made))
    (bytesFit : made.bytes.size < UInt32.size) (slotsFit : made.slots.size < UInt32.size)
    (kept : ∀ e, h.epoch? = some e → Keeps e made b) : (funcOfItems items).Given b h := by
  cases items with
  | nil => cases makes
  | cons first args =>
    have plainFirst := plain first List.mem_cons_self
    have plainArgs : ∀ x ∈ args, x.isPlain := fun x among => plain x (List.mem_cons_of_mem _ among)
    have named := Argument.grows_item plainFirst a
    rw [Argument.items, Arena.funcOfItems] at makes
    dsimp only at makes
    split at makes
    · obtain ⟨same, rfl⟩ := Prod.mk.inj makes
      obtain rfl := Except.ok.inj same
      cases args with
      | nil =>
        cases first with
        | term h => exact .term h
        | name s => exact .name (view_text orderly distinct bytesFit kept)
        | integer value => exact .integer (view_integer orderly distinct bytesFit kept)
        | work ops h => cases plainFirst
      | cons arg rest =>
        have slot := grows_pushSlot (first.item a).2 (first.item a).1
        have later := slot.trans (Argument.grows_pushItems plainArgs _)
        have current := (named.trans later).current_eq
        have whole : Keeps a.current.id _ b :=
          kept _ (congrArg (fun e : Epoch => some e.id) current)
        obtain ⟨hs, seen, given⟩ := view_compound plainArgs (named.orderly orderly)
          (named.ids_eq ▸ distinct) bytesFit slotsFit (named.current_eq ▸ whole)
        refine ⟨_, hs, seen, ?_, given⟩
        refine Argument.given_item plainFirst orderly distinct ?_ ?_
        · exact Nat.lt_of_le_of_lt later.size_bytes_le bytesFit
        · exact (later.keeps (named.orderly orderly) _).trans whole
    · cases makes

/-- A list shows its elements. -/
theorem given_list {items : List Argument} (plain : ∀ arg ∈ items, arg.isPlain)
    (orderly : a.Orderly) (distinct : a.ids.Nodup)
    (bytesFit : (a.list (Argument.items items)).2.bytes.size < UInt32.size)
    (slotsFit : (a.list (Argument.items items)).2.slots.size < UInt32.size)
    (kept : ∀ e, (a.list (Argument.items items)).1.epoch? = some e →
      Keeps e (a.list (Argument.items items)).2 b) :
    (list items).Given b (a.list (Argument.items items)).1 := by
  cases items with
  | nil => exact ⟨[], rfl, .nil⟩
  | cons item rest =>
    have current := (Argument.grows_pushItems plain a).current_eq
    have whole : Keeps a.current.id _ b := kept _ (congrArg (fun e : Epoch => some e.id) current)
    obtain ⟨hs, slots, given⟩ := slotsAt_pushItems plain orderly distinct bytesFit slotsFit whole
    refine ⟨hs, ?_, given⟩
    exact view_list slots

/-- A tuple shows its elements. -/
theorem given_tuple {items : List Argument} (plain : ∀ arg ∈ items, arg.isPlain)
    (orderly : a.Orderly) (distinct : a.ids.Nodup)
    (bytesFit : (a.tuple (Argument.items items)).2.bytes.size < UInt32.size)
    (slotsFit : (a.tuple (Argument.items items)).2.slots.size < UInt32.size)
    (kept : ∀ e, (a.tuple (Argument.items items)).1.epoch? = some e →
      Keeps e (a.tuple (Argument.items items)).2 b) :
    (tuple items).Given b (a.tuple (Argument.items items)).1 := by
  cases items with
  | nil => rfl
  | cons item rest =>
    have current := (Argument.grows_pushItems plain a).current_eq
    have whole : Keeps a.current.id _ b := kept _ (congrArg (fun e : Epoch => some e.id) current)
    obtain ⟨hs, slots, given⟩ := slotsAt_pushItems plain orderly distinct bytesFit slotsFit whole
    refine ⟨hs, ?_, given⟩
    exact view_tuple slots

/-- A change of the epochs makes no term. -/
theorem ofChange_ne_made (result : Except TermError Arena) (made : Arena) :
    Outcome.ofChange a result ≠ (.made h, made) := by
  intro makes
  cases result <;> cases makes

/-- The constructors with the handle that each gives back and the arena then. -/
inductive Makes (a : Arena) : Operation → Handle → Arena → Prop where
  | text (kind : TextKind) (s : String) : Makes a (.text kind s) (a.text kind s).1 (a.text kind s).2
  | integer (value : Int) : Makes a (.integer value) (a.integer value).1 (a.integer value).2
  | func (name : String) (args : List Argument) : Makes a (.func name args)
    (a.func name (Argument.items args)).1 (a.func name (Argument.items args)).2
  | funcOfItems {items : List Argument} {h : Handle} {made : Arena} :
    a.funcOfItems (Argument.items items) = (.ok h, made) → Makes a (.funcOfItems items) h made
  | list (items : List Argument) : Makes a (.list items)
    (a.list (Argument.items items)).1 (a.list (Argument.items items)).2
  | tuple (items : List Argument) : Makes a (.tuple items)
    (a.tuple (Argument.items items)).1 (a.tuple (Argument.items items)).2

/-- No other operation gives back a handle. -/
theorem makes_of_perform {op : Operation} {made : Arena} (makes : op.perform a = (.made h, made)) :
    Makes a op h made := by
  cases op with
  | text kind s =>
    cases makes
    exact .text kind s
  | integer value =>
    cases makes
    exact .integer value
  | func name args =>
    cases makes
    exact .func name args
  | funcOfItems items =>
    rw [perform] at makes
    obtain ⟨same, rfl⟩ := Prod.mk.inj makes
    cases result : (a.funcOfItems (Argument.items items)).1 with
    | error cause =>
      rw [result] at same
      cases same
    | ok made =>
      rw [result] at same
      obtain rfl := Outcome.made.inj same
      exact .funcOfItems (Prod.ext result rfl)
  | list items =>
    cases makes
    exact .list items
  | tuple items =>
    cases makes
    exact .tuple items
  | beginEpoch fresh => exact absurd makes (ofChange_ne_made _ _)
  | truncate id => exact absurd makes (ofChange_ne_made _ _)
  | truncateCurrent => exact absurd makes (ofChange_ne_made _ _)
  | clear => exact absurd makes (ofChange_ne_made _ _)

/-- What a constructor of plain parts returns shows what the constructor was given, and does so as
long as the share of the epoch that it carries keeps what it has. -/
theorem given_of_keeps {op : Operation} {made : Arena} (plain : ∀ arg ∈ op.args, arg.isPlain)
    (orderly : a.Orderly) (distinct : a.ids.Nodup) (makes : op.perform a = (.made h, made))
    (bytesFit : made.bytes.size < UInt32.size) (slotsFit : made.slots.size < UInt32.size)
    (kept : ∀ e, h.epoch? = some e → Keeps e made b) : op.Given b h := by
  cases makes_of_perform makes with
  | text kind s => exact view_text orderly distinct bytesFit kept
  | integer value => exact view_integer orderly distinct bytesFit kept
  | func name args => exact given_func plain orderly distinct bytesFit slotsFit kept
  | funcOfItems made => exact given_funcOfItems plain orderly distinct made bytesFit slotsFit kept
  | list items => exact given_list plain orderly distinct bytesFit slotsFit kept
  | tuple items => exact given_tuple plain orderly distinct bytesFit slotsFit kept

/-- After any operations, a handle that a constructor returned shows what the constructor was given,
as long as the epoch in which it was made has not been erased. -/
theorem given_of_not_erased {id : ArenaId} {bottom : EpochId} {before after : List Operation}
    {op : Operation} {made : Arena} (plain : ∀ arg ∈ op.args, arg.isPlain)
    (distinct : (performAll before (create id bottom)).ids.Nodup)
    (makes : op.perform (performAll before (create id bottom)) = (.made h, made))
    (bytesFit : made.bytes.size < UInt32.size) (slotsFit : made.slots.size < UInt32.size)
    (lives : ∀ e, h.epoch? = some e → .erased e ∉ eventsAll after made) :
    op.Given (performAll after made) h ∧
      ∀ v, made.view h = .ok v → (performAll after made).view h = .ok v := by
  have orderly := (course_all before (create id bottom)).orderly (orderly_create id bottom)
  have course := op.course (performAll before (create id bottom))
  rw [makes] at course
  have kept : ∀ e, h.epoch? = some e → Keeps e made (performAll after made) := by
    intro e carries
    exact (course_all after made).keeps (course.orderly orderly) (lives e carries)
  refine ⟨given_of_keeps plain orderly distinct makes bytesFit slotsFit kept, ?_⟩
  intro v seen
  exact view_of_keeps kept seen

/-- A compound with a long name, the name of the empty list and a big integer. -/
def labelled : Operation :=
  .func "the name of a compound" [.name "[]", .integer 100000000000000000000, .term (.int 7)]

/-- What may come after it: another epoch with a text, its erasure, and a text in its place. -/
def laterTexts : List Operation :=
  [.beginEpoch ⟨2⟩, .text .str "a text in another epoch", .truncate ⟨2⟩,
    .text .atom "a name in its place"]

theorem given_labelled :
    ∃ h made, labelled.perform (performAll [.beginEpoch ⟨1⟩] (create ⟨0⟩ ⟨0⟩)) = (.made h, made) ∧
      labelled.Given (performAll laterTexts made) h := by
  refine ⟨_, _, rfl, ?_⟩
  refine (given_of_not_erased ?_ ?_ rfl ?_ ?_ ?_).1
  · decide
  · decide +kernel
  · decide +kernel
  · decide +kernel
  · intro e carries
    obtain rfl : (⟨1⟩ : EpochId) = e := Option.some.inj carries
    decide +kernel

end Operation

end PrologWire
