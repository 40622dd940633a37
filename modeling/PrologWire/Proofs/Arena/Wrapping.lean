import PrologWire.Proofs.Arena.Items

/-!
# Offsets that wrap

Of the offset and of the length of a stretch of storage a handle keeps the last 32 bits. Behind the first
`2 ^ 32` entries of a storage these name a stretch further down. It is refused where it begins below the share
of the current epoch; else it is looked up, and shows whatever older entries are there, or its two numbers add
up to more than 32 bits. So what a constructor gives back shows what the constructor was given, or is refused,
exactly if one of three things is so: nothing had to be stored, the wrapped offset lies below the share, or
the entries at the wrapped stretch are those that were stored. A length wraps as well if parts erase the
slots in front of them, and then nothing is shown.
-/

namespace PrologWire

namespace Arena

/-- What was made shows this content, or its handle is refused as invalid. -/
def ShowsOrRefuses (made : Handle × Arena) (content : View Handle) : Prop :=
  made.2.view made.1 = .ok content ∨ made.2.view made.1 = .error (.invalidTerm made.1)

variable {a : Arena}

/-- Looked up by what 32 bits keep of its offset and of its length, a stretch of the current epoch has the
given entries or is stale, exactly if it is so found where these entries are or below the share of the epoch. -/
theorem locate_sliceBetween_iff {α : Type} {b : Arena} (start : Epoch → Nat) {size first last : Nat}
    (same : b.epochs = a.epochs) (distinct : a.ids.Nodup) (order : first ≤ last) (high : last ≤ size)
    (entries : Nat × Nat → α) (x : α) :
    ((b.locate start size (a.sliceBetween first last)).map entries = .ok x ∨
        b.locate start size (a.sliceBetween first last) = .error .stale) ↔
      first % UInt32.size < start a.current ∨
        first % UInt32.size + (last - first) % UInt32.size < UInt32.size ∧
          entries (first % UInt32.size, first % UInt32.size + (last - first) % UInt32.size) = x := by
  rw [locate_sliceBetween_eq start same distinct order high]
  split
  · next below => exact iff_of_true (.inr rfl) (.inl below)
  · next inside =>
    rw [or_iff_right inside]
    split
    · next small =>
      constructor
      · rintro (found | stale)
        · exact ⟨small, Except.ok.inj found⟩
        · cases stale
      · rintro ⟨-, found⟩
        exact .inl (congrArg Except.ok found)
    · next great =>
      constructor
      · rintro (found | stale)
        · cases found
        · cases stale
      · rintro ⟨small, -⟩
        exact absurd small great

/-! ## Texts -/

/-- A text that is appended to the byte storage is what is found at the stretch that 32 bits keep of its own,
or this stretch begins below the share of the current epoch. -/
def ReadsBack (a : Arena) (s : String) : Prop :=
  a.bytes.size % UInt32.size < a.current.byteStart ∨
    a.bytes.size % UInt32.size + s.utf8ByteSize % UInt32.size < UInt32.size ∧
      (a.bytes ++ s.toUTF8).extract (a.bytes.size % UInt32.size)
        (a.bytes.size % UInt32.size + s.utf8ByteSize % UInt32.size) = s.toUTF8

theorem size_bytes_appendText (a : Arena) (s : String) :
    (a.appendText s).2.bytes.size = a.bytes.size + s.utf8ByteSize :=
  ByteArray.size_append

/-- A text that ends in front of the first `2 ^ 32` bytes is read back. -/
theorem readsBack_of_fits {s : String} (fits : a.bytes.size + s.utf8ByteSize < UInt32.size) :
    a.ReadsBack s := by
  have place : a.bytes.size % UInt32.size = a.bytes.size := Nat.mod_eq_of_lt (by omega)
  have length : s.utf8ByteSize % UInt32.size = s.utf8ByteSize := Nat.mod_eq_of_lt (by omega)
  rw [ReadsBack, place, length]
  exact .inr ⟨fits, ByteArray.extract_append_eq_right rfl rfl⟩

/-- Exactly the bytes of a text are read as the text. -/
theorem textAt_eq_ok_iff {h : Handle} {slice : Slice} {t : String} :
    a.textAt h slice = .ok t ↔ a.bytesAt slice = .ok t.toUTF8 := by
  unfold textAt
  rcases a.bytesAt slice with fault | bs
  · exact iff_of_false (by rintro ⟨⟩) (by rintro ⟨⟩)
  · dsimp only
    constructor
    · intro read
      unfold String.fromUTF8? at read
      split at read
      · next text valid =>
        split at valid
        · obtain rfl := Except.ok.inj read
          obtain rfl := Option.some.inj valid
          rfl
        · cases valid
      · cases read
    · intro same
      rw [Except.ok.inj same, fromUTF8?_toUTF8]

/-- A handle that shows what is at the stretch of an appended text. -/
theorem showsOrRefuses_appendText_iff (shown : String → View Handle) (distinct : a.ids.Nodup) {s : String}
    {h : Handle} (tells : ∀ t, shown t = shown s → t = s)
    (seen : (a.appendText s).2.view h = ((a.appendText s).2.textAt h (a.appendText s).1).map shown)
    (stale : (a.appendText s).2.IsStale h ↔
      (a.appendText s).2.locate (·.byteStart) (a.appendText s).2.bytes.size (a.appendText s).1 =
        .error .stale) :
    ShowsOrRefuses (h, (a.appendText s).2) (shown s) ↔ a.ReadsBack s := by
  have shows : (a.appendText s).2.view h = .ok (shown s) ↔
      (a.appendText s).2.textAt h (a.appendText s).1 = .ok s := by
    rw [seen]
    rcases (a.appendText s).2.textAt h (a.appendText s).1 with cause | t
    · exact iff_of_false (by rintro ⟨⟩) (by rintro ⟨⟩)
    · constructor
      · intro same
        rw [tells t (Except.ok.inj same)]
      · intro same
        rw [Except.ok.inj same]
        rfl
  have found := locate_sliceBetween_iff (b := (a.appendText s).2) (·.byteStart) rfl distinct
    (Nat.le_add_right a.bytes.size s.utf8ByteSize) (Nat.le_of_eq (size_bytes_appendText a s).symm)
    (fun r => (a.appendText s).2.bytes.extract r.1 r.2) s.toUTF8
  rw [Nat.add_sub_cancel_left] at found
  rw [ShowsOrRefuses, shows, view_eq_invalidTerm_iff, stale, textAt_eq_ok_iff]
  exact found

/-- A text shows itself or is refused exactly if it is inside its handle or is read back. -/
theorem showsOrRefuses_text_iff (distinct : a.ids.Nodup) (kind : TextKind) (s : String) :
    ShowsOrRefuses (a.text kind s) (.ofText kind s) ↔ s.utf8ByteSize ≤ 14 ∨ a.ReadsBack s := by
  unfold text
  by_cases short : s.utf8ByteSize ≤ 14
  · rw [dif_pos short]
    exact iff_of_true (.inl (view_short _ kind ⟨s, short⟩)) (.inl short)
  · rw [dif_neg short, or_iff_right short, ofText_of_long short]
    refine showsOrRefuses_appendText_iff (fun t => .leaf (Leaf.ofText kind t)) distinct ?_ rfl Iff.rfl
    intro t same
    cases kind <;> cases same <;> rfl

/-- So it is with the digits of an integer. -/
theorem showsOrRefuses_integer_iff (distinct : a.ids.Nodup) (value : Int) :
    ShowsOrRefuses (a.integer value) (.ofInteger value) ↔
      Int64.minValue.toInt ≤ value ∧ value ≤ Int64.maxValue.toInt ∨ a.ReadsBack (toString value) := by
  unfold integer View.ofInteger
  by_cases small : Int64.minValue.toInt ≤ value ∧ value ≤ Int64.maxValue.toInt
  · rw [if_pos small, if_pos small]
    exact iff_of_true (.inl rfl) (.inl small)
  · rw [if_neg small, if_neg small, or_iff_right small]
    refine showsOrRefuses_appendText_iff (fun t => .leaf (.bigint t)) distinct ?_ rfl Iff.rfl
    intro t same
    exact Leaf.bigint.inj (View.leaf.inj same)

end Arena

/-! ## Parts -/

namespace Construction

open Arena

/-- What a handle of such a term is. -/
def kind : Construction → NodeKind
  | func _ | funcOfItems _ => .func
  | list => .list
  | tuple => .tuple

/-- Where the slots of the term begin. -/
def first (c : Construction) (a : Arena) : Nat :=
  match c with
  | func _ | list | tuple => a.slots.size
  | funcOfItems functor => (functor a).2.slots.size

/-- The slots of a term with the given parts: a compound has its functor in front of them. -/
def stored (c : Construction) (a : Arena) (hs : List Handle) : List Handle :=
  match c with
  | func name => (a.atom name).1 :: hs
  | funcOfItems functor => (functor a).1 :: hs
  | list | tuple => hs

/-- What the items yield, behind the functor, is what is found at the stretch that 32 bits keep of that of the
term, or this stretch begins below the share of the current epoch. -/
def ReadsBack (c : Construction) (a : Arena) (items : List Item) : Prop :=
  c.first a % UInt32.size < a.current.slotStart ∨
    c.first a % UInt32.size + ((c.build a items).2.slots.size - c.first a) % UInt32.size < UInt32.size ∧
      ((c.build a items).2.slots.extract (c.first a % UInt32.size) (c.first a % UInt32.size +
        ((c.build a items).2.slots.size - c.first a) % UInt32.size)).toList =
          c.stored a ((c.start a).yields items)

variable {c : Construction} {a b : Arena} {items : List Item}

theorem view_node_of_error {kind : NodeKind} {slice : Slice} {fault : SliceFault}
    (missing : b.slotsAt slice = .error fault) :
    b.view (.node kind slice) = .error (fault.error (.node kind slice)) := by
  unfold view
  dsimp only
  rw [missing]

/-- A handle of a term shows the parts that its slots have behind the functor. -/
theorem view_node_eq_shown_iff {slice : Slice} {hs : List Handle} :
    b.view (.node c.kind slice) = .ok (c.shown a hs) ↔ b.slotsAt slice = .ok (c.stored a hs) := by
  rcases found : b.slotsAt slice with fault | ks
  · rw [view_node_of_error found]
    exact iff_of_false (by rintro ⟨⟩) (by rintro ⟨⟩)
  have compound (functor : Handle) :
      b.view (.node .func slice) = .ok (.func functor hs) ↔ ks = functor :: hs := by
    cases ks with
    | nil =>
      refine iff_of_false ?_ (by rintro ⟨⟩)
      unfold view
      dsimp only
      rw [found]
      rintro ⟨⟩
    | cons k ks => rw [view_func found, Except.ok.injEq, View.func.injEq, List.cons.injEq]
  rw [Except.ok.injEq]
  cases c with
  | func name => exact compound _
  | funcOfItems functor => exact compound _
  | list => rw [kind, view_list found, shown, Except.ok.injEq, View.list.injEq, stored]
  | tuple => rw [kind, view_tuple found, shown, Except.ok.injEq, View.tuple.injEq, stored]

/-- The handle of what is built. -/
theorem build_fst (some : items ≠ []) (functor : c.FunctorFits a) :
    (c.build a items).1 = .ok (.node c.kind
      ((c.build a items).2.sliceBetween (c.first a) (c.build a items).2.slots.size)) := by
  obtain ⟨item, rest, rfl⟩ := List.exists_cons_of_ne_nil some
  cases c with
  | func name =>
    have named : (a.atom name).2.slots.size = a.slots.size := congrArg Array.size (slots_text a .atom name)
    rw [first, ← named]
    rfl
  | funcOfItems f =>
    have built : a.funcOfItems (f :: item :: rest) =
        (.ok ((f a).2.compound (f a).1 (item :: rest)).1, ((f a).2.compound (f a).1 (item :: rest)).2) :=
      if_pos functor.2
    rw [build, built]
    rfl
  | list => rfl
  | tuple => rfl

/-- The functor of what is built only appends. -/
theorem appends_functor (functor : c.FunctorFits a) (f : Item) (same : c = .funcOfItems f) : f.Appends := by
  subst same
  exact functor.1

theorem first_le (functor : c.FunctorFits a) (appends : ∀ item ∈ items, item.Appends) :
    c.first a ≤ (c.build a items).2.slots.size := by
  have grows := (c.grows_build (appends_functor functor) appends a).size_slots_le
  cases c with
  | func name => exact grows
  | list => exact grows
  | tuple => exact grows
  | funcOfItems f =>
    have built : (a.funcOfItems (f :: items)).2 = ((f a).2.compound (f a).1 items).2 :=
      congrArg Prod.snd (if_pos functor.2)
    rw [build, built]
    exact (grows_compound appends (f a).2 (f a).1).size_slots_le

/-- A term with parts shows the handles that its items yielded, or is refused, exactly if they are read back. -/
theorem showsOrRefuses_build_iff (some : items ≠ []) (distinct : a.ids.Nodup) (functor : c.FunctorFits a)
    (appends : ∀ item ∈ items, item.Appends) :
    ∃ h, (c.build a items).1 = .ok h ∧
      (ShowsOrRefuses (h, (c.build a items).2) (c.shown a ((c.start a).yields items)) ↔
        c.ReadsBack a items) := by
  have grows := c.grows_build (appends_functor functor) appends a
  refine ⟨_, build_fst some functor, ?_⟩
  have found := locate_sliceBetween_iff (·.slotStart) rfl (grows.ids_eq ▸ distinct)
    (first_le functor appends) (Nat.le_refl _) (fun r => ((c.build a items).2.slots.extract r.1 r.2).toList)
    (c.stored a ((c.start a).yields items))
  rw [grows.current_eq] at found
  rw [ShowsOrRefuses, view_node_eq_shown_iff, view_eq_invalidTerm_iff]
  exact found

/-- In front of the first `2 ^ 32` slots they are read back exactly if the items leave no slots of their
own. -/
theorem readsBack_iff_of_fits (some : items ≠ []) (orderly : a.Orderly) (distinct : a.ids.Nodup)
    (functor : c.FunctorFits a) (appends : ∀ item ∈ items, item.Appends)
    (fits : (c.build a items).2.slots.size < UInt32.size) :
    c.ReadsBack a items ↔ (c.start a).ownSlots items = 0 := by
  obtain ⟨h, made, iff⟩ := showsOrRefuses_build_iff some distinct functor appends
  obtain ⟨h', hs, made', seen, among, length⟩ := c.exists_view_build some orderly distinct functor appends fits
  obtain rfl : h = h' := Except.ok.inj (made.symm.trans made')
  rw [← iff, ← eq_yields_iff among length]
  constructor
  · rintro (shows | refuses)
    · exact c.shown_injective a (Except.ok.inj (seen.symm.trans shows))
    · cases seen.symm.trans refuses
  · intro same
    rw [same] at seen
    exact .inl seen

end Construction

namespace Arena

variable {a : Arena}

/-- What a constructor gives back, looked at at once, shows what the constructor was given or is refused as
invalid, exactly if it is inside the handle or is read back at the stretch that 32 bits keep of its own. A
text or the digits of an integer that end in front of the first `2 ^ 32` bytes are read back, and so are parts
that end in front of the first `2 ^ 32` slots if no part that is made meanwhile leaves slots of its own. -/
theorem showsOrRefuses_iff (orderly : a.Orderly) (distinct : a.ids.Nodup) :
    (∀ kind s, ShowsOrRefuses (a.text kind s) (.ofText kind s) ↔ s.utf8ByteSize ≤ 14 ∨ a.ReadsBack s) ∧
    (∀ value, ShowsOrRefuses (a.integer value) (.ofInteger value) ↔
      Int64.minValue.toInt ≤ value ∧ value ≤ Int64.maxValue.toInt ∨ a.ReadsBack (toString value)) ∧
    (∀ s, a.bytes.size + s.utf8ByteSize < UInt32.size → a.ReadsBack s) ∧
    (∀ (c : Construction) (items : List Item), items ≠ [] → c.FunctorFits a →
      (∀ item ∈ items, item.Appends) →
      (∃ h, (c.build a items).1 = .ok h ∧
        (ShowsOrRefuses (h, (c.build a items).2) (c.shown a ((c.start a).yields items)) ↔
          c.ReadsBack a items)) ∧
      ((c.build a items).2.slots.size < UInt32.size →
        (c.ReadsBack a items ↔ (c.start a).ownSlots items = 0))) ∧
    (∀ name, a.func name [] = a.text .atom name) ∧ ShowsOrRefuses (a.list []) (.list []) ∧
      ShowsOrRefuses (a.tuple []) (.leaf (.atom "unit")) := by
  refine ⟨showsOrRefuses_text_iff distinct, showsOrRefuses_integer_iff distinct, fun s => readsBack_of_fits, ?_,
    fun name => rfl, .inl rfl, .inl rfl⟩
  intro c items some functor appends
  exact ⟨c.showsOrRefuses_build_iff some distinct functor appends,
    c.readsBack_iff_of_fits some orderly distinct functor appends⟩

/-! ## Slots that are erased meanwhile -/

/-- If items erase the epoch in which a term with parts has begun, so that its first slot would lie behind the
end of the storage, what is given back is refused, whatever the wrapped length is. -/
theorem view_nodeFrom_of_lt (orderly : a.Orderly) (kind : NodeKind) {start : Nat}
    (erased : a.slots.size < start) (fits : start < UInt32.size) :
    (a.nodeFrom kind start).2.view (a.nodeFrom kind start).1 =
      .error (.invalidTerm (a.nodeFrom kind start).1) := by
  have place : (UInt32.ofNat start).toNat = start := UInt32.toNat_ofNat_of_lt' fits
  rw [view_eq_invalidTerm_iff]
  show a.locate (·.slotStart) a.slots.size (a.sliceBetween start a.slots.size) = .error .stale
  unfold locate
  cases share : shareOf? (·.slotStart) a.slots.size (a.sliceBetween start a.slots.size).epoch a.epochs with
  | none => rfl
  | some r =>
    have high : r.2 ≤ a.slots.size := le_size_of_shareOf? orderly.slots share
    refine if_pos (.inr ?_)
    show r.2 < (UInt32.ofNat start).toNat + _
    omega

/-! ## A full arena -/

/-- Where the stretch of an appended text is looked for. -/
theorem locate_appendText (distinct : a.ids.Nodup) (s : String) :
    (a.appendText s).2.locate (·.byteStart) (a.appendText s).2.bytes.size (a.appendText s).1 =
      if a.bytes.size % UInt32.size < a.current.byteStart then .error .stale
      else if a.bytes.size % UInt32.size + s.utf8ByteSize % UInt32.size < UInt32.size then
        .ok (a.bytes.size % UInt32.size, a.bytes.size % UInt32.size + s.utf8ByteSize % UInt32.size)
      else .error .overflow := by
  have located := locate_sliceBetween_eq (b := (a.appendText s).2) (·.byteStart) rfl distinct
    (Nat.le_add_right a.bytes.size s.utf8ByteSize) (Nat.le_of_eq (size_bytes_appendText a s).symm)
  rw [Nat.add_sub_cancel_left] at located
  exact located

/-- A long text shows what is found at the stretch that 32 bits keep of its own. -/
theorem view_text_of_found {kind : TextKind} {s t : String} (distinct : a.ids.Nodup)
    (long : ¬s.utf8ByteSize ≤ 14) (inside : ¬a.bytes.size % UInt32.size < a.current.byteStart)
    (small : a.bytes.size % UInt32.size + s.utf8ByteSize % UInt32.size < UInt32.size)
    (found : (a.bytes ++ s.toUTF8).extract (a.bytes.size % UInt32.size)
      (a.bytes.size % UInt32.size + s.utf8ByteSize % UInt32.size) = t.toUTF8) :
    (a.text kind s).2.view (a.text kind s).1 = .ok (.leaf (Leaf.ofText kind t)) := by
  have located := locate_appendText distinct s
  rw [if_neg inside, if_pos small] at located
  have read : (a.appendText s).2.textAt (.long kind (a.appendText s).1) (a.appendText s).1 = .ok t := by
    rw [textAt_eq_ok_iff, bytesAt, located]
    exact congrArg Except.ok found
  unfold text
  rw [dif_neg long]
  show ((a.appendText s).2.textAt _ (a.appendText s).1).map _ = _
  rw [read]
  rfl

/-- If the offset and the length that 32 bits keep add up to more than 32 bits, it shows nothing. -/
theorem view_text_of_overflow {kind : TextKind} {s : String} (distinct : a.ids.Nodup)
    (long : ¬s.utf8ByteSize ≤ 14) (inside : ¬a.bytes.size % UInt32.size < a.current.byteStart)
    (great : ¬a.bytes.size % UInt32.size + s.utf8ByteSize % UInt32.size < UInt32.size) :
    (a.text kind s).2.view (a.text kind s).1 = .error (.malformedSlice (a.text kind s).1) := by
  have located := locate_appendText distinct s
  rw [if_neg inside, if_neg great] at located
  unfold text
  rw [dif_neg long]
  show ((a.appendText s).2.textAt (.long kind (a.appendText s).1) (a.appendText s).1).map _ = _
  unfold textAt bytesAt
  rw [located]
  rfl

/-- An arena in which so many atoms with names of 16 bytes were made. -/
def filled : Nat → Arena
  | 0 => create ⟨0⟩ ⟨0⟩
  | n + 1 => ((filled n).atom "0123456789abcdef").2

theorem size_bytes_filled (n : Nat) : (filled n).bytes.size = 16 * n := by
  induction n with
  | zero => rfl
  | succ n ih =>
    have longer : (filled (n + 1)).bytes.size = (filled n).bytes.size + 16 := ByteArray.size_append
    omega

theorem grows_filled {m n : Nat} (le : m ≤ n) : (filled m).Grows (filled n) := by
  induction le with
  | refl => exact .refl _
  | step _ ih => exact ih.trans (grows_text _ .atom _)

theorem nodup_ids_filled (n : Nat) : (filled n).ids.Nodup := by
  rw [(grows_filled n.zero_le).ids_eq]
  decide

theorem byteStart_filled (n : Nat) : (filled n).current.byteStart = 0 := by
  rw [(grows_filled n.zero_le).current_eq]
  rfl

/-- Behind `2 ^ 32` bytes of such names the name of the next atom is looked for at the beginning. -/
theorem view_behind_filled {n : Nat} (full : 16 * n = UInt32.size) :
    ((filled n).atom "the name of a later atom").2.view ((filled n).atom "the name of a later atom").1 =
      .ok (.leaf (.atom "0123456789abcdef01234567")) := by
  have place : (filled n).bytes.size % UInt32.size = 0 := by rw [size_bytes_filled, full, Nat.mod_self]
  refine view_text_of_found (nodup_ids_filled n) (by decide) ?_ ?_ ?_
  · rw [byteStart_filled]
    exact Nat.not_lt_zero _
  · rw [place]
    decide
  · have older : (filled 2).bytes.extract 0 24 = "0123456789abcdef01234567".toUTF8 := by decide +kernel
    have two : 2 ≤ n := by
      have big : 32 ≤ UInt32.size := by decide
      omega
    obtain ⟨bs, bytes⟩ := (grows_filled two).bytes
    have inside : 24 ≤ (filled 2).bytes.size := by decide +kernel
    rw [place, bytes, ByteArray.append_assoc]
    exact (extract_append_of_le _ _ 0 inside).trans older

/-- In front of the last 16 of `2 ^ 32` bytes the offset of a longer name and its length do not go together. -/
theorem view_across_filled {n : Nat} (full : 16 * (n + 1) = UInt32.size) :
    ((filled n).atom "the name of a later atom").2.view ((filled n).atom "the name of a later atom").1 =
      .error (.malformedSlice ((filled n).atom "the name of a later atom").1) := by
  have big : 16 < UInt32.size := by decide
  have place : (filled n).bytes.size % UInt32.size = UInt32.size - 16 := by
    rw [size_bytes_filled, Nat.mod_eq_of_lt (by omega)]
    omega
  refine view_text_of_overflow (nodup_ids_filled n) (by decide) ?_ ?_
  · rw [byteStart_filled]
    exact Nat.not_lt_zero _
  · rw [place]
    decide

/-- An atom behind two others, and a compound of two parts. -/
theorem showsOrRefuses_iff_filled :
    ShowsOrRefuses ((filled 2).atom "the name of a later atom") (.ofText .atom "the name of a later atom") ∧
      ((Construction.func "f").build (filled 2) [.ofHandle (.int 1), .ofHandle (.int 2)]).1 =
        .ok (.node .func ⟨⟨0⟩, 0, 3⟩) ∧
      (Construction.func "f").ReadsBack (filled 2) [.ofHandle (.int 1), .ofHandle (.int 2)] := by
  have orderly : (filled 2).Orderly := (grows_filled (Nat.zero_le 2)).orderly (orderly_create ⟨0⟩ ⟨0⟩)
  have appends : ∀ item ∈ [Item.ofHandle (.int 1), .ofHandle (.int 2)], item.Appends := by
    simp [Item.appends_ofHandle]
  obtain ⟨texts, -, fits, parts, -⟩ := showsOrRefuses_iff orderly (nodup_ids_filled 2)
  have built := parts (.func "f") _ (List.cons_ne_nil _ _) trivial appends
  refine ⟨(texts .atom _).mpr (.inr (fits _ (by decide +kernel))), rfl, (built.2 (by decide +kernel)).mpr rfl⟩

/-- Behind `2 ^ 32` bytes a name shows bytes of older names, across them a look at it fails in arithmetic, and
a closure that makes a term with parts leaves slots that are shown as parts. -/
theorem not_showsOrRefuses_filled :
    ((filled 268435456).atom "the name of a later atom").2.view
          ((filled 268435456).atom "the name of a later atom").1 =
        .ok (.leaf (.atom "0123456789abcdef01234567")) ∧
      ¬ShowsOrRefuses ((filled 268435456).atom "the name of a later atom")
        (.ofText .atom "the name of a later atom") ∧
      ((filled 268435455).atom "the name of a later atom").2.view
          ((filled 268435455).atom "the name of a later atom").1 =
        .error (.malformedSlice ((filled 268435455).atom "the name of a later atom").1) ∧
      ¬ShowsOrRefuses ((filled 268435455).atom "the name of a later atom")
        (.ofText .atom "the name of a later atom") ∧
      ((Construction.func "f").build (create ⟨0⟩ ⟨0⟩) [Construction.nestedItem]).1 =
        .ok (.node .func ⟨⟨0⟩, 0, 4⟩) ∧
      ¬ShowsOrRefuses
        (.node .func ⟨⟨0⟩, 0, 4⟩,
          ((Construction.func "f").build (create ⟨0⟩ ⟨0⟩) [Construction.nestedItem]).2)
        ((Construction.func "f").shown (create ⟨0⟩ ⟨0⟩)
          (((Construction.func "f").start (create ⟨0⟩ ⟨0⟩)).yields [Construction.nestedItem])) := by
  have behind := view_behind_filled (n := 268435456) (by decide)
  have across := view_across_filled (n := 268435455) (by decide)
  refine ⟨behind, ?_, across, ?_, rfl, ?_⟩
  · rintro (shows | refuses)
    · have same := Except.ok.inj (behind.symm.trans shows)
      rw [ofText_of_long (by decide)] at same
      exact absurd (Leaf.atom.inj (View.leaf.inj same)) (by decide)
    · cases behind.symm.trans refuses
  · rintro (shows | refuses)
    · cases across.symm.trans shows
    · cases across.symm.trans refuses
  · have seen : ((Construction.func "f").build (create ⟨0⟩ ⟨0⟩) [Construction.nestedItem]).2.view
        (.node .func ⟨⟨0⟩, 0, 4⟩) = .ok ((Construction.func "f").shown (create ⟨0⟩ ⟨0⟩)
          [.short .atom ⟨"g", by decide⟩, .int 1, .node .func ⟨⟨0⟩, 1, 2⟩]) := rfl
    rintro (shows | refuses)
    · have parts := Construction.shown_injective _ _ (Except.ok.inj (seen.symm.trans shows))
      cases congrArg List.length parts
    · cases seen.symm.trans refuses

end Arena

end PrologWire
