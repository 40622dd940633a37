import PrologWire.Proofs.Arena.Made

/-!
# Terms are made of earlier terms

A compound, a list or a tuple takes its slots behind everything that was there before, and what it is
given for a part is there already. So what a slot holds lies in front of it, wherever the storage has been
cut and written again meanwhile: a stretch of an erased epoch never resolves again, and a stretch of any
other epoch has not moved. `Arena.Reached` says which arenas this is about, and `Arena.Grounded` what
each step keeps.
-/

namespace PrologWire

/-- The offset behind a stretch of storage. -/
def Slice.stop (s : Slice) : Nat := s.start.toNat + s.length.toNat

/-- If it is a compound, a list or a tuple, it is one of these. -/
def Handle.IsAmong (h : Handle) (known : List Handle) : Prop :=
  ∀ kind s, h = .node kind s → h ∈ known

/-! ## Histories -/

mutual

/-- The handles that the constructors give back in the course of an operation. -/
def Operation.gained : Operation → Arena → List Handle
  | .func name args, a =>
    Argument.gainedAll args ((a.atom name).2.pushSlot (a.atom name).1) ++
      [(a.func name (Argument.items args)).1]
  | .funcOfItems [], _ => []
  | .funcOfItems (first :: args), a =>
    first.gained a ++
      if (first.item a).1.isAtom then
        Argument.gainedAll args ((first.item a).2.pushSlot (first.item a).1) ++
          [((first.item a).2.compound (first.item a).1 (Argument.items args)).1]
      else []
  | .list items, a => Argument.gainedAll items a ++ [(a.list (Argument.items items)).1]
  | .tuple items, a => Argument.gainedAll items a ++ [(a.tuple (Argument.items items)).1]
  | .text kind s, a => [(a.text kind s).1]
  | .integer value, a => [(a.integer value).1]
  | .beginEpoch _, _ => []
  | .truncate _, _ => []
  | .truncateCurrent, _ => []
  | .clear, _ => []

/-- The handles that are given back in the course of operations in a row. -/
def Operation.gainedAll : List Operation → Arena → List Handle
  | [], _ => []
  | op :: rest, a => op.gained a ++ Operation.gainedAll rest (op.perform a).2

/-- The handles that are given back when the turn of a part comes. -/
def Argument.gained : Argument → Arena → List Handle
  | .term _, _ => []
  | .name s, a => [(a.atom s).1]
  | .integer value, a => [(a.integer value).1]
  | .work ops _, a => Operation.gainedAll ops a

/-- The handles that are given back while parts are taken in order. -/
def Argument.gainedAll : List Argument → Arena → List Handle
  | [], _ => []
  | arg :: rest, a =>
    arg.gained a ++ Argument.gainedAll rest ((arg.item a).2.pushSlot (arg.item a).1)

end

mutual

/-- The operation makes terms out of values, of terms that are known, and of work that does the same. -/
def Operation.Builds : Operation → List Handle → Arena → Prop
  | .text _ _, _, _ => True
  | .integer _, _, _ => True
  | .func name args, known, a =>
    Argument.BuildAll args known ((a.atom name).2.pushSlot (a.atom name).1)
  | .funcOfItems [], _, _ => True
  | .funcOfItems (first :: args), known, a =>
    first.Builds known a ∧
      ((first.item a).1.isAtom →
        Argument.BuildAll args (known ++ first.gained a)
          ((first.item a).2.pushSlot (first.item a).1))
  | .list items, known, a => Argument.BuildAll items known a
  | .tuple items, known, a => Argument.BuildAll items known a
  | .beginEpoch _, _, _ => False
  | .truncate _, _, _ => False
  | .truncateCurrent, _, _ => False
  | .clear, _, _ => False

/-- The operations make terms, also out of those that they have made. -/
def Operation.BuildAll : List Operation → List Handle → Arena → Prop
  | [], _, _ => True
  | op :: rest, known, a =>
    op.Builds known a ∧ Operation.BuildAll rest (known ++ op.gained a) (op.perform a).2

/-- The part is a value, a text, a term that is known, or work that makes terms and comes back with a value
or with a term that is known then. -/
def Argument.Builds : Argument → List Handle → Arena → Prop
  | .term h, known, _ => h.IsAmong known
  | .name _, _, _ => True
  | .integer _, _, _ => True
  | .work ops h, known, a =>
    Operation.BuildAll ops known a ∧ h.IsAmong (known ++ Operation.gainedAll ops a)

/-- So is each of the parts when its turn comes. -/
def Argument.BuildAll : List Argument → List Handle → Arena → Prop
  | [], _, _ => True
  | arg :: rest, known, a =>
    arg.Builds known a ∧
      Argument.BuildAll rest (known ++ arg.gained a) ((arg.item a).2.pushSlot (arg.item a).1)

end

namespace Arena

/-- What can become of a new arena by making terms, beginning epochs with names of their own, and erasing
epochs other than the bottom one, with the names that its epochs have had and the handles that it has given
back. -/
inductive Reached : Arena → List EpochId → List Handle → Prop where
  | create (id : ArenaId) (bottom : EpochId) : Reached (create id bottom) [bottom] []
  | build {a : Arena} {names : List EpochId} {known : List Handle} (h : Reached a names known)
      (op : Operation) (builds : op.Builds known a) :
      Reached (op.perform a).2 names (known ++ op.gained a)
  | begin {a : Arena} {names : List EpochId} {known : List Handle} (h : Reached a names known)
      (fresh : EpochId) (new : fresh ∉ names) (room : a.epochs.length < maxLiveEpochs) :
      Reached ((Operation.beginEpoch fresh).perform a).2 (names ++ [fresh]) known
  | erase {a : Arena} {names : List EpochId} {known : List Handle} (h : Reached a names known)
      (id : EpochId) (above : id ≠ a.bottom.id) :
      Reached ((Operation.truncate id).perform a).2 names known

/-! ## What each step keeps -/

/-- The stretch ends within the share of its epoch, if this is live. -/
def EndsInShare (a : Arena) (s : Slice) : Prop :=
  ∀ first last, shareOf? Epoch.slotStart a.slots.size s.epoch a.epochs = some (first, last) →
    s.stop ≤ last

/-- The known stretches of slots are of epochs that have been there and end within the shares of those that
are live. What a slot holds is also in front of it, unless its epoch has been erased. -/
structure Grounded (a : Arena) (names : List EpochId) (known : List Handle) : Prop where
  ascending : Ascending (a.epochs.map Epoch.slotStart) a.slots.size
  distinct : a.ids.Nodup
  named : a.ids ⊆ names
  known {kind : NodeKind} {s : Slice} : .node kind s ∈ known → s.epoch ∈ names ∧ a.EndsInShare s
  slots {k : Nat} {kind : NodeKind} {s : Slice} : a.slots[k]? = some (.node kind s) →
    s.epoch ∈ names ∧ (s.epoch ∈ a.ids → s.stop ≤ k)

/-- A live epoch has a share. -/
theorem exists_shareOf? (start : Epoch → Nat) (size : Nat) {e : EpochId} {epochs : List Epoch}
    (live : e ∈ epochs.map Epoch.id) :
    ∃ first last, shareOf? start size e epochs = some (first, last) := by
  induction epochs with
  | nil => cases live
  | cons x above ih =>
    rw [shareOf?]
    split
    · exact ⟨_, _, rfl⟩
    · next other =>
      rcases List.mem_cons.mp live with here | later
      · exact absurd here.symm other
      · exact ih later

/-- Only a live epoch has a share. -/
theorem mem_ids_of_shareOf? {start : Epoch → Nat} {size : Nat} {e : EpochId} {epochs : List Epoch}
    {r : Nat × Nat} (share : shareOf? start size e epochs = some r) : e ∈ epochs.map Epoch.id := by
  by_contra gone
  rw [shareOf?_eq_none gone] at share
  cases share

/-- A stretch between two offsets does not end behind the second, even if offsets are cut off. -/
theorem stop_sliceBetween_le (a : Arena) {start stop : Nat} (order : start ≤ stop) :
    (a.sliceBetween start stop).stop ≤ stop := by
  have first : (UInt32.ofNat start).toNat ≤ start := by
    rw [UInt32.toNat_ofNat']
    exact Nat.mod_le _ _
  have length : (UInt32.ofNat (stop - start)).toNat ≤ stop - start := by
    rw [UInt32.toNat_ofNat']
    exact Nat.mod_le _ _
  rw [Slice.stop, a.length_sliceBetween order]
  show (UInt32.ofNat start).toNat + (UInt32.ofNat (stop - start)).toNat ≤ stop
  omega

theorem grounded_create (id : ArenaId) (bottom : EpochId) :
    (create id bottom).Grounded [bottom] [] where
  ascending := (orderly_create id bottom).slots
  distinct := List.pairwise_singleton _ _
  named := List.Subset.refl _
  known among := absurd among List.not_mem_nil
  slots here := by cases here

/-- A text is no compound, list or tuple. -/
theorem text_ne_node (a : Arena) (kind : TextKind) (t : String) (k : NodeKind) (s : Slice) :
    (a.text kind t).1 ≠ .node k s := by
  unfold text
  split <;> exact Handle.noConfusion

theorem integer_ne_node (a : Arena) (value : Int) (k : NodeKind) (s : Slice) :
    (a.integer value).1 ≠ .node k s := by
  unfold integer
  split <;> exact Handle.noConfusion

namespace Grounded

variable {a b : Arena} {names : List EpochId} {known : List Handle} (g : a.Grounded names known)

include g

/-- Bytes do not matter. -/
theorem of_slots (epochs : b.epochs = a.epochs) (slots : b.slots = a.slots) :
    b.Grounded names known := by
  have ids : b.ids = a.ids := congrArg (List.map Epoch.id) epochs
  refine ⟨?_, ids ▸ g.distinct, ids ▸ g.named, ?_, ?_⟩
  · rw [epochs, slots]
    exact g.ascending
  · intro kind s among
    unfold EndsInShare
    rw [epochs, slots]
    exact g.known among
  · intro k kind s here
    rw [slots] at here
    rw [ids]
    exact g.slots here

/-- A handle that has no slots is known at once. -/
theorem gain {h : Handle} (own : ∀ kind s, h = .node kind s → s.epoch ∈ names ∧ a.EndsInShare s) :
    a.Grounded names (known ++ [h]) where
  ascending := g.ascending
  distinct := g.distinct
  named := g.named
  known among := by
    rcases List.mem_append.mp among with before | new
    · exact g.known before
    · exact own _ _ (List.mem_singleton.mp new).symm
  slots := g.slots

/-- A stretch of a live epoch that ends in its share ends within the storage. -/
theorem stop_le_size {s : Slice} (inside : a.EndsInShare s) (live : s.epoch ∈ a.ids) :
    s.stop ≤ a.slots.size := by
  obtain ⟨first, last, share⟩ := exists_shareOf? Epoch.slotStart a.slots.size live
  exact Nat.le_trans (inside first last share) (le_size_of_shareOf? g.ascending share)

/-- A text takes no slots. -/
theorem text (kind : TextKind) (t : String) :
    a.slots.size ≤ (a.text kind t).2.slots.size ∧
      (a.text kind t).2.Grounded names (known ++ [(a.text kind t).1]) := by
  have slots := slots_text a kind t
  refine ⟨Nat.le_of_eq (congrArg Array.size slots.symm), ?_⟩
  exact (g.of_slots (a.grows_text kind t).epochs slots).gain
    fun k s same => absurd same (text_ne_node a kind t k s)

/-- An integer takes no slots. -/
theorem integer (value : Int) :
    a.slots.size ≤ (a.integer value).2.slots.size ∧
      (a.integer value).2.Grounded names (known ++ [(a.integer value).1]) := by
  have slots : (a.integer value).2.slots = a.slots :=
    @Argument.slots_item a (.integer value) rfl
  refine ⟨Nat.le_of_eq (congrArg Array.size slots.symm), ?_⟩
  exact (g.of_slots (a.grows_integer value).epochs slots).gain
    fun k s same => absurd same (integer_ne_node a value k s)

/-- A part takes the next slot, which is behind what is known of it. -/
theorem pushSlot {h : Handle} (among : h.IsAmong known) : (a.pushSlot h).Grounded names known where
  ascending := g.ascending.grow (by rw [Arena.pushSlot, Array.size_push]; exact Nat.le_succ _)
  distinct := g.distinct
  named := g.named
  known {kind s} here := by
    refine ⟨(g.known here).1, ?_⟩
    intro first last share
    obtain ⟨first', last', before⟩ :=
      exists_shareOf? Epoch.slotStart a.slots.size (mem_ids_of_shareOf? share)
    obtain ⟨later, same, more⟩ := shareOf?_of_le (Nat.le_succ a.slots.size) before
    have size : (a.pushSlot h).slots.size = a.slots.size + 1 := Array.size_push ..
    rw [size] at share
    obtain ⟨-, rfl⟩ := Prod.mk.inj (Option.some.inj (same.symm.trans share))
    exact Nat.le_trans ((g.known here).2 _ _ before) more
  slots {k kind s} here := by
    rw [Arena.pushSlot, Array.getElem?_push] at here
    split at here
    · next last =>
      -- the new slot
      obtain rfl := Option.some.inj here
      obtain ⟨named, inside⟩ := g.known (among kind s rfl)
      refine ⟨named, fun live => ?_⟩
      rw [last]
      exact g.stop_le_size inside live
    · exact g.slots here

/-- A compound, a list or a tuple that reaches to the end of the storage. -/
theorem gain_node (kind : NodeKind) {start : Nat} (order : start ≤ a.slots.size) :
    a.Grounded names (known ++ [(a.nodeFrom kind start).1]) := by
  refine g.gain fun kind' s same => ?_
  obtain ⟨-, rfl⟩ := Handle.node.inj same
  refine ⟨g.named (List.mem_map_of_mem (List.getLast_mem a.epochs_ne_nil)), ?_⟩
  intro first last share
  have current := shareOf?_current g.distinct Epoch.slotStart a.slots.size
  obtain ⟨-, rfl⟩ := Prod.mk.inj (Option.some.inj (current.symm.trans share))
  exact a.stop_sliceBetween_le order

/-- A new epoch has a name that nothing known carries. -/
theorem begin {fresh : EpochId} (new : fresh ∉ names) (begins : a.beginEpoch fresh = .ok b) :
    b.Grounded (names ++ [fresh]) known := by
  obtain ⟨epochs, -, slots⟩ := beginEpoch_eq_ok begins
  have ids : b.ids = a.ids ++ [fresh] := by
    rw [Arena.ids, epochs, List.map_append]
    rfl
  have live {e : EpochId} (named : e ∈ names) (here : e ∈ b.ids) : e ∈ a.ids := by
    rw [ids] at here
    rcases List.mem_append.mp here with before | last
    · exact before
    · exact absurd (List.mem_singleton.mp last ▸ named) new
  refine ⟨?_, ?_, ?_, ?_, ?_⟩
  · rw [epochs, slots, List.map_append]
    exact g.ascending.concat
  · rw [ids, List.nodup_append]
    refine ⟨g.distinct, List.pairwise_singleton _ _, ?_⟩
    rintro e before x last rfl
    exact new (g.named (List.mem_singleton.mp last ▸ before))
  · rw [ids]
    exact List.append_subset.mpr ⟨fun e before => List.mem_append_left _ (g.named before),
      List.subset_append_right _ _⟩
  · intro kind s among
    obtain ⟨named, inside⟩ := g.known among
    refine ⟨List.mem_append_left _ named, ?_⟩
    -- it is not of the new epoch, and its own has the share that it had
    intro first last share
    obtain ⟨first', last', before⟩ := exists_shareOf? Epoch.slotStart a.slots.size
      (live named (mem_ids_of_shareOf? share))
    have same : shareOf? Epoch.slotStart a.slots.size s.epoch
        (a.epochs ++ [⟨fresh, a.bytes.size, a.slots.size⟩]) = some (first', last') :=
      shareOf?_concat rfl before
    rw [epochs, slots, same] at share
    obtain ⟨-, rfl⟩ := Prod.mk.inj (Option.some.inj share)
    exact inside _ _ before
  · intro k kind s here
    rw [slots] at here
    obtain ⟨named, inside⟩ := g.slots here
    exact ⟨List.mem_append_left _ named, fun here => inside (live named here)⟩

/-- The epochs below those that are erased keep their shares, and the storage is cut behind them. -/
theorem erase {id : EpochId} (above : id ≠ a.bottom.id) (erases : a.truncate id = .ok b) :
    b.Grounded names known := by
  obtain ⟨kept, top, gone, split, here, -, epochs, bytes, slots⟩ := truncate_eq_ok erases
  have some : kept ≠ [] := by
    rintro rfl
    exact above (here ▸ (congrArg Epoch.id (bottom_of_epochs split)).symm)
  rw [if_neg some] at epochs
  have starts := g.ascending
  have distinct := g.distinct
  rw [split, List.map_append, List.map_cons] at starts
  rw [Arena.ids, split, List.map_append] at distinct
  have size : b.slots.size = top.slotStart := by
    have below : top.slotStart ≤ a.slots.size :=
      starts.le_size (List.mem_append_right _ List.mem_cons_self)
    rw [slots, Array.size_extract]
    omega
  have live {e : EpochId} (here : e ∈ b.ids) : e ∈ a.ids := by
    rw [Arena.ids, epochs] at here
    rw [Arena.ids, split, List.map_append]
    exact List.mem_append_left _ here
  refine ⟨?_, ?_, fun e here => g.named (live here), ?_, ?_⟩
  · rw [epochs, size]
    exact starts.cut
  · rw [Arena.ids, epochs]
    exact (List.nodup_append.mp distinct).1
  · intro kind s among
    obtain ⟨named, inside⟩ := g.known among
    refine ⟨named, ?_⟩
    intro first last share
    have remains := mem_ids_of_shareOf? share
    rw [epochs] at remains
    -- its epoch stays, so its share ends as before, at the cut if it is the last one now
    have other : s.epoch ∉ (top :: gone).map Epoch.id := fun goes =>
      (List.nodup_append.mp distinct).2.2 _ remains _ goes rfl
    obtain ⟨first', last', before⟩ := exists_shareOf? Epoch.slotStart a.slots.size
      (live (mem_ids_of_shareOf? share))
    have bound := inside _ _ before
    rw [split] at before
    have kept := shareOf?_of_append other (by rw [List.map_append, List.map_cons]; exact starts) before
    rw [epochs, size, kept.2.1] at share
    obtain ⟨-, rfl⟩ := Prod.mk.inj (Option.some.inj share)
    exact bound
  · intro k kind s here
    rw [slots, Array.getElem?_extract] at here
    split at here
    · rw [Nat.zero_add] at here
      obtain ⟨named, inside⟩ := g.slots here
      exact ⟨named, fun here => inside (live here)⟩
    · cases here

/-- A compound of parts that are taken behind its functor. -/
theorem compound {functor : Handle} (plain : ∀ kind s, functor ≠ .node kind s) {args : List Argument}
    {gained : List Handle}
    (taken : (a.pushSlot functor).slots.size ≤
        ((a.pushSlot functor).pushItems (Argument.items args)).slots.size ∧
      ((a.pushSlot functor).pushItems (Argument.items args)).Grounded names (known ++ gained))
    (nothing : args = [] → gained = []) :
    a.slots.size ≤ (a.compound functor (Argument.items args)).2.slots.size ∧
      (a.compound functor (Argument.items args)).2.Grounded names
        (known ++ (gained ++ [(a.compound functor (Argument.items args)).1])) := by
  cases args with
  | nil =>
    -- the functor itself is given back, and no slot is taken
    rw [nothing rfl]
    exact ⟨Nat.le_refl _, g.gain fun kind s same => absurd same (plain kind s)⟩
  | cons arg rest =>
    have pushed : (a.pushSlot functor).slots.size = a.slots.size + 1 := Array.size_push ..
    have order : a.slots.size ≤
        ((a.pushSlot functor).pushItems (Argument.items (arg :: rest))).slots.size := by
      have := taken.1
      omega
    refine ⟨order, ?_⟩
    rw [← List.append_assoc]
    exact taken.2.gain_node .func order

end Grounded

end Arena

open Arena

variable {names : List EpochId} {known : List Handle} {a : Arena}

mutual

/-- Making terms out of terms that are known keeps everything in front of what holds it. -/
theorem Operation.grounded : ∀ (op : Operation) {known : List Handle} {a : Arena},
    op.Builds known a → a.Grounded names known →
      a.slots.size ≤ (op.perform a).2.slots.size ∧
        (op.perform a).2.Grounded names (known ++ op.gained a)
  | .text kind s, _, _, _, g => g.text kind s
  | .integer value, _, _, _, g => g.integer value
  | .func name args, known, a, builds, g => by
    have slots := slots_text a .atom name
    have named := g.of_slots (a.grows_text .atom name).epochs slots
    have plain := text_ne_node a .atom name
    have opened := named.pushSlot (h := (a.atom name).1) fun k t same => absurd same (plain k t)
    have size : a.slots.size = (a.atom name).2.slots.size := (congrArg Array.size slots).symm
    rw [size]
    refine named.compound plain (Argument.grounded_all args builds opened) ?_
    rintro rfl
    rfl
  | .funcOfItems [], _, a, _, g => ⟨Nat.le_refl _, by rw [Operation.gained, List.append_nil]; exact g⟩
  | .funcOfItems (first :: args), known, a, builds, g => by
    obtain ⟨size, g', among⟩ := first.grounded_item builds.1 g
    rw [Operation.gained, Operation.perform, Argument.items, Arena.funcOfItems]
    dsimp only
    split
    · next atom =>
      have plain (k : NodeKind) (s : Slice) : (first.item a).1 ≠ .node k s := by
        intro same
        rw [same] at atom
        cases atom
      obtain ⟨more, last⟩ := g'.compound plain
        (Argument.grounded_all args (builds.2 atom) (g'.pushSlot among)) (by rintro rfl; rfl)
      rw [← List.append_assoc]
      exact ⟨Nat.le_trans size more, last⟩
    · rw [List.append_nil]
      exact ⟨size, g'⟩
  | .list [], _, _, _, g => ⟨Nat.le_refl _, g.gain fun _ _ => Handle.noConfusion⟩
  | .list (item :: rest), known, a, builds, g => by
    have taken := Argument.grounded_all (item :: rest) builds g
    refine ⟨taken.1, ?_⟩
    rw [Operation.gained, ← List.append_assoc]
    exact taken.2.gain_node .list taken.1
  | .tuple [], _, _, _, g => ⟨Nat.le_refl _, g.gain fun _ _ => Handle.noConfusion⟩
  | .tuple (item :: rest), known, a, builds, g => by
    have taken := Argument.grounded_all (item :: rest) builds g
    refine ⟨taken.1, ?_⟩
    rw [Operation.gained, ← List.append_assoc]
    exact taken.2.gain_node .tuple taken.1
  | .beginEpoch _, _, _, builds, _ => builds.elim
  | .truncate _, _, _, builds, _ => builds.elim
  | .truncateCurrent, _, _, builds, _ => builds.elim
  | .clear, _, _, builds, _ => builds.elim

theorem Operation.grounded_all : ∀ (ops : List Operation) {known : List Handle} {a : Arena},
    Operation.BuildAll ops known a → a.Grounded names known →
      a.slots.size ≤ (Operation.performAll ops a).slots.size ∧
        (Operation.performAll ops a).Grounded names (known ++ Operation.gainedAll ops a)
  | [], _, a, _, g => ⟨Nat.le_refl _, by rw [Operation.gainedAll, List.append_nil]; exact g⟩
  | op :: rest, known, a, builds, g => by
    obtain ⟨size, g'⟩ := op.grounded builds.1 g
    obtain ⟨more, last⟩ := Operation.grounded_all rest builds.2 g'
    rw [Operation.gainedAll, ← List.append_assoc]
    exact ⟨Nat.le_trans size more, last⟩

theorem Argument.grounded_item : ∀ (arg : Argument) {known : List Handle} {a : Arena},
    arg.Builds known a → a.Grounded names known →
      a.slots.size ≤ (arg.item a).2.slots.size ∧
        (arg.item a).2.Grounded names (known ++ arg.gained a) ∧
          (arg.item a).1.IsAmong (known ++ arg.gained a)
  | .term h, known, a, builds, g => by
    rw [Argument.gained, List.append_nil]
    exact ⟨Nat.le_refl _, g, builds⟩
  | .name s, _, a, _, g => by
    obtain ⟨size, g'⟩ := g.text .atom s
    exact ⟨size, g', fun k t same => absurd same (text_ne_node a .atom s k t)⟩
  | .integer value, _, a, _, g => by
    obtain ⟨size, g'⟩ := g.integer value
    exact ⟨size, g', fun k t same => absurd same (integer_ne_node a value k t)⟩
  | .work ops h, known, a, builds, g => by
    obtain ⟨size, g'⟩ := Operation.grounded_all ops builds.1 g
    exact ⟨size, g', builds.2⟩

theorem Argument.grounded_all : ∀ (args : List Argument) {known : List Handle} {a : Arena},
    Argument.BuildAll args known a → a.Grounded names known →
      a.slots.size ≤ (a.pushItems (Argument.items args)).slots.size ∧
        (a.pushItems (Argument.items args)).Grounded names (known ++ Argument.gainedAll args a)
  | [], _, a, _, g => ⟨Nat.le_refl _, by rw [Argument.gainedAll, List.append_nil]; exact g⟩
  | arg :: rest, known, a, builds, g => by
    obtain ⟨size, g', among⟩ := arg.grounded_item builds.1 g
    obtain ⟨more, last⟩ := Argument.grounded_all rest builds.2 (g'.pushSlot among)
    have pushed : ((arg.item a).2.pushSlot (arg.item a).1).slots.size = (arg.item a).2.slots.size + 1 :=
      Array.size_push ..
    rw [Argument.gainedAll, ← List.append_assoc]
    exact ⟨Nat.le_trans size (Nat.le_trans (pushed ▸ Nat.le_succ _) more), last⟩

end

namespace Arena

/-- So does every other step, and every arena that is reached has all in front of what holds it. -/
theorem Reached.grounded (h : a.Reached names known) : a.Grounded names known := by
  induction h with
  | create id bottom => exact grounded_create id bottom
  | build h op builds ih => exact (op.grounded builds ih).2
  | begin h fresh new room ih =>
    rw [Operation.perform, beginEpoch, if_pos room]
    exact ih.begin new (if_pos room)
  | @erase a names known h id above ih =>
    rw [Operation.perform]
    cases result : a.truncate id with
    | error cause => exact ih
    | ok b => exact ih.erase above result

/-- What a slot holds does not resolve, because its epoch has been erased, or is in front of the slot. -/
theorem Grounded.slot_cases (g : a.Grounded names known) {k : Nat} {kind : NodeKind} {s : Slice}
    (here : a.slots[k]? = some (.node kind s)) :
    (∃ cause, a.view (.node kind s) = .error cause) ∨ s.stop ≤ k := by
  by_cases live : s.epoch ∈ a.ids
  · exact .inr ((g.slots here).2 live)
  · exact .inl ⟨_, (view_eq_invalidTerm_iff a _).mpr (isStale_of_not_mem_ids rfl live)⟩

end Arena

end PrologWire
