import PrologWire.Arena.View
import PrologWire.Proofs.Arena.Stale

/-!
# The shares of epochs

The shares of the live epochs lie one behind the other in the storages. As long as an epoch is not
erased, its share begins where it began, gets no shorter, and keeps the entries that it has: what is
made later goes behind it, and what is erased was behind it. So a stretch of storage that could be
given can still be given, and a handle that resolved resolves to the same.
-/

namespace PrologWire

/-- Offsets that do not decrease, up to the size of the storage. -/
def Ascending (starts : List Nat) (size : Nat) : Prop := (starts ++ [size]).Pairwise (· ≤ ·)

namespace Ascending

variable {starts : List Nat} {size : Nat}

/-- No share begins behind the end of the storage. -/
theorem le_size (h : Ascending starts size) {start : Nat} (among : start ∈ starts) : start ≤ size :=
  (List.pairwise_append.mp h).2.2 start among size List.mem_cons_self

/-- The storage may get longer. -/
theorem grow (h : Ascending starts size) {size' : Nat} (more : size ≤ size') :
    Ascending starts size' := by
  refine List.pairwise_append.mpr ⟨(List.pairwise_append.mp h).1, List.pairwise_singleton _ _, ?_⟩
  intro start among x last
  rw [List.mem_singleton.mp last]
  exact Nat.le_trans (h.le_size among) more

/-- The storage may be cut where a share begins. -/
theorem cut {kept gone : List Nat} {first : Nat} (h : Ascending (kept ++ first :: gone) size) :
    Ascending kept first := by
  unfold Ascending at h
  rw [List.append_assoc, List.cons_append, ← List.singleton_append, ← List.append_assoc] at h
  exact (List.pairwise_append.mp h).1

/-- A share may begin at the end of the storage. -/
theorem concat (h : Ascending starts size) : Ascending (starts ++ [size]) size := by
  refine List.pairwise_append.mpr ⟨h, List.pairwise_singleton _ _, ?_⟩
  intro start among x last
  rw [List.mem_singleton.mp last]
  rcases List.mem_append.mp among with before | new
  · exact h.le_size before
  · exact Nat.le_of_eq (List.mem_singleton.mp new)

end Ascending

namespace Arena

/-- The shares of the live epochs lie one behind the other in both storages. -/
structure Orderly (a : Arena) : Prop where
  bytes : Ascending (a.epochs.map Epoch.byteStart) a.bytes.size
  slots : Ascending (a.epochs.map Epoch.slotStart) a.slots.size

theorem orderly_create (id : ArenaId) (bottom : EpochId) : (create id bottom).Orderly :=
  ⟨by simp [Ascending, create], by simp [Ascending, create]⟩

namespace Grows

variable {a b : Arena}

theorem size_bytes_le (h : a.Grows b) : a.bytes.size ≤ b.bytes.size := by
  obtain ⟨bs, eq⟩ := h.bytes
  rw [eq, ByteArray.size_append]
  exact Nat.le_add_right _ _

theorem size_slots_le (h : a.Grows b) : a.slots.size ≤ b.slots.size := by
  obtain ⟨hs, eq⟩ := h.slots
  rw [eq, Array.size_append]
  exact Nat.le_add_right _ _

theorem orderly (h : a.Grows b) (orderly : a.Orderly) : b.Orderly where
  bytes := by
    rw [h.epochs]
    exact orderly.bytes.grow h.size_bytes_le
  slots := by
    rw [h.epochs]
    exact orderly.slots.grow h.size_slots_le

end Grows

/-- A new epoch begins at the end of the storages. -/
theorem orderly_of_beginEpoch_eq_ok {a b : Arena} {fresh : EpochId} (orderly : a.Orderly)
    (begins : a.beginEpoch fresh = .ok b) : b.Orderly := by
  obtain ⟨epochs, bytes, slots⟩ := beginEpoch_eq_ok begins
  refine ⟨?_, ?_⟩
  · rw [epochs, bytes, List.map_append]
    exact orderly.bytes.concat
  · rw [epochs, slots, List.map_append]
    exact orderly.slots.concat

/-- What is left by an erasure ends where the first of the erased shares began. -/
theorem size_of_truncate {a b : Arena} {kept gone : List Epoch} {first : Epoch}
    (orderly : a.Orderly) (split : a.epochs = kept ++ first :: gone)
    (bytes : b.bytes = a.bytes.extract 0 first.byteStart)
    (slots : b.slots = a.slots.extract 0 first.slotStart) :
    b.bytes.size = first.byteStart ∧ b.slots.size = first.slotStart := by
  have among : first ∈ a.epochs := by
    rw [split]
    exact List.mem_append_right _ List.mem_cons_self
  have byteInside := orderly.bytes.le_size (List.mem_map_of_mem among)
  have slotInside := orderly.slots.le_size (List.mem_map_of_mem among)
  rw [bytes, slots, ByteArray.size_extract, Array.size_extract]
  omega

theorem orderly_of_truncate_eq_ok {a b : Arena} {id : EpochId} (orderly : a.Orderly)
    (erases : a.truncate id = .ok b) : b.Orderly := by
  obtain ⟨kept, first, gone, split, -, -, epochs, bytes, slots⟩ := truncate_eq_ok erases
  obtain ⟨byteSize, slotSize⟩ := size_of_truncate orderly split bytes slots
  have byteStarts := orderly.bytes
  have slotStarts := orderly.slots
  rw [split, List.map_append, List.map_cons] at byteStarts slotStarts
  refine ⟨?_, ?_⟩
  · rw [byteSize, epochs]
    split
    · exact List.pairwise_pair.mpr (Nat.le_refl _)
    · exact byteStarts.cut
  · rw [slotSize, epochs]
    split
    · exact List.pairwise_pair.mpr (Nat.le_refl _)
    · exact slotStarts.cut

end Arena

/-- The shares stay in order. -/
theorem Course.orderly {a b : Arena} {events : List Event} (h : Course a events b)
    (orderly : a.Orderly) : b.Orderly := by
  induction h with
  | stay a => exact orderly
  | grow grows _ ih => exact ih (grows.orderly orderly)
  | begin begins _ ih => exact ih (Arena.orderly_of_beginEpoch_eq_ok orderly begins)
  | erase erases _ ih => exact ih (Arena.orderly_of_truncate_eq_ok orderly erases)

/-! ## The share of one epoch -/

namespace Arena

variable {start : Epoch → Nat} {size : Nat} {e : EpochId} {epochs : List Epoch} {first last : Nat}

/-- A share ends within the storage. -/
theorem le_size_of_shareOf? (ascending : Ascending (epochs.map start) size)
    (share : shareOf? start size e epochs = some (first, last)) : last ≤ size := by
  induction epochs with
  | nil => cases share
  | cons x above ih =>
    have rest : Ascending (above.map start) size := (List.pairwise_cons.mp ascending).2
    rw [shareOf?] at share
    split at share
    · obtain ⟨-, rfl⟩ := Prod.mk.inj (Option.some.inj share)
      cases above with
      | nil => exact Nat.le_refl _
      | cons y above => exact rest.le_size List.mem_cons_self
    · exact ih rest share

/-- In a longer storage the share begins at the same place and may be longer. -/
theorem shareOf?_of_le {size' : Nat} (more : size ≤ size')
    (share : shareOf? start size e epochs = some (first, last)) :
    ∃ last', shareOf? start size' e epochs = some (first, last') ∧ last ≤ last' := by
  induction epochs with
  | nil => cases share
  | cons x above ih =>
    rw [shareOf?] at share ⊢
    split at share
    · next here =>
      obtain ⟨rfl, rfl⟩ := Prod.mk.inj (Option.some.inj share)
      refine ⟨_, if_pos here, ?_⟩
      cases above with
      | nil => exact more
      | cons y above => exact Nat.le_refl _
    · next other =>
      rw [if_neg other]
      exact ih share

/-- The share of an epoch below ends where the new one begins, which is the end of the storage. -/
theorem shareOf?_concat {new : Epoch} (here : start new = size)
    (share : shareOf? start size e epochs = some (first, last)) :
    shareOf? start size e (epochs ++ [new]) = some (first, last) := by
  induction epochs with
  | nil => cases share
  | cons x above ih =>
    rw [List.cons_append, shareOf?]
    rw [shareOf?] at share
    split at share
    · next same =>
      obtain ⟨rfl, rfl⟩ := Prod.mk.inj (Option.some.inj share)
      rw [if_pos same]
      cases above with
      | nil => simp [here]
      | cons y above => rfl
    · next other =>
      rw [if_neg other]
      exact ih share

/-- The share of an epoch below those that go away ends where the storage is cut at the latest. -/
theorem shareOf?_of_append {top : Epoch} {gone : List Epoch}
    (remains : e ∉ (top :: gone).map Epoch.id)
    (ascending : Ascending ((epochs ++ top :: gone).map start) size)
    (share : shareOf? start size e (epochs ++ top :: gone) = some (first, last)) :
    epochs ≠ [] ∧ shareOf? start (start top) e epochs = some (first, last) ∧ last ≤ start top := by
  have below : Ascending (epochs.map start) (start top) := by
    rw [List.map_append] at ascending
    exact ascending.cut
  suffices h : epochs ≠ [] ∧ shareOf? start (start top) e epochs = some (first, last) from
    ⟨h.1, h.2, le_size_of_shareOf? below h.2⟩
  clear ascending below
  induction epochs with
  | nil =>
    rw [List.nil_append, shareOf?_eq_none remains] at share
    cases share
  | cons x above ih =>
    refine ⟨List.cons_ne_nil _ _, ?_⟩
    rw [List.cons_append, shareOf?] at share
    rw [shareOf?]
    split at share
    · next same =>
      rw [if_pos same, ← share]
      cases above <;> rfl
    · next other =>
      rw [if_neg other]
      exact (ih share).2

/-- A stretch that can be given lies in the share of its epoch. -/
theorem locate_eq_ok {a : Arena} {s : Slice} {r : Nat × Nat} (h : a.locate start size s = .ok r) :
    ∃ first last, shareOf? start size s.epoch a.epochs = some (first, last) ∧
      first ≤ r.1 ∧ r.2 ≤ last ∧ r = (s.start.toNat, s.start.toNat + s.length.toNat) ∧
      s.start.toNat + s.length.toNat < UInt32.size := by
  unfold locate at h
  split at h
  · cases h
  · next first last share =>
    split at h
    · cases h
    · next inside =>
      split at h
      · next small =>
        obtain rfl := Except.ok.inj h
        rw [not_or, Nat.not_lt, Nat.not_lt] at inside
        exact ⟨first, last, share, inside.1, inside.2, rfl, small⟩
      · cases h

/-- A stretch that lies in the share of its epoch can be given. -/
theorem locate_of_share {a : Arena} {s : Slice}
    (share : shareOf? start size s.epoch a.epochs = some (first, last))
    (low : first ≤ s.start.toNat) (high : s.start.toNat + s.length.toNat ≤ last)
    (small : s.start.toNat + s.length.toNat < UInt32.size) :
    a.locate start size s = .ok (s.start.toNat, s.start.toNat + s.length.toNat) := by
  unfold locate
  rw [share]
  dsimp only
  rw [if_neg (by omega), if_pos small]

/-- What is at a stretch can still be given if the share of its epoch begins where it began and is
no shorter, and the storages agree up to where it ended. -/
theorem map_locate_eq_ok {α : Type} {a b : Arena} {size' : Nat} {s : Slice} {f g : Nat × Nat → α}
    {x : α} (given : (a.locate start size s).map f = .ok x)
    (longer : ∀ first last, shareOf? start size s.epoch a.epochs = some (first, last) →
      ∃ last', shareOf? start size' s.epoch b.epochs = some (first, last') ∧ last ≤ last')
    (agree : ∀ first last, shareOf? start size s.epoch a.epochs = some (first, last) →
      ∀ r : Nat × Nat, r.2 ≤ last → g r = f r) :
    (b.locate start size' s).map g = .ok x := by
  cases located : a.locate start size s with
  | error fault =>
    rw [located] at given
    cases given
  | ok r =>
    obtain ⟨first, last, share, low, high, range, small⟩ := locate_eq_ok located
    obtain ⟨last', share', more⟩ := longer first last share
    have still : b.locate start size' s = .ok r := by
      subst range
      exact locate_of_share share' low (Nat.le_trans high more) small
    rw [located] at given
    rw [still, ← given, Except.map, Except.map, agree first last share r high]

end Arena

/-! ## What stays -/

namespace Arena

/-- What the share of an epoch has in one arena it also has in another. -/
structure Keeps (e : EpochId) (a b : Arena) : Prop where
  bytesAt {s : Slice} {bs : ByteArray} : s.epoch = e → a.bytesAt s = .ok bs → b.bytesAt s = .ok bs
  slotsAt {s : Slice} {hs : List Handle} : s.epoch = e → a.slotsAt s = .ok hs → b.slotsAt s = .ok hs

theorem Keeps.refl (e : EpochId) (a : Arena) : Keeps e a a := ⟨fun _ h => h, fun _ h => h⟩

theorem Keeps.trans {e : EpochId} {a b c : Arena} (first : Keeps e a b) (second : Keeps e b c) :
    Keeps e a c :=
  ⟨fun own h => second.bytesAt own (first.bytesAt own h),
    fun own h => second.slotsAt own (first.slotsAt own h)⟩

/-- The bytes up to the end of a storage are not touched by what is appended. -/
theorem extract_append_of_le (as bs : ByteArray) (i : Nat) {j : Nat} (inside : j ≤ as.size) :
    (as ++ bs).extract i j = as.extract i j := by
  have behind : bs.extract (i - as.size) (j - as.size) = ByteArray.empty := by
    apply ByteArray.extract_eq_empty_iff.mpr
    omega
  rw [ByteArray.extract_append, behind, ByteArray.append_empty]

/-- While storages grow, every share keeps what it has. -/
theorem Grows.keeps {a b : Arena} (h : a.Grows b) (orderly : a.Orderly) (e : EpochId) :
    Keeps e a b where
  bytesAt {s bs} _ given := by
    refine map_locate_eq_ok given ?_ ?_
    · intro first last share
      rw [h.epochs]
      exact shareOf?_of_le h.size_bytes_le share
    · intro first last share r inside
      obtain ⟨more, bytes⟩ := h.bytes
      have low := le_size_of_shareOf? orderly.bytes share
      rw [bytes, extract_append_of_le _ _ _ (Nat.le_trans inside low)]
  slotsAt {s hs} _ given := by
    refine map_locate_eq_ok given ?_ ?_
    · intro first last share
      rw [h.epochs]
      exact shareOf?_of_le h.size_slots_le share
    · intro first last share r inside
      obtain ⟨more, slots⟩ := h.slots
      have low := le_size_of_shareOf? orderly.slots share
      have none : r.2 - a.slots.size = 0 := by omega
      rw [slots, Array.extract_append, none, Array.extract_zero, Array.append_empty]

/-- While an epoch begins, every share keeps what it has. -/
theorem keeps_of_beginEpoch_eq_ok {a b : Arena} {fresh : EpochId}
    (begins : a.beginEpoch fresh = .ok b)
    (e : EpochId) : Keeps e a b := by
  obtain ⟨epochs, bytes, slots⟩ := beginEpoch_eq_ok begins
  refine ⟨?_, ?_⟩
  · intro s bs _ given
    refine map_locate_eq_ok given ?_ ?_
    · intro first last share
      rw [epochs, bytes]
      exact ⟨last, shareOf?_concat rfl share, Nat.le_refl _⟩
    · intro _ _ _ r _
      rw [bytes]
  · intro s hs _ given
    refine map_locate_eq_ok given ?_ ?_
    · intro first last share
      rw [epochs, slots]
      exact ⟨last, shareOf?_concat rfl share, Nat.le_refl _⟩
    · intro _ _ _ r _
      rw [slots]

/-- While epochs are erased, the shares of the others keep what they have. -/
theorem keeps_of_truncate_eq_ok {a b : Arena} {id e : EpochId} (orderly : a.Orderly)
    (erases : a.truncate id = .ok b) (other : .erased e ∉ a.erasure id) : Keeps e a b := by
  obtain ⟨kept, first, gone, split, here, before, epochs, bytes, slots⟩ := truncate_eq_ok erases
  have remains : e ∉ (first :: gone).map Epoch.id := by
    intro goes
    obtain ⟨x, among, rfl⟩ := List.mem_map.mp goes
    rw [erasure_eq split here before] at other
    exact other (List.mem_map.mpr ⟨x, among, rfl⟩)
  have byteStarts := orderly.bytes
  have slotStarts := orderly.slots
  obtain ⟨byteSize, slotSize⟩ := size_of_truncate orderly split bytes slots
  rw [split] at byteStarts slotStarts
  refine ⟨?_, ?_⟩
  · rintro s bs rfl given
    refine map_locate_eq_ok given ?_ ?_
    · intro low last share
      rw [split] at share
      obtain ⟨some, share, -⟩ := shareOf?_of_append remains byteStarts share
      rw [epochs, if_neg some, byteSize]
      exact ⟨last, share, Nat.le_refl _⟩
    · intro low last share r inside
      rw [split] at share
      obtain ⟨-, -, high⟩ := shareOf?_of_append remains byteStarts share
      rw [bytes, ByteArray.extract_extract, Nat.zero_add, Nat.zero_add,
        Nat.min_eq_left (Nat.le_trans inside high)]
  · rintro s hs rfl given
    refine map_locate_eq_ok given ?_ ?_
    · intro low last share
      rw [split] at share
      obtain ⟨some, share, -⟩ := shareOf?_of_append remains slotStarts share
      rw [epochs, if_neg some, slotSize]
      exact ⟨last, share, Nat.le_refl _⟩
    · intro low last share r inside
      rw [split] at share
      obtain ⟨-, -, high⟩ := shareOf?_of_append remains slotStarts share
      rw [slots, Array.extract_extract, Nat.zero_add, Nat.zero_add,
        Nat.min_eq_left (Nat.le_trans inside high)]

end Arena

/-- As long as an epoch is not erased, its share keeps what it has. -/
theorem Course.keeps {a b : Arena} {events : List Event} (h : Course a events b)
    (orderly : a.Orderly) {e : EpochId} (lives : .erased e ∉ events) : Arena.Keeps e a b := by
  induction h with
  | stay a => exact .refl e a
  | grow grows _ ih => exact (grows.keeps orderly e).trans (ih (grows.orderly orderly) lives)
  | begin begins _ ih =>
    have now := Arena.keeps_of_beginEpoch_eq_ok begins e
    exact now.trans (ih (Arena.orderly_of_beginEpoch_eq_ok orderly begins)
      (fun later => lives (List.mem_cons_of_mem _ later)))
  | erase erases _ ih =>
    rw [List.mem_append, not_or] at lives
    have now := Arena.keeps_of_truncate_eq_ok orderly erases lives.1
    exact now.trans (ih (Arena.orderly_of_truncate_eq_ok orderly erases) lives.2)

end PrologWire
