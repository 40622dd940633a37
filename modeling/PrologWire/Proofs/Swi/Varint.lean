import Mathlib.Algebra.Group.Int.Defs
import Mathlib.Algebra.Group.Nat.Defs
import PrologWire.Proofs.Swi.Fields

/-!
# Numbers in groups of seven bits

Of all bytes that are read as a number its varint is the shortest: whatever else is read as the number
begins with groups of zero. No varint goes on where another one ends. A number of 64 bits has ten groups at
most, so that a block of ten bytes is enough to take them from the least to the greatest and another one to
turn them round.
-/

namespace PrologWire.Swi

/-! ## Groups -/

theorem varint_ne_nil (n : Nat) : varint n ≠ [] := by
  rw [varint]
  simp

@[simp] theorem continuedGroups_zero : continuedGroups 0 = [] := by
  rw [continuedGroups, if_pos rfl]

theorem length_varint (n : Nat) : (varint n).length = (continuedGroups (n / 128)).length + 1 := by
  rw [varint, List.length_append, List.length_singleton]

/-- Seven bits go into a group. -/
theorem length_continuedGroups_le {count n : Nat} (small : n < 128 ^ count) :
    (continuedGroups n).length ≤ count := by
  induction count generalizing n with
  | zero =>
    obtain rfl : n = 0 := by omega
    rw [continuedGroups_zero]
    exact Nat.le_refl 0
  | succ count ih =>
    rw [continuedGroups]
    split
    · exact Nat.zero_le _
    · have rest : n / 128 < 128 ^ count := by
        rw [Nat.pow_succ] at small
        exact Nat.div_lt_of_lt_mul (Nat.mul_comm .. ▸ small)
      rw [List.length_append, List.length_singleton]
      exact Nat.succ_le_succ (ih rest)

/-- A number of 64 bits has ten groups at most. -/
theorem length_varint_le {n : Nat} (small : n < 2 ^ 64) : (varint n).length ≤ 10 := by
  rw [length_varint]
  exact Nat.succ_le_succ (length_continuedGroups_le (by omega))

/-- One group more goes behind those of a number. -/
theorem continuedGroups_mul_add {high d : Nat} (small : d < 128) (positive : high * 128 + d ≠ 0) :
    continuedGroups (high * 128 + d) = continuedGroups high ++ [UInt8.ofNat (128 + d)] := by
  have above : (high * 128 + d) / 128 = high := by omega
  have last : (high * 128 + d) % 128 = d := by omega
  rw [continuedGroups, if_neg positive, above, last]

theorem varint_mul_add {high d : Nat} (small : d < 128) :
    varint (high * 128 + d) = continuedGroups high ++ [UInt8.ofNat d] := by
  have above : (high * 128 + d) / 128 = high := by omega
  have last : (high * 128 + d) % 128 = d := by omega
  rw [varint, above, last]

/-! ## The shortest bytes -/

/-- What reads on behind a number stands behind its groups; if the number is zero so far, groups of zero may
still come first. -/
theorem exists_groups_of_readVarint {bytes rest : List UInt8} {high n : Nat}
    (read : readVarint high bytes = some (n, rest)) :
    ∃ zeros, continuedGroups high ++ bytes = List.replicate zeros 0x80 ++ varint n ++ rest := by
  induction bytes generalizing high with
  | nil => cases read
  | cons byte bytes ih =>
    have range := byte.toNat_lt
    rw [readVarint] at read
    split at read
    · next last =>
      obtain ⟨rfl, rfl⟩ := Prod.mk.inj (Option.some.inj read)
      refine ⟨0, ?_⟩
      rw [varint_mul_add last, UInt8.ofNat_toNat]
      simp
    · next more =>
      obtain ⟨zeros, same⟩ := ih read
      have group : UInt8.ofNat (128 + (byte.toNat - 128)) = byte := by
        rw [Nat.add_sub_cancel' (by omega), UInt8.ofNat_toNat]
      by_cases blank : high * 128 + (byte.toNat - 128) = 0
      · -- nothing but zero so far, so that the byte is one more group of zero
        obtain rfl : high = 0 := by omega
        obtain rfl : byte = 0x80 := UInt8.toNat_inj.mp (show byte.toNat = 128 by omega)
        rw [blank, continuedGroups_zero, List.nil_append] at same
        refine ⟨zeros + 1, ?_⟩
        rw [continuedGroups_zero, List.nil_append, same, List.replicate_succ]
        rfl
      · refine ⟨zeros, ?_⟩
        rw [← same, continuedGroups_mul_add (by omega) blank, group, List.append_assoc,
          List.singleton_append]

theorem readVarint_replicate (zeros : Nat) (bytes : List UInt8) :
    readVarint 0 (List.replicate zeros 0x80 ++ bytes) = readVarint 0 bytes := by
  induction zeros with
  | zero => rfl
  | succ zeros ih =>
    rw [List.replicate_succ, List.cons_append, readVarint]
    exact ih

/-- What is read as a number is its varint, behind any groups of zero. -/
theorem readVarint_eq_some_iff {bytes rest : List UInt8} {n : Nat} :
    readVarint 0 bytes = some (n, rest) ↔
      ∃ zeros, bytes = List.replicate zeros 0x80 ++ varint n ++ rest := by
  constructor
  · intro read
    obtain ⟨zeros, same⟩ := exists_groups_of_readVarint read
    rw [continuedGroups_zero, List.nil_append] at same
    exact ⟨zeros, same⟩
  · rintro ⟨zeros, rfl⟩
    rw [List.append_assoc, readVarint_replicate]
    exact reads_varint n rest

/-- The greatest group of a number is not zero. -/
theorem head?_continuedGroups_ne (n : Nat) : (continuedGroups n).head? ≠ some 0x80 := by
  induction n using Nat.strongRecOn with
  | ind n ih =>
    rw [continuedGroups]
    split
    · simp
    · next positive =>
      by_cases one : n / 128 = 0
      · have byte : (UInt8.ofNat (128 + n % 128)).toNat = 128 + n % 128 := toNat_byte (by omega)
        rw [one, continuedGroups_zero, List.nil_append, List.head?_cons]
        intro same
        have zero : 128 + n % 128 = 128 := byte ▸ congrArg UInt8.toNat (Option.some.inj same)
        omega
      · have filled : continuedGroups (n / 128) ≠ [] := by
          rw [continuedGroups, if_neg one]
          simp
        rw [List.head?_append, List.head?_eq_some_head filled, Option.some_or,
          ← List.head?_eq_some_head filled]
        exact ih (n / 128) (by omega)

theorem head?_varint_ne (n : Nat) : (varint n).head? ≠ some 0x80 := by
  rw [varint]
  rcases groups : continuedGroups (n / 128) with _ | ⟨byte, others⟩
  · have byte : (UInt8.ofNat (n % 128)).toNat = n % 128 := toNat_byte (by omega)
    rw [List.nil_append, List.head?_cons]
    intro same
    have zero : n % 128 = 128 := byte ▸ congrArg UInt8.toNat (Option.some.inj same)
    omega
  · have head := head?_continuedGroups_ne (n / 128)
    rw [groups] at head
    exact head

/-- Of two numbers that begin the same bytes each is the other. -/
theorem varint_append_inj {m n : Nat} {xs ys : List UInt8} :
    varint m ++ xs = varint n ++ ys ↔ m = n ∧ xs = ys := by
  constructor
  · intro same
    have both := congrArg (readVarint 0) same
    rw [reads_varint, reads_varint] at both
    exact Prod.mk.inj (Option.some.inj both)
  · rintro ⟨rfl, rfl⟩
    rfl

/-! ## In a block of bytes -/

section

variable {room : Nat}

/-- Puts a byte in a place of a block; there are no places behind its end. -/
def putByte? (block : Vector UInt8 room) (place : Nat) (byte : UInt8) : Option (Vector UInt8 room) :=
  if inside : place < room then some (block.set place byte inside) else none

/-- Puts the groups of a number in a block, the least one first, behind the `count` that are there already,
and gives the block with the number of its groups. -/
def splitGroups? (block : Vector UInt8 room) (count n : Nat) : Option (Vector UInt8 room × Nat) := do
  let block ← putByte? block count (UInt8.ofNat (n &&& 0x7f))
  if n >>> 7 = 0 then some (block, count + 1) else splitGroups? block (count + 1) (n >>> 7)
termination_by n
decreasing_by
  rw [Nat.shiftRight_eq_div_pow] at *
  omega

/-- Copies the last `done` of `count` groups into a block of their own, the last one first. All of them get
the high bit but the one that comes at the end of all. -/
def turnGroups? (groups : Vector UInt8 room) (count : Nat) : Nat → Option (Vector UInt8 room)
  | 0 => some (Vector.replicate room 0)
  | done + 1 => do
    let block ← turnGroups? groups count done
    let group ← groups[count - 1 - done]?
    putByte? block done (if done + 1 < count then group ||| 0x80 else group)

/-- A number in groups of seven bits at the front of a block, with the number of its bytes. -/
def varintBlock? (room n : Nat) : Option (Vector UInt8 room × Nat) := do
  let (groups, count) ← splitGroups? (Vector.replicate room 0) 0 n
  let block ← turnGroups? groups count count
  some (block, count)

/-! ### Masks -/

theorem toNat_and_mask (byte : UInt8) : (byte &&& 0x7f).toNat = byte.toNat % 128 := by
  rw [UInt8.toNat_and]
  exact Nat.and_two_pow_sub_one_eq_mod byte.toNat 7

theorem and_mask_of_lt {byte : UInt8} (last : byte.toNat < 128) : byte &&& 0x7f = byte := by
  rw [← UInt8.toNat_inj, toNat_and_mask, Nat.mod_eq_of_lt last]

/-- A byte with the high bit is its group with the high bit. -/
theorem and_mask_or {byte : UInt8} (more : 128 ≤ byte.toNat) : byte &&& 0x7f ||| 0x80 = byte := by
  have range := byte.toNat_lt
  have group : byte.toNat % 128 = byte.toNat - 128 := by omega
  have joined : 128 + (byte.toNat - 128) = 128 ||| (byte.toNat - 128) :=
    Nat.two_pow_add_eq_or_of_lt (i := 7) (show byte.toNat - 128 < 2 ^ 7 by omega) 1
  rw [← UInt8.toNat_inj, UInt8.toNat_or, toNat_and_mask, group, Nat.or_comm]
  exact joined.symm.trans (Nat.add_sub_cancel' more)

/-- All bytes of a varint but the last have the high bit. -/
theorem toNat_of_mem_continuedGroups {n : Nat} {byte : UInt8} (among : byte ∈ continuedGroups n) :
    128 ≤ byte.toNat := by
  induction n using Nat.strongRecOn with
  | ind n ih =>
    rw [continuedGroups] at among
    split at among
    · cases among
    · rcases List.mem_append.mp among with before | last
      · exact ih (n / 128) (by omega) before
      · rw [List.mem_singleton.mp last, toNat_byte (by omega)]
        omega

/-- The groups of a number, from the least to the greatest. -/
def lowGroups (n : Nat) : List UInt8 := ((varint n).map (· &&& 0x7f)).reverse

theorem lowGroups_eq (n : Nat) :
    lowGroups n =
      UInt8.ofNat (n % 128) :: if n / 128 = 0 then [] else lowGroups (n / 128) := by
  have last (d : Nat) (small : d < 128) : UInt8.ofNat d &&& 0x7f = UInt8.ofNat d :=
    and_mask_of_lt (by rw [toNat_byte (by omega)]; exact small)
  have marked : UInt8.ofNat (128 + n / 128 % 128) &&& 0x7f = UInt8.ofNat (n / 128 % 128) := by
    rw [← UInt8.toNat_inj, toNat_and_mask, toNat_byte (by omega), toNat_byte (by omega)]
    omega
  rw [lowGroups, varint, List.map_append, List.reverse_append, List.map_cons, List.map_nil,
    List.reverse_singleton, List.singleton_append, last _ (by omega)]
  congr 1
  rw [continuedGroups]
  split
  · rfl
  · rw [lowGroups, varint, List.map_append, List.map_append, List.map_cons, List.map_nil, marked,
      List.map_cons, List.map_nil, last _ (by omega)]

/-! ### Within the block -/

/-- A byte goes behind those that a block has already. -/
theorem exists_putByte? (block : Vector UInt8 room) {place : Nat} (inside : place < room) (byte : UInt8) :
    ∃ block', putByte? block place byte = some block' ∧
      block'.toList.take (place + 1) = block.toList.take place ++ [byte] := by
  refine ⟨block.set place byte inside, dif_pos inside, ?_⟩
  have length : place < (block.toList.set place byte).length := by simpa using inside
  rw [Vector.toList_set, List.take_succ_eq_append_getElem length,
    List.take_set_of_le (Nat.le_refl place), List.getElem_set_self]

/-- All groups of a number find a place behind what a block has already. -/
theorem exists_splitGroups? (block : Vector UInt8 room) (count : Nat) {n : Nat}
    (enough : count + (lowGroups n).length ≤ room) :
    ∃ groups, splitGroups? block count n = some (groups, count + (lowGroups n).length) ∧
      groups.toList.take (count + (lowGroups n).length) =
        block.toList.take count ++ lowGroups n := by
  -- a number without its last group is smaller, and the groups before it are those of this one
  induction n using Nat.strongRecOn generalizing block count with
  | ind n ih =>
    have group : n &&& 0x7f = n % 128 := Nat.and_two_pow_sub_one_eq_mod n 7
    have above : n >>> 7 = n / 128 := Nat.shiftRight_eq_div_pow n 7
    rw [lowGroups_eq] at enough ⊢
    rw [List.length_cons] at enough ⊢
    obtain ⟨block', put, taken⟩ :=
      exists_putByte? block (show count < room by omega) (UInt8.ofNat (n % 128))
    rw [splitGroups?, group, above, put]
    by_cases last : n / 128 = 0
    · rw [if_pos last]
      exact ⟨block', if_pos last, taken⟩
    · rw [if_neg last] at enough ⊢
      obtain ⟨groups, split, whole⟩ := ih (n / 128) (by omega) block' (count + 1) (by omega)
      have place : count + ((lowGroups (n / 128)).length + 1) =
          count + 1 + (lowGroups (n / 128)).length := by omega
      rw [place]
      refine ⟨groups, (if_neg last).trans split, ?_⟩
      rw [whole, taken, List.append_assoc, List.singleton_append]

/-- A byte of a varint is its group, with the high bit if others come behind it. -/
theorem mark_group {n i : Nat} (inside : i < (varint n).length) :
    (if i + 1 < (varint n).length then (varint n)[i] &&& 0x7f ||| 0x80 else (varint n)[i] &&& 0x7f) =
      (varint n)[i] := by
  have length := length_varint n
  split
  · next more =>
    have before : i < (continuedGroups (n / 128)).length := by omega
    have byte : (varint n)[i] = (continuedGroups (n / 128))[i] := List.getElem_append_left before
    rw [byte]
    exact and_mask_or (toNat_of_mem_continuedGroups (List.getElem_mem before))
  · next last =>
    obtain rfl : i = (continuedGroups (n / 128)).length := by omega
    have byte : (varint n)[(continuedGroups (n / 128)).length] = UInt8.ofNat (n % 128) :=
      List.getElem_concat_length rfl _
    rw [byte]
    refine and_mask_of_lt ?_
    rw [toNat_byte (by omega)]
    omega

/-- The groups of a number, turned round and marked, are its varint. -/
theorem exists_turnGroups? {groups : Vector UInt8 room} {done n : Nat}
    (enough : (varint n).length ≤ room) (within : done ≤ (varint n).length)
    (split : groups.toList.take (varint n).length = lowGroups n) :
    ∃ block, turnGroups? groups (varint n).length done = some block ∧
      block.toList.take done = (varint n).take done := by
  induction done with
  | zero => exact ⟨Vector.replicate room 0, rfl, rfl⟩
  | succ done ih =>
    obtain ⟨block, turned, front⟩ := ih (by omega)
    -- the next byte comes from the place as far from the end of the groups as it is from the front
    have place : (varint n).length - 1 - done < (varint n).length := by omega
    have opposite : (varint n).length - 1 - ((varint n).length - 1 - done) = done := by omega
    have group : groups[(varint n).length - 1 - done]? = some ((varint n)[done] &&& 0x7f) := by
      rw [← Vector.getElem?_toList, ← List.getElem?_take_of_lt place, split, lowGroups,
        List.getElem?_reverse (by rwa [List.length_map]), List.length_map, opposite,
        List.getElem?_map, List.getElem?_eq_getElem within, Option.map_some]
    obtain ⟨block', put, taken⟩ :=
      exists_putByte? block (show done < room by omega) (varint n)[done]
    refine ⟨block', ?_, ?_⟩
    · rw [turnGroups?, turned, Option.bind_eq_bind, Option.bind_some, group, Option.bind_eq_bind,
        Option.bind_some, mark_group within]
      exact put
    · rw [taken, front, List.take_append_getElem within]

/-- A block with a place for each group takes the varint of a number. -/
theorem exists_varintBlock? {n : Nat} (enough : (varint n).length ≤ room) :
    ∃ block, varintBlock? room n = some (block, (varint n).length) ∧
      block.toList.take (varint n).length = varint n := by
  have length : (lowGroups n).length = (varint n).length := by
    rw [lowGroups, List.length_reverse, List.length_map]
  obtain ⟨groups, split, low⟩ :=
    exists_splitGroups? (n := n) (Vector.replicate room 0) 0 (by omega)
  rw [Nat.zero_add, length] at split low
  obtain ⟨block, turned, whole⟩ := exists_turnGroups? enough (Nat.le_refl _) low
  refine ⟨block, ?_, ?_⟩
  · simp only [varintBlock?, split, turned, Option.bind_eq_bind, Option.bind_some]
  · rw [whole, List.take_length]

end

/-- Ten bytes are enough for every number of 64 bits, and so are blocks of ten to put them together in. A varint
is read back whatever comes behind it, nothing shorter is read as the number, and no other varint begins it. -/
theorem varint_shortest {n : Nat} (small : n < 2 ^ 64) :
    (1 ≤ (varint n).length ∧ (varint n).length ≤ 10 ∧
      ∃ block, varintBlock? 10 n = some (block, (varint n).length) ∧
        block.toList.take (varint n).length = varint n) ∧
    (∀ rest, readVarint 0 (varint n ++ rest) = some (n, rest)) ∧
    (∀ bytes, readVarint 0 bytes = some (n, []) → (varint n).length ≤ bytes.length) ∧
    (varint n).head? ≠ some 0x80 ∧
    ∀ m, varint m <+: varint n → m = n := by
  have filled : 1 ≤ (varint n).length := List.length_pos_iff.mpr (varint_ne_nil n)
  have enough := length_varint_le small
  refine ⟨⟨filled, enough, exists_varintBlock? enough⟩, reads_varint n, ?_, head?_varint_ne n, ?_⟩
  · intro bytes read
    obtain ⟨zeros, rfl⟩ := readVarint_eq_some_iff.mp read
    simp only [List.length_append]
    omega
  · rintro m ⟨more, same⟩
    rw [← List.append_nil (varint n)] at same
    exact (varint_append_inj.mp same).1

/-- The greatest number of 64 bits takes ten bytes. -/
theorem varint_shortest_greatest :
    18446744073709551615 < 2 ^ 64 ∧ (varint 18446744073709551615).length = 10 ∧
      (∃ block, varintBlock? 10 18446744073709551615 = some (block, 10) ∧
        block.toList.take 10 = varint 18446744073709551615) ∧
      readVarint 0 (varint 18446744073709551615 ++ [0x80]) = some (18446744073709551615, [0x80]) := by
  have small : 18446744073709551615 < 2 ^ 64 := by decide
  have ten : (varint 18446744073709551615).length = 10 := by decide +kernel
  have whole := varint_shortest small
  rw [ten] at whole
  exact ⟨small, ten, whole.1.2.2, whole.2.1 [0x80]⟩

end PrologWire.Swi
