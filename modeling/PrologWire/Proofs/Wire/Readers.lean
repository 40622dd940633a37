/-!
# Readers of bytes

A reader takes something from the front of bytes and leaves the rest; `Reads` says that it takes back
what was written, whatever comes behind it. A reader can be used a number of times, as for the arguments
of a compound, or until no byte is left, as for the sentences of a stream.
-/

namespace PrologWire

/-- What takes something from the front of bytes and leaves the rest. -/
abbrev Reader (α : Type) := List UInt8 → Option (α × List UInt8)

variable {α β : Type}

/-- The reader takes `x` back from the bytes, whatever comes behind them. -/
def Reads (read : Reader α) (x : α) (bs : List UInt8) : Prop :=
  ∀ rest, read (bs ++ rest) = some (x, rest)

/-! ## Several in a row -/

/-- Reads the same kind of thing a number of times. -/
def readTimes (read : Reader α) : Nat → Reader (List α)
  | 0, bs => some ([], bs)
  | count + 1, bs => do
    let (x, bs) ← read bs
    let (xs, bs) ← readTimes read count bs
    some (x :: xs, bs)

/-- Reads until no byte is left, at most as often as told. -/
def readAll (read : Reader α) : Nat → List UInt8 → Option (List α)
  | _, [] => some []
  | 0, _ :: _ => none
  | count + 1, byte :: bs => do
    let (x, bs) ← read (byte :: bs)
    let xs ← readAll read count bs
    some (x :: xs)

/-- A part is not longer than all parts. -/
theorem length_le_length_flatMap {f : α → List β} {xs : List α} {x : α} (h : x ∈ xs) :
    (f x).length ≤ (xs.flatMap f).length := by
  obtain ⟨front, back, rfl⟩ := List.append_of_mem h
  simp
  omega

/-- What was written one after the other is read one after the other. -/
theorem reads_times {read : Reader β} {f : α → β} {write : α → List UInt8} {xs : List α}
    (each : ∀ x ∈ xs, Reads read (f x) (write x)) :
    Reads (readTimes read xs.length) (xs.map f) (xs.flatMap write) := by
  intro rest
  induction xs with
  | nil => rfl
  | cons x xs ih =>
    have first := each x List.mem_cons_self (xs.flatMap write ++ rest)
    have others := ih fun y among => each y (List.mem_cons_of_mem _ among)
    simp [readTimes, first, others]

/-- What was written one after the other is read until no byte is left. -/
theorem readAll_flatMap {read : Reader β} {f : α → β} {write : α → List UInt8} {xs : List α}
    (each : ∀ x ∈ xs, Reads read (f x) (write x)) (filled : ∀ x ∈ xs, write x ≠ []) {count : Nat}
    (enough : (xs.flatMap write).length ≤ count) :
    readAll read count (xs.flatMap write) = some (xs.map f) := by
  induction xs generalizing count with
  | nil => cases count <;> rfl
  | cons x xs ih =>
    have first := each x List.mem_cons_self (xs.flatMap write)
    obtain ⟨byte, bs, written⟩ := List.exists_cons_of_ne_nil (filled x List.mem_cons_self)
    simp only [List.flatMap_cons, written, List.cons_append, List.length_cons, List.length_append]
      at first enough ⊢
    obtain _ | count := count
    · omega
    · -- every record has a byte, so that one less of the count is enough for the others
      have shorter : (xs.flatMap write).length ≤ count := by omega
      have others := ih (fun y among => each y (List.mem_cons_of_mem _ among))
        (fun y among => filled y (List.mem_cons_of_mem _ among)) shorter
      simp [readAll, first, others]

/-- What is read a number of times is read each time. -/
theorem exists_read_of_readTimes {read : Reader α} {count : Nat} {bs rest : List UInt8}
    {xs : List α} (h : readTimes read count bs = some (xs, rest)) {x : α} (among : x ∈ xs) :
    ∃ bs rest, read bs = some (x, rest) := by
  induction count generalizing bs xs with
  | zero =>
    obtain ⟨rfl, -⟩ := Prod.mk.inj (Option.some.inj h)
    cases among
  | succ count ih =>
    obtain ⟨⟨y, bs'⟩, first, h⟩ := Option.bind_eq_some_iff.mp h
    obtain ⟨⟨ys, bs''⟩, others, same⟩ := Option.bind_eq_some_iff.mp h
    obtain ⟨rfl, rfl⟩ := Prod.mk.inj (Option.some.inj same)
    rcases List.mem_cons.mp among with rfl | later
    · exact ⟨_, _, first⟩
    · exact ih others later

/-- What is read until no byte is left is read each time. -/
theorem exists_read_of_readAll {read : Reader α} {count : Nat} {bs : List UInt8}
    {xs : List α} (h : readAll read count bs = some xs) {x : α} (among : x ∈ xs) :
    ∃ bs rest, read bs = some (x, rest) := by
  induction count generalizing bs xs with
  | zero =>
    obtain _ | ⟨byte, bs⟩ := bs
    · obtain rfl := Option.some.inj h
      cases among
    · cases h
  | succ count ih =>
    obtain _ | ⟨byte, bs⟩ := bs
    · obtain rfl := Option.some.inj h
      cases among
    · obtain ⟨⟨y, bs'⟩, first, h⟩ := Option.bind_eq_some_iff.mp h
      obtain ⟨ys, others, same⟩ := Option.bind_eq_some_iff.mp h
      obtain rfl := Option.some.inj same
      rcases List.mem_cons.mp among with rfl | later
      · exact ⟨_, _, first⟩
      · exact ih others later

end PrologWire
