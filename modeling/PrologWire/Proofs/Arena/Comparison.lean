import PrologWire.Proofs.Arena.LiveTerms

/-!
# Comparing across arenas

The order of two live terms depends on nothing but their trees. It does not matter which arenas the terms
are in, in which epochs and where in the storages they lie, and whether a text is inside its handle; no
comparison of live terms fails, terms with the same tree are equal, and two terms the other way round have
the reverse order.
-/

namespace PrologWire

namespace Arena

/-- Two live terms, each in its arena, compare by the order of their trees, the other way round by the
reverse of it, and are equal if they have the same tree. -/
theorem compareTerms?_of_live {a b : Arena} {h k : Handle} (left : a.Live h) (right : b.Live k) :
    a.compareTerms? h b k = .ok ((a.tree h).order (b.tree k)) ∧
      b.compareTerms? k a h = .ok ((a.tree h).order (b.tree k)).swap ∧
      (a.tree h = b.tree k → a.compareTerms? h b k = .ok .eq) := by
  have wholeL := live_iff.mp left
  have wholeR := live_iff.mp right
  have forward : a.compareTerms? h b k = .ok ((a.tree h).order (b.tree k)) := by
    rw [compareTerms?_eq_compare?]
    exact Tree.compare?_eq_order wholeL wholeR
  have backward : b.compareTerms? k a h = .ok ((b.tree k).order (a.tree h)) := by
    rw [compareTerms?_eq_compare?]
    exact Tree.compare?_eq_order wholeR wholeL
  refine ⟨forward, ?_, ?_⟩
  · rw [backward, Tree.order_swap wholeL wholeR]
  · intro same
    rw [forward, same, Tree.order_self wholeR]

/-- A fresh arena with a compound. -/
def plainly : Arena :=
  Operation.performAll
    [.text .atom "a name of some length", .integer 100000000000000000000,
      .func "pair" [.term (.long .atom ⟨⟨0⟩, 0, 21⟩), .term (.short .atom ⟨"name", by decide⟩),
        .term (.bigint ⟨⟨0⟩, 21, 21⟩), .term (.real ⟨0xfff8000000000001⟩)]]
    (create ⟨0⟩ ⟨0⟩)

/-- An arena that has been used before, with the same compound in a second epoch: its parts were made in
another order, and the text of its second argument is a part of that of the first one. -/
def elsewhere : Arena :=
  Operation.performAll
    [.text .str "a string that is not used", .list [.integer 1, .name "elem"], .beginEpoch ⟨9⟩,
      .integer 100000000000000000000, .text .atom "a name of some length",
      .func "pair" [.term (.long .atom ⟨⟨9⟩, 46, 21⟩), .term (.long .atom ⟨⟨9⟩, 48, 4⟩),
        .term (.bigint ⟨⟨9⟩, 25, 21⟩), .term (.real ⟨0xfff8000000000001⟩)]]
    (create ⟨3⟩ ⟨4⟩)

theorem compareTerms?_of_live_elsewhere :
    plainly.Live (.node .func ⟨⟨0⟩, 0, 5⟩) ∧ elsewhere.Live (.node .func ⟨⟨9⟩, 2, 5⟩) ∧
      plainly.compareTerms? (.node .func ⟨⟨0⟩, 0, 5⟩) elsewhere (.node .func ⟨⟨9⟩, 2, 5⟩) =
        .ok .eq := by
  have here : plainly.tree (.node .func ⟨⟨0⟩, 0, 5⟩) =
    .func (.leaf (.atom "pair")) [.leaf (.atom "a name of some length"), .leaf (.atom "name"),
      .leaf (.bigint "100000000000000000000"), .leaf (.real ⟨0xfff8000000000001⟩)] := rfl
  have there : elsewhere.tree (.node .func ⟨⟨9⟩, 2, 5⟩) =
    .func (.leaf (.atom "pair")) [.leaf (.atom "a name of some length"), .leaf (.atom "name"),
      .leaf (.bigint "100000000000000000000"), .leaf (.real ⟨0xfff8000000000001⟩)] := rfl
  have whole : (Tree.func (.leaf (.atom "pair")) [.leaf (.atom "a name of some length"),
      .leaf (.atom "name"), .leaf (.bigint "100000000000000000000"),
      .leaf (.real ⟨0xfff8000000000001⟩)]).Over fun _ => True := by
    refine .func (.leaf trivial) ?_
    simp only [List.forall_mem_cons]
    exact ⟨.leaf trivial, .leaf trivial, .leaf trivial, .leaf trivial,
      fun t none => absurd none List.not_mem_nil⟩
  have left : plainly.Live (.node .func ⟨⟨0⟩, 0, 5⟩) := live_iff.mpr (here ▸ whole)
  have right : elsewhere.Live (.node .func ⟨⟨9⟩, 2, 5⟩) := live_iff.mpr (there ▸ whole)
  exact ⟨left, right, (compareTerms?_of_live left right).2.2 (here.trans there.symm)⟩

end Arena
end PrologWire
