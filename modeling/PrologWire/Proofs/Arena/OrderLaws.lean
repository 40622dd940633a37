import PrologWire.Proofs.Arena.History
import PrologWire.Proofs.Arena.TreeOrder

/-!
# The laws of the standard order

On live terms every comparison has a result, a term equals itself, and two terms the other way round
have the reverse order. The order is transitive, and equality with it, as long as no two different
big integers among the terms and their parts are both nearest to the float of a third number: big
integers compare exactly with each other and by their nearest floats with all other numbers.
-/

namespace PrologWire

/-- The parts of a term, of which the functor is one. -/
def View.parts {α : Type} : View α → List α
  | leaf _ => []
  | func functor args => functor :: args
  | list elems | tuple elems => elems

/-- Terms, each in its arena. -/
def TermSet : Type := Arena → Handle → Prop

namespace TermSet

variable {S : TermSet}

/-- All subterms resolve, and the digits of big integers are those of integers. -/
def IsLive (S : TermSet) : Prop := ∀ a h, S a h → (a.tree h).Over Leaf.IsLive

/-- The parts of the terms are among them. -/
def HasParts (S : TermSet) : Prop := ∀ a h v, S a h → a.view h = .ok v → ∀ k ∈ v.parts, S a k

/-- The leaf is one of the terms. -/
def Shows (S : TermSet) (l : Leaf) : Prop := ∃ a h, S a h ∧ a.view h = .ok (.leaf l)

/-- The standard order is a total order up to equality on the terms. -/
structure IsOrdered (S : TermSet) : Prop where
  refl {a h} : S a h → a.compareTerms? h a h = .ok .eq
  swap {a h b k} : S a h → S b k →
    ∃ o, a.compareTerms? h b k = .ok o ∧ b.compareTerms? k a h = .ok o.swap
  le_trans {a h b k c l ab bc} : S a h → S b k → S c l → a.compareTerms? h b k = .ok ab → ab.isLE →
    b.compareTerms? k c l = .ok bc → bc.isLE → ∃ ac, a.compareTerms? h c l = .ok ac ∧ ac.isLE
  eq_trans {a h b k c l} : S a h → S b k → S c l → a.compareTerms? h b k = .ok .eq →
    b.compareTerms? k c l = .ok .eq → a.compareTerms? h c l = .ok .eq

/-- Every leaf in the terms is one of them. -/
theorem over_unfold (parts : S.HasParts) (depth : Nat) {a : Arena} {h : Handle} (among : S a h)
    (live : (a.unfold depth h).Over Leaf.IsLive) :
    (a.unfold depth h).Over fun l => l.IsLive ∧ S.Shows l := by
  induction depth generalizing h with
  | zero => cases live
  | succ depth ih =>
    rw [Arena.unfold_succ] at live ⊢
    have each := parts a h
    cases seen : a.view h with
    | error cause =>
      rw [seen] at live
      cases live
    | ok v =>
      rw [seen] at live
      replace each := each v among seen
      cases v with
      | leaf l =>
        cases live with
        | leaf good => exact .leaf ⟨good, a, h, among, seen⟩
      | func f xs =>
        cases live with
        | func functor args =>
          refine .func (ih (each f List.mem_cons_self) functor) ?_
          intro t member
          obtain ⟨k, inside, rfl⟩ := List.mem_map.mp member
          exact ih (each k (List.mem_cons_of_mem f inside)) (args _ member)
      | list xs =>
        cases live with
        | list elems =>
          refine .list fun t member => ?_
          obtain ⟨k, inside, rfl⟩ := List.mem_map.mp member
          exact ih (each k inside) (elems _ member)
      | tuple xs =>
        cases live with
        | tuple elems =>
          refine .tuple fun t member => ?_
          obtain ⟨k, inside, rfl⟩ := List.mem_map.mp member
          exact ih (each k inside) (elems _ member)

/-- The tree of a leaf is this leaf. -/
theorem tree_of_view {a : Arena} {h : Handle} {l : Leaf} (seen : a.view h = .ok (.leaf l)) :
    a.tree h = .leaf l := by
  rw [Arena.tree, Arena.maxDepth, Arena.unfold_succ, seen]
  rfl

/-- Live terms compare by the order of their trees. -/
theorem compareTerms?_eq_order (live : S.IsLive) {a b : Arena} {h k : Handle} (ha : S a h)
    (hb : S b k) : a.compareTerms? h b k = .ok ((a.tree h).order (b.tree k)) := by
  rw [Arena.compareTerms?_eq_compare?]
  exact Tree.compare?_eq_order (live a h ha) (live b k hb)

/-- Leaves compare as such. -/
theorem compareTerms?_leaves (live : S.IsLive) {a b : Arena} {h k : Handle} {l m : Leaf}
    (ha : S a h)
    (hb : S b k) (seenA : a.view h = .ok (.leaf l)) (seenB : b.view k = .ok (.leaf m)) :
    a.compareTerms? h b k = .ok (l.compareWith m) := by
  rw [compareTerms?_eq_order live ha hb, tree_of_view seenA, tree_of_view seenB, Tree.order]

/-- Without two big integers at the float of another number, the standard order is a total order. -/
theorem isOrdered_of_separate (live : S.IsLive) (parts : S.HasParts)
    (separate : Leaf.Separate S.Shows) : S.IsOrdered := by
  have swap {a h b k} (ha : S a h) (hb : S b k) :
      (b.tree k).order (a.tree h) = ((a.tree h).order (b.tree k)).swap :=
    Tree.order_swap (live a h ha) (live b k hb)
  have agree {a h b k c l} (ha : S a h) (hb : S b k) (hc : S c l) :
      Agree ((a.tree h).order (b.tree k)) ((b.tree k).order (c.tree l))
        ((a.tree h).order (c.tree l)) := by
    have within {a h} (among : S a h) := over_unfold parts a.maxDepth among (live a h among)
    refine Tree.agree_order ?_ (fun l good => good.1) (within ha) (within hb) (within hc)
    intro x y z hx hy hz
    exact separate x y z hx.2 hy.2 hz.2
  constructor
  · intro a h ha
    rw [compareTerms?_eq_order live ha ha, Tree.order_self (live a h ha)]
  · intro a h b k ha hb
    refine ⟨_, compareTerms?_eq_order live ha hb, ?_⟩
    rw [compareTerms?_eq_order live hb ha, swap ha hb]
  · intro a h b k c l ab bc ha hb hc first lower second upper
    rw [compareTerms?_eq_order live ha hb] at first
    rw [compareTerms?_eq_order live hb hc] at second
    obtain rfl := Except.ok.inj first
    obtain rfl := Except.ok.inj second
    refine ⟨_, compareTerms?_eq_order live ha hc, ?_⟩
    have fits := agree ha hb hc
    by_cases equal : (a.tree h).order (b.tree k) = .eq
    · rw [fits.left equal]
      exact upper
    · by_cases equal' : (b.tree k).order (c.tree l) = .eq
      · rw [fits.right equal']
        exact lower
      · -- both are less
        have less {o : Ordering} (le : o.isLE) (ne : o ≠ .eq) : o = .lt := by
          cases o with
          | lt => rfl
          | eq => exact absurd rfl ne
          | gt => cases le
        rw [fits.same ((less lower equal).trans (less upper equal').symm)]
        exact lower
  · intro a h b k c l ha hb hc first second
    rw [compareTerms?_eq_order live ha hb] at first
    rw [compareTerms?_eq_order live hb hc] at second
    rw [compareTerms?_eq_order live ha hc, (agree ha hb hc).left (Except.ok.inj first),
      Except.ok.inj second]

/-- Two big integers at the float of another number equal it, though they differ. -/
theorem separate_of_isOrdered (live : S.IsLive) (ordered : S.IsOrdered) :
    Leaf.Separate S.Shows := by
  rintro x y z ⟨a, h, ha, seenX⟩ ⟨b, k, hb, seenY⟩ ⟨c, l, hc, seenZ⟩ plain nearX nearY
  have first : a.compareTerms? h c l = .ok .eq := by
    rw [compareTerms?_leaves live ha hc seenX seenZ,
      (Leaf.compareWith_of_isPlainNumber rfl plain).2, nearX]
    exact congrArg Except.ok (Int.compare_eq_eq.mpr rfl)
  have second : c.compareTerms? l b k = .ok .eq := by
    rw [compareTerms?_leaves live hc hb seenZ seenY,
      (Leaf.compareWith_of_isPlainNumber rfl plain).1, nearY]
    exact congrArg Except.ok (Int.compare_eq_eq.mpr rfl)
  have equal := ordered.eq_trans ha hc hb first second
  rw [compareTerms?_leaves live ha hb seenX seenY] at equal
  have liveX := live a h ha
  have liveY := live b k hb
  rw [tree_of_view seenX] at liveX
  rw [tree_of_view seenY] at liveY
  cases liveX with
  | leaf liveX =>
    cases liveY with
    | leaf liveY =>
      obtain ⟨v, rfl⟩ := liveX
      obtain ⟨w, rfl⟩ := liveY
      rw [Leaf.compareWith_bigint] at equal
      rw [Int.compare_eq_eq.mp (Except.ok.inj equal)]

/-- On live terms and their parts the standard order is a total order if and only if no two
different big integers among them are nearest to the float of the same number that is no big
integer. -/
theorem isOrdered_iff (live : S.IsLive) (parts : S.HasParts) :
    S.IsOrdered ↔ ∀ x y z, S.Shows (.bigint x) → S.Shows (.bigint y) → S.Shows z →
      z.isPlainNumber → (Leaf.bigint x).nearestReal = z.nearestReal →
        (Leaf.bigint y).nearestReal = z.nearestReal → x = y :=
  ⟨separate_of_isOrdered live, isOrdered_of_separate live parts⟩

/-- An arena with two big integers and a compound of one of them and a float. -/
def weights : Arena :=
  Operation.performAll
    [.integer 100000000000000000000, .integer (-200000000000000000000),
      .func "weight" [.term (.bigint ⟨⟨0⟩, 0, 21⟩), .term (.real ⟨0x3ff8000000000000⟩)]]
    (Arena.create ⟨0⟩ ⟨0⟩)

/-- The terms of this arena. -/
def weightHandles : List Handle :=
  [.node .func ⟨⟨0⟩, 0, 3⟩, .short .atom ⟨"weight", by decide⟩, .bigint ⟨⟨0⟩, 0, 21⟩,
    .bigint ⟨⟨0⟩, 21, 22⟩, .real ⟨0x3ff8000000000000⟩]

theorem isOrdered_weights : IsOrdered fun a h => a = weights ∧ h ∈ weightHandles := by
  have seen₁ : weights.view (.node .func ⟨⟨0⟩, 0, 3⟩) = .ok (.func
    (.short .atom ⟨"weight", by decide⟩) [.bigint ⟨⟨0⟩, 0, 21⟩, .real ⟨0x3ff8000000000000⟩]) := rfl
  have seen₂ : weights.view (.short .atom ⟨"weight", by decide⟩) =
      .ok (.leaf (.atom "weight")) := rfl
  have seen₃ : weights.view (.bigint ⟨⟨0⟩, 0, 21⟩) =
    .ok (.leaf (.bigint "100000000000000000000")) := rfl
  have seen₄ : weights.view (.bigint ⟨⟨0⟩, 21, 22⟩) =
    .ok (.leaf (.bigint "-200000000000000000000")) := rfl
  have seen₅ : weights.view (.real ⟨0x3ff8000000000000⟩) =
    .ok (.leaf (.real ⟨0x3ff8000000000000⟩)) := rfl
  have shown {l : Leaf} {a : Arena} {h : Handle} (among : a = weights ∧ h ∈ weightHandles)
      (seen : a.view h = .ok (.leaf l)) : l = .atom "weight" ∨ l = .bigint "100000000000000000000" ∨
        l = .bigint "-200000000000000000000" ∨ l = .real ⟨0x3ff8000000000000⟩ := by
    obtain ⟨rfl, among⟩ := among
    simp only [weightHandles, List.mem_cons, List.not_mem_nil, or_false] at among
    rcases among with rfl | rfl | rfl | rfl | rfl
    · cases seen₁.symm.trans seen
    · exact .inl (View.leaf.inj (Except.ok.inj (seen.symm.trans seen₂)))
    · exact .inr (.inl (View.leaf.inj (Except.ok.inj (seen.symm.trans seen₃))))
    · exact .inr (.inr (.inl (View.leaf.inj (Except.ok.inj (seen.symm.trans seen₄)))))
    · exact .inr (.inr (.inr (View.leaf.inj (Except.ok.inj (seen.symm.trans seen₅)))))
  refine (isOrdered_iff ?_ ?_).mpr ?_
  · have name : (Tree.leaf (.atom "weight")).Over Leaf.IsLive := .leaf trivial
    have float : (Tree.leaf (.real ⟨0x3ff8000000000000⟩)).Over Leaf.IsLive := .leaf trivial
    have first : (Tree.leaf (.bigint "100000000000000000000")).Over Leaf.IsLive :=
      .leaf ⟨100000000000000000000, by decide +kernel⟩
    have second : (Tree.leaf (.bigint "-200000000000000000000")).Over Leaf.IsLive :=
      .leaf ⟨-200000000000000000000, by decide +kernel⟩
    rintro a h ⟨rfl, among⟩
    simp only [weightHandles, List.mem_cons, List.not_mem_nil, or_false] at among
    rcases among with rfl | rfl | rfl | rfl | rfl
    · refine Tree.Over.func name fun x inside => ?_
      rcases List.mem_cons.mp inside with rfl | inside
      · exact first
      · rw [List.mem_singleton.mp inside]
        exact float
    · exact name
    · exact first
    · exact second
    · exact float
  · rintro a h v ⟨rfl, among⟩ seen k part
    simp only [weightHandles, List.mem_cons, List.not_mem_nil, or_false] at among
    rcases among with rfl | rfl | rfl | rfl | rfl
    · obtain rfl := Except.ok.inj (seen₁.symm.trans seen)
      simp only [View.parts, List.mem_cons, List.not_mem_nil, or_false] at part
      rcases part with rfl | rfl | rfl <;> exact ⟨rfl, by simp [weightHandles]⟩
    · obtain rfl := Except.ok.inj (seen₂.symm.trans seen)
      cases part
    · obtain rfl := Except.ok.inj (seen₃.symm.trans seen)
      cases part
    · obtain rfl := Except.ok.inj (seen₄.symm.trans seen)
      cases part
    · obtain rfl := Except.ok.inj (seen₅.symm.trans seen)
      cases part
  · rintro x y z ⟨a, h, among, seen⟩ - ⟨c, k, amongZ, seenZ⟩ plain near -
    rcases shown amongZ seenZ with rfl | rfl | rfl | rfl
    · cases plain
    · cases plain
    · cases plain
    · rcases shown among seen with same | same | same | same <;> cases same
      · exact absurd near (by decide +kernel)
      · exact absurd near (by decide +kernel)

/-- Two big integers at the same float. -/
def twoBigs : Arena :=
  Operation.performAll [.integer 100000000000000000000, .integer 100000000000000000001]
    (Arena.create ⟨0⟩ ⟨0⟩)

theorem compareTerms?_twoBigs :
    twoBigs.view (.bigint ⟨⟨0⟩, 0, 21⟩) = .ok (.leaf (.bigint "100000000000000000000")) ∧
    twoBigs.view (.bigint ⟨⟨0⟩, 21, 21⟩) = .ok (.leaf (.bigint "100000000000000000001")) ∧
    twoBigs.compareTerms? (.bigint ⟨⟨0⟩, 0, 21⟩) twoBigs (.real ⟨0x4415af1d78b58c40⟩) = .ok .eq ∧
    twoBigs.compareTerms? (.real ⟨0x4415af1d78b58c40⟩) twoBigs (.bigint ⟨⟨0⟩, 21, 21⟩) = .ok .eq ∧
    twoBigs.compareTerms? (.bigint ⟨⟨0⟩, 0, 21⟩) twoBigs (.bigint ⟨⟨0⟩, 21, 21⟩) = .ok .lt := by
  have first : twoBigs.view (.bigint ⟨⟨0⟩, 0, 21⟩) =
    .ok (.leaf (.bigint "100000000000000000000")) := rfl
  have second : twoBigs.view (.bigint ⟨⟨0⟩, 21, 21⟩) =
    .ok (.leaf (.bigint "100000000000000000001")) := rfl
  have float : twoBigs.view (.real ⟨0x4415af1d78b58c40⟩) =
    .ok (.leaf (.real ⟨0x4415af1d78b58c40⟩)) := rfl
  simp only [Arena.compareTerms?_eq_compare?, tree_of_view first, tree_of_view second,
    tree_of_view float, Tree.compare?, first, second, Except.ok.injEq, true_and]
  decide +kernel

end TermSet

end PrologWire
