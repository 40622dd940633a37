import PrologWire.Arena.Tree
import PrologWire.Numeric.DecimalText
import PrologWire.Text.Digits

/-!
# The standard order of terms

Variables come before numbers, numbers before atoms, then strings, compounds, tuples and lists.
Numbers compare by value, where two integers outside the 64-bit range compare by their digits and
all other pairs by the floats nearest to them. Texts compare character by character; compounds by
arity, functor and arguments; tuples and lists by length and elements. A comparison looks at no more
of the two terms than it takes to tell them apart, and `compareTerms?_eq_compare?` says that it gives
the order of their trees.
-/

namespace PrologWire

/-- The place of a kind in the standard order. -/
def Kind.rank : Kind → Nat
  | var => 0
  | int | bigint | real => 1
  | atom => 2
  | str => 3
  | func => 4
  | tuple => 5
  | list => 6

namespace Leaf

/-- A quiet NaN without a sign. -/
def unreadable : Binary64 := ⟨0x7ff8000000000000⟩

/-- The float nearest to a number. -/
def nearestReal : Leaf → Binary64
  | int value => .ofInt value.toInt
  | bigint digits => (Binary64.ofText? digits.toList).getD unreadable
  | real value => value
  | _ => unreadable

/-- The order of two terms without parts. -/
def compareWith : Leaf → Leaf → Ordering
  | var a, var b | atom a, atom b | str a, str b => compare a b
  | bigint a, bigint b => Text.compareDigits a.toList b.toList
  | l, m =>
    if l.kind.rank = m.kind.rank then compare l.nearestReal.rank m.nearestReal.rank
    else compare l.kind.rank m.kind.rank

end Leaf

/-- The order of the first two of the given parts that differ. -/
def firstDifference {α β : Type} (order : α → β → Except TermError Ordering) :
    List α → List β → Except TermError Ordering
  | x :: xs, y :: ys =>
    match order x y with
    | .ok .eq => firstDifference order xs ys
    | found => found
  | _, _ => .ok .eq

/-- The order of two sequences of parts, of which the shorter comes first. -/
def compareParts {α β : Type} (order : α → β → Except TermError Ordering) (xs : List α)
    (ys : List β) : Except TermError Ordering :=
  if xs.length = ys.length then firstDifference order xs ys
  else .ok (compare xs.length ys.length)

namespace View

/-- The order of two terms of which one level each is known and whose parts compare by `order`. -/
def compareBy {α β : Type} (order : α → β → Except TermError Ordering) :
    View α → View β → Except TermError Ordering
  | leaf l, leaf m => .ok (l.compareWith m)
  | func f xs, func g ys =>
    if xs.length = ys.length then firstDifference order (f :: xs) (g :: ys)
    else .ok (compare xs.length ys.length)
  | list xs, list ys | tuple xs, tuple ys => compareParts order xs ys
  | v, w => .ok (compare v.kind.rank w.kind.rank)

end View

namespace Tree

mutual

/-- The order of two terms. A subterm that the comparison comes to has to resolve. -/
def compare? : Tree → Tree → Except TermError Ordering
  | leaf l, leaf m => .ok (l.compareWith m)
  | func f xs, func g ys =>
    if xs.length = ys.length then
      match compare? f g with
      | .ok .eq => compareAll? xs ys
      | found => found
    else .ok (compare xs.length ys.length)
  | list xs, list ys | tuple xs, tuple ys =>
    if xs.length = ys.length then compareAll? xs ys else .ok (compare xs.length ys.length)
  | s, t =>
    -- the left term is looked at first
    match s.view, t.view with
    | .error cause, _ => .error cause
    | .ok _, .error cause => .error cause
    | .ok v, .ok w => .ok (compare v.kind.rank w.kind.rank)

/-- The order of the first two terms that differ. -/
def compareAll? : List Tree → List Tree → Except TermError Ordering
  | x :: xs, y :: ys =>
    match compare? x y with
    | .ok .eq => compareAll? xs ys
    | found => found
  | _, _ => .ok .eq

end

end Tree

namespace Arena

/-- The order of two terms that are allowed to have so many levels each. -/
def compareDown (a b : Arena) : Nat → Nat → Handle → Handle → Except TermError Ordering
  | 0, _, h, _ => .error (.endlessTerm h)
  | m + 1, n, h, k =>
    match a.view h, b.look n k with
    | .error cause, _ => .error cause
    | .ok _, .error cause => .error cause
    | .ok v, .ok w => v.compareBy (compareDown a b m (n - 1)) w

/-- The order of the terms that two handles stand for, each in its arena. -/
def compareTerms? (a : Arena) (h : Handle) (b : Arena) (k : Handle) :
    Except TermError Ordering :=
  compareDown a b a.maxDepth b.maxDepth h k

end Arena

/-! ## Comparing handles is comparing trees -/

theorem Tree.compareAll?_eq_firstDifference (xs ys : List Tree) :
    Tree.compareAll? xs ys = firstDifference Tree.compare? xs ys := by
  induction xs generalizing ys with
  | nil => cases ys <;> rfl
  | cons x xs ih =>
    cases ys with
    | nil => rfl
    | cons y ys =>
      rw [Tree.compareAll?, firstDifference]
      rcases Tree.compare? x y with cause | order
      · rfl
      · cases order with
        | eq => exact ih ys
        | lt => rfl
        | gt => rfl

/-- Two terms compare by their first levels. -/
theorem Tree.compare?_ofView (v w : View Tree) :
    (Tree.ofView (.ok v)).compare? (Tree.ofView (.ok w)) = v.compareBy Tree.compare? w := by
  cases v <;> cases w <;>
    simp only [Tree.ofView, Tree.compare?, View.compareBy, compareParts, firstDifference,
      Tree.compareAll?_eq_firstDifference, Tree.view]

theorem firstDifference_map {α β γ δ : Type} (order : γ → δ → Except TermError Ordering)
    (f : α → γ) (g : β → δ) (xs : List α) (ys : List β) :
    firstDifference order (xs.map f) (ys.map g) =
      firstDifference (fun x y => order (f x) (g y)) xs ys := by
  induction xs generalizing ys with
  | nil => cases ys <;> rfl
  | cons x xs ih =>
    cases ys with
    | nil => rfl
    | cons y ys =>
      rw [List.map_cons, List.map_cons, firstDifference, firstDifference]
      rcases order (f x) (g y) with cause | found
      · rfl
      · cases found with
        | eq => exact ih ys
        | lt => rfl
        | gt => rfl

/-- Replacing the parts of two terms changes the order of the parts only. -/
theorem View.compareBy_map {α β γ δ : Type} (order : γ → δ → Except TermError Ordering)
    (f : α → γ) (g : β → δ) (v : View α) (w : View β) :
    (v.map f).compareBy order (w.map g) = v.compareBy (fun x y => order (f x) (g y)) w := by
  cases v <;> cases w <;>
    simp only [View.map, View.compareBy, View.kind, compareParts, List.length_map,
      firstDifference_map, ← List.map_cons]

/-- A comparison of two handles down to certain depths compares the trees down to these depths. -/
theorem Arena.compareDown_eq_compare? (a b : Arena) (m n : Nat) (h k : Handle) :
    compareDown a b m n h k = (a.unfold m h).compare? (b.unfold n k) := by
  induction m generalizing n h k with
  | zero =>
    cases b.unfold n k <;> simp only [compareDown, unfold, Tree.compare?, Tree.view]
  | succ m ih =>
    have parts (n : Nat) : compareDown a b m n =
        fun h k => (a.unfold m h).compare? (b.unfold n k) := by
      funext h k
      exact ih n h k
    rw [compareDown, unfold_succ]
    rcases a.view h with cause | v
    · cases b.unfold n k <;> rfl
    · cases n with
      | zero => cases v <;> rfl
      | succ n =>
        rw [look, unfold_succ, parts, Nat.add_sub_cancel]
        rcases b.view k with cause | w
        · cases v <;> rfl
        · exact (View.compareBy_map _ _ _ v w).symm.trans (Tree.compare?_ofView _ _).symm

/-- Comparing two terms gives the order of their trees. -/
theorem Arena.compareTerms?_eq_compare? (a b : Arena) (h k : Handle) :
    a.compareTerms? h b k = (a.tree h).compare? (b.tree k) :=
  compareDown_eq_compare? a b a.maxDepth b.maxDepth h k

end PrologWire
