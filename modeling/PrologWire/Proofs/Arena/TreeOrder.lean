import PrologWire.Arena.Order
import PrologWire.Proofs.Numeric.Decimal
import PrologWire.Proofs.Numeric.Rounding

/-!
# Orders of three terms

Two terms in which nothing is broken always have an order, and the other way round they have the
reverse order. Whether the orders of three terms fit together is decided by their leaves: texts are
in a total order, and numbers are unless two big integers, which compare exactly, are both nearest
to the float of a third number that is none.
-/

namespace PrologWire

/-! ## Orders that fit together -/

/-- Of three things the orders of the first two, of the last two and of the first and the last fit
together: equals can be put for each other, and the order is transitive. -/
structure Agree (ab bc ac : Ordering) : Prop where
  left : ab = .eq → ac = bc
  right : bc = .eq → ac = ab
  same : ab = bc → ac = ab

namespace Agree

variable {ab bc ac ab' bc' ac' : Ordering}

/-- In a total order all orders fit together. -/
theorem of_compare {α : Type} [Ord α] [Std.TransOrd α] (x y z : α) :
    Agree (compare x y) (compare y z) (compare x z) where
  left := Std.TransCmp.congr_left
  right h := (Std.TransCmp.congr_right h).symm
  same h := by
    cases first : compare x y with
    | lt => exact Std.TransCmp.lt_trans first (h.symm.trans first)
    | eq => exact Std.TransCmp.eq_trans first (h.symm.trans first)
    | gt => exact Std.TransCmp.gt_trans first (h.symm.trans first)

theorem then_of_ne {o next : Ordering} (h : o ≠ .eq) : o.then next = o := by
  cases o with
  | lt => rfl
  | eq => exact absurd rfl h
  | gt => rfl

/-- The order of what comes next matters if all that came before is equal. -/
theorem before (outer : Agree ab bc ac) (inner : ab = .eq → bc = .eq → Agree ab' bc' ac') :
    Agree (ab.then ab') (bc.then bc') (ac.then ac') := by
  by_cases first : ab = .eq
  · have third := outer.left first
    by_cases second : bc = .eq
    · rw [third, first, second]
      exact inner first second
    · rw [third, then_of_ne second, then_of_ne second]
      exact ⟨fun _ => rfl, fun equal => absurd equal second, Eq.symm⟩
  · rw [then_of_ne first]
    by_cases second : bc = .eq
    · have third := outer.right second
      rw [third, then_of_ne first]
      exact ⟨fun equal => absurd equal first, fun _ => rfl, fun _ => rfl⟩
    · rw [then_of_ne second]
      refine ⟨fun equal => absurd equal first, fun equal => absurd equal second, ?_⟩
      intro equal
      rw [outer.same equal, then_of_ne first]

/-- Three orders fit together if different ranks decide and the orders among equal ranks do. -/
theorem of_ranks {α : Type} [Ord α] [Std.TransOrd α] [Std.LawfulEqOrd α] {i j k : α}
    (first : i ≠ j → ab = compare i j) (second : j ≠ k → bc = compare j k)
    (third : i ≠ k → ac = compare i k) (within : i = j → j = k → Agree ab bc ac) :
    Agree ab bc ac := by
  have apart {x y : α} (h : x ≠ y) : compare x y ≠ .eq :=
    fun equal => h (Std.LawfulEqCmp.eq_of_compare equal)
  by_cases ij : i = j
  · by_cases jk : j = k
    · exact within ij jk
    · subst ij
      rw [second jk, third jk]
      exact ⟨fun _ => rfl, fun equal => absurd equal (apart jk), Eq.symm⟩
  · by_cases jk : j = k
    · subst jk
      rw [first ij, third ij]
      exact ⟨fun equal => absurd equal (apart ij), fun _ => rfl, fun _ => rfl⟩
    · rw [first ij, second jk]
      refine ⟨fun equal => absurd equal (apart ij), fun equal => absurd equal (apart jk), ?_⟩
      intro equal
      by_cases ik : i = k
      · -- then the second comparison is the first one the other way round
        subst ik
        have back : compare j i = (compare i j).swap := Std.OrientedCmp.eq_swap
        rw [back] at equal
        have decided := apart ij
        cases order : compare i j <;> rw [order] at equal decided <;> first
          | exact absurd rfl decided
          | cases equal
      · rw [third ik]
        exact (of_compare i j k).same equal

theorem all_equal : Agree .eq .eq .eq := ⟨fun _ => rfl, fun _ => rfl, fun _ => rfl⟩

end Agree

/-! ## Leaves -/

namespace Leaf

/-- The digits of a big integer are those of an integer. -/
def IsLive : Leaf → Prop
  | bigint digits => ∃ value : Int, digits = toString value
  | _ => True

/-- A number that is no big integer. -/
def isPlainNumber : Leaf → Bool
  | int _ | real _ => true
  | _ => false

/-- Among the given leaves no two big integers are nearest to the float of the same other number. -/
def Separate (good : Leaf → Prop) : Prop :=
  ∀ x y z, good (bigint x) → good (bigint y) → good z → z.isPlainNumber →
    (bigint x).nearestReal = z.nearestReal → (bigint y).nearestReal = z.nearestReal → x = y

/-- Leaves of different kinds compare by their kinds. -/
theorem compareWith_of_rank_ne {l m : Leaf} (h : l.kind.rank ≠ m.kind.rank) :
    l.compareWith m = compare l.kind.rank m.kind.rank := by
  cases l <;> cases m <;> first | exact absurd rfl h | rfl

/-- A big integer is nearest to the float of its value. -/
theorem nearestReal_bigint (value : Int) :
    (bigint (toString value)).nearestReal = .ofInt value := by
  rw [nearestReal, Binary64.ofText?_toString, Option.getD_some]

/-- Big integers compare by their values. -/
theorem compareWith_bigint (v w : Int) :
    (bigint (toString v)).compareWith (bigint (toString w)) = compare v w :=
  Text.compareDigits_toString v w

/-- A number that is no big integer compares with others by the nearest floats. -/
theorem compareWith_of_isPlainNumber {l m : Leaf} (number : m.kind.rank = 1)
    (plain : l.isPlainNumber) :
    l.compareWith m = compare l.nearestReal.rank m.nearestReal.rank ∧
      m.compareWith l = compare m.nearestReal.rank l.nearestReal.rank := by
  cases l with
  | int value => cases m <;> first | exact ⟨rfl, rfl⟩ | cases number
  | real value => cases m <;> first | exact ⟨rfl, rfl⟩ | cases number
  | _ => cases plain

theorem rank_of_isPlainNumber {l : Leaf} (plain : l.isPlainNumber) : l.kind.rank = 1 := by
  cases l with
  | int value => rfl
  | real value => rfl
  | _ => cases plain

/-- A live number is a big integer or another number. -/
theorem number_cases {l : Leaf} (live : l.IsLive) (number : l.kind.rank = 1) :
    (∃ value : Int, l = bigint (toString value)) ∨ l.isPlainNumber := by
  cases l with
  | bigint digits =>
    obtain ⟨value, rfl⟩ := live
    exact .inl ⟨value, rfl⟩
  | int value => exact .inr rfl
  | real value => exact .inr rfl
  | _ => cases number

/-- The order of two leaves is reversed with them. -/
theorem compareWith_swap (l m : Leaf) : m.compareWith l = (l.compareWith m).swap := by
  by_cases ranks : l.kind.rank = m.kind.rank
  · by_cases plainL : l.isPlainNumber
    · have number := ranks.symm.trans (rank_of_isPlainNumber plainL)
      obtain ⟨first, second⟩ := compareWith_of_isPlainNumber number plainL
      rw [first, second]
      exact Std.OrientedCmp.eq_swap
    · by_cases plainM : m.isPlainNumber
      · have number := ranks.trans (rank_of_isPlainNumber plainM)
        obtain ⟨first, second⟩ := compareWith_of_isPlainNumber number plainM
        rw [first, second]
        exact Std.OrientedCmp.eq_swap
      · -- two big integers, or two texts of one kind
        have texts (s t : String) : compare t s = (compare s t).swap := Std.OrientedCmp.eq_swap
        cases l <;> cases m <;> first
          | exact absurd rfl plainL
          | exact absurd rfl plainM
          | cases ranks; done
          | exact Text.compareDigits_swap _ _
          | exact texts _ _
  · rw [compareWith_of_rank_ne ranks, compareWith_of_rank_ne (Ne.symm ranks)]
    exact Std.OrientedCmp.eq_swap

/-- Numbers that are nearest to different floats compare by these. -/
theorem compareWith_of_nearestReal_ne {l m : Leaf} (hl : l.IsLive) (hm : m.IsLive)
    (numberL : l.kind.rank = 1) (numberM : m.kind.rank = 1)
    (apart : l.nearestReal.rank ≠ m.nearestReal.rank) :
    l.compareWith m = compare l.nearestReal.rank m.nearestReal.rank := by
  rcases number_cases hl numberL with ⟨v, rfl⟩ | plain
  · rcases number_cases hm numberM with ⟨w, rfl⟩ | plain
    · -- rounding keeps the order of the values
      rw [compareWith_bigint]
      rw [nearestReal_bigint, nearestReal_bigint] at apart ⊢
      rcases Int.lt_trichotomy v w with less | rfl | greater
      · have floats := Binary64.rank_ofInt_le_rank_ofInt (Int.le_of_lt less)
        rw [Int.compare_eq_lt.mpr less, Int.compare_eq_lt.mpr (by omega)]
      · exact absurd rfl apart
      · have floats := Binary64.rank_ofInt_le_rank_ofInt (Int.le_of_lt greater)
        rw [Int.compare_eq_gt.mpr greater, Int.compare_eq_gt.mpr (by omega)]
    · exact (compareWith_of_isPlainNumber numberL plain).2
  · exact (compareWith_of_isPlainNumber numberM plain).1

/-- Numbers that are nearest to the float of the same number that is no big integer are equal. -/
theorem compareWith_eq_of_separate {good : Leaf → Prop} (separate : Separate good) {l m z : Leaf}
    (live : ∀ l, good l → l.IsLive) (hl : good l) (hm : good m) (hz : good z)
    (numberL : l.kind.rank = 1) (numberM : m.kind.rank = 1) (plain : z.isPlainNumber)
    (left : l.nearestReal.rank = z.nearestReal.rank)
    (right : m.nearestReal.rank = z.nearestReal.rank) : l.compareWith m = .eq := by
  have equal : compare l.nearestReal.rank m.nearestReal.rank = .eq :=
    Int.compare_eq_eq.mpr (left.trans right.symm)
  rcases number_cases (live l hl) numberL with ⟨v, rfl⟩ | plainL
  · rcases number_cases (live m hm) numberM with ⟨w, rfl⟩ | plainM
    · have same := separate _ _ z hl hm hz plain (Binary64.rank_inj.mp left)
        (Binary64.rank_inj.mp right)
      rw [same, compareWith_bigint]
      exact Int.compare_eq_eq.mpr rfl
    · rw [(compareWith_of_isPlainNumber numberL plainM).2, equal]
  · rw [(compareWith_of_isPlainNumber numberM plainL).1, equal]

/-- The orders of three live numbers fit together, unless two of them are big integers that are
nearest to the float of the third one. -/
theorem agree_numbers {good : Leaf → Prop} (separate : Separate good) {l m n : Leaf}
    (live : ∀ l, good l → l.IsLive) (hl : good l) (hm : good m) (hn : good n)
    (numberL : l.kind.rank = 1) (numberM : m.kind.rank = 1) (numberN : n.kind.rank = 1) :
    Agree (l.compareWith m) (m.compareWith n) (l.compareWith n) := by
  apply Agree.of_ranks
    (compareWith_of_nearestReal_ne (live l hl) (live m hm) numberL numberM)
    (compareWith_of_nearestReal_ne (live m hm) (live n hn) numberM numberN)
    (compareWith_of_nearestReal_ne (live l hl) (live n hn) numberL numberN)
  intro lm mn
  have equal (z : Leaf) (hz : good z) (plain : z.isPlainNumber)
      (same : z.nearestReal.rank = m.nearestReal.rank) :
      Agree (l.compareWith m) (m.compareWith n) (l.compareWith n) := by
    have left : l.nearestReal.rank = z.nearestReal.rank := lm.trans same.symm
    have right : n.nearestReal.rank = z.nearestReal.rank := mn.symm.trans same.symm
    rw [compareWith_eq_of_separate separate live hl hm hz numberL numberM plain left same.symm,
      compareWith_eq_of_separate separate live hm hn hz numberM numberN plain same.symm right,
      compareWith_eq_of_separate separate live hl hn hz numberL numberN plain left right]
    exact .all_equal
  rcases number_cases (live l hl) numberL with ⟨v, rfl⟩ | plain
  · rcases number_cases (live m hm) numberM with ⟨w, rfl⟩ | plain
    · rcases number_cases (live n hn) numberN with ⟨x, rfl⟩ | plain
      · rw [compareWith_bigint, compareWith_bigint, compareWith_bigint]
        exact .of_compare v w x
      · exact equal n hn plain mn.symm
    · exact equal m hm plain rfl
  · exact equal l hl plain lm

/-- The orders of three live leaves fit together. -/
theorem agree {good : Leaf → Prop} (separate : Separate good) {l m n : Leaf}
    (live : ∀ l, good l → l.IsLive) (hl : good l) (hm : good m) (hn : good n) :
    Agree (l.compareWith m) (m.compareWith n) (l.compareWith n) := by
  apply Agree.of_ranks compareWith_of_rank_ne compareWith_of_rank_ne compareWith_of_rank_ne
  intro lm mn
  by_cases number : l.kind.rank = 1
  · exact agree_numbers separate live hl hm hn number (lm ▸ number) (mn ▸ lm ▸ number)
  · have texts (s t u : String) := Agree.of_compare s t u
    cases l <;> first
      | exact absurd rfl number
      | cases m <;> first
        | cases lm; done
        | cases n <;> first | exact texts _ _ _ | cases mn

end Leaf

/-! ## Trees -/

namespace Tree

/-- Nothing in the term is broken, and its leaves are as required. -/
inductive Over (good : Leaf → Prop) : Tree → Prop where
  | leaf {l : Leaf} : good l → Over good (leaf l)
  | func {f : Tree} {xs : List Tree} : Over good f → (∀ x ∈ xs, Over good x) → Over good (func f xs)
  | list {xs : List Tree} : (∀ x ∈ xs, Over good x) → Over good (list xs)
  | tuple {xs : List Tree} : (∀ x ∈ xs, Over good x) → Over good (tuple xs)

/-- The place of a term in the standard order by its kind. -/
def rank : Tree → Nat
  | leaf l => l.kind.rank
  | func _ _ => Kind.func.rank
  | list _ => Kind.list.rank
  | tuple _ => Kind.tuple.rank
  | broken _ => 7

/-- No leaf has the rank of a term with parts. -/
theorem rank_leaf_ne (l : Leaf) (k : Nat) : (leaf l).rank ≠ k + 4 := by
  show l.kind.rank ≠ k + 4
  intro same
  cases l <;> cases same

theorem eq_leaf_of_rank {l : Leaf} {t : Tree} (h : (leaf l).rank = t.rank) : ∃ m, t = leaf m := by
  cases t with
  | leaf m => exact ⟨m, rfl⟩
  | func f xs => exact absurd h (rank_leaf_ne l 0)
  | list xs => exact absurd h (rank_leaf_ne l 2)
  | tuple xs => exact absurd h (rank_leaf_ne l 1)
  | broken cause => exact absurd h (rank_leaf_ne l 3)

theorem eq_func_of_rank {f : Tree} {xs : List Tree} {t : Tree} (h : (func f xs).rank = t.rank) :
    ∃ g ys, t = func g ys := by
  cases t with
  | leaf m => exact absurd h.symm (rank_leaf_ne m 0)
  | func g ys => exact ⟨g, ys, rfl⟩
  | _ => cases h

theorem eq_list_of_rank {xs : List Tree} {t : Tree} (h : (list xs).rank = t.rank) :
    ∃ ys, t = list ys := by
  cases t with
  | leaf m => exact absurd h.symm (rank_leaf_ne m 2)
  | list ys => exact ⟨ys, rfl⟩
  | _ => cases h

theorem eq_tuple_of_rank {xs : List Tree} {t : Tree} (h : (tuple xs).rank = t.rank) :
    ∃ ys, t = tuple ys := by
  cases t with
  | leaf m => exact absurd h.symm (rank_leaf_ne m 1)
  | tuple ys => exact ⟨ys, rfl⟩
  | _ => cases h

mutual

/-- The order of two terms in which nothing is broken. -/
def order : Tree → Tree → Ordering
  | leaf l, leaf m => l.compareWith m
  | func f xs, func g ys =>
    (compare xs.length ys.length).then ((order f g).then (orderAll xs ys))
  | list xs, list ys | tuple xs, tuple ys => (compare xs.length ys.length).then (orderAll xs ys)
  | s, t => compare s.rank t.rank

/-- The order of the first two terms that differ. -/
def orderAll : List Tree → List Tree → Ordering
  | x :: xs, y :: ys => (order x y).then (orderAll xs ys)
  | _, _ => .eq

end

/-- Terms of different kinds compare by their kinds. -/
theorem order_of_rank_ne {s t : Tree} (h : s.rank ≠ t.rank) :
    s.order t = compare s.rank t.rank := by
  cases s with
  | leaf l =>
    cases t with
    | leaf m =>
      rw [order]
      exact Leaf.compareWith_of_rank_ne h
    | _ => rfl
  | _ => cases t <;> first | exact absurd rfl h | rfl

/-! ### Comparing is ordering -/

variable {good : Leaf → Prop}

/-- Comparing terms one by one gives the order of the first two that differ. -/
theorem compareAll?_eq_orderAll {xs : List Tree}
    (each : ∀ x ∈ xs, ∀ y, y.Over good → x.compare? y = .ok (x.order y)) {ys : List Tree}
    (live : ∀ y ∈ ys, Over good y) : compareAll? xs ys = .ok (orderAll xs ys) := by
  induction xs generalizing ys with
  | nil => cases ys <;> rfl
  | cons x xs ih =>
    cases ys with
    | nil => rfl
    | cons y ys =>
      rw [compareAll?, orderAll, each x List.mem_cons_self y (live y List.mem_cons_self)]
      have rest := ih (fun x among => each x (List.mem_cons_of_mem _ among))
        (fun y among => live y (List.mem_cons_of_mem _ among))
      cases x.order y with
      | eq => exact rest
      | lt => rfl
      | gt => rfl

/-- Comparing two terms in which nothing is broken gives their order. -/
theorem compare?_eq_order {s t : Tree} (hs : s.Over good) (ht : t.Over good) :
    s.compare? t = .ok (s.order t) := by
  have lengths {xs ys : List Tree} (o : Ordering) (h : xs.length ≠ ys.length) :
      (compare xs.length ys.length).then o = compare xs.length ys.length :=
    Agree.then_of_ne fun equal => h (Nat.compare_eq_eq.mp equal)
  induction hs generalizing t with
  | leaf good => cases ht <;> rfl
  | @func f xs functor args ihf ihxs =>
    cases ht with
    | @func g ys functor' args' =>
      rw [compare?, order]
      by_cases same : xs.length = ys.length
      · rw [if_pos same, Nat.compare_eq_eq.mpr same, Ordering.eq_then, ihf functor']
        have parts := compareAll?_eq_orderAll (fun x among y => ihxs x among) args'
        cases f.order g with
        | eq => exact parts
        | lt => rfl
        | gt => rfl
      · rw [if_neg same, lengths _ same]
    | _ => rfl
  | @list xs elems ih =>
    cases ht with
    | @list ys elems' =>
      rw [compare?, order]
      by_cases same : xs.length = ys.length
      · rw [if_pos same, Nat.compare_eq_eq.mpr same, Ordering.eq_then]
        exact compareAll?_eq_orderAll (fun x among y => ih x among) elems'
      · rw [if_neg same, lengths _ same]
    | _ => rfl
  | @tuple xs elems ih =>
    cases ht with
    | @tuple ys elems' =>
      rw [compare?, order]
      by_cases same : xs.length = ys.length
      · rw [if_pos same, Nat.compare_eq_eq.mpr same, Ordering.eq_then]
        exact compareAll?_eq_orderAll (fun x among y => ih x among) elems'
      · rw [if_neg same, lengths _ same]
    | _ => rfl

/-! ### The laws -/

/-- The order of two rows of terms is reversed with them. -/
theorem orderAll_swap {xs : List Tree}
    (each : ∀ x ∈ xs, ∀ y, y.Over good → y.order x = (x.order y).swap) {ys : List Tree}
    (live : ∀ y ∈ ys, Over good y) : orderAll ys xs = (orderAll xs ys).swap := by
  induction xs generalizing ys with
  | nil => cases ys <;> rfl
  | cons x xs ih =>
    cases ys with
    | nil => rfl
    | cons y ys =>
      rw [orderAll, orderAll, Ordering.swap_then,
        each x List.mem_cons_self y (live y List.mem_cons_self),
        ih (fun x among => each x (List.mem_cons_of_mem _ among))
          (fun y among => live y (List.mem_cons_of_mem _ among))]

/-- The order of two terms is reversed with them. -/
theorem order_swap {s t : Tree} (hs : s.Over good) (ht : t.Over good) :
    t.order s = (s.order t).swap := by
  have lengths (m n : Nat) : compare n m = (compare m n).swap := Std.OrientedCmp.eq_swap
  induction hs generalizing t with
  | leaf _ =>
    cases ht with
    | leaf _ =>
      rw [order, order]
      exact Leaf.compareWith_swap _ _
    | _ => exact lengths _ _
  | func functor args ihf ihxs =>
    cases ht with
    | func functor' args' =>
      rw [order, order, Ordering.swap_then, Ordering.swap_then, ← lengths, ← ihf functor',
        ← orderAll_swap (fun x among y => ihxs x among) args']
    | _ => exact lengths _ _
  | list elems ih =>
    cases ht with
    | list elems' =>
      rw [order, order, Ordering.swap_then, ← lengths,
        ← orderAll_swap (fun x among y => ih x among) elems']
    | _ => exact lengths _ _
  | tuple elems ih =>
    cases ht with
    | tuple elems' =>
      rw [order, order, Ordering.swap_then, ← lengths,
        ← orderAll_swap (fun x among y => ih x among) elems']
    | _ => exact lengths _ _

/-- A term in which nothing is broken equals itself. -/
theorem order_self {t : Tree} (whole : t.Over good) : t.order t = .eq := by
  have itself := order_swap whole whole
  cases order : t.order t with
  | eq => rfl
  | lt =>
    rw [order] at itself
    cases itself
  | gt =>
    rw [order] at itself
    cases itself

/-- The orders of three rows of as many terms fit together if those of their terms do. -/
theorem agree_orderAll {xs : List Tree}
    (each : ∀ x ∈ xs, ∀ y z, y.Over good → z.Over good →
      Agree (x.order y) (y.order z) (x.order z)) {ys zs : List Tree}
    (overY : ∀ y ∈ ys, Over good y) (overZ : ∀ z ∈ zs, Over good z)
    (first : xs.length = ys.length) (second : ys.length = zs.length) :
    Agree (orderAll xs ys) (orderAll ys zs) (orderAll xs zs) := by
  induction xs generalizing ys zs with
  | nil =>
    obtain rfl := List.eq_nil_of_length_eq_zero first.symm
    obtain rfl := List.eq_nil_of_length_eq_zero second.symm
    exact .all_equal
  | cons x xs ih =>
    cases ys with
    | nil => cases first
    | cons y ys =>
      cases zs with
      | nil => cases second
      | cons z zs =>
        rw [orderAll, orderAll, orderAll]
        apply Agree.before (each x List.mem_cons_self y z (overY y List.mem_cons_self)
          (overZ z List.mem_cons_self))
        intro _ _
        exact ih (fun x among => each x (List.mem_cons_of_mem _ among))
          (fun y among => overY y (List.mem_cons_of_mem _ among))
          (fun z among => overZ z (List.mem_cons_of_mem _ among)) (Nat.succ.inj first)
          (Nat.succ.inj second)

/-- The orders of three rows of terms fit together if those of their terms do: the shorter row comes
first. -/
theorem agree_rows {xs ys zs : List Tree} {ab bc ac : Ordering}
    (within : xs.length = ys.length → ys.length = zs.length → Agree ab bc ac) :
    Agree ((compare xs.length ys.length).then ab) ((compare ys.length zs.length).then bc)
      ((compare xs.length zs.length).then ac) := by
  apply Agree.before (.of_compare xs.length ys.length zs.length)
  intro first second
  exact within (Nat.compare_eq_eq.mp first) (Nat.compare_eq_eq.mp second)

/-- The orders of three terms fit together if those of their leaves do. -/
theorem agree_order (separate : Leaf.Separate good) (live : ∀ l, good l → l.IsLive) {s t u : Tree}
    (hs : s.Over good) (ht : t.Over good) (hu : u.Over good) :
    Agree (s.order t) (t.order u) (s.order u) := by
  induction hs generalizing t u with
  | leaf goodL =>
    apply Agree.of_ranks order_of_rank_ne order_of_rank_ne order_of_rank_ne
    intro st tu
    obtain ⟨m, rfl⟩ := eq_leaf_of_rank st
    obtain ⟨n, rfl⟩ := eq_leaf_of_rank tu
    cases ht with
    | leaf goodM =>
      cases hu with
      | leaf goodN =>
        rw [order, order, order]
        exact Leaf.agree separate live goodL goodM goodN
  | func functor args ihf ihxs =>
    apply Agree.of_ranks order_of_rank_ne order_of_rank_ne order_of_rank_ne
    intro st tu
    obtain ⟨g, ys, rfl⟩ := eq_func_of_rank st
    obtain ⟨h, zs, rfl⟩ := eq_func_of_rank tu
    cases ht with
    | func functor' args' =>
      cases hu with
      | func functor'' args'' =>
        rw [order, order, order]
        apply agree_rows
        intro first second
        apply Agree.before (ihf functor' functor'')
        intro _ _
        exact agree_orderAll (fun x among y z => ihxs x among) args' args'' first second
  | list elems ih =>
    apply Agree.of_ranks order_of_rank_ne order_of_rank_ne order_of_rank_ne
    intro st tu
    obtain ⟨ys, rfl⟩ := eq_list_of_rank st
    obtain ⟨zs, rfl⟩ := eq_list_of_rank tu
    cases ht with
    | list elems' =>
      cases hu with
      | list elems'' =>
        rw [order, order, order]
        exact agree_rows (agree_orderAll (fun x among y z => ih x among) elems' elems'')
  | tuple elems ih =>
    apply Agree.of_ranks order_of_rank_ne order_of_rank_ne order_of_rank_ne
    intro st tu
    obtain ⟨ys, rfl⟩ := eq_tuple_of_rank st
    obtain ⟨zs, rfl⟩ := eq_tuple_of_rank tu
    cases ht with
    | tuple elems' =>
      cases hu with
      | tuple elems'' =>
        rw [order, order, order]
        exact agree_rows (agree_orderAll (fun x among y z => ih x among) elems' elems'')

end Tree
end PrologWire
