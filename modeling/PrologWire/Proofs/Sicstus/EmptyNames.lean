import PrologWire.Proofs.Arena.TermTrees
import PrologWire.Proofs.Sicstus.Genuine

/-!
# Atoms and empty lists

As bytes the atom `[]` is three bytes longer than the empty list, and nothing else that an arena does to
a term can be seen in its bytes. So a term and what it is in an arena have the same bytes exactly if
there is no such atom in it, however many terms there are in a row. A handle that stands for a term is
written with the bytes of what the term is in the arena.
-/

namespace PrologWire

namespace Tree

/-- The name of a compound is no integer. -/
theorem isSmallBig_ofName (name : String) : (ofName name).isSmallBig = false := by
  unfold ofName
  split <;> rfl

theorem genuine_ofName (name : String) : (ofName name).genuine = true := by
  unfold ofName
  split <;> rfl

end Tree

namespace Term

/-- An integer that an arena keeps as digits is too great for a run. -/
theorem isSmallBig_tree (t : Term String) : t.tree.isSmallBig = false := by
  cases t with
  | atom name => exact Tree.isSmallBig_ofName name
  | integer value =>
    rw [tree, integerLeaf]
    split
    · rfl
    · next beyond =>
      have single : Sicstus.smallElement? (integer value : Term String) = none :=
        Sicstus.smallElement?_of_int64?_eq_none beyond
      rw [Tree.isSmallBig, Text.readInt?_toString, Option.any_some]
      rw [Sicstus.smallElement?] at single
      simp only [ite_eq_right_iff, reduceCtorEq, imp_false] at single
      simpa using single
  | float value => rfl
  | var name => rfl
  | compound functor args =>
    rw [tree]
    split
    · exact Tree.isSmallBig_ofName functor
    · rfl
  | list elems => rfl

theorem any_isSmallBig_treeAll (ts : List (Term String)) :
    (treeAll ts).any Tree.isSmallBig = false := by
  induction ts with
  | nil => rfl
  | cons t rest ih => rw [treeAll, List.any_cons, isSmallBig_tree, ih, Bool.or_false]

mutual

/-- The tree of a term is genuine. -/
theorem genuine_tree : ∀ t : Term String, t.tree.genuine = true
  | atom name => Tree.genuine_ofName name
  | integer value => by
    rw [tree, integerLeaf]
    split
    · rfl
    · rw [Tree.genuine, Text.readInt?_toString, Option.any_some, decide_eq_true rfl]
  | float _ | var _ => rfl
  | compound functor args => by
    rw [tree]
    cases args with
    | nil => exact Tree.genuine_ofName functor
    | cons t rest =>
      have parts := genuineAll_treeAll (t :: rest)
      show (Tree.func (.ofName functor) (treeAll (t :: rest))).genuine = true
      rw [Tree.genuine, parts, Bool.and_true]
      rfl
  | list elems => by
    rw [tree, Tree.genuine, genuineAll_treeAll elems, any_isSmallBig_treeAll]
    rfl

theorem genuineAll_treeAll : ∀ ts : List (Term String), Tree.genuineAll (treeAll ts) = true
  | [] => rfl
  | t :: rest => by rw [treeAll, Tree.genuineAll, genuine_tree t, genuineAll_treeAll rest]; rfl

end

end Term

namespace Sicstus

variable {ν : Type}

theorem fits_named (name : String) : fits (.named name : Term ν) = true := by
  unfold Term.named
  split <;> rfl

mutual

/-- Arities stay the same. -/
theorem fits_stored : ∀ t : Term ν, fits t.stored = fits t
  | .atom name => fits_named name
  | .integer _ | .float _ | .var _ => rfl
  | .compound functor args => by
    rw [Term.stored]
    cases args with
    | nil => exact fits_named functor
    | cons t rest =>
      show fits (.compound functor (Term.storedAll (t :: rest))) = _
      rw [fits, fits, Term.length_storedAll, fitsAll_storedAll (t :: rest)]
  | .list elems => by rw [Term.stored, fits, fits, fitsAll_storedAll elems]

theorem fitsAll_storedAll : ∀ ts : List (Term ν), fitsAll (Term.storedAll ts) = fitsAll ts
  | [] => rfl
  | t :: rest => by rw [Term.storedAll, fitsAll, fitsAll, fits_stored t, fitsAll_storedAll rest]

end

/-! ## What an arena does to the bytes -/

/-- The first bytes are longer by so many atoms in place of empty lists, and the same if there is none. -/
structure Gap (n : Nat) (xs ys : List UInt8) : Prop where
  length : xs.length = ys.length + 3 * n
  same : n = 0 → xs = ys

namespace Gap

variable {m n : Nat} {xs ys us vs : List UInt8}

theorem refl (xs : List UInt8) : Gap 0 xs xs := ⟨rfl, fun _ => rfl⟩

theorem append (first : Gap m xs ys) (second : Gap n us vs) : Gap (m + n) (xs ++ us) (ys ++ vs) where
  length := by
    rw [List.length_append, List.length_append, first.length, second.length]
    omega
  same none := by rw [first.same (by omega), second.same (by omega)]

/-- Bytes are the same if there is no atom in place of an empty list. -/
theorem eq_iff (h : Gap n xs ys) : xs = ys ↔ n = 0 := by
  refine ⟨fun same => ?_, h.same⟩
  have length := h.length
  rw [same] at length
  omega

end Gap

/-- The atom `[]` has three bytes more than the empty list. -/
theorem gap_named (name : String) :
    Gap (Term.emptyNames (.atom name : Term Nat)) (atomBytes name) (code (.named name)) := by
  rw [Term.emptyNames, Term.named]
  split
  · next empty =>
    rw [empty]
    exact ⟨by decide, nofun⟩
  · exact .refl _

/-- Storing a list element does not change whether it joins a run. -/
theorem smallElement?_stored (t : Term ν) : smallElement? t.stored = smallElement? t := by
  have named (name : String) : smallElement? (.named name : Term ν) = none := by
    unfold Term.named
    split <;> rfl
  cases t with
  | atom name => exact named name
  | compound functor args =>
    rw [Term.stored]
    split
    · exact named functor
    · rfl
  | _ => rfl

/-- What joins a run has no names in it. -/
theorem emptyNames_of_smallElement? {t : Term ν} {byte : UInt8} (h : smallElement? t = some byte) :
    t.emptyNames = 0 := by
  cases t with
  | integer value => rfl
  | _ => cases h

mutual

/-- Storing a term makes its bytes fewer by three for each atom `[]`. -/
theorem gap_code : ∀ t : Term Nat, Gap t.emptyNames (code t) (code t.stored)
  | .atom name => gap_named name
  | .integer _ | .float _ | .var _ => .refl _
  | .compound functor args => by
    rw [Term.emptyNames, Term.stored, code]
    cases args with
    | nil => exact gap_named functor
    | cons t rest =>
      have parts := gap_codeAll (t :: rest)
      have head := Gap.refl (compoundBytes functor (UInt8.ofNat (t :: rest).length))
      have whole := head.append parts
      rw [Nat.zero_add] at whole
      show Gap (Term.emptyNamesAll (t :: rest)) _
        (code (.compound functor (Term.storedAll (t :: rest))))
      rw [code, Term.length_storedAll, Term.isEmpty_storedAll]
      exact whole
  | .list elems => by
    rw [Term.emptyNames, Term.stored, code, code]
    exact (gap_segments elems).1

theorem gap_codeAll : ∀ ts : List (Term Nat),
    Gap (Term.emptyNamesAll ts) (codeAll ts) (codeAll (Term.storedAll ts))
  | [] => .refl []
  | t :: rest => (gap_code t).append (gap_codeAll rest)

/-- The same of the elements of a list, also where they come behind a run. -/
theorem gap_segments : ∀ ts : List (Term Nat),
    Gap (Term.emptyNamesAll ts) (listBytes (segments ts)) (listBytes (segments (Term.storedAll ts))) ∧
      Gap (Term.emptyNamesAll ts) (behindRun (segments ts)) (behindRun (segments (Term.storedAll ts)))
  | [] => ⟨.refl _, .refl _⟩
  | t :: rest => by
    have first := gap_code t
    obtain ⟨others, behind⟩ := gap_segments rest
    rw [Term.emptyNamesAll, Term.storedAll, segments, segments, smallElement?_stored]
    rcases joins : smallElement? t with _ | byte
    · -- the element stands by itself; behind a run there is the zero that ends it
      have whole : Gap (t.emptyNames + Term.emptyNamesAll rest)
          (listBytes (.single (code t) :: segments rest))
          (listBytes (.single (code t.stored) :: segments (Term.storedAll rest))) := by
        have parts := (Gap.refl [elementTag]).append (first.append others)
        rw [Nat.zero_add] at parts
        simpa [listBytes, Segment.bytes] using parts
      refine ⟨whole, ?_⟩
      have ended := (Gap.refl [0]).append whole
      rwa [Nat.zero_add] at ended
    · rw [emptyNames_of_smallElement? joins, Nat.zero_add]
      dsimp only
      simp only [listBytes_joinRun, behindRun_joinRun]
      have begun := (Gap.refl [runTag, byte]).append behind
      have joined := (Gap.refl [byte]).append behind
      rw [Nat.zero_add] at begun joined
      exact ⟨begun, joined⟩

end

/-! ## Sentences -/

theorem gap_sentenceBytes (t : Term String) :
    Gap t.emptyNames (sentenceBytes [t]) (sentenceBytes [t.stored]) := by
  have names : Term.names [t.stored] = Term.names [t] := by
    simp only [Term.names, List.flatMap_singleton, Term.vars_stored]
  have coded := gap_code (t.map (Term.names [t]).idxOf)
  rw [Term.emptyNames_map, Term.stored_map] at coded
  have whole := ((Gap.refl [versionTag]).append coded).append (.refl [])
  rw [Nat.zero_add, Nat.add_zero] at whole
  rw [sentenceBytes, sentenceBytes, Term.numbered, Term.numbered, names]
  exact whole

/-- The sentences of terms are those of the terms in an arena if and only if there is no atom `[]` in the
terms. -/
theorem flatMap_sentenceBytes_stored_iff (ts : List (Term String)) :
    (ts.flatMap fun t => sentenceBytes [t]) = (ts.flatMap fun t => sentenceBytes [t.stored]) ↔
      ∀ t ∈ ts, t.emptyNames = 0 := by
  have gap : Gap (Term.emptyNamesAll ts) (ts.flatMap fun t => sentenceBytes [t])
      (ts.flatMap fun t => sentenceBytes [t.stored]) := by
    induction ts with
    | nil => exact .refl []
    | cons t rest ih => exact (gap_sentenceBytes t).append ih
  rw [gap.eq_iff]
  clear gap
  induction ts with
  | nil => exact ⟨nofun, fun _ => rfl⟩
  | cons t rest ih =>
    rw [Term.emptyNamesAll, Nat.add_eq_zero_iff, List.forall_mem_cons]
    exact and_congr_right fun _ => ih

/-! ## Writing -/

/-- A handle that stands for a term is written as what the term is in the arena, unless an arity does not
fit. -/
theorem Writer.writeTerm_of_tree {w : Writer} (accepts : w.sink.Accepting) {a : Arena} {h : Handle}
    {t : Term String} (same : a.tree h = t.tree) :
    (∃ w', fits t = true ∧ w.writeTerm a h = (.ok (), w') ∧ w'.sink.Accepting ∧
      w'.sink.content = w.sink.content ++ sentenceBytes [t.stored]) ∨
    ∃ cause w', fits t = false ∧ w.writeTerm a h = (.error cause, w') ∧
      w'.sink.content = w.sink.content := by
  have term := t.term?_tree
  rcases has : pieces t.tree with cause | ps
  · obtain ⟨draft, eq⟩ := Writer.writeTerm_of_error (w := w) (same ▸ has)
    refine .inr ⟨cause, _, ?_, eq, rfl⟩
    refine Bool.eq_false_iff.mpr fun small => ?_
    obtain ⟨ps, has'⟩ := exists_pieces term ((fits_stored t).trans small)
    cases has.symm.trans has'
  · have m := matches_pieces has term
    obtain ⟨w', eq, accepts', content⟩ := Writer.writePieces_ok accepts ps
    refine .inl ⟨w', (fits_stored t).symm.trans m.fits, ?_, accepts', ?_⟩
    · exact (Writer.writeTerm_of_pieces (same ▸ has)).trans eq
    · rw [content, m.sentenceBytes_iff.mpr t.genuine_tree]

end Sicstus

end PrologWire
