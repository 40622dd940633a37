import PrologWire.Proofs.Arena.Terms
import PrologWire.Proofs.Sicstus.Code
import PrologWire.Proofs.Sicstus.Pieces
import PrologWire.Proofs.Sicstus.ZeroEnded

/-!
# Pieces and terms

The pieces of a tree have the bytes of its term, unless the tree is one that no term is written from:
with the text of a big integer that is not how its integer is written, or that denotes an integer
small enough for a run, or with a compound without arguments. `Tree.genuine` says that there is
nothing of that kind in a tree, and `Matches` that the bytes are the same exactly then.
-/

namespace PrologWire

/-! ## Trees that have the pieces of their terms -/

namespace Tree

/-- A big integer that is so small that as a number it would join a run. -/
def isSmallBig : Tree → Bool
  | leaf (.bigint digits) =>
    (Text.readInt? digits.toList).any fun value => 1 ≤ value && value ≤ 255
  | _ => false

mutual

/-- Every big integer has the text that its integer is written as, no list element is a big integer
small enough for a run, and every compound has arguments. -/
def genuine : Tree → Bool
  | leaf (.bigint digits) => (Text.readInt? digits.toList).any fun value => toString value = digits
  | leaf _ => true
  | list elems => genuineAll elems && !elems.any isSmallBig
  | func _ args => !args.isEmpty && genuineAll args
  | tuple _ => true
  | broken _ => true

/-- The same of trees in a row, as long as these are no list elements. -/
def genuineAll : List Tree → Bool
  | [] => true
  | t :: rest => t.genuine && genuineAll rest

end

end Tree

namespace Sicstus

/-! ## Pieces and the bytes of terms -/

/-- The pieces have the variables of a term, whose arities fit, and the bytes of the term if and only
if a condition holds. Whatever comes behind the pieces is found again behind the term. -/
structure Matches (ps : List Piece) (condition : Bool) (u : Term String) : Prop where
  vars : ps.flatMap Piece.vars = u.vars
  fits : fits u = true
  bytes (f : String → Nat) (rs s : List UInt8) :
    piecesBytes f ps ++ rs = code (u.map f) ++ s ↔ condition = true ∧ rs = s

/-- The same for the arguments of a compound. -/
structure MatchesAll (ps : List Piece) (condition : Bool) (us : List (Term String)) : Prop where
  vars : ps.flatMap Piece.vars = Term.varsAll us
  fits : fitsAll us = true
  bytes (f : String → Nat) (rs s : List UInt8) :
    piecesBytes f ps ++ rs = codeAll (Term.mapAll f us) ++ s ↔ condition = true ∧ rs = s

/-- The same for the elements of a list, up to its end, and for what is left of them behind a run. -/
structure MatchesElems (ps : List Piece) (condition : Bool) (us : List (Term String)) : Prop where
  vars : ps.flatMap Piece.vars = Term.varsAll us
  fits : fitsAll us = true
  bytes (f : String → Nat) (rs s : List UInt8) :
    piecesBytes f ps ++ endTag :: rs = listBytes (segments (Term.mapAll f us)) ++ s ↔
      condition = true ∧ rs = s
  behind (f : String → Nat) (rs s : List UInt8) :
    behindCodes f ps ++ endTag :: rs = behindRun (segments (Term.mapAll f us)) ++ s ↔
      condition = true ∧ rs = s

/-- A piece of bytes that are those of the term. -/
theorem matches_bytes {bs : List UInt8} {u : Term String} (ground : u.vars = [])
    (small : fits u = true) (same : ∀ f : String → Nat, code (u.map f) = bs) :
    Matches [.bytes bs] true u where
  vars := ground.symm
  fits := small
  bytes f rs s := by
    have written : piecesBytes f [.bytes bs] = bs := List.append_nil bs
    rw [written, same, List.append_cancel_left_eq]
    simp

/-- The text of a big integer is its own if it is what the integer is written as. -/
theorem matches_bigint {digits : String} {value : Int}
    (read : Text.readInt? digits.toList = some value) :
    Matches [.bytes (integerBytes digits)] (Tree.genuine (.leaf (.bigint digits)))
      (.integer value) where
  vars := rfl
  fits := rfl
  bytes f rs s := by
    -- both texts are digits, so that the zero bytes behind them are in the same place
    have texts := zeroEnded_append_inj (Text.null_notMem_of_readInt? read)
      (Text.null_notMem_toString value) rs s
    have written : piecesBytes f [.bytes (integerBytes digits)] = integerBytes digits :=
      List.append_nil _
    rw [written, Term.map, code, integerBytes, integerBytes, List.cons_append, List.cons_append,
      List.cons.injEq, texts, Tree.genuine, read]
    simp [eq_comm]

/-- The piece of a leaf. -/
theorem matches_leaf {l : Leaf} {p : Piece} {u : Term String} (piece : leafPiece l = .ok p)
    (term : l.term? = some u) : Matches [p] (Tree.genuine (.leaf l)) u := by
  cases l with
  | bigint digits =>
    obtain rfl := Except.ok.inj piece
    obtain ⟨value, read, rfl⟩ := Option.map_eq_some_iff.mp term
    exact matches_bigint read
  | var name =>
    obtain rfl := Except.ok.inj piece
    obtain rfl := Option.some.inj term
    exact ⟨rfl, rfl, fun f rs s => by simp [Piece.toBytes, Term.map, code, Tree.genuine]⟩
  | str text => cases piece
  | _ =>
    obtain rfl := Except.ok.inj piece
    obtain rfl := Option.some.inj term
    exact matches_bytes rfl rfl fun f => rfl

/-- A compound begins with its name and its arity; without arguments it is written as an atom, which a
writer of pieces does not do. -/
theorem matches_func {functor : Tree} {name : String} {args : List Tree} {ps : List Piece}
    {us : List (Term String)} {p : Piece} (piece : compoundPiece name args.length = .ok p)
    (same : us.length = args.length) (parts : MatchesAll ps (Tree.genuineAll args) us) :
    Matches (p :: ps) (Tree.genuine (.func functor args)) (.compound name us) := by
  rw [compoundPiece] at piece
  split at piece
  · cases piece
  · next few =>
    obtain rfl := Except.ok.inj piece
    refine ⟨parts.vars, ?_, fun f rs s => ?_⟩
    · rw [fits, parts.fits, Bool.and_true, decide_eq_true_eq, same]
      exact Nat.not_lt.mp few
    · have length : (Term.mapAll f us).length = args.length := by
        rw [Term.mapAll_eq_map, List.length_map, same]
      rw [piecesBytes_cons, Piece.toBytes, Term.map, code, Tree.genuine]
      cases args with
      | nil =>
        -- the pieces are those of a compound with arity zero, which is not how an atom begins
        obtain rfl := List.eq_nil_of_length_eq_zero same
        have tags : compoundTag ≠ atomTag := by decide
        simp [Term.mapAll, compoundBytes, atomBytes, tags]
      | cons arg rest =>
        have part : (Term.mapAll f us).isEmpty = false := by
          rw [List.isEmpty_eq_false_iff, ← List.length_pos_iff, length]
          exact Nat.succ_pos _
        rw [part, if_neg Bool.false_ne_true, length, List.append_assoc, List.append_assoc,
          List.append_cancel_left_eq, parts.bytes]
        simp

/-- A list ends with its own piece. -/
theorem matches_list {elems : List Tree} {ps : List Piece} {us : List (Term String)}
    (parts : MatchesElems ps (Tree.genuineAll elems && !elems.any Tree.isSmallBig) us) :
    Matches (ps ++ [.close]) (Tree.genuine (.list elems)) (.list us) where
  vars := by
    rw [List.flatMap_append, parts.vars]
    exact List.append_nil _
  fits := parts.fits
  bytes f rs s := by
    rw [piecesBytes_append, List.append_assoc, Term.map, code, Tree.genuine]
    exact parts.bytes f rs s

/-- One argument before the others. -/
theorem matchesAll_cons {t : Tree} {rest : List Tree} {ps ps' : List Piece} {u : Term String}
    {us : List (Term String)} (first : Matches ps t.genuine u)
    (others : MatchesAll ps' (Tree.genuineAll rest) us) :
    MatchesAll (ps ++ ps') (Tree.genuineAll (t :: rest)) (u :: us) where
  vars := by rw [List.flatMap_append, first.vars, others.vars, Term.varsAll]
  fits := by rw [fitsAll, first.fits, others.fits, Bool.and_true]
  bytes f rs s := by
    rw [piecesBytes_append, List.append_assoc, Term.mapAll, codeAll, List.append_assoc, first.bytes,
      others.bytes, Tree.genuineAll, Bool.and_eq_true, and_assoc]

/-- A small integer before other elements joins the run that they begin with. -/
theorem matchesElems_small {value : Int64} {byte : UInt8} {rest : List Tree} {ps : List Piece}
    {us : List (Term String)} (small : runByte? value = some byte)
    (others : MatchesElems ps (Tree.genuineAll rest && !rest.any Tree.isSmallBig) us) :
    MatchesElems (joinCodes byte ps)
      (Tree.genuineAll (.leaf (.int value) :: rest) &&
        !(Tree.leaf (.int value) :: rest).any Tree.isSmallBig)
      (.integer value.toInt :: us) := by
  have element : smallElement? (.integer value.toInt : Term Nat) = some byte := small
  have joined (f : String → Nat) : segments (Term.mapAll f (.integer value.toInt :: us)) =
      joinRun byte (segments (Term.mapAll f us)) := by
    rw [Term.mapAll, Term.map, segments, element]
  refine ⟨?_, others.fits, fun f rs s => ?_, fun f rs s => ?_⟩
  · rw [vars_joinCodes]
    exact others.vars
  · rw [joined, listBytes_joinRun, piecesBytes_joinCodes, List.cons_append, List.cons_append,
      List.cons_append, List.cons_append, List.cons_inj_right, List.cons_inj_right]
    exact others.behind f rs s
  · rw [joined, behindRun_joinRun, behindCodes_joinCodes, List.cons_append, List.cons_append,
      List.cons_inj_right]
    exact others.behind f rs s

/-- The term of a tree that is not written as a small integer is one only if the tree is a big integer
that is small. -/
theorem isSome_smallElement? {t : Tree} {u : Term String} (alone : smallByte? t.view = none)
    (term : t.term? = some u) (f : String → Nat) :
    (smallElement? (u.map f)).isSome = t.isSmallBig := by
  cases t with
  | leaf l =>
    cases l with
    | int value =>
      obtain rfl := Option.some.inj term
      have none : smallElement? (.integer value.toInt : Term Nat) = none := alone
      rw [Term.map, none]
      rfl
    | bigint digits =>
      obtain ⟨value, read, rfl⟩ := Option.map_eq_some_iff.mp term
      rw [Term.map, smallElement?, Tree.isSmallBig, read]
      by_cases small : 1 ≤ value ∧ value ≤ 255
      · simp [small]
      · rw [if_neg small]
        simp only [not_and, Int.not_le] at small
        simpa using small
    | str text => cases term
    | _ =>
      obtain rfl := Option.some.inj term
      rfl
  | list elems =>
    obtain ⟨us, -, rfl⟩ := Option.map_eq_some_iff.mp term
    rfl
  | func functor args =>
    rw [Tree.term?] at term
    split at term
    · obtain ⟨us, -, rfl⟩ := Option.map_eq_some_iff.mp term
      rfl
    · cases term
  | tuple elems => cases term
  | broken cause => cases term

/-- No byte of a run is zero. -/
theorem ne_zero_of_smallElement? {u : Term Nat} {byte : UInt8} (h : smallElement? u = some byte) :
    byte ≠ 0 := by
  unfold smallElement? at h
  split at h
  · split at h
    · next value range =>
      obtain rfl := Option.some.inj h
      intro zero
      have values := congrArg UInt8.toNat zero
      rw [UInt8.toNat_ofNat'] at values
      have none : value.toNat % 256 = 0 := values
      omega
    · cases h
  · cases h

/-- An element that stands by itself before other elements. As a term it must not join a run. -/
theorem matchesElems_single {t : Tree} {rest : List Tree} {ps ps' : List Piece} {u : Term String}
    {us : List (Term String)} (alone : smallByte? t.view = none) (term : t.term? = some u)
    (first : Matches ps t.genuine u)
    (others : MatchesElems ps' (Tree.genuineAll rest && !rest.any Tree.isSmallBig) us) :
    MatchesElems (.element :: ps ++ ps')
      (Tree.genuineAll (t :: rest) && !(t :: rest).any Tree.isSmallBig) (u :: us) := by
  have bytes (f : String → Nat) (rs s : List UInt8) :
      elementTag :: (piecesBytes f ps ++ (piecesBytes f ps' ++ endTag :: rs)) =
          listBytes (segments (Term.mapAll f (u :: us))) ++ s ↔
        (Tree.genuineAll (t :: rest) && !(t :: rest).any Tree.isSmallBig) = true ∧ rs = s := by
    rw [Term.mapAll, segments, Tree.genuineAll, List.any_cons, ← isSome_smallElement? alone term f]
    rcases single : smallElement? (u.map f) with _ | byte
    · -- the pieces of the element come first, and the other elements are what is behind them
      have pieces : piecesBytes f ps ++ (piecesBytes f ps' ++ endTag :: rs) =
            code (u.map f) ++ (listBytes (segments (Term.mapAll f us)) ++ s) ↔
          (t.genuine && Tree.genuineAll rest && !rest.any Tree.isSmallBig) = true ∧ rs = s := by
        rw [first.bytes, others.bytes, ← and_assoc, Bool.and_assoc, Bool.and_eq_true t.genuine]
      simpa [listBytes, Segment.bytes] using pieces
    · -- the term joins a run here, so that the first byte is another one
      have tags : elementTag ≠ runTag := by decide
      simp [listBytes_joinRun, tags]
  refine ⟨?_, ?_, fun f rs s => ?_, fun f rs s => ?_⟩
  · rw [List.cons_append, List.flatMap_cons, List.flatMap_append, first.vars, others.vars,
      Term.varsAll]
    rfl
  · rw [fitsAll, first.fits, others.fits, Bool.and_true]
  · rw [List.cons_append, piecesBytes_cons, piecesBytes_append, List.append_assoc, List.append_assoc]
    exact bytes f rs s
  · -- behind a run comes the zero byte that ends it, unless the term goes on with the run
    have ended : behindCodes f (.element :: ps ++ ps') =
        0 :: elementTag :: (piecesBytes f ps ++ piecesBytes f ps') :=
      congrArg (0 :: elementTag :: ·) (piecesBytes_append f ps ps')
    have alone := bytes f rs s
    rw [ended]
    revert alone
    rw [Term.mapAll, segments]
    rcases single : smallElement? (u.map f) with _ | byte
    · simp [behindRun]
    · have nonzero : (0 : UInt8) ≠ byte := (ne_zero_of_smallElement? single).symm
      have tags : elementTag ≠ runTag := by decide
      simp [listBytes_joinRun, behindRun_joinRun, nonzero, tags]

/-- The end of a list is all there is of no elements. -/
theorem matchesElems_nil : MatchesElems [] true [] := by
  refine ⟨rfl, rfl, fun f rs s => ?_, fun f rs s => ?_⟩
  · simp [Term.mapAll, segments, listBytes]
  · simp [Term.mapAll, segments, listBytes, behindCodes, behindRun]

mutual

/-- The pieces of a tree match its term as far as the tree is genuine. -/
theorem matches_pieces : ∀ {t : Tree} {ps : List Piece} {u : Term String}, pieces t = .ok ps →
    t.term? = some u → Matches ps t.genuine u
  | .leaf l, ps, u, has, term => by
    obtain ⟨p, piece, rfl⟩ := pieces_leaf_eq_ok.mp has
    exact matches_leaf piece term
  | .list elems, ps, u, has, term => by
    obtain ⟨-, ps', parts, rfl⟩ := pieces_list_eq_ok.mp has
    obtain ⟨us, terms, rfl⟩ := Option.map_eq_some_iff.mp term
    exact matches_list (matches_elemPieces parts terms)
  | .func functor args, ps, u, has, term => by
    obtain ⟨name, p, ps', named, piece, parts, rfl⟩ := pieces_func_eq_ok.mp has
    rw [Tree.term?, named] at term
    obtain ⟨us, terms, rfl⟩ := Option.map_eq_some_iff.mp term
    exact matches_func piece (Tree.length_eq_of_termAll? terms) (matches_argPieces parts terms)
  | .tuple _, _, _, has, _ => by cases has
  | .broken _, _, _, has, _ => by cases has

theorem matches_argPieces : ∀ {ts : List Tree} {ps : List Piece} {us : List (Term String)},
    argPieces ts = .ok ps → Tree.termAll? ts = some us → MatchesAll ps (Tree.genuineAll ts) us
  | [], ps, us, has, terms => by
    obtain rfl := Except.ok.inj has
    obtain rfl := Option.some.inj terms
    exact ⟨rfl, rfl, fun f rs s => by simp [Term.mapAll, codeAll, Tree.genuineAll]⟩
  | t :: rest, ps, us, has, terms => by
    obtain ⟨u, us', term, others, rfl⟩ := Tree.termAll?_cons_eq_some.mp terms
    obtain ⟨ps₁, ps₂, first, later, rfl⟩ := argPieces_cons_eq_ok.mp has
    exact matchesAll_cons (matches_pieces first term) (matches_argPieces later others)

theorem matches_elemPieces : ∀ {ts : List Tree} {ps : List Piece} {us : List (Term String)},
    elemPieces ts = .ok ps → Tree.termAll? ts = some us →
    MatchesElems ps (Tree.genuineAll ts && !ts.any Tree.isSmallBig) us
  | [], ps, us, has, terms => by
    obtain rfl := Except.ok.inj has
    obtain rfl := Option.some.inj terms
    exact matchesElems_nil
  | t :: rest, ps, us, has, terms => by
    obtain ⟨u, us', term, others, rfl⟩ := Tree.termAll?_cons_eq_some.mp terms
    obtain ⟨byte, ps₂, small, later, rfl⟩ | ⟨ps₁, ps₂, alone, first, later, rfl⟩ :=
      elemPieces_cons_eq_ok.mp has
    · obtain ⟨value, rfl, same⟩ := smallByte?_view_eq_some small
      obtain rfl := Option.some.inj term
      exact matchesElems_small same (matches_elemPieces later others)
    · exact matchesElems_single alone term (matches_pieces first term)
        (matches_elemPieces later others)

end

/-- The bytes of pieces that match a term are those of its sentence if and only if the condition
holds. -/
theorem Matches.sentenceBytes_iff {ps : List Piece} {condition : Bool} {u : Term String}
    (m : Matches ps condition u) :
    versionTag :: piecesBytes (ps.flatMap Piece.vars).eraseDups.idxOf ps = sentenceBytes [u] ↔
      condition = true := by
  have whole := m.bytes (Term.names [u]).idxOf [] []
  have names : (ps.flatMap Piece.vars).eraseDups = Term.names [u] := by
    rw [m.vars, Term.names, List.flatMap_singleton]
  have sentence : sentenceBytes [u] = versionTag :: (code (u.map (Term.names [u]).idxOf) ++ []) := rfl
  rw [List.append_nil] at whole
  rw [names, sentence, List.cons.injEq, whole]
  simp

/-! ## Trees with terms -/

/-- Trees with terms resolve. -/
theorem lastUnresolved?_eq_none {ts : List Tree} {us : List (Term String)}
    (terms : Tree.termAll? ts = some us) : lastUnresolved? Tree.view ts = none := by
  induction ts generalizing us with
  | nil => rfl
  | cons t rest ih =>
    obtain ⟨u, us', term, others, -⟩ := Tree.termAll?_cons_eq_some.mp terms
    have resolves : ∃ v, t.view = .ok v := by
      cases t with
      | broken cause => cases term
      | _ => exact ⟨_, rfl⟩
    obtain ⟨v, seen⟩ := resolves
    rw [lastUnresolved?, ih others, seen]

mutual

/-- A tree with a term has pieces if the arities in the term fit. -/
theorem exists_pieces : ∀ {t : Tree} {u : Term String}, t.term? = some u → fits u = true →
    ∃ ps, pieces t = .ok ps
  | .leaf l, u, term, _ => by
    have piece : ∃ p, leafPiece l = .ok p := by
      cases l with
      | str text => cases term
      | _ => exact ⟨_, rfl⟩
    obtain ⟨p, piece⟩ := piece
    exact ⟨[p], pieces_leaf_eq_ok.mpr ⟨p, piece, rfl⟩⟩
  | .list elems, u, term, small => by
    obtain ⟨us, terms, rfl⟩ := Option.map_eq_some_iff.mp term
    obtain ⟨ps, parts⟩ := exists_elemPieces terms small
    exact ⟨_, pieces_list_eq_ok.mpr ⟨lastUnresolved?_eq_none terms, ps, parts, rfl⟩⟩
  | .func functor args, u, term, small => by
    rw [Tree.term?] at term
    split at term
    · next name named =>
      obtain ⟨us, terms, rfl⟩ := Option.map_eq_some_iff.mp term
      rw [fits, Bool.and_eq_true, decide_eq_true_eq, Tree.length_eq_of_termAll? terms] at small
      obtain ⟨ps, parts⟩ := exists_argPieces terms small.2
      have piece : compoundPiece name args.length =
          .ok (.bytes (compoundBytes name (UInt8.ofNat args.length))) :=
        if_neg (Nat.not_lt.mpr small.1)
      exact ⟨_, pieces_func_eq_ok.mpr ⟨name, _, ps, named, piece, parts, rfl⟩⟩
    · cases term
  | .tuple _, _, term, _ => by cases term
  | .broken _, _, term, _ => by cases term

theorem exists_argPieces : ∀ {ts : List Tree} {us : List (Term String)},
    Tree.termAll? ts = some us → fitsAll us = true → ∃ ps, argPieces ts = .ok ps
  | [], _, _, _ => ⟨[], rfl⟩
  | t :: rest, us, terms, small => by
    obtain ⟨u, us', term, others, rfl⟩ := Tree.termAll?_cons_eq_some.mp terms
    rw [fitsAll, Bool.and_eq_true] at small
    obtain ⟨ps₁, first⟩ := exists_pieces term small.1
    obtain ⟨ps₂, later⟩ := exists_argPieces others small.2
    exact ⟨_, argPieces_cons_eq_ok.mpr ⟨ps₁, ps₂, first, later, rfl⟩⟩

theorem exists_elemPieces : ∀ {ts : List Tree} {us : List (Term String)},
    Tree.termAll? ts = some us → fitsAll us = true → ∃ ps, elemPieces ts = .ok ps
  | [], _, _, _ => ⟨[], rfl⟩
  | t :: rest, us, terms, small => by
    obtain ⟨u, us', term, others, rfl⟩ := Tree.termAll?_cons_eq_some.mp terms
    rw [fitsAll, Bool.and_eq_true] at small
    obtain ⟨ps₁, first⟩ := exists_pieces term small.1
    obtain ⟨ps₂, later⟩ := exists_elemPieces others small.2
    rcases alone : smallByte? t.view with _ | byte
    · exact ⟨_, elemPieces_cons_eq_ok.mpr (.inr ⟨ps₁, ps₂, alone, first, later, rfl⟩)⟩
    · exact ⟨_, elemPieces_cons_eq_ok.mpr (.inl ⟨byte, ps₂, alone, later, rfl⟩)⟩

end

mutual

/-- A genuine tree with pieces has a term. -/
theorem exists_term? : ∀ {t : Tree} {ps : List Piece}, pieces t = .ok ps → t.genuine = true →
    ∃ u, t.term? = some u
  | .leaf l, ps, has, same => by
    cases l with
    | bigint digits =>
      rw [Tree.genuine] at same
      obtain ⟨value, read, -⟩ := (Option.any_eq_true _ _).mp same
      exact ⟨.integer value, by rw [Tree.term?, Leaf.term?, read]; rfl⟩
    | str text => cases has
    | _ => exact ⟨_, rfl⟩
  | .list elems, ps, has, same => by
    obtain ⟨-, ps', parts, rfl⟩ := pieces_list_eq_ok.mp has
    rw [Tree.genuine, Bool.and_eq_true] at same
    obtain ⟨us, terms⟩ := exists_elemTerms? parts same.1
    exact ⟨.list us, by rw [Tree.term?, terms]; rfl⟩
  | .func functor args, ps, has, same => by
    obtain ⟨name, p, ps', named, -, parts, rfl⟩ := pieces_func_eq_ok.mp has
    rw [Tree.genuine, Bool.and_eq_true] at same
    obtain ⟨us, terms⟩ := exists_argTerms? parts same.2
    exact ⟨.compound name us, by rw [Tree.term?, named, terms]; rfl⟩
  | .tuple _, _, has, _ => by cases has
  | .broken _, _, has, _ => by cases has

theorem exists_argTerms? : ∀ {ts : List Tree} {ps : List Piece}, argPieces ts = .ok ps →
    Tree.genuineAll ts = true → ∃ us, Tree.termAll? ts = some us
  | [], _, _, _ => ⟨[], rfl⟩
  | t :: rest, ps, has, same => by
    obtain ⟨ps₁, ps₂, first, later, rfl⟩ := argPieces_cons_eq_ok.mp has
    rw [Tree.genuineAll, Bool.and_eq_true] at same
    obtain ⟨u, term⟩ := exists_term? first same.1
    obtain ⟨us, others⟩ := exists_argTerms? later same.2
    exact ⟨u :: us, Tree.termAll?_cons_eq_some.mpr ⟨u, us, term, others, rfl⟩⟩

theorem exists_elemTerms? : ∀ {ts : List Tree} {ps : List Piece}, elemPieces ts = .ok ps →
    Tree.genuineAll ts = true → ∃ us, Tree.termAll? ts = some us
  | [], _, _, _ => ⟨[], rfl⟩
  | t :: rest, ps, has, same => by
    rw [Tree.genuineAll, Bool.and_eq_true] at same
    obtain ⟨byte, ps₂, small, later, rfl⟩ | ⟨ps₁, ps₂, -, first, later, rfl⟩ :=
      elemPieces_cons_eq_ok.mp has
    · obtain ⟨value, rfl, -⟩ := smallByte?_view_eq_some small
      obtain ⟨us, others⟩ := exists_elemTerms? later same.2
      exact ⟨_, Tree.termAll?_cons_eq_some.mpr ⟨_, us, rfl, others, rfl⟩⟩
    · obtain ⟨u, term⟩ := exists_term? first same.1
      obtain ⟨us, others⟩ := exists_elemTerms? later same.2
      exact ⟨u :: us, Tree.termAll?_cons_eq_some.mpr ⟨u, us, term, others, rfl⟩⟩

end

end Sicstus

end PrologWire
