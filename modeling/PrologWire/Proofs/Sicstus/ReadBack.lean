import PrologWire.Proofs.Sicstus.Decoder
import PrologWire.Proofs.Sicstus.Pieces

/-!
# Pieces that are read back

What a tree is written as is read back as `Tree.numberedReading?` says, whatever comes behind it, if
no text in the tree has a null character. `ReadBack` says so of a term, with a lemma for each kind
of it, and its companions say so of arguments and of the elements of a list.
-/

namespace PrologWire

namespace Sicstus

/-- The byte of an integer that joins a run is its value, and not zero. -/
theorem runByte?_eq_some {value : Int64} {byte : UInt8} (h : runByte? value = some byte) :
    byte ≠ 0 ∧ (byte.toNat : Int) = value.toInt := by
  rw [runByte?] at h
  split at h
  · next small =>
    obtain rfl := Option.some.inj h
    have same : (UInt8.ofNat value.toInt.toNat).toNat = value.toInt.toNat :=
      UInt8.toNat_ofNat_of_lt (show value.toInt.toNat < 256 by omega)
    refine ⟨fun zero => ?_, by omega⟩
    rw [zero] at same
    have : (0 : UInt8).toNat = 0 := rfl
    omega
  · cases h

variable {f : String → Nat} {t : Tree} {ts : List Tree} {ps ps' : List Piece} {r : Reading}
  {rs : List Reading}

/-- The pieces of a tree have its variables, and their bytes are read back if no text of the tree has a
null character. -/
structure ReadBack (f : String → Nat) (t : Tree) (ps : List Piece) (r : Reading) : Prop where
  reading : t.numberedReading? f = some r
  vars : ps.flatMap Piece.vars = t.vars
  back (free : ∀ l ∈ t.leaves, l.ZeroFree) {depth : Nat}
    (enough : (piecesBytes f ps).length ≤ depth) : Reads (readTerm depth) r (piecesBytes f ps)

/-- The same for the arguments of a compound. -/
structure ReadBackAll (f : String → Nat) (ts : List Tree) (ps : List Piece) (rs : List Reading) :
    Prop where
  readings : Tree.numberedReadings? f ts = some rs
  vars : ps.flatMap Piece.vars = (Tree.leavesAll ts).filterMap Leaf.var?
  back (free : ∀ l ∈ Tree.leavesAll ts, l.ZeroFree) {depth : Nat}
    (enough : (piecesBytes f ps).length ≤ depth) :
    Reads (readTimes (readTerm depth) ts.length) rs (piecesBytes f ps)

/-- The same for the elements of a list, up to its end, and for what is left of them behind a run. -/
structure ReadBackElems (f : String → Nat) (ts : List Tree) (ps : List Piece) (rs : List Reading) :
    Prop where
  readings : Tree.numberedReadings? f ts = some rs
  vars : ps.flatMap Piece.vars = (Tree.leavesAll ts).filterMap Leaf.var?
  back (free : ∀ l ∈ Tree.leavesAll ts, l.ZeroFree) {depth count : Nat}
    (enough : (piecesBytes f ps).length ≤ depth) (few : (piecesBytes f ps).length < count) :
    Reads (readElements (readTerm depth) count) rs (piecesBytes f ps ++ [endTag])
  behind (free : ∀ l ∈ Tree.leavesAll ts, l.ZeroFree) {depth count : Nat}
    (enough : (piecesBytes f ps).length ≤ depth) (few : (piecesBytes f ps).length < count) :
    Reads (readRun (readElements (readTerm depth) count)) rs (behindCodes f ps ++ [endTag])

/-- A piece of bytes from which a tree without variables is read. -/
theorem readBack_bytes {bs : List UInt8} (reading : t.numberedReading? f = some r)
    (ground : t.vars = []) (filled : bs ≠ [])
    (back : (∀ l ∈ t.leaves, l.ZeroFree) → ∀ depth, Reads (readTerm (depth + 1)) r bs) :
    ReadBack f t [.bytes bs] r where
  reading := reading
  vars := ground.symm
  back free depth enough := by
    have written : piecesBytes f [.bytes bs] = bs := List.append_nil bs
    rw [written] at enough ⊢
    obtain _ | depth := depth
    · exact absurd (List.eq_nil_of_length_eq_zero (Nat.le_zero.mp enough)) filled
    · exact back free depth

/-- The piece of a leaf is read back. -/
theorem readBack_leaf {l : Leaf} {p : Piece} (piece : leafPiece l = .ok p) :
    ∃ r, ReadBack f (.leaf l) [p] r := by
  cases l with
  | int value =>
    obtain rfl := Except.ok.inj piece
    exact ⟨_, readBack_bytes rfl rfl (List.cons_ne_nil _ _) fun _ depth =>
      reads_integer (Text.null_notMem_toString value.toInt) depth⟩
  | bigint digits =>
    obtain rfl := Except.ok.inj piece
    exact ⟨_, readBack_bytes rfl rfl (List.cons_ne_nil _ _) fun free depth =>
      reads_integer (free (.bigint digits) List.mem_cons_self) depth⟩
  | real value =>
    obtain rfl := Except.ok.inj piece
    exact ⟨_, readBack_bytes rfl rfl (List.cons_ne_nil _ _) fun _ depth => reads_float value depth⟩
  | atom name =>
    obtain rfl := Except.ok.inj piece
    exact ⟨_, readBack_bytes rfl rfl (List.cons_ne_nil _ _) fun free depth =>
      reads_atom (free (.atom name) List.mem_cons_self) depth⟩
  | var name =>
    obtain rfl := Except.ok.inj piece
    refine ⟨.var (f name), rfl, rfl, fun _ depth enough => ?_⟩
    have written : piecesBytes f [.var name] = variableBytes (f name) := List.append_nil _
    rw [written] at enough ⊢
    obtain _ | depth := depth
    · cases enough
    · exact reads_variable (f name) depth
  | str text => cases piece

/-- A compound is read back by its name and its arity, if its arguments are. -/
theorem readBack_func {functor : Tree} {name : String} {p : Piece}
    (named : functor.functorName = .ok name) (piece : compoundPiece name ts.length = .ok p)
    (parts : ReadBackAll f ts ps rs) :
    ReadBack f (.func functor ts) (p :: ps) (.compound name rs) := by
  rw [compoundPiece] at piece
  split at piece
  · cases piece
  · next few =>
    obtain rfl := Except.ok.inj piece
    have arity : (UInt8.ofNat ts.length).toNat = ts.length :=
      UInt8.toNat_ofNat_of_lt (Nat.lt_succ_of_le (Nat.not_lt.mp few))
    refine ⟨?_, ?_, fun free depth enough rest => ?_⟩
    · rw [Tree.numberedReading?, named, parts.readings]
      rfl
    · rw [Tree.vars, Tree.leaves, List.filterMap_append,
        Tree.filterMap_leaves_of_functorName named rfl]
      exact parts.vars
    · have longer : (piecesBytes f ps).length <
          (piecesBytes f (.bytes (compoundBytes name (UInt8.ofNat ts.length)) :: ps)).length := by
        rw [piecesBytes_cons, List.length_append]
        exact Nat.lt_add_of_pos_left (Nat.succ_pos _)
      obtain _ | depth := depth
      · omega
      · have text : '\x00' ∉ name.toList := by
          rcases Tree.leaves_of_functorName named with atom | ⟨-, rfl⟩
          · refine free (.atom name) (List.mem_append_left _ ?_)
            rw [atom]
            exact List.mem_cons_self
          · decide
        have args := parts.back (fun l among => free l (List.mem_append_right _ among))
          (show (piecesBytes f ps).length ≤ depth by omega) rest
        rw [← arity] at args
        rw [piecesBytes_cons, Piece.toBytes, List.append_assoc]
        exact readTerm_compound text args

/-- A list is read back by its elements. -/
theorem readBack_list (parts : ReadBackElems f ts ps rs) :
    ReadBack f (.list ts) (ps ++ [.close]) (.list rs) where
  reading := by
    rw [Tree.numberedReading?, parts.readings]
    rfl
  vars := by
    rw [List.flatMap_append, parts.vars]
    exact List.append_nil _
  back free depth enough rest := by
    have written : piecesBytes f (ps ++ [.close]) = piecesBytes f ps ++ [endTag] :=
      piecesBytes_append f ps [.close]
    rw [written, List.length_append, List.length_singleton] at enough
    obtain _ | depth := depth
    · cases enough
    · rw [written]
      exact readTerm_list (parts.back free (Nat.le_of_succ_le_succ enough) enough rest)

/-- One argument before the others. -/
theorem readBackAll_cons (first : ReadBack f t ps r) (others : ReadBackAll f ts ps' rs) :
    ReadBackAll f (t :: ts) (ps ++ ps') (r :: rs) where
  readings := Tree.numberedReadings?_cons_eq_some.mpr
    ⟨r, rs, first.reading, others.readings, rfl⟩
  vars := by
    rw [List.flatMap_append, first.vars, others.vars, Tree.leavesAll, List.filterMap_append]
    rfl
  back free depth enough rest := by
    rw [piecesBytes_append, List.length_append] at enough
    have front := first.back (fun l among => free l (List.mem_append_left _ among))
      (Nat.le_of_add_right_le enough) (piecesBytes f ps' ++ rest)
    have back := others.back (fun l among => free l (List.mem_append_right _ among))
      (Nat.le_of_add_left_le enough) rest
    rw [piecesBytes_append, List.append_assoc, List.length_cons, readTimes, front]
    show (readTimes _ _ _ >>= _) = _
    rw [back]
    rfl

/-- The end of a list is all there is of no elements. -/
theorem readBackElems_nil : ReadBackElems f [] [] [] := by
  refine ⟨rfl, rfl, fun free depth count enough few rest => ?_, fun free depth count enough few rest => ?_⟩
  all_goals
    obtain _ | count := count
    · cases few
  · rfl
  · exact readRun_zero _ _

/-- A small integer before other elements joins the run that they begin with. -/
theorem readBackElems_small {value : Int64} {byte : UInt8} (small : runByte? value = some byte)
    (others : ReadBackElems f ts ps rs) :
    ReadBackElems f (.leaf (.int value) :: ts) (joinCodes byte ps)
      (.integer (toString value.toInt) :: rs) := by
  obtain ⟨nonzero, same⟩ := runByte?_eq_some small
  have text : toString value.toInt = toString byte.toNat := same ▸ rfl
  have longer := length_piecesBytes_joinCodes f byte ps
  -- what is left of the elements behind a run begins with the byte
  have run (free : ∀ l ∈ Tree.leavesAll (.leaf (.int value) :: ts), l.ZeroFree) {depth count : Nat}
      (enough : (piecesBytes f ps).length ≤ depth) (few : (piecesBytes f ps).length < count) :
      Reads (readRun (readElements (readTerm depth) count)) (.integer (toString byte.toNat) :: rs)
        (byte :: behindCodes f ps ++ [endTag]) := fun rest =>
    readRun_cons nonzero
      (others.behind (fun l among => free l (List.mem_append_right _ among)) enough few rest)
  refine ⟨?_, ?_, fun free depth count enough few rest => ?_, fun free depth count enough few => ?_⟩
  · exact Tree.numberedReadings?_cons_eq_some.mpr ⟨_, rs, rfl, others.readings, rfl⟩
  · rw [vars_joinCodes]
    exact others.vars
  · obtain _ | count := count
    · cases few
    · have begun := run free (show (piecesBytes f ps).length ≤ depth by omega)
        (show (piecesBytes f ps).length < count by omega) rest
      rw [text, piecesBytes_joinCodes]
      simp only [List.cons_append, List.append_assoc] at begun ⊢
      rw [readElements, if_neg (by decide : runTag ≠ endTag), if_neg (by decide : runTag ≠ elementTag),
        if_pos rfl]
      exact begun
  · rw [text, behindCodes_joinCodes]
    exact run free (by omega) (by omega)

/-- Any other element ends the run before it. -/
theorem readBackElems_single (first : ReadBack f t ps r) (others : ReadBackElems f ts ps' rs) :
    ReadBackElems f (t :: ts) (.element :: ps ++ ps') (r :: rs) := by
  have written : piecesBytes f (.element :: ps ++ ps') =
      elementTag :: (piecesBytes f ps ++ piecesBytes f ps') :=
    congrArg (elementTag :: ·) (piecesBytes_append f ps ps')
  have alone (free : ∀ l ∈ Tree.leavesAll (t :: ts), l.ZeroFree) {depth count : Nat}
      (enough : (piecesBytes f (.element :: ps ++ ps')).length ≤ depth)
      (few : (piecesBytes f (.element :: ps ++ ps')).length < count) :
      Reads (readElements (readTerm depth) count) (r :: rs)
        (piecesBytes f (.element :: ps ++ ps') ++ [endTag]) := by
    intro rest
    rw [written, List.length_cons, List.length_append] at enough few
    obtain _ | count := count
    · cases few
    · have front := first.back (fun l among => free l (List.mem_append_left _ among))
        (show (piecesBytes f ps).length ≤ depth by omega) (piecesBytes f ps' ++ [endTag] ++ rest)
      have back := others.back (fun l among => free l (List.mem_append_right _ among))
        (show (piecesBytes f ps').length ≤ depth by omega)
        (show (piecesBytes f ps').length < count by omega) rest
      rw [List.append_assoc] at front back
      rw [written, List.cons_append, List.cons_append, List.append_assoc, List.append_assoc,
        readElements, if_neg (by decide : elementTag ≠ endTag), if_pos rfl, front]
      show (readElements _ _ _ >>= _) = _
      rw [back]
      rfl
  refine ⟨?_, ?_, alone, fun free depth count enough few rest => ?_⟩
  · exact Tree.numberedReadings?_cons_eq_some.mpr ⟨r, rs, first.reading, others.readings, rfl⟩
  · rw [List.cons_append, List.flatMap_cons, List.flatMap_append, first.vars, others.vars,
      Tree.leavesAll, List.filterMap_append]
    rfl
  · exact (readRun_zero _ _).trans (alone free enough few rest)

mutual

/-- The pieces of a tree are read back. -/
theorem readBack_pieces : ∀ {t : Tree} {ps : List Piece}, pieces t = .ok ps →
    ∃ r, ReadBack f t ps r
  | .leaf l, ps, has => by
    obtain ⟨p, piece, rfl⟩ := pieces_leaf_eq_ok.mp has
    exact readBack_leaf piece
  | .list elems, ps, has => by
    obtain ⟨-, ps', parts, rfl⟩ := pieces_list_eq_ok.mp has
    obtain ⟨rs, back⟩ := readBack_elemPieces parts
    exact ⟨.list rs, readBack_list back⟩
  | .func functor args, ps, has => by
    obtain ⟨name, p, ps', named, piece, parts, rfl⟩ := pieces_func_eq_ok.mp has
    obtain ⟨rs, back⟩ := readBack_argPieces parts
    exact ⟨.compound name rs, readBack_func named piece back⟩
  | .tuple _, _, has => by cases has
  | .broken _, _, has => by cases has

theorem readBack_argPieces : ∀ {ts : List Tree} {ps : List Piece}, argPieces ts = .ok ps →
    ∃ rs, ReadBackAll f ts ps rs
  | [], ps, has => by
    obtain rfl := Except.ok.inj has
    exact ⟨[], rfl, rfl, fun _ _ _ _ => rfl⟩
  | t :: rest, ps, has => by
    obtain ⟨ps₁, ps₂, first, later, rfl⟩ := argPieces_cons_eq_ok.mp has
    obtain ⟨r, back⟩ := readBack_pieces first
    obtain ⟨rs, others⟩ := readBack_argPieces later
    exact ⟨r :: rs, readBackAll_cons back others⟩

theorem readBack_elemPieces : ∀ {ts : List Tree} {ps : List Piece}, elemPieces ts = .ok ps →
    ∃ rs, ReadBackElems f ts ps rs
  | [], ps, has => by
    obtain rfl := Except.ok.inj has
    exact ⟨[], readBackElems_nil⟩
  | t :: rest, ps, has => by
    obtain ⟨byte, ps₂, small, later, rfl⟩ | ⟨ps₁, ps₂, -, first, later, rfl⟩ :=
      elemPieces_cons_eq_ok.mp has
    · obtain ⟨value, rfl, same⟩ := smallByte?_view_eq_some small
      obtain ⟨rs, others⟩ := readBack_elemPieces later
      exact ⟨_, readBackElems_small same others⟩
    · obtain ⟨r, back⟩ := readBack_pieces first
      obtain ⟨rs, others⟩ := readBack_elemPieces later
      exact ⟨r :: rs, readBackElems_single back others⟩

end

end Sicstus

end PrologWire
