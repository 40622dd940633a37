import PrologWire.Proofs.Arena.Held
import PrologWire.Proofs.Sicstus.Renaming

/-!
# Terms with the same bytes

Names are written as they are, up to a zero byte, so a name with a null character can stand for more than a
name. Without such names the bytes of a term tell the term: two terms are written as the same bytes exactly
if they are the same but for the names of their variables, which correspond one to one, and the bits of NaNs.
-/

namespace PrologWire

/-! ## Terms that are alike -/

/-- The leaves are the same, or both are variables, or both are NaNs. -/
inductive Leaf.Alike : Leaf → Leaf → Prop
  | same (l : Leaf) : Alike l l
  | var (name name' : String) : Alike (.var name) (.var name')
  | nan {x y : Binary64} : x.isNaN = true → y.isNaN = true → Alike (.real x) (.real y)

/-- The trees are the same but for the names of their variables and the bits of NaNs. -/
inductive Tree.Alike : Tree → Tree → Prop
  | leaf {l m : Leaf} : l.Alike m → Alike (leaf l) (leaf m)
  | func {f g : Tree} {xs ys : List Tree} : Alike f g → List.Forall₂ Alike xs ys →
    Alike (func f xs) (func g ys)
  | list {xs ys : List Tree} : List.Forall₂ Alike xs ys → Alike (list xs) (list ys)
  | tuple {xs ys : List Tree} : List.Forall₂ Alike xs ys → Alike (tuple xs) (tuple ys)

theorem Tree.mem_leavesAll {ts : List Tree} {l : Leaf} :
    l ∈ leavesAll ts ↔ ∃ t ∈ ts, l ∈ t.leaves := by
  induction ts with
  | nil => simp [leavesAll]
  | cons t rest ih => simp [leavesAll, ih]

/-- The leaves of a tree are as required. -/
theorem Tree.Over.of_mem_leaves {good : Leaf → Prop} {t : Tree} (whole : t.Over good) {l : Leaf}
    (among : l ∈ t.leaves) : good l := by
  induction whole with
  | leaf proper =>
    obtain rfl := List.mem_singleton.mp among
    exact proper
  | func _ _ ihFunctor ihArgs =>
    rcases List.mem_append.mp among with first | rest
    · exact ihFunctor first
    · obtain ⟨x, part, within⟩ := mem_leavesAll.mp rest
      exact ihArgs x part within
  | list _ ih | tuple _ ih =>
    obtain ⟨x, part, within⟩ := mem_leavesAll.mp among
    exact ih x part within

open Sicstus

/-! ## Readings -/

/-- What is read of a leaf of a made term. -/
theorem Leaf.reading?_cases {l : Leaf} (sound : l.Sound) {f : String → Nat} {r : Reading}
    (read : l.reading? f = some r) :
    (∃ value, l = Term.integerLeaf value ∧ r = .integer (toString value)) ∨
      (∃ x, l = .real x ∧ r = .float (floatText x)) ∨
      (∃ name, l = .var name ∧ r = .var (f name)) ∨ ∃ name, l = .atom name ∧ r = .atom name := by
  cases l with
  | int value =>
    exact .inl ⟨value.toInt, (Term.integerLeaf_toInt value).symm, (Option.some.inj read).symm⟩
  | bigint digits =>
    obtain ⟨value, great, rfl⟩ := sound
    exact .inl ⟨value, by rw [Term.integerLeaf, great], (Option.some.inj read).symm⟩
  | real x => exact .inr (.inl ⟨x, rfl, (Option.some.inj read).symm⟩)
  | var name => exact .inr (.inr (.inl ⟨name, rfl, (Option.some.inj read).symm⟩))
  | atom name => exact .inr (.inr (.inr ⟨name, rfl, (Option.some.inj read).symm⟩))
  | str text => cases read

section

variable {f g : String → Nat} {r : Reading} {rs : List Reading}

/-- Leaves of made terms of which the same is read are alike. -/
theorem Leaf.alike_of_reading? {l m : Leaf} (soundL : l.Sound) (soundM : m.Sound)
    (readL : l.reading? f = some r) (readM : m.reading? g = some r) : l.Alike m := by
  obtain ⟨v, rfl, rfl⟩ | ⟨x, rfl, rfl⟩ | ⟨name, rfl, rfl⟩ | ⟨name, rfl, rfl⟩ :=
    Leaf.reading?_cases soundL readL
  · obtain ⟨w, rfl, same⟩ | ⟨_, _, same⟩ | ⟨_, _, same⟩ | ⟨_, _, same⟩ := Leaf.reading?_cases soundM readM
    · obtain rfl := Text.toString_inj (Reading.integer.inj same)
      exact .same _
    all_goals cases same
  · obtain ⟨_, _, same⟩ | ⟨y, rfl, same⟩ | ⟨_, _, same⟩ | ⟨_, _, same⟩ := Leaf.reading?_cases soundM readM
    · cases same
    · obtain rfl | ⟨nanX, nanY⟩ := floatTexts_floatText.eq_iff.mp (Reading.float.inj same)
      · exact .same _
      · exact .nan nanX nanY
    all_goals cases same
  · obtain ⟨_, _, same⟩ | ⟨_, _, same⟩ | ⟨other, rfl, -⟩ | ⟨_, _, same⟩ := Leaf.reading?_cases soundM readM
    · cases same
    · cases same
    · exact .var name other
    · cases same
  · obtain ⟨_, _, same⟩ | ⟨_, _, same⟩ | ⟨_, _, same⟩ | ⟨other, rfl, same⟩ := Leaf.reading?_cases soundM readM
    · cases same
    · cases same
    · cases same
    · obtain rfl := Reading.atom.inj same
      exact .same _

/-- The reading of a leaf is that of no term with parts. -/
theorem Leaf.reading?_ne {l : Leaf} (read : l.reading? f = some r) :
    (∀ name rs, r ≠ .compound name rs) ∧ ∀ rs, r ≠ .list rs := by
  cases l with
  | str text => cases read
  | _ =>
    obtain rfl := Option.some.inj read
    exact ⟨nofun, nofun⟩

namespace Tree

theorem alike_ofName (name : String) : (ofName name).Alike (ofName name) := by
  unfold ofName
  split
  · exact .list .nil
  · exact .leaf (.same _)

/-- What is read of a tree is read of a leaf, or of a name and arguments, or of elements. -/
theorem numberedReading?_cases {t : Tree} (read : t.numberedReading? f = some r) :
    (∃ l, t = .leaf l ∧ l.reading? f = some r) ∨
      (∃ functor args name rs, t = .func functor args ∧ functor.functorName = .ok name ∧
        numberedReadings? f args = some rs ∧ r = .compound name rs) ∨
      ∃ elems rs, t = .list elems ∧ numberedReadings? f elems = some rs ∧ r = .list rs := by
  cases t with
  | leaf l => exact .inl ⟨l, rfl, read⟩
  | func functor args =>
    rw [numberedReading?] at read
    split at read
    · next name named =>
      obtain ⟨rs, reads, rfl⟩ := Option.map_eq_some_iff.mp read
      exact .inr (.inl ⟨functor, args, name, rs, rfl, named, reads, rfl⟩)
    · cases read
  | list elems =>
    obtain ⟨rs, reads, rfl⟩ := Option.map_eq_some_iff.mp read
    exact .inr (.inr ⟨elems, rs, rfl, reads, rfl⟩)
  | tuple elems => cases read
  | broken cause => cases read

mutual

-- by recursion on the first tree: what is read of it says what kind of tree the other is
/-- Made terms of which the same is read are alike. -/
theorem alike_of_reading : ∀ {t u : Tree} {r : Reading}, t.Over Leaf.Sound → u.Over Leaf.Sound →
    t.numberedReading? f = some r → u.numberedReading? g = some r → t.Alike u
  | .leaf l, u, r, .leaf soundL, soundU, readL, readU => by
    obtain ⟨m, rfl, readM⟩ | ⟨_, _, name, rs, -, -, -, rfl⟩ | ⟨_, rs, -, -, rfl⟩ :=
      numberedReading?_cases readU
    · cases soundU with
      | leaf soundM => exact .leaf (Leaf.alike_of_reading? soundL soundM readL readM)
    · exact absurd rfl ((Leaf.reading?_ne readL).1 name rs)
    · exact absurd rfl ((Leaf.reading?_ne readL).2 rs)
  | .func functor args, u, r, .func soundF soundArgs, soundU, readT, readU => by
    obtain ⟨_, same, -⟩ | ⟨_, _, name, rs, same, named, reads, rfl⟩ | ⟨_, _, same, -, -⟩ :=
      numberedReading?_cases readT
    · cases same
    · cases same
      obtain ⟨m, rfl, readM⟩ | ⟨functor', args', _, _, rfl, named', reads', same⟩ | ⟨_, _, -, -, same⟩ :=
        numberedReading?_cases readU
      · exact absurd rfl ((Leaf.reading?_ne readM).1 name rs)
      · obtain ⟨rfl, rfl⟩ := Reading.compound.inj same
        cases soundU with
        | func soundF' soundArgs' =>
          have functors : functor.Alike functor' := by
            rw [eq_ofName_of_functorName soundF named, eq_ofName_of_functorName soundF' named']
            exact alike_ofName name
          exact .func functors (alike_of_readings soundArgs soundArgs' reads reads')
      · cases same
    · cases same
  | .list elems, u, r, .list soundElems, soundU, readT, readU => by
    obtain ⟨_, same, -⟩ | ⟨_, _, _, _, same, -⟩ | ⟨_, rs, same, reads, rfl⟩ := numberedReading?_cases readT
    · cases same
    · cases same
    · cases same
      obtain ⟨m, rfl, readM⟩ | ⟨_, _, _, _, -, -, -, same⟩ | ⟨elems', _, rfl, reads', same⟩ :=
        numberedReading?_cases readU
      · exact absurd rfl ((Leaf.reading?_ne readM).2 rs)
      · cases same
      · obtain rfl := Reading.list.inj same
        cases soundU with
        | list soundElems' => exact .list (alike_of_readings soundElems soundElems' reads reads')
  | .tuple _, _, _, _, _, read, _ => by cases read
  | .broken _, _, _, _, _, read, _ => by cases read

theorem alike_of_readings : ∀ {ts us : List Tree} {rs : List Reading}, (∀ t ∈ ts, t.Over Leaf.Sound) →
    (∀ u ∈ us, u.Over Leaf.Sound) → numberedReadings? f ts = some rs → numberedReadings? g us = some rs →
    List.Forall₂ Alike ts us
  | [], us, rs, soundT, soundU, readT, readU => by
    obtain rfl := Option.some.inj readT
    cases us with
    | nil => exact .nil
    | cons u rest =>
      obtain ⟨_, _, -, -, same⟩ := numberedReadings?_cons_eq_some.mp readU
      cases same
  | t :: rest, us, rs, soundT, soundU, readT, readU => by
    obtain ⟨r, rs', first, others, rfl⟩ := numberedReadings?_cons_eq_some.mp readT
    cases us with
    | nil => cases readU
    | cons u rest' =>
      obtain ⟨r', rs'', first', others', same⟩ := numberedReadings?_cons_eq_some.mp readU
      obtain ⟨rfl, rfl⟩ := List.cons.inj same
      obtain ⟨soundT, soundTs⟩ := List.forall_mem_cons.mp soundT
      obtain ⟨soundU, soundUs⟩ := List.forall_mem_cons.mp soundU
      exact .cons (alike_of_reading soundT soundU first first')
        (alike_of_readings soundTs soundUs others others')

end

end Tree

end

namespace Sicstus

/-! ## Bytes -/

/-- Functors that are alike have the same name. -/
theorem functorName_of_alike {t u : Tree} (alike : t.Alike u) : t.functorName = u.functorName := by
  cases alike with
  | leaf leaves =>
    cases leaves with
    | same l => rfl
    | var name name' => rfl
    | nan nanX nanY => rfl
  | func functors args => rfl
  | list elems => cases elems <;> rfl
  | tuple elems => rfl

/-- Elements that are alike join a run or do not. -/
theorem smallByte?_of_alike {t u : Tree} (alike : t.Alike u) :
    smallByte? t.view = smallByte? u.view := by
  cases alike with
  | leaf leaves =>
    cases leaves with
    | same l => rfl
    | var name name' => rfl
    | nan nanX nanY => rfl
  | func functors args => rfl
  | list elems => rfl
  | tuple elems => rfl

theorem leafPiece_of_alike {l m : Leaf} {p q : Piece} (alike : l.Alike m) (has : leafPiece l = .ok p)
    (has' : leafPiece m = .ok q) : p.rename (fun _ => "") = q.rename fun _ => "" := by
  cases alike with
  | same l =>
    obtain rfl := Except.ok.inj (has.symm.trans has')
    rfl
  | var name name' =>
    obtain rfl := Except.ok.inj has
    obtain rfl := Except.ok.inj has'
    rfl
  | nan nanX nanY =>
    obtain rfl := Except.ok.inj has
    obtain rfl := Except.ok.inj has'
    rw [floatBytes, floatBytes, floatTexts_floatText.eq_iff.mpr (.inr ⟨nanX, nanY⟩)]

mutual

/-- The pieces of trees that are alike are the same but for the names of variables. -/
theorem pieces_of_alike : ∀ {t u : Tree} {ps qs : List Piece}, t.Alike u → pieces t = .ok ps →
    pieces u = .ok qs → ps.map (Piece.rename fun _ => "") = qs.map (Piece.rename fun _ => "")
  | .leaf l, _, ps, qs, .leaf alike, has, has' => by
    obtain ⟨p, piece, rfl⟩ := pieces_leaf_eq_ok.mp has
    obtain ⟨q, piece', rfl⟩ := pieces_leaf_eq_ok.mp has'
    exact congrArg (fun p => [p]) (leafPiece_of_alike alike piece piece')
  | .func functor args, _, ps, qs, .func functors alike, has, has' => by
    obtain ⟨name, p, ps', named, piece, parts, rfl⟩ := pieces_func_eq_ok.mp has
    obtain ⟨name', p', qs', named', piece', parts', rfl⟩ := pieces_func_eq_ok.mp has'
    rw [functorName_of_alike functors, named'] at named
    obtain rfl := Except.ok.inj named
    rw [alike.length_eq, piece'] at piece
    obtain rfl := Except.ok.inj piece
    exact congrArg (_ :: ·) (argPieces_of_alike alike parts parts')
  | .list elems, _, ps, qs, .list alike, has, has' => by
    obtain ⟨-, ps', parts, rfl⟩ := pieces_list_eq_ok.mp has
    obtain ⟨-, qs', parts', rfl⟩ := pieces_list_eq_ok.mp has'
    rw [List.map_append, List.map_append, elemPieces_of_alike alike parts parts']
  | .tuple _, _, _, _, _, has, _ => by cases has

theorem argPieces_of_alike : ∀ {ts us : List Tree} {ps qs : List Piece}, List.Forall₂ Tree.Alike ts us →
    argPieces ts = .ok ps → argPieces us = .ok qs →
    ps.map (Piece.rename fun _ => "") = qs.map (Piece.rename fun _ => "")
  | [], _, ps, qs, .nil, has, has' => by
    obtain rfl := Except.ok.inj (has.symm.trans has')
    rfl
  | t :: rest, _, ps, qs, .cons alike alikes, has, has' => by
    obtain ⟨ps₁, ps₂, first, others, rfl⟩ := argPieces_cons_eq_ok.mp has
    obtain ⟨qs₁, qs₂, first', others', rfl⟩ := argPieces_cons_eq_ok.mp has'
    rw [List.map_append, List.map_append, pieces_of_alike alike first first',
      argPieces_of_alike alikes others others']

theorem elemPieces_of_alike : ∀ {ts us : List Tree} {ps qs : List Piece}, List.Forall₂ Tree.Alike ts us →
    elemPieces ts = .ok ps → elemPieces us = .ok qs →
    ps.map (Piece.rename fun _ => "") = qs.map (Piece.rename fun _ => "")
  | [], _, ps, qs, .nil, has, has' => by
    obtain rfl := Except.ok.inj (has.symm.trans has')
    rfl
  | t :: rest, _, ps, qs, .cons alike alikes, has, has' => by
    have joins := smallByte?_of_alike alike
    obtain ⟨byte, ps₂, small, others, rfl⟩ | ⟨ps₁, ps₂, alone, first, others, rfl⟩ :=
      elemPieces_cons_eq_ok.mp has
    · obtain ⟨byte', qs₂, small', others', rfl⟩ | ⟨_, _, alone', -⟩ := elemPieces_cons_eq_ok.mp has'
      · rw [small, small'] at joins
        obtain rfl := Option.some.inj joins
        rw [map_rename_joinCodes, map_rename_joinCodes, elemPieces_of_alike alikes others others']
      · rw [small, alone'] at joins
        cases joins
    · obtain ⟨_, _, small', -⟩ | ⟨qs₁, qs₂, -, first', others', rfl⟩ := elemPieces_cons_eq_ok.mp has'
      · rw [alone, small'] at joins
        cases joins
      · rw [List.map_append, List.map_append, List.map_cons, List.map_cons,
          pieces_of_alike alike first first', elemPieces_of_alike alikes others others']

end

/-- The digits of big integers in a made term have no null character. -/
theorem null_notMem_bigDigits {t : Tree} (sound : t.Over Leaf.Sound) :
    ∀ text ∈ t.bigDigits, '\x00' ∉ text.toList := by
  intro text among
  obtain ⟨l, leaf, digits⟩ := List.mem_filterMap.mp among
  have proper := sound.of_mem_leaves leaf
  cases l with
  | bigint kept =>
    obtain rfl := Option.some.inj digits
    obtain ⟨value, -, rfl⟩ := proper
    exact Text.null_notMem_toString value
  | _ => cases digits

/-- Made terms without null characters in their names have the same sentence exactly if they are alike and the
pairs of names of their variables are one to one. -/
theorem treeSentence_eq_iff_alike {t u : Tree} {ps qs : List Piece} (soundT : t.Over Leaf.Sound)
    (soundU : u.Over Leaf.Sound) (plainT : ∀ name ∈ t.names, '\x00' ∉ name.toList)
    (plainU : ∀ name ∈ u.names, '\x00' ∉ name.toList) (hasT : pieces t = .ok ps)
    (hasU : pieces u = .ok qs) :
    treeSentence t = treeSentence u ↔ t.Alike u ∧ OneToOne (t.vars.zip u.vars) := by
  constructor
  · intro same
    obtain ⟨r, readT, backT⟩ := reads_treeSentence hasT
    obtain ⟨r', readU, backU⟩ := reads_treeSentence hasU
    -- both are read from the same bytes
    have left := backT (zeroFree_of_texts plainT (null_notMem_bigDigits soundT)) []
    have right := backU (zeroFree_of_texts plainU (null_notMem_bigDigits soundU)) []
    rw [same, right] at left
    obtain ⟨rfl, -⟩ := Prod.mk.inj (Option.some.inj left)
    have alike := Tree.alike_of_reading soundT soundU readT readU
    exact ⟨alike, (treeSentence_eq_iff_of_pieces hasT hasU (pieces_of_alike alike hasT hasU)).mp same⟩
  · rintro ⟨alike, pairs⟩
    exact (treeSentence_eq_iff_of_pieces hasT hasU (pieces_of_alike alike hasT hasU)).mpr pairs

namespace Writer

/-- Two terms with leaves that constructors make, as those of all terms that arenas hold are, without null
characters in the names of atoms and functors, and which two writers accept, are written as the same bytes
exactly if they are the same but for the names of their variables, which correspond one to one, and the bits
of NaNs. -/
theorem sameBytes_iff {w v : Writer} {a b : Arena} {h k : Handle} (left : (a.tree h).Over Leaf.Sound)
    (right : (b.tree k).Over Leaf.Sound) (plain : ∀ name ∈ (a.tree h).names, '\x00' ∉ name.toList)
    (plain' : ∀ name ∈ (b.tree k).names, '\x00' ∉ name.toList)
    (accepted : (w.writeTerm a h).1 = .ok ()) (accepted' : (v.writeTerm b k).1 = .ok ()) :
    ∃ bs bs', (w.writeTerm a h).2.sink.content = w.sink.content ++ bs ∧
      (v.writeTerm b k).2.sink.content = v.sink.content ++ bs' ∧
        (bs = bs' ↔ (a.tree h).Alike (b.tree k) ∧ OneToOne ((a.tree h).vars.zip (b.tree k).vars)) := by
  obtain ⟨⟨ps, has⟩, content⟩ := content_writeTerm accepted
  obtain ⟨⟨qs, has'⟩, content'⟩ := content_writeTerm accepted'
  exact ⟨_, _, content, content', treeSentence_eq_iff_alike left right plain plain' has has'⟩

/-- A term with pieces is written to a sink that accepts everything. -/
theorem writeTerm_ok {w : Writer} {a : Arena} {h : Handle} (accepts : w.sink.Accepting)
    (has : (pieces (a.tree h)).toBool = true) : (w.writeTerm a h).1 = .ok () := by
  rcases given : pieces (a.tree h) with cause | ps
  · rw [given] at has
    cases has
  · obtain ⟨w', written, -⟩ := writePieces_ok accepts ps
    rw [writeTerm_of_pieces given, written]

/-- A compound of a variable, a NaN and the variable again. -/
def aroundNaN (name : ShortText) (x : Binary64) : Operation :=
  .func "f" [.term (.short .var name), .term (.real x), .term (.short .var name)]

def nanHandle : Handle := .node .func ⟨⟨0⟩, 0, 4⟩

theorem holdsTerm_aroundNaN (name : ShortText) (x : Binary64) :
    (aroundNaN name x).alone.HoldsTerm nanHandle := by
  have shows : (aroundNaN name x).alone.view nanHandle =
      .ok (.func (.short .atom ⟨"f", by decide⟩) [.short .var name, .real x, .short .var name]) := rfl
  have small : (aroundNaN name x).alone.IsSmall := ⟨show 0 < _ by decide, show 4 < _ by decide⟩
  have made : (aroundNaN name x).perform (Arena.create ⟨0⟩ ⟨0⟩) =
      (.made nanHandle, (aroundNaN name x).alone) := by
    have size : (aroundNaN name x).alone.slots.size = 4 := rfl
    show (Outcome.made (.node .func ((aroundNaN name x).alone.sliceBetween 0
      (aroundNaN name x).alone.slots.size)), _) = _
    rw [size]
    rfl
  exact Arena.holdsTerm_alone made rfl small List.not_mem_nil rfl shows (by simp [View.parts, Handle.epoch?])

theorem sameBytes_iff_aroundNaN :
    (aroundNaN ⟨"X", by decide⟩ ⟨0x7ff8000000000000⟩).alone.HoldsTerm nanHandle ∧
      (aroundNaN ⟨"Count", by decide⟩ ⟨0xfff8000000000001⟩).alone.HoldsTerm nanHandle ∧
      ∃ bs, ((Writer.new .unlimited).writeTerm (aroundNaN ⟨"X", by decide⟩ ⟨0x7ff8000000000000⟩).alone
          nanHandle).2.sink.content = bs ∧
        ((Writer.new .unlimited).writeTerm (aroundNaN ⟨"Count", by decide⟩ ⟨0xfff8000000000001⟩).alone
          nanHandle).2.sink.content = bs := by
  have tree (name : ShortText) (x : Binary64) : (aroundNaN name x).alone.tree nanHandle =
      .func (.leaf (.atom "f")) [.leaf (.var name.text), .leaf (.real x), .leaf (.var name.text)] := rfl
  have plain (name : ShortText) (x : Binary64) :
      ∀ text ∈ ((aroundNaN name x).alone.tree nanHandle).names, '\x00' ∉ text.toList := by
    rw [tree]
    exact List.forall_mem_singleton.mpr (by decide)
  have accepted (name : ShortText) (x : Binary64) :
      ((Writer.new .unlimited).writeTerm (aroundNaN name x).alone nanHandle).1 = .ok () :=
    writeTerm_ok Sink.accepting_unlimited (by rw [tree]; rfl)
  obtain ⟨bs, bs', content, content', same⟩ :=
    sameBytes_iff (holdsTerm_aroundNaN ⟨"X", by decide⟩ ⟨0x7ff8000000000000⟩).over
      (holdsTerm_aroundNaN ⟨"Count", by decide⟩ ⟨0xfff8000000000001⟩).over (plain _ _) (plain _ _)
      (accepted _ _) (accepted _ _)
  have alike : (Tree.func (.leaf (.atom "f"))
        [.leaf (.var "X"), .leaf (.real ⟨0x7ff8000000000000⟩), .leaf (.var "X")]).Alike
      (.func (.leaf (.atom "f"))
        [.leaf (.var "Count"), .leaf (.real ⟨0xfff8000000000001⟩), .leaf (.var "Count")]) :=
    .func (.leaf (.same _)) (.cons (.leaf (.var _ _)) (.cons (.leaf (.nan (by decide) (by decide)))
      (.cons (.leaf (.var _ _)) .nil)))
  have pairs : OneToOne ([("X", "Count"), ("X", "Count")] : List (String × String)) := by decide
  obtain rfl := same.mpr ⟨alike, pairs⟩
  exact ⟨holdsTerm_aroundNaN _ _, holdsTerm_aroundNaN _ _, bs, content, content'⟩

end Writer

/-! ## Names with null characters -/

/-- A list of two atoms has the same sentence as a list of one, whose name goes on behind a null character with
what the second element is written as. -/
theorem treeSentence_forged (x y : String) :
    treeSentence (.list [.leaf (.atom (x ++ "\x00[A" ++ y))]) =
      treeSentence (.list [.leaf (.atom x), .leaf (.atom y)]) := by
  have name : zeroEnded (x ++ "\x00[A" ++ y) = zeroEnded x ++ elementTag :: atomTag :: zeroEnded y := by
    simp only [zeroEnded, toUTF8_eq_flatMap, String.toList_append, List.flatMap_append,
      List.append_assoc]
    rfl
  have forged : pieces (.list [.leaf (.atom (x ++ "\x00[A" ++ y))]) =
      .ok [.element, .bytes (atomBytes (x ++ "\x00[A" ++ y)), .close] := rfl
  have plain : pieces (.list [.leaf (.atom x), .leaf (.atom y)]) =
      .ok [.element, .bytes (atomBytes x), .element, .bytes (atomBytes y), .close] := rfl
  rw [treeSentence, treeSentence, forged, plain]
  simp [Piece.toBytes, atomBytes, name]

/-- A list of two atoms, and a list of one whose name goes on. -/
def twoAtoms : Operation := .list [.name "a", .name "b"]

def oneAtom : Operation := .list [.name "a\x00[Ab"]

/-- The handles of these lists. -/
def twoHandle : Handle := .node .list ⟨⟨0⟩, 0, 2⟩

def oneHandle : Handle := .node .list ⟨⟨0⟩, 0, 1⟩

/-- Lists of different lengths are written as the same bytes. -/
theorem Writer.sameBytes_forged :
    twoAtoms.alone.HoldsTerm twoHandle ∧ oneAtom.alone.HoldsTerm oneHandle ∧
      ((Writer.new .unlimited).writeTerm twoAtoms.alone twoHandle).1 = .ok () ∧
      ((Writer.new .unlimited).writeTerm oneAtom.alone oneHandle).1 = .ok () ∧
      ((Writer.new .unlimited).writeTerm twoAtoms.alone twoHandle).2.sink.content =
        ((Writer.new .unlimited).writeTerm oneAtom.alone oneHandle).2.sink.content ∧
      ¬(twoAtoms.alone.tree twoHandle).Alike (oneAtom.alone.tree oneHandle) := by
  have two : twoAtoms.alone.tree twoHandle = .list [.leaf (.atom "a"), .leaf (.atom "b")] := rfl
  have one : oneAtom.alone.tree oneHandle = .list [.leaf (.atom ("a" ++ "\x00[A" ++ "b"))] := rfl
  have accepted := Writer.writeTerm_ok (w := .new .unlimited) (a := twoAtoms.alone) (h := twoHandle)
    Sink.accepting_unlimited (by rw [two]; rfl)
  have accepted' := Writer.writeTerm_ok (w := .new .unlimited) (a := oneAtom.alone) (h := oneHandle)
    Sink.accepting_unlimited (by rw [one]; rfl)
  refine ⟨?_, ?_, accepted, accepted', ?_, ?_⟩
  · exact Arena.holdsTerm_alone rfl rfl ⟨by decide, by decide⟩ (by decide) rfl rfl (by decide)
  · exact Arena.holdsTerm_alone rfl rfl ⟨by decide, by decide⟩ (by decide) rfl rfl (by decide)
  · rw [(Writer.content_writeTerm accepted).2, (Writer.content_writeTerm accepted').2, one, two,
      treeSentence_forged]
  · rw [one, two]
    intro alike
    cases alike with
    | list elems => cases elems.length_eq

end Sicstus

end PrologWire
