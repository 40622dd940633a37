import PrologWire.Proofs.Sentence.Renaming
import PrologWire.Proofs.Sicstus.ReadCode
import PrologWire.Proofs.Sicstus.RoundTrip

/-!
# Names of variables in SICStus bytes

The name of a variable is not in the bytes of a sentence, only its number, and the numbers can be told from the
bytes if all else is known. So the bytes of two sentences that are the same but for the names of their variables
are the same exactly if the names correspond one to one. No text has to be free of null characters for it, because
both sentences have the same texts in the same places.
-/

namespace PrologWire

/-! ## Trees -/

/-- The same leaf with another name if it is a variable. -/
def Leaf.rename (f : String → String) : Leaf → Leaf
  | .var name => .var (f name)
  | l => l

namespace Tree

mutual

/-- The same tree with other names of its variables. -/
def rename (f : String → String) : Tree → Tree
  | leaf l => leaf (l.rename f)
  | func functor args => func (functor.rename f) (renameAll f args)
  | list elems => list (renameAll f elems)
  | tuple elems => tuple (renameAll f elems)
  | broken cause => broken cause

/-- The same trees with other names of their variables. -/
def renameAll (f : String → String) : List Tree → List Tree
  | [] => []
  | t :: rest => t.rename f :: renameAll f rest

end

/-- The trees are the same but for the names of their variables. -/
def SameButNames (t t' : Tree) : Prop := t.rename (fun _ => "") = t'.rename fun _ => ""

variable (f : String → String)

@[simp] theorem length_renameAll (ts : List Tree) : (renameAll f ts).length = ts.length := by
  induction ts with
  | nil => rfl
  | cons t rest ih => rw [renameAll, List.length_cons, ih, List.length_cons]

/-- A functor is no variable. -/
@[simp] theorem functorName_rename (t : Tree) : (t.rename f).functorName = t.functorName := by
  cases t with
  | leaf l => cases l <;> rfl
  | list elems => cases elems <;> rfl
  | _ => rfl

end Tree

namespace Sicstus

variable {α : Type} {u v : α → Nat}

/-! ## Terms from calls -/

@[simp] theorem smallElement?_map {ν μ : Type} (f : ν → μ) (t : Term ν) :
    smallElement? (t.map f) = smallElement? t := by
  cases t <;> rfl

/-- Only an integer joins a run. -/
theorem vars_of_smallElement? {ν : Type} {t : Term ν} {byte : UInt8} (h : smallElement? t = some byte) :
    t.vars = [] := by
  cases t with
  | integer value => rfl
  | _ => cases h

/-- The number of a variable ends with its zero byte. -/
theorem tells_variable (p : α) : Tells u v [p] (variableBytes (u p)) (variableBytes (v p)) :=
  .of_reads (fun n => reads_variable n 0) (fun same => Reading.var.inj same) p

mutual

/-- The bytes of a term tell the numbers of its variables. -/
theorem tells_code : ∀ t : Term α, Tells u v t.vars (code (t.map u)) (code (t.map v))
  | .atom name => .constant (atomBytes name)
  | .integer value => .constant (integerBytes (toString value))
  | .float value => .constant (floatBytes value)
  | .var p => tells_variable p
  | .compound functor [] => .constant (atomBytes functor)
  | .compound functor (first :: rest) => by
    have parts := tells_codeAll (first :: rest)
    have length (f : α → Nat) : (Term.mapAll f (first :: rest)).length = (first :: rest).length := by
      rw [Term.mapAll_eq_map, List.length_map]
    have header := parts.behind (compoundBytes functor (UInt8.ofNat (first :: rest).length))
    rw [Term.map, Term.map, code, code, length, length]
    exact header
  | .list elems => (tells_segments elems).1

theorem tells_codeAll : ∀ ts : List (Term α),
    Tells u v (Term.varsAll ts) (codeAll (Term.mapAll u ts)) (codeAll (Term.mapAll v ts))
  | [] => .constant []
  | t :: rest => (tells_code t).append (tells_codeAll rest)

/-- So do the bytes of the elements of a list, behind a run and elsewhere. -/
theorem tells_segments : ∀ ts : List (Term α),
    Tells u v (Term.varsAll ts) (listBytes (segments (Term.mapAll u ts)))
      (listBytes (segments (Term.mapAll v ts))) ∧
    Tells u v (Term.varsAll ts) (behindRun (segments (Term.mapAll u ts)))
      (behindRun (segments (Term.mapAll v ts)))
  | [] => ⟨.constant [endTag], .constant [0, endTag]⟩
  | t :: rest => by
    obtain ⟨alone, behind⟩ := tells_segments rest
    rw [Term.varsAll, Term.mapAll, Term.mapAll, segments, segments, smallElement?_map, smallElement?_map]
    rcases small : smallElement? t with _ | byte
    · have single := ((tells_code t).append alone).behind [elementTag]
      simp only [listBytes_single, behindRun_single]
      exact ⟨single, single.behind [0]⟩
    · rw [vars_of_smallElement? small, List.nil_append]
      simp only [listBytes_joinRun, behindRun_joinRun]
      exact ⟨behind.behind [runTag, byte], behind.behind [byte]⟩

end

/-- The bytes of two views of one sentence are the same exactly if the pairs of names are one to one. -/
theorem sentenceBytes_eq_iff (ps : List (Term (String × String))) :
    sentenceBytes (ps.map (Term.map Prod.fst)) = sentenceBytes (ps.map (Term.map Prod.snd)) ↔
      OneToOne (ps.flatMap Term.vars) := by
  have tells := (tells_codeAll (u := Term.numberBy Prod.fst ps) (v := Term.numberBy Prod.snd ps) ps).behind [versionTag]
  rw [sentenceBytes, sentenceBytes, Term.numbered_map, Term.numbered_map, Term.oneToOne_iff_numbers,
    ← Term.varsAll_eq_flatMap]
  exact tells.eq_iff

/-! ## Whole terms -/

/-- The same piece with another name if it is a variable. -/
def Piece.rename (f : String → String) : Piece → Piece
  | .var name => .var (f name)
  | p => p

section

variable (f : String → String)

@[simp] theorem smallByte?_view_rename (t : Tree) :
    smallByte? (t.rename f).view = smallByte? t.view := by
  cases t with
  | leaf l => cases l <;> rfl
  | _ => rfl

/-- What does not resolve has no name. -/
@[simp] theorem lastUnresolved?_renameAll (ts : List Tree) :
    lastUnresolved? Tree.view (Tree.renameAll f ts) = lastUnresolved? Tree.view ts := by
  induction ts with
  | nil => rfl
  | cons t rest ih =>
    rw [Tree.renameAll, lastUnresolved?, lastUnresolved?, ih]
    cases lastUnresolved? Tree.view rest with
    | some cause => rfl
    | none => cases t <;> rfl

/-- No variable is in a run. -/
theorem map_rename_joinCodes (byte : UInt8) (ps : List Piece) :
    (joinCodes byte ps).map (Piece.rename f) = joinCodes byte (ps.map (Piece.rename f)) := by
  rcases ps with _ | ⟨_ | _ | _ | _ | _, rest⟩ <;> rfl

theorem leafPiece_rename {l : Leaf} {p : Piece} (h : leafPiece l = .ok p) :
    leafPiece (l.rename f) = .ok (p.rename f) := by
  cases l with
  | str text => cases h
  | _ =>
    obtain rfl := Except.ok.inj h
    rfl

mutual

/-- A renamed tree has the renamed pieces. -/
theorem pieces_rename : ∀ {t : Tree} {ps : List Piece}, pieces t = .ok ps →
    pieces (t.rename f) = .ok (ps.map (Piece.rename f))
  | .leaf l, ps, h => by
    obtain ⟨p, piece, rfl⟩ := pieces_leaf_eq_ok.mp h
    exact pieces_leaf_eq_ok.mpr ⟨_, leafPiece_rename f piece, rfl⟩
  | .list elems, ps, h => by
    obtain ⟨resolved, ps', parts, rfl⟩ := pieces_list_eq_ok.mp h
    refine pieces_list_eq_ok.mpr ⟨?_, _, elemPieces_rename parts, List.map_append⟩
    rw [lastUnresolved?_renameAll, resolved]
  | .func functor args, ps, h => by
    obtain ⟨name, p, ps', named, piece, parts, rfl⟩ := pieces_func_eq_ok.mp h
    have unnamed : p.rename f = p := by
      rw [compoundPiece] at piece
      split at piece
      · cases piece
      · obtain rfl := Except.ok.inj piece
        rfl
    refine pieces_func_eq_ok.mpr ⟨name, p, _, ?_, ?_, argPieces_rename parts, ?_⟩
    · rw [Tree.functorName_rename, named]
    · rw [Tree.length_renameAll, piece]
    · rw [List.map_cons, unnamed]
  | .tuple elems, ps, h => by cases h
  | .broken cause, ps, h => by cases h

theorem argPieces_rename : ∀ {ts : List Tree} {ps : List Piece}, argPieces ts = .ok ps →
    argPieces (Tree.renameAll f ts) = .ok (ps.map (Piece.rename f))
  | [], ps, h => by
    obtain rfl := Except.ok.inj h
    rfl
  | t :: rest, ps, h => by
    obtain ⟨ps₁, ps₂, first, others, rfl⟩ := argPieces_cons_eq_ok.mp h
    exact argPieces_cons_eq_ok.mpr ⟨_, _, pieces_rename first, argPieces_rename others, List.map_append⟩

theorem elemPieces_rename : ∀ {ts : List Tree} {ps : List Piece}, elemPieces ts = .ok ps →
    elemPieces (Tree.renameAll f ts) = .ok (ps.map (Piece.rename f))
  | [], ps, h => by
    obtain rfl := Except.ok.inj h
    rfl
  | t :: rest, ps, h => by
    refine elemPieces_cons_eq_ok.mpr ?_
    rw [smallByte?_view_rename]
    obtain ⟨byte, ps₂, small, others, rfl⟩ | ⟨ps₁, ps₂, alone, first, others, rfl⟩ :=
      elemPieces_cons_eq_ok.mp h
    · exact .inl ⟨byte, _, small, elemPieces_rename others, map_rename_joinCodes f byte ps₂⟩
    · refine .inr ⟨_, _, alone, pieces_rename first, elemPieces_rename others, ?_⟩
      rw [List.map_append]
      rfl

end

end

/-- Pieces that are the same but for names are both variables or the same. -/
theorem Piece.eq_of_rename {p p' : Piece}
    (same : p.rename (fun _ => "") = p'.rename fun _ => "") :
    (∃ name name', p = .var name ∧ p' = .var name') ∨ p = p' ∧ p.vars = [] := by
  cases p with
  | var name =>
    cases p' with
    | var name' => exact .inl ⟨name, name', rfl, rfl⟩
    | _ => cases same
  | _ =>
    cases p' with
    | var name' => cases same
    | _ => exact .inr ⟨same, rfl⟩

/-- A piece without variables is written in the same way with all numbers. -/
theorem Piece.toBytes_of_vars {p : Piece} (ground : p.vars = []) (f g : String → Nat) :
    p.toBytes f = p.toBytes g := by
  cases p with
  | var name => cases ground
  | _ => rfl

/-- The bytes of pieces that are the same but for names tell the numbers of the names. -/
theorem tells_piecesBytes (f g : String → Nat) {ps ps' : List Piece}
    (same : ps.map (Piece.rename fun _ => "") = ps'.map (Piece.rename fun _ => "")) :
    Tells (fun p : String × String => f p.1) (fun p => g p.2)
      ((ps.flatMap Piece.vars).zip (ps'.flatMap Piece.vars))
      (piecesBytes f ps) (piecesBytes g ps') := by
  induction ps generalizing ps' with
  | nil =>
    obtain rfl := List.map_eq_nil_iff.mp same.symm
    exact .constant []
  | cons p rest ih =>
    cases ps' with
    | nil => cases same
    | cons p' rest' =>
      obtain ⟨first, others⟩ := List.cons.inj same
      obtain ⟨name, name', rfl, rfl⟩ | ⟨rfl, ground⟩ := Piece.eq_of_rename first
      · exact (tells_variable (u := fun p : String × String => f p.1) (v := fun p => g p.2)
          (name, name')).append (ih others)
      · rw [piecesBytes_cons, piecesBytes_cons, Piece.toBytes_of_vars ground g f, List.flatMap_cons,
          List.flatMap_cons, ground]
        exact (ih others).behind (p.toBytes f)

/-- Pieces that are the same but for names have equally many of these. -/
theorem length_vars_of_rename {ps ps' : List Piece}
    (same : ps.map (Piece.rename fun _ => "") = ps'.map (Piece.rename fun _ => "")) :
    (ps.flatMap Piece.vars).length = (ps'.flatMap Piece.vars).length := by
  induction ps generalizing ps' with
  | nil =>
    obtain rfl := List.map_eq_nil_iff.mp same.symm
    rfl
  | cons p rest ih =>
    cases ps' with
    | nil => cases same
    | cons p' rest' =>
      obtain ⟨first, others⟩ := List.cons.inj same
      rw [List.flatMap_cons, List.flatMap_cons, List.length_append, List.length_append, ih others]
      obtain ⟨name, name', rfl, rfl⟩ | ⟨rfl, -⟩ := Piece.eq_of_rename first <;> rfl

/-- Sentences of which the pieces are the same but for the names of variables are the same bytes exactly if the
pairs of names are one to one. -/
theorem treeSentence_eq_iff_of_pieces {t t' : Tree} {ps ps' : List Piece}
    (has : pieces t = .ok ps) (has' : pieces t' = .ok ps')
    (shape : ps.map (Piece.rename fun _ => "") = ps'.map (Piece.rename fun _ => "")) :
    treeSentence t = treeSentence t' ↔ OneToOne (t.vars.zip t'.vars) := by
  obtain ⟨r, readBack⟩ := readBack_pieces (f := fun _ => 0) has
  obtain ⟨r', readBack'⟩ := readBack_pieces (f := fun _ => 0) has'
  have length := length_vars_of_rename shape
  have tells := (tells_piecesBytes (ps.flatMap Piece.vars).eraseDups.idxOf
    (ps'.flatMap Piece.vars).eraseDups.idxOf shape).behind [versionTag]
  rw [treeSentence, treeSentence, has, has', ← readBack.vars, ← readBack'.vars, oneToOne_iff_idxOf,
    List.map_fst_zip (Nat.le_of_eq length), List.map_snd_zip (Nat.le_of_eq length.symm)]
  exact tells.eq_iff

/-- The sentences of trees that are the same but for the names of their variables are the same bytes exactly if
the pairs of names are one to one. -/
theorem treeSentence_eq_iff {t t' : Tree} {ps ps' : List Piece} (same : t.SameButNames t')
    (has : pieces t = .ok ps) (has' : pieces t' = .ok ps') :
    treeSentence t = treeSentence t' ↔ OneToOne (t.vars.zip t'.vars) := by
  have left := pieces_rename (fun _ => "") has
  rw [Tree.SameButNames] at same
  rw [same] at left
  exact treeSentence_eq_iff_of_pieces has has'
    (Except.ok.inj (left.symm.trans (pieces_rename (fun _ => "") has')))

end Sicstus

end PrologWire
