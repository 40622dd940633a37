import PrologWire.Proofs.Sentence.Numbering
import PrologWire.Proofs.Wire.Content
import PrologWire.Sicstus.Writer

/-!
# The bytes of pieces

Pieces turn into bytes one after the other, with a number for every variable. A draft has the numbers
from its table, which are those of the whole sentence because the names so far are the first of all
names.
-/

namespace PrologWire

namespace Sicstus

/-! ## The bytes of pieces -/

/-- The variable of a piece. -/
def Piece.vars : Piece → List String
  | .var name => [name]
  | _ => []

/-- The bytes of a piece, with numbers for the variables. -/
def Piece.toBytes (f : String → Nat) : Piece → List UInt8
  | .bytes bs => bs
  | .var name => variableBytes (f name)
  | .codes bs => runTag :: bs ++ [0]
  | .element => [elementTag]
  | .close => [endTag]

/-- The bytes of pieces. -/
def piecesBytes (f : String → Nat) (ps : List Piece) : List UInt8 := ps.flatMap (Piece.toBytes f)

section

variable (f : String → Nat)

@[simp] theorem piecesBytes_nil : piecesBytes f [] = [] := rfl

@[simp] theorem piecesBytes_cons (p : Piece) (rest : List Piece) :
    piecesBytes f (p :: rest) = p.toBytes f ++ piecesBytes f rest := rfl

@[simp] theorem piecesBytes_append (ps qs : List Piece) :
    piecesBytes f (ps ++ qs) = piecesBytes f ps ++ piecesBytes f qs := List.flatMap_append

/-- The bytes of pieces that come behind a run which is not ended. -/
def behindCodes : List Piece → List UInt8
  | .codes bs :: rest => bs ++ 0 :: piecesBytes f rest
  | rest => 0 :: piecesBytes f rest

/-- A small integer begins a run, which what follows goes on with. -/
theorem piecesBytes_joinCodes (byte : UInt8) (ps : List Piece) :
    piecesBytes f (joinCodes byte ps) = runTag :: byte :: behindCodes f ps := by
  rcases ps with _ | ⟨_ | _ | _ | _ | _, rest⟩ <;> simp [joinCodes, behindCodes, Piece.toBytes]

/-- A small integer goes on with a run. -/
theorem behindCodes_joinCodes (byte : UInt8) (ps : List Piece) :
    behindCodes f (joinCodes byte ps) = byte :: behindCodes f ps := by
  rcases ps with _ | ⟨_ | _ | _ | _ | _, rest⟩ <;> simp [joinCodes, behindCodes]

/-- A small integer is one more byte at least. -/
theorem length_piecesBytes_joinCodes (byte : UInt8) (ps : List Piece) :
    (piecesBytes f ps).length < (piecesBytes f (joinCodes byte ps)).length := by
  rcases ps with _ | ⟨_ | _ | _ | _ | _, rest⟩ <;> simp [joinCodes, Piece.toBytes] <;> omega

/-- No variable is in a run. -/
theorem vars_joinCodes (byte : UInt8) (ps : List Piece) :
    (joinCodes byte ps).flatMap Piece.vars = ps.flatMap Piece.vars := by
  rcases ps with _ | ⟨_ | _ | _ | _ | _, rest⟩ <;> rfl

end

namespace Draft

@[simp] theorem vars_put (d : Draft) (bs : List UInt8) : (d.put bs).vars = d.vars := rfl

@[simp] theorem content_put (d : Draft) (bs : List UInt8) :
    (d.put bs).buffer.content = d.buffer.content ++ bs := Buffer.content_append _ _

/-- Only variables get into the table. -/
theorem vars_add {d : Draft} {p : Piece} (h : p.vars = []) : (d.add p).vars = d.vars := by
  cases p with
  | var name => cases h
  | _ => rfl

/-- The table of a draft holds the distinct names of the pieces so far. -/
theorem names_add {d : Draft} {seen : List String} (h : d.vars.names = seen.eraseDups) (p : Piece) :
    (d.add p).vars.names = (seen ++ p.vars).eraseDups := by
  by_cases ground : p.vars = []
  · rw [vars_add ground, ground, List.append_nil, h]
  · cases p with
    | var name => exact VarTable.names_ordinal_eq_eraseDups h name
    | _ => exact absurd rfl ground

theorem names_foldl_add {d : Draft} {seen : List String} (h : d.vars.names = seen.eraseDups)
    (ps : List Piece) :
    (ps.foldl add d).vars.names = (seen ++ ps.flatMap Piece.vars).eraseDups := by
  induction ps generalizing d seen with
  | nil => rw [List.foldl_nil, List.flatMap_nil, List.append_nil, h]
  | cons p rest ih => rw [List.foldl_cons, ih (names_add h p), List.flatMap_cons, List.append_assoc]

/-- The names of a draft stay the first ones. -/
theorem prefix_names_add (d : Draft) (p : Piece) : d.vars.names <+: (d.add p).vars.names := by
  by_cases ground : p.vars = []
  · exact (vars_add ground).symm ▸ List.prefix_rfl
  · cases p with
    | var name => exact d.vars.prefix_names_ordinal name
    | _ => exact absurd rfl ground

theorem prefix_names_foldl_add (d : Draft) (ps : List Piece) :
    d.vars.names <+: (ps.foldl add d).vars.names := by
  induction ps generalizing d with
  | nil => exact List.prefix_rfl
  | cons p rest ih => exact (d.prefix_names_add p).trans (ih (d.add p))

/-- A draft with more pieces has their bytes, with the numbers that variables have among the names
of the whole sentence. -/
theorem content_foldl_add (d : Draft) (ps : List Piece) {all : List String}
    (first : (ps.foldl add d).vars.names <+: all) :
    (ps.foldl add d).buffer.content = d.buffer.content ++ piecesBytes all.idxOf ps := by
  induction ps generalizing d with
  | nil => exact (List.append_nil _).symm
  | cons p rest ih =>
    -- the names after this piece are the first of all names, too
    have known := ((d.add p).prefix_names_foldl_add rest).trans first
    have content : (d.add p).buffer.content = d.buffer.content ++ p.toBytes all.idxOf := by
      cases p with
      | var name =>
        have number : (d.vars.ordinal name).1 = all.idxOf name := d.vars.ordinal_eq_idxOf name known
        simp [add, putVar, Piece.toBytes, put, number, Buffer.content_append]
      | _ => exact d.content_put _
    rw [List.foldl_cons, ih _ first, content, piecesBytes_cons, List.append_assoc]

end Draft

/-- The sentence of pieces is their bytes behind the version byte, with a number for every variable
in the order of the first occurrences. -/
theorem Draft.content_foldl_restart (d : Draft) (ps : List Piece) :
    (ps.foldl add (d.restart.put [versionTag])).buffer.content =
      versionTag :: piecesBytes (ps.flatMap Piece.vars).eraseDups.idxOf ps := by
  have start : (d.restart.put [versionTag]).vars.names = ([] : List String).eraseDups := rfl
  have names := names_foldl_add start ps
  rw [List.nil_append] at names
  have first : (ps.foldl add (d.restart.put [versionTag])).vars.names <+:
      (ps.flatMap Piece.vars).eraseDups := names ▸ List.prefix_rfl
  have nothing : d.restart.buffer.content = [] := Buffer.content_clear _
  rw [content_foldl_add _ ps first, content_put, nothing, List.nil_append, List.singleton_append]

/-- Pieces arrive on the sink behind the version byte. -/
theorem Writer.writePieces_ok {w : Writer} (accepts : w.sink.Accepting) (ps : List Piece) :
    ∃ w', w.writePieces ps = (.ok (), w') ∧ w'.sink.Accepting ∧
      w'.sink.content = w.sink.content ++
        versionTag :: piecesBytes (ps.flatMap Piece.vars).eraseDups.idxOf ps := by
  have content := w.draft.content_foldl_restart ps
  obtain ⟨sink₁, write₁, content₁, accepts₁⟩ := accepts.write
    (ps.foldl Draft.add (w.draft.restart.put [versionTag])).buffer.bytes
  obtain ⟨sink₂, flush₂, content₂, accepts₂⟩ := accepts₁.flush
  refine ⟨⟨ps.foldl Draft.add (w.draft.restart.put [versionTag]), sink₂⟩, ?_, accepts₂, ?_⟩
  · simp only [writePieces, deliver, write₁, flush₂, if_true]
    rfl
  · rw [content₂, content₁]
    exact congrArg _ content

/-! ## Where pieces come from -/

/-- What is done after something else is done if both go well. -/
theorem bind_eq_ok {α β : Type} {x : Except WireError α} {f : α → Except WireError β} {y : β} :
    x >>= f = .ok y ↔ ∃ z, x = .ok z ∧ f z = .ok y := by
  cases x <;> simp [bind, Except.bind]

theorem pieces_leaf_eq_ok {l : Leaf} {ps : List Piece} :
    pieces (.leaf l) = .ok ps ↔ ∃ p, leafPiece l = .ok p ∧ ps = [p] := by
  simp [pieces, bind_eq_ok, eq_comm (a := ps)]

theorem pieces_list_eq_ok {elems : List Tree} {ps : List Piece} :
    pieces (.list elems) = .ok ps ↔ lastUnresolved? Tree.view elems = none ∧
      ∃ ps', elemPieces elems = .ok ps' ∧ ps = ps' ++ [.close] := by
  rw [pieces]
  cases lastUnresolved? Tree.view elems <;> simp [bind_eq_ok, eq_comm (a := ps)]

theorem pieces_func_eq_ok {functor : Tree} {args : List Tree} {ps : List Piece} :
    pieces (.func functor args) = .ok ps ↔ ∃ name p ps', functor.functorName = .ok name ∧
      compoundPiece name args.length = .ok p ∧ argPieces args = .ok ps' ∧ ps = p :: ps' := by
  rw [pieces]
  rcases functor.functorName with cause | name <;> simp [bind_eq_ok, eq_comm (a := ps)]

theorem argPieces_cons_eq_ok {t : Tree} {rest : List Tree} {ps : List Piece} :
    argPieces (t :: rest) = .ok ps ↔
      ∃ ps₁ ps₂, pieces t = .ok ps₁ ∧ argPieces rest = .ok ps₂ ∧ ps = ps₁ ++ ps₂ := by
  simp [argPieces, bind_eq_ok, eq_comm (a := ps)]

theorem elemPieces_cons_eq_ok {t : Tree} {rest : List Tree} {ps : List Piece} :
    elemPieces (t :: rest) = .ok ps ↔
      (∃ byte ps₂, smallByte? t.view = some byte ∧ elemPieces rest = .ok ps₂ ∧
        ps = joinCodes byte ps₂) ∨
      ∃ ps₁ ps₂, smallByte? t.view = none ∧ pieces t = .ok ps₁ ∧ elemPieces rest = .ok ps₂ ∧
        ps = .element :: ps₁ ++ ps₂ := by
  rw [elemPieces]
  cases smallByte? t.view <;> simp [bind_eq_ok, eq_comm (a := ps)]

/-- Only an integer joins a run. -/
theorem smallByte?_view_eq_some {t : Tree} {byte : UInt8} (h : smallByte? t.view = some byte) :
    ∃ value, t = .leaf (.int value) ∧ runByte? value = some byte := by
  cases t with
  | leaf l =>
    cases l with
    | int value => exact ⟨value, rfl, h⟩
    | _ => cases h
  | _ => cases h

end Sicstus

end PrologWire
