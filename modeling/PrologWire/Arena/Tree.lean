import PrologWire.Arena.View

/-!
# Whole terms

The tree of a handle is the term it stands for, with all its subterms. Where a handle inside does
not resolve, the tree has a broken leaf that tells why. Trees say what an operation on a term means;
an operation that runs looks at one level of the term at a time, because a term whose parts are
shared can have far more subterms than its arena has slots.
-/

namespace PrologWire

/-- A term with all its subterms. -/
inductive Tree where
  | leaf (l : Leaf)
  | func (functor : Tree) (args : List Tree)
  | list (elems : List Tree)
  | tuple (elems : List Tree)
  /-- A subterm that cannot be resolved. -/
  | broken (cause : TermError)
deriving Inhabited

namespace Tree

/-- One level of a term. -/
def view : Tree → Except TermError (View Tree)
  | leaf l => .ok (.leaf l)
  | func functor args => .ok (.func functor args)
  | list elems => .ok (.list elems)
  | tuple elems => .ok (.tuple elems)
  | broken cause => .error cause

/-- The name that a term has as a functor. -/
def functorName (t : Tree) : Except TermError String := View.functorName t.view

/-- The term with the given first level. -/
def ofView : Except TermError (View Tree) → Tree
  | .error cause => broken cause
  | .ok (.leaf l) => leaf l
  | .ok (.func functor args) => func functor args
  | .ok (.list elems) => list elems
  | .ok (.tuple elems) => tuple elems

@[simp] theorem view_ofView (v : Except TermError (View Tree)) : (ofView v).view = v := by
  rcases v with cause | v
  · rfl
  · cases v <;> rfl

end Tree

namespace Arena

/-- The tree of a handle down to a depth. -/
def unfold (a : Arena) : Nat → Handle → Tree
  | 0, h => .broken (.endlessTerm h)
  | depth + 1, h => Tree.ofView ((a.view h).map (View.map (a.unfold depth)))

/-- The term that a handle stands for. -/
def tree (a : Arena) (h : Handle) : Tree := a.unfold a.maxDepth h

theorem unfold_succ (a : Arena) (depth : Nat) (h : Handle) :
    a.unfold (depth + 1) h = Tree.ofView ((a.view h).map (View.map (a.unfold depth))) := rfl

/-- The first level of a tree is what a look at its handle shows. -/
theorem view_unfold (a : Arena) (depth : Nat) (h : Handle) :
    (a.unfold depth h).view = (a.look depth h).map (View.map (a.unfold (depth - 1))) := by
  cases depth with
  | zero => rfl
  | succ depth => rw [unfold_succ, Tree.view_ofView, Nat.add_sub_cancel]; rfl

/-- A look at the handle of a functor shows its name. -/
@[simp] theorem functorName_unfold (a : Arena) (depth : Nat) (h : Handle) :
    (a.unfold depth h).functorName = View.functorName (a.look depth h) := by
  rw [Tree.functorName, view_unfold, View.functorName_map]

end Arena

end PrologWire
