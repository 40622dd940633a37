import PrologWire.Arena.Handle

/-!
# What can go wrong with terms
-/

namespace PrologWire

/-- Why an operation on an arena or a term failed. -/
inductive TermError where
  /-- The arena does not hold what the handle refers to. -/
  | invalidTerm (term : Handle)
  /-- All epochs an arena can have are live. -/
  | liveEpochsExceeded
  /-- The epoch is not live. -/
  | invalidEpoch (epoch : EpochId)
  /-- A compound was to be made of no parts. -/
  | missingFunctor
  /-- The first part of a compound was to be something other than an atom. -/
  | invalidFunctor (term : Handle)
  /-- The term is of none of the kinds asked for. -/
  | unexpectedKind (expected : List Kind) (found : Kind)
  | unexpectedArity (expected found : Nat)
  /-- The name of the term is not among those allowed. -/
  | unexpectedName (term : Handle)
  /-- The text kept for an integer is not one. -/
  | invalidDigits (digits : String)
  /-- The end of the stretch that the handle refers to lies beyond 32 bits, or the stretch is not
  of the form that the kind of term has. -/
  | malformedSlice (term : Handle)
  /-- The term contains itself. -/
  | endlessTerm (term : Handle)
deriving DecidableEq, Inhabited

end PrologWire
