import PrologWire.Numeric.Binary64

/-!
# JSON values
-/

namespace PrologWire.Json

/-- A JSON number: a whole number written without fraction and exponent, or a float. -/
inductive Number where
  | integer (value : Int)
  | real (value : Binary64)
deriving DecidableEq, Inhabited

/-- The float nearest to a number. -/
def Number.toReal : Number → Binary64
  | integer value => .ofInt value
  | real value => value

/-- A JSON value. The members of an object stand in the order of their keys, each key once. -/
inductive Value where
  | null
  | bool (b : Bool)
  | number (n : Number)
  | string (s : String)
  | array (items : List Value)
  | object (members : List (String × Value))
deriving Inhabited

/-- Puts a member into an object in its place, instead of an earlier one with the same key. -/
def insertMember (key : String) (value : Value) :
    List (String × Value) → List (String × Value)
  | [] => [(key, value)]
  | (k, v) :: rest =>
    match compare key k with
    | .lt => (key, value) :: (k, v) :: rest
    | .eq => (key, value) :: rest
    | .gt => (k, v) :: insertMember key value rest

/-- The value of the member with a key. -/
def member? (key : String) (members : List (String × Value)) : Option Value :=
  members.lookup key

end PrologWire.Json
