import JniContracts.Decimal.Double

/-!
JSON values. An object keeps its members in the order in which they were written.
-/

namespace JniContracts

open Decimal

inductive Json where
  | null
  | bool (b : Bool)
  | int (n : Int)
  | float (d : Double)
  | str (s : String)
  | arr (items : List Json)
  | obj (members : List (String × Json))
  deriving Repr, Inhabited

namespace Json

def lookup (key : String) : List (String × Json) → Option Json
  | [] => none
  | (k, v) :: rest => if k == key then some v else lookup key rest

/-- Gives a key a value; a key that is there already keeps its place. -/
def assign (key : String) (value : Json) : List (String × Json) → List (String × Json)
  | [] => [(key, value)]
  | (k, v) :: rest => if k == key then (k, value) :: rest else (k, v) :: assign key value rest

def get? (key : String) : Json → Option Json
  | .obj members => lookup key members
  | _ => none

def ofOption {α : Type} (f : α → Json) : Option α → Json
  | some a => f a
  | none => .null

def strings (l : List String) : Json := .arr (l.map .str)

def ofNat (n : Nat) : Json := .int n

/-- Values that count as absent: null, false, zero, and everything empty. -/
def isEmptyish : Json → Bool
  | .null | .bool false | .int 0 | .str "" | .arr [] | .obj [] => true
  | .float d => d.isZero
  | _ => false

end Json

end JniContracts
