/-!
Values that were checked: either the value, or everything that is wrong with it, each issue with the
way to its place.
-/

namespace JniContracts.Schema

inductive Step where
  | key (name : String)
  | item (index : Nat)
  deriving DecidableEq, Repr

inductive Complaint where
  | missing
  | notText
  | notChoice
  | notList
  | notTable
  | notRecord
  | notBool
  | unreadableBool
  | notInt
  | unreadableInt
  | tooLong
  | fraction
  | notFinite
  | notFloat
  | unreadableFloat
  | belowLeast
  | notPositive
  | unknownKey
  | refused (message : String)
  deriving DecidableEq, Repr

namespace Complaint

def code : Complaint → String
  | missing => "missing" | notText => "string_type" | notChoice => "enum" | notList => "list_type"
  | notTable => "dict_type" | notRecord => "model_type" | notBool => "bool_type"
  | unreadableBool => "bool_parsing" | notInt => "int_type" | unreadableInt => "int_parsing"
  | tooLong => "int_parsing_size"
  | fraction => "int_from_float" | notFinite => "finite_number" | notFloat => "float_type"
  | unreadableFloat => "float_parsing" | belowLeast => "greater_than_equal"
  | notPositive => "greater_than" | unknownKey => "extra_forbidden" | refused _ => "value_error"

def message? : Complaint → Option String
  | refused message => some ("Value error, " ++ message)
  | _ => none

end Complaint

structure Issue where
  place : List Step
  complaint : Complaint
  deriving DecidableEq, Repr

inductive Checked (α : Type) where
  | good (value : α)
  | bad (issues : List Issue)

namespace Checked

variable {α β : Type}

def issues : Checked α → List Issue
  | good _ => []
  | bad l => l

def complain (c : Complaint) : Checked α := bad [⟨[], c⟩]

def map (f : α → β) : Checked α → Checked β
  | good a => good (f a)
  | bad l => bad l

/-- Applies a checked function; the issues of both are kept, the function's first. -/
def also (f : Checked (α → β)) (a : Checked α) : Checked β :=
  match f, a with
  | good f, good a => good (f a)
  | f, a => bad (f.issues ++ a.issues)

def andThen (a : Checked α) (f : α → Checked β) : Checked β :=
  match a with
  | good a => f a
  | bad l => bad l

def under (s : Step) : Checked α → Checked α
  | good a => good a
  | bad l => bad (l.map fun i => { i with place := s :: i.place })

def ofOption (c : Complaint) : Option α → Checked α
  | some a => good a
  | none => complain c

def ofExcept : Except Complaint α → Checked α
  | .ok a => good a
  | .error c => complain c

def toExcept : Checked α → Except (List Issue) α
  | good a => .ok a
  | bad l => .error l

end Checked

end JniContracts.Schema
