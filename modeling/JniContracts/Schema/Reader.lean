import JniContracts.Json
import JniContracts.Schema.NumberText

/-!
Readers of JSON values, and of the fields of objects. Numbers and truth values may also be written
as text.
-/

namespace JniContracts.Schema

open Decimal

abbrev Reader (α : Type) := Json → Checked α

namespace Reader

variable {α : Type}

def text : Reader String
  | .str s => .good s
  | _ => .complain .notText

def choice (ofText? : String → Option α) : Reader α
  | .str s => .ofOption .notChoice (ofText? s)
  | _ => .complain .notChoice

def boolOfText? (s : String) : Option Bool :=
  let s := s.map Char.toLower
  if ["0", "off", "f", "false", "n", "no"].contains s then some false
  else if ["1", "on", "t", "true", "y", "yes"].contains s then some true
  else none

def boolOfInt? : Int → Option Bool
  | 0 => some false
  | 1 => some true
  | _ => none

def bool : Reader Bool
  | .bool b => .good b
  | .int n => .ofOption .unreadableBool (boolOfInt? n)
  | .float d => .ofOption .unreadableBool (d.toInt?.bind boolOfInt?)
  | .str s => .ofOption .unreadableBool (boolOfText? s)
  | _ => .complain .notBool

def int : Reader Int
  | .int n => .good n
  | .bool b => .good (if b then 1 else 0)
  | .float d =>
    if d.isNaN || d.isInfinite then .complain .notFinite else .ofOption .fraction d.toInt?
  | .str s => .ofExcept (NumberText.int s)
  | _ => .complain .notInt

def float : Reader Double
  | .float d => .good d
  | .int n => if (Double.ofInt n).isInfinite then .complain .notFloat else .good (.ofInt n)
  | .bool b => .good (.ofInt (if b then 1 else 0))
  | .str s => .ofOption .unreadableFloat (NumberText.float? s)
  | _ => .complain .notFloat

def optional (r : Reader α) : Reader (Option α)
  | .null => .good none
  | v => (r v).map some

def itemsFrom (r : Reader α) : Nat → List Json → Checked (List α)
  | _, [] => .good []
  | n, v :: vs => ((r v).under (.item n)).map List.cons |>.also (itemsFrom r (n + 1) vs)

def list (r : Reader α) : Reader (List α)
  | .arr items => itemsFrom r 0 items
  | _ => .complain .notList

def members (r : Reader α) : List (String × Json) → Checked (List (String × α))
  | [] => .good []
  | (k, v) :: rest =>
    ((r v).under (.key k)).map (fun a => List.cons (k, a)) |>.also (members r rest)

def table (r : Reader α) : Reader (List (String × α))
  | .obj entries => members r entries
  | _ => .complain .notTable

def record (r : List (String × Json) → Checked α) : Reader α
  | .obj entries => r entries
  | _ => .complain .notRecord

end Reader

namespace Field

variable {α : Type}

def underscored (key : String) : String := key.map fun c => if c == '-' then '_' else c

/-- The spelling under which a key is there; the one with dashes goes first. -/
def spelling? (entries : List (String × Json)) (key : String) : Option String :=
  [key, underscored key].find? fun k => (Json.lookup k entries).isSome

def value? (entries : List (String × Json)) (key : String) : Option Json :=
  (spelling? entries key).bind fun k => Json.lookup k entries

def required (entries : List (String × Json)) (key : String) (r : Reader α) : Checked α :=
  (match value? entries key with
    | some v => r v
    | none => .complain .missing).under (.key key)

def withDefault (entries : List (String × Json)) (key : String) (default : α) (r : Reader α) :
    Checked α :=
  match value? entries key with
  | some v => (r v).under (.key key)
  | none => .good default

/-- Complains about keys under which no field is read, in the order of the entries. -/
def noOthers (entries : List (String × Json)) (keys : List String) : Checked Unit :=
  let known := keys.filterMap (spelling? entries)
  match (entries.map (·.1)).filter fun k => !known.contains k with
  | [] => .good ()
  | unknown => .bad (unknown.map fun k => ⟨[.key k], .unknownKey⟩)

end Field

end JniContracts.Schema
