import JniContracts.Json
import JniContracts.Text.Blank
import JniContracts.Text.Quoted

/-!
Writing JSON. The canonical text has the members of each object in the order of their keys, one item
a line, two blanks of indentation a level, and a line feed at the end. Line feeds are its only line
ends.
-/

namespace JniContracts.Json

open Decimal

namespace Canonical

def numbers : Double.Style := ⟨-4, 16, 2, "NaN", "Infinity"⟩

def escapeChar (c : Char) : List Char :=
  if c == '"' || c == '\\' then ['\\', c]
  else if c == '\n' then ['\\', 'n']
  else if c == '\r' then ['\\', 'r']
  else if c == '\t' then ['\\', 't']
  else if c == '\x08' then ['\\', 'b']
  else if c == '\x0c' then ['\\', 'f']
  else if c.toNat < 32 then ['\\', 'u'] ++ Text.Quoted.hexDigits 4 c.toNat
  else [c]

def quoted (s : String) : List Char := '"' :: s.toList.flatMap escapeChar ++ ['"']

def intText : Int → List Char
  | .ofNat n => Nat.toDigits 10 n
  | .negSucc n => '-' :: Nat.toDigits 10 (n + 1)

def newline (level : Nat) : List Char := '\n' :: List.replicate (2 * level) ' '

/-- Puts a comma and a line break between the parts, each on a line of its own between the
brackets. -/
def enclose (level : Nat) (opening closing : Char) : List (List Char) → List Char
  | [] => [opening, closing]
  | parts =>
    opening :: newline (level + 1) ++ (parts.intersperse (',' :: newline (level + 1))).flatten
      ++ newline level ++ [closing]

mutual
def write (level : Nat) : Json → List Char
  | .null => "null".toList
  | .bool true => "true".toList
  | .bool false => "false".toList
  | .int n => intText n
  | .float d => (d.text numbers).toList
  | .str s => quoted s
  | .arr items => enclose level '[' ']' (writeItems (level + 1) items)
  | .obj members =>
    let parts := (writeMembers (level + 1) members).mergeSort fun a b => decide (a.1 ≤ b.1)
    enclose level '{' '}' (parts.map fun (k, v) => quoted k ++ [':', ' '] ++ v)

def writeItems (level : Nat) : List Json → List (List Char)
  | [] => []
  | v :: vs => write level v :: writeItems level vs

def writeMembers (level : Nat) : List (String × Json) → List (String × List Char)
  | [] => []
  | (k, v) :: ms => (k, write level v) :: writeMembers level ms
end

def endLine (cs : List Char) : List Char := if cs.getLast? == some '\n' then cs else cs ++ ['\n']

end Canonical

def canonical (v : Json) : String :=
  String.ofList (Canonical.endLine (Text.unifyNewlines (Canonical.write 0 v)))

namespace Display

def numbers : Double.Style := ⟨-4, 16, 2, "nan", "inf"⟩

mutual
def oneLine : Json → String
  | .null => "None"
  | .bool true => "True"
  | .bool false => "False"
  | .int n => String.ofList (Canonical.intText n)
  | .float d => d.text numbers
  | .str s => Text.Quoted.encode s
  | .arr items => "[" ++ ", ".intercalate (oneLineItems items) ++ "]"
  | .obj members => "\x7b" ++ ", ".intercalate (oneLineMembers members) ++ "\x7d"

def oneLineItems : List Json → List String
  | [] => []
  | v :: vs => oneLine v :: oneLineItems vs

def oneLineMembers : List (String × Json) → List String
  | [] => []
  | (k, v) :: ms => (Text.Quoted.encode k ++ ": " ++ oneLine v) :: oneLineMembers ms
end

end Display

end JniContracts.Json
