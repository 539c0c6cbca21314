import JniContracts.Text.Blank
import JniContracts.Text.Lowercase

/-!
Text with tags in square brackets. The console shows the text without its tags; a backslash before a
tag makes it plain text.
-/

namespace JniContracts.Report.Markup

inductive Fault where
  | nothingOpen (position : Nat)
  | notOpen (tag : String) (position : Nat)
  deriving DecidableEq, Repr

def Fault.message : Fault → String
  | nothingOpen position => s!"closing tag '[/]' at position {position} has nothing to close"
  | notOpen tag position =>
    s!"closing tag '[{tag}]' at position {position} doesn't match any open tag"

def startsTag (c : Char) : Bool := ('a' ≤ c && c ≤ 'z') || c == '#' || c == '/' || c == '@'

def upToBracket : List Char → Option (List Char)
  | [] => none
  | c :: cs =>
    if c == ']' then some []
    else if c == '[' then none
    else (upToBracket cs).map (c :: ·)

def tagInside : List Char → Option (List Char)
  | c :: cs => if startsTag c then (upToBracket cs).map (c :: ·) else none
  | [] => none

structure Tag where
  slashes : Nat
  inside : List Char
  deriving DecidableEq, Repr

def Tag.length (t : Tag) : Nat := t.slashes + t.inside.length + 2

def leadingTag (cs : List Char) : Option Tag :=
  let slashes := cs.takeWhile (· == '\\')
  match cs.drop slashes.length with
  | '[' :: rest => (tagInside rest).map fun inside => ⟨slashes.length, inside⟩
  | _ => none

inductive Piece where
  | plain (c : Char)
  | shown (cs : List Char)
  | tag (position : Nat) (inside : List Char)
  deriving DecidableEq, Repr

/-- Two backslashes before a tag stand for one; one that is left over makes the tag plain text. -/
def Tag.pieces (t : Tag) (position : Nat) : List Piece :=
  let pairs := t.slashes / 2
  [.shown (List.replicate pairs '\\'),
    if t.slashes % 2 == 1 then .shown ('[' :: t.inside ++ [']'])
    else .tag (position + 2 * pairs) t.inside]

/-- The pieces of a text from a position on, of which the first `skip` characters belong to a tag
that was taken before. -/
def piecesFrom (skip position : Nat) : List Char → List Piece
  | [] => []
  | c :: cs =>
    match skip with
    | k + 1 => piecesFrom k (position + 1) cs
    | 0 =>
      match leadingTag (c :: cs) with
      | some t => t.pieces position ++ piecesFrom (t.length - 1) (position + 1) cs
      | none => .plain c :: piecesFrom 0 (position + 1) cs

def longName : String → String
  | "d" => "dim" | "b" => "bold" | "i" => "italic" | "u" => "underline" | "r" => "reverse"
  | "c" => "conceal" | "s" => "strike" | "uu" => "underline2" | "o" => "overline"
  | name => name

def look (cs : List Char) : String := longName (Text.trim (Text.lowercase (String.ofList cs)))

def close (name : String) : List String → Option (List String)
  | [] => none
  | n :: rest => if n == name then some rest else (close name rest).map (n :: ·)

/-- What is shown of pieces while tags are open. A backslash before a bracket that is no tag is
dropped. -/
def showPieces (opened : List String) : List Piece → Except Fault (List Char)
  | [] => .ok []
  | .plain '\\' :: .plain '[' :: rest => (showPieces opened rest).map ('[' :: ·)
  | .plain c :: rest => (showPieces opened rest).map (c :: ·)
  | .shown cs :: rest => (showPieces opened rest).map (cs ++ ·)
  | .tag position inside :: rest =>
    match inside.takeWhile (· != '=') with
    | '/' :: name =>
      if (look name).isEmpty then
        match opened with
        | [] => .error (.nothingOpen position)
        | _ :: outer => showPieces outer rest
      else
        match close (look name) opened with
        | none => .error (.notOpen (String.ofList inside) position)
        | some outer => showPieces outer rest
    | name => showPieces (look name :: opened) rest

def strip (s : String) : Except Fault String :=
  (showPieces [] (piecesFrom 0 0 s.toList)).map String.ofList

def escapeFrom (skip : Nat) : List Char → List Char
  | [] => []
  | c :: cs =>
    match skip with
    | k + 1 => escapeFrom k cs
    | 0 =>
      match leadingTag (c :: cs) with
      | some t =>
        List.replicate (2 * t.slashes + 1) '\\' ++ '[' :: t.inside ++ ']' :: escapeFrom
          (t.length - 1) cs
      | none => c :: escapeFrom 0 cs

def escape (s : String) : String :=
  let cs := escapeFrom 0 s.toList
  match cs.reverse with
  | '\\' :: '\\' :: _ => String.ofList cs
  | '\\' :: _ => String.ofList (cs ++ ['\\'])
  | _ => String.ofList cs

end JniContracts.Report.Markup
