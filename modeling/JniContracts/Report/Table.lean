import JniContracts.Text.CellWidth

/-!
Tables and panels drawn with lines.
-/

namespace JniContracts.Report

inductive Align where
  | left
  | right
  | center
  deriving DecidableEq, Repr

def blanks (n : Nat) : String := String.ofList (List.replicate n ' ')

def bar (c : Char) (n : Nat) : String := String.ofList (List.replicate n c)

/-- Fills a text up with blanks to a number of cells; of an odd number of them the right side of a
centered text gets one more. -/
def pad (a : Align) (width : Nat) (s : String) : String :=
  let spare := width - Text.cellWidth s
  match a with
  | .left => s ++ blanks spare
  | .right => blanks spare ++ s
  | .center => blanks (spare / 2) ++ s ++ blanks (spare - spare / 2)

structure Column where
  header : String
  align : Align := .left

structure Table where
  title : String
  columns : List Column
  rows : List (List String)

def cellLines (s : String) : List String := s.splitOn "\n"

namespace Table

def widths (t : Table) : List Nat :=
  t.columns.zipIdx.map fun (c, i) =>
    (t.rows.flatMap fun row => (cellLines ((row[i]?).getD "")).map Text.cellWidth).foldl max
      (Text.cellWidth c.header)

def rule (t : Table) (left fill middle right : Char) : String :=
  String.singleton left ++
    (String.singleton middle).intercalate (t.widths.map fun w => bar fill (w + 2)) ++
    String.singleton right

def line (t : Table) (side : Char) (texts : List String) : String :=
  let cells :=
    (texts.zip (t.columns.zip t.widths)).map fun (s, c, w) => " " ++ pad c.align w s ++ " "
  String.singleton side ++ (String.singleton side).intercalate cells ++ String.singleton side

/-- The lines of a row, as many as its text with the most lines has. -/
def row (t : Table) (side : Char) (texts : List String) : List String :=
  let cells := texts.map cellLines
  (List.range ((cells.map List.length).foldl max 1)).map fun i =>
    t.line side (cells.map fun l => (l[i]?).getD "")

def lines (t : Table) : List String :=
  [t.title, t.rule '┏' '━' '┳' '┓'] ++ t.row '┃' (t.columns.map (·.header)) ++
    [t.rule '┡' '━' '╇' '┩'] ++ t.rows.flatMap (t.row '│') ++ [t.rule '└' '─' '┴' '┘']

end Table

def panel (width : Nat) (title : String) (body : List String) : List String :=
  [s!"╭─ {title} " ++ bar '─' (width - 5 - Text.cellWidth title) ++ "╮"] ++
    body.map (fun s => "│ " ++ pad .left (width - 4) s ++ " │") ++
    ["╰" ++ bar '─' (width - 2) ++ "╯"]

end JniContracts.Report
