import JniContracts.Text.CharSet

/-!
White space: what is cut off at the ends of a text, what separates its words, and what ends a line.
-/

namespace JniContracts.Text

def blanks : CharSet := ⟨[
  9, 5, 14, 5, 100, 1, 26, 1, 5599, 1, 2431, 11, 29, 2, 5, 1, 47, 1, 4000, 1]⟩

def isBlank (c : Char) : Bool := blanks.contains c

def dropEndWhile (p : Char → Bool) (cs : List Char) : List Char :=
  (cs.reverse.dropWhile p).reverse

def trim (s : String) : String :=
  String.ofList (dropEndWhile isBlank (s.toList.dropWhile isBlank))

def isSeparator (c : Char) : Bool := 28 ≤ c.toNat && c.toNat ≤ 31

def isWhite (c : Char) : Bool := isBlank c && !isSeparator c

def trimWhite (cs : List Char) : List Char := dropEndWhile isWhite (cs.dropWhile isWhite)

def runs (sep : Char → Bool) : List Char → List (List Char)
  | [] => []
  | c :: cs =>
    if sep c then runs sep cs
    else match cs.head?.all sep, runs sep cs with
      | false, w :: ws => (c :: w) :: ws
      | _, ws => [c] :: ws

def words (s : String) : List String := (runs isBlank s.toList).map String.ofList

/-- Characters that end a line; a carriage return and a line feed after it end one line together. -/
def isLineEnd (c : Char) : Bool :=
  let n := c.toNat
  (10 ≤ n && n ≤ 13) || (28 ≤ n && n ≤ 30) || n == 0x85 || n == 0x2028 || n == 0x2029

/-- The lines of a text, without their ends; a final line end opens no further line. -/
def linesOf : List Char → List (List Char)
  | [] => []
  | '\r' :: '\n' :: cs => [] :: linesOf cs
  | c :: cs =>
    if isLineEnd c then [] :: linesOf cs
    else match linesOf cs with
      | l :: ls => (c :: l) :: ls
      | [] => [[c]]

def lines (s : String) : List String := (linesOf s.toList).map String.ofList

def unifyNewlines : List Char → List Char
  | [] => []
  | '\r' :: '\n' :: cs => '\n' :: unifyNewlines cs
  | c :: cs => (if c == '\r' then '\n' else c) :: unifyNewlines cs

end JniContracts.Text
