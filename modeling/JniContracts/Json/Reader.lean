import JniContracts.Json
import JniContracts.Text.Blank

/-!
Reading JSON text. Of two members with one key the later value counts, at the earlier place.
-/

namespace JniContracts.Json

namespace Reader

open Decimal

def skipBlanks (cs : List Char) : List Char :=
  cs.dropWhile fun c => c == ' ' || c == '\n' || c == '\t' || c == '\r'

def hexValue (c : Char) : Option Nat :=
  if c.isDigit then some (c.toNat - 48)
  else if 'a' ≤ c && c ≤ 'f' then some (c.toNat - 87)
  else if 'A' ≤ c && c ≤ 'F' then some (c.toNat - 55)
  else none

def hexQuad (a b c d : Char) : Option Nat := do
  pure ((((← hexValue a) * 16 + (← hexValue b)) * 16 + (← hexValue c)) * 16 + (← hexValue d))

def isHigh (n : Nat) : Bool := 0xD800 ≤ n && n < 0xDC00
def isLow (n : Nat) : Bool := 0xDC00 ≤ n && n < 0xE000

/-- Escapes write a character past the first plane as a pair of halves. A half that stands alone is
no character. -/
def joinHalves : List Nat → List Char
  | [] => []
  | [n] => [if isHigh n || isLow n then '�' else Char.ofNat n]
  | n :: m :: rest =>
    if isHigh n && isLow m then
      Char.ofNat (0x10000 + (n - 0xD800) * 0x400 + (m - 0xDC00)) :: joinHalves rest
    else (if isHigh n || isLow n then '�' else Char.ofNat n) :: joinHalves (m :: rest)

def escape : Char → Option Char
  | '"' => some '"'
  | '\\' => some '\\'
  | '/' => some '/'
  | 'b' => some '\x08'
  | 'f' => some '\x0c'
  | 'n' => some '\n'
  | 'r' => some '\r'
  | 't' => some '\t'
  | _ => none

/-- The code units up to the closing quote, in reverse on top of `seen`, and what follows it. -/
def stringBody (seen : List Nat) : List Char → Option (List Nat × List Char)
  | [] => none
  | '"' :: rest => some (seen, rest)
  | '\\' :: 'u' :: a :: b :: c :: d :: rest =>
    match hexQuad a b c d with
    | none => none
    | some n => stringBody (n :: seen) rest
  | '\\' :: c :: rest =>
    match escape c with
    | none => none
    | some e => stringBody (e.toNat :: seen) rest
  | c :: rest => if c.toNat < 32 || c == '\\' then none else stringBody (c.toNat :: seen) rest

def string (cs : List Char) : Option (String × List Char) :=
  (stringBody [] cs).map fun (seen, rest) => (String.ofList (joinHalves seen.reverse), rest)

def natOf (ds : List Char) : Nat := ds.foldl (fun n d => n * 10 + (d.toNat - 48)) 0

def whole : List Char → Option (List Char × List Char)
  | '0' :: rest => some (['0'], rest)
  | cs => match cs.span Char.isDigit with
    | ([], _) => none
    | p => some p

def fraction : List Char → Option (List Char × List Char)
  | '.' :: rest => match rest.span Char.isDigit with
    | ([], _) => none
    | p => some p
  | cs => some ([], cs)

def exponentDigits (negative : Bool) (cs : List Char) : Option (Option Int × List Char) :=
  match cs.span Char.isDigit with
  | ([], _) => none
  | (ds, rest) => some (some (if negative then -(natOf ds : Int) else natOf ds), rest)

def exponent : List Char → Option (Option Int × List Char)
  | c :: rest =>
    if c == 'e' || c == 'E' then
      match rest with
      | '-' :: rest => exponentDigits true rest
      | '+' :: rest => exponentDigits false rest
      | rest => exponentDigits false rest
    else some (none, c :: rest)
  | [] => some (none, [])

def unsigned (negative : Bool) (cs : List Char) : Option (Json × List Char) := do
  let (ds, rest) ← whole cs
  let (fs, rest) ← fraction rest
  let (e, rest) ← exponent rest
  match fs, e with
  | [], none => pure (.int (if negative then -(natOf ds : Int) else natOf ds), rest)
  | fs, e => pure (.float (.ofDecimal negative (natOf (ds ++ fs)) (e.getD 0 - fs.length)), rest)

def number : List Char → Option (Json × List Char)
  | 'N' :: 'a' :: 'N' :: rest => some (.float .nan, rest)
  | 'I' :: 'n' :: 'f' :: 'i' :: 'n' :: 'i' :: 't' :: 'y' :: rest => some (.float .infinity, rest)
  | '-' :: 'I' :: 'n' :: 'f' :: 'i' :: 'n' :: 'i' :: 't' :: 'y' :: rest =>
    some (.float .negativeInfinity, rest)
  | '-' :: cs => unsigned true cs
  | cs => unsigned false cs

mutual
/-- Each step passes at least one character, so the length of the text is fuel enough. -/
def value : Nat → List Char → Option (Json × List Char)
  | 0, _ => none
  | fuel + 1, cs =>
    match skipBlanks cs with
    | 'n' :: 'u' :: 'l' :: 'l' :: rest => some (.null, rest)
    | 't' :: 'r' :: 'u' :: 'e' :: rest => some (.bool true, rest)
    | 'f' :: 'a' :: 'l' :: 's' :: 'e' :: rest => some (.bool false, rest)
    | '"' :: rest => (string rest).map fun (s, rest) => (.str s, rest)
    | '[' :: rest =>
      match skipBlanks rest with
      | ']' :: rest => some (.arr [], rest)
      | rest => items fuel [] rest
    | '{' :: rest =>
      match skipBlanks rest with
      | '}' :: rest => some (.obj [], rest)
      | rest => members fuel [] rest
    | cs => number cs

def items : Nat → List Json → List Char → Option (Json × List Char)
  | 0, _, _ => none
  | fuel + 1, seen, cs =>
    match value fuel cs with
    | none => none
    | some (v, rest) =>
      match skipBlanks rest with
      | ',' :: rest => items fuel (v :: seen) rest
      | ']' :: rest => some (.arr (v :: seen).reverse, rest)
      | _ => none

def members : Nat → List (String × Json) → List Char → Option (Json × List Char)
  | 0, _, _ => none
  | fuel + 1, seen, cs =>
    match skipBlanks cs with
    | '"' :: rest =>
      match string rest with
      | none => none
      | some (key, rest) =>
        match skipBlanks rest with
        | ':' :: rest =>
          match value fuel rest with
          | none => none
          | some (v, rest) =>
            match skipBlanks rest with
            | ',' :: rest => members fuel (assign key v seen) rest
            | '}' :: rest => some (.obj (assign key v seen), rest)
            | _ => none
        | _ => none
    | _ => none
end

end Reader

def parse? (text : String) : Option Json :=
  let cs := text.toList
  match Reader.value (cs.length + 1) cs with
  | some (v, rest) => if (Reader.skipBlanks rest).isEmpty then some v else none
  | none => none

/-- A document may be blank: then it is null. -/
def document? (text : String) : Option Json :=
  if text.toList.all Text.isBlank then some .null else parse? text

end JniContracts.Json
