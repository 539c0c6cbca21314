import JniContracts.Decimal.Numeral
import JniContracts.Schema.Checked

/-!
Numbers that stand as text in a document. An integer may have white space around it, a plus sign,
zeros in front, a fraction of zeros, and single underscores; what is left without these is a plain
integer.
-/

namespace JniContracts.Schema.NumberText

open Decimal

def hasDouble : List Char → Bool
  | '_' :: '_' :: _ => true
  | _ :: cs => hasDouble cs
  | [] => false

/-- Takes the underscores out, of which none is at an end or next to another one. -/
def dropUnderscores (cs : List Char) : Option (List Char) :=
  if cs.head? == some '_' || cs.getLast? == some '_' || hasDouble cs then none
  else some (cs.filter (· != '_'))

/-- Goes on behind a zero in front, where `last` is what was passed last. Underscores are passed
like zeros. If there is nothing else, or a point, then what was passed last stays. -/
def behindZero (last : Char) : List Char → Option (List Char)
  | [] => some [last]
  | c :: cs =>
    if c == '0' || c == '_' then behindZero c cs
    else if c == '.' then some (last :: c :: cs)
    else if c.isDigit then some (c :: cs)
    else none

def dropZeros : List Char → Option (List Char)
  | [] => none
  | c :: cs =>
    if c == '0' then behindZero c cs
    else if c.isDigit || c == '-' then some (c :: cs)
    else none

def dropPlus : List Char → Option (List Char)
  | '+' :: '-' :: _ => none
  | '+' :: cs => some cs
  | cs => some cs

def dropZeroFraction (cs : List Char) : List Char :=
  match cs.span (· != '.') with
  | (whole, '.' :: zeros) => if zeros.all (· == '0') then whole else cs
  | _ => cs

def cleaned (cs : List Char) : Option (List Char) := do
  let cs ← dropPlus (Text.trimWhite cs)
  let cs ← dropZeros cs
  dropUnderscores (dropZeroFraction cs)

/-- An integer without a zero in front, unless it is zero. The sign counts for its length. -/
def plainInt (cs : List Char) : Except Complaint Int :=
  let (negative, body) := match cs with
    | '-' :: body => (true, body)
    | body => (false, body)
  let ds := body.takeWhile Char.isDigit
  if Numeral.mostDigits < ds.length + (cs.length - body.length) && ds.head? != some '0' then
    .error .tooLong
  else if ds.head? == some '0' && 1 < ds.length then .error .unreadableInt
  else
    match Numeral.plainDigits body with
    | some values => .ok (Numeral.withSign negative (Numeral.value values))
    | none => .error .unreadableInt

def int (s : String) : Except Complaint Int :=
  match cleaned s.toList with
  | some cs => plainInt cs
  | none => .error .unreadableInt

/-- A number may have white space around it or underscores in it, but not both. -/
def float? (s : String) : Option Double :=
  let plain := Numeral.double? Numeral.plainDigits
  (plain (Text.trimWhite s.toList)).or ((dropUnderscores s.toList).bind plain)

end JniContracts.Schema.NumberText
