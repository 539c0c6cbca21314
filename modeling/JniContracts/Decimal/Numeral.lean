import JniContracts.Decimal.Double
import JniContracts.Text.Alphanumeric
import JniContracts.Text.Blank

/-!
Numbers written in decimal. A way to read digits is a parameter: numbers that are typed have digits
of every script, single underscores between them, and blanks at the ends.
-/

namespace JniContracts.Decimal.Numeral

abbrev Digits := List Char → Option (List Nat)

def value (ds : List Nat) : Nat := ds.foldl (fun n d => n * 10 + d) 0

def plainDigit? (c : Char) : Option Nat := if c.isDigit then some (c.toNat - 48) else none

def plainDigits : Digits
  | [] => none
  | cs => cs.mapM plainDigit?

def moreDigits : Digits
  | [] => some []
  | '_' :: c :: cs => do pure ((← Text.digitValue? c) :: (← moreDigits cs))
  | c :: cs => do pure ((← Text.digitValue? c) :: (← moreDigits cs))

/-- Digits of every script, with single underscores between them. -/
def typedDigits : Digits
  | [] => none
  | c :: cs => do pure ((← Text.digitValue? c) :: (← moreDigits cs))

def signed : List Char → Bool × List Char
  | '-' :: cs => (true, cs)
  | '+' :: cs => (false, cs)
  | cs => (false, cs)

def withSign (negative : Bool) (n : Nat) : Int := if negative then -n else n

def exponent (digits : Digits) : List Char → Option Int
  | [] => some 0
  | _ :: cs =>
    let (negative, cs) := signed cs
    (digits cs).map fun ds => withSign negative (value ds)

def optional (digits : Digits) (cs : List Char) : Option (List Nat) :=
  if cs.isEmpty then some [] else digits cs

def finite (digits : Digits) (negative : Bool) (cs : List Char) : Option Double :=
  let (mantissa, power) := cs.span fun c => c != 'e' && c != 'E'
  let (whole, fraction) := mantissa.span (· != '.')
  if whole.isEmpty && (fraction.drop 1).isEmpty then none
  else do
    let ws ← optional digits whole
    let fs ← optional digits (fraction.drop 1)
    let e ← exponent digits power
    pure (.ofDecimal negative (value (ws ++ fs)) (e - fs.length))

def double? (digits : Digits) (cs : List Char) : Option Double :=
  let (negative, cs) := signed cs
  match String.ofList (cs.map Char.toLower) with
  | "inf" | "infinity" => some (if negative then .negativeInfinity else .infinity)
  | "nan" => some .nan
  | _ => finite digits negative cs

def mostDigits : Nat := 4300

def int? (s : String) : Option Int := do
  let (negative, cs) := signed (Text.trim s).toList
  let ds ← typedDigits cs
  if mostDigits < ds.length then none else pure (withSign negative (value ds))

def float? (s : String) : Option Double := double? typedDigits (Text.trim s).toList

end JniContracts.Decimal.Numeral
