/-!
Double-precision numbers by their bits: reading a decimal, comparing with zero, and the shortest
decimal that reads back as the number.
-/

namespace JniContracts.Decimal

structure Double where
  bits : UInt64
  deriving DecidableEq, Repr

namespace Double

/-- The double nearest to `mantissa * 10 ^ exponent`. Far outside the range of doubles the power is
not worked out. -/
def ofDecimal (negative : Bool) (mantissa : Nat) (exponent : Int) : Double :=
  let f :=
    if mantissa == 0 || exponent + mantissa.log2 < -400 then 0.0
    else if 400 < exponent then 1.0 / 0.0
    else match exponent with
      | .ofNat e => Float.ofScientific mantissa false e
      | .negSucc e => Float.ofScientific mantissa true (e + 1)
  ⟨(if negative then -f else f).toBits⟩

def ofInt (n : Int) : Double := ofDecimal (n < 0) n.natAbs 0

def infinity : Double := ⟨0x7FF0000000000000⟩
def negativeInfinity : Double := ⟨0xFFF0000000000000⟩
def nan : Double := ⟨0x7FF8000000000000⟩

def isNegative (d : Double) : Bool := d.bits.toNat / Nat.pow 2 63 == 1
def exponentBits (d : Double) : Nat := d.bits.toNat / Nat.pow 2 52 % 2048
def fractionBits (d : Double) : Nat := d.bits.toNat % Nat.pow 2 52
def isNaN (d : Double) : Bool := d.exponentBits == 2047 && d.fractionBits != 0
def isInfinite (d : Double) : Bool := d.exponentBits == 2047 && d.fractionBits == 0
def isZero (d : Double) : Bool := d.exponentBits == 0 && d.fractionBits == 0
def isPositive (d : Double) : Bool := !d.isNaN && !d.isZero && !d.isNegative
def isAtMostZero (d : Double) : Bool := !d.isNaN && (d.isZero || d.isNegative)

/-- The magnitude of a finite double is `(parts d).1 * 2 ^ (parts d).2`. -/
def parts (d : Double) : Nat × Int :=
  if d.exponentBits == 0 then (d.fractionBits, -1074)
  else (Nat.pow 2 52 + d.fractionBits, (d.exponentBits : Int) - 1075)

def toInt? (d : Double) : Option Int :=
  if d.exponentBits == 2047 then none
  else
    let (m, q) := d.parts
    let sign : Int := if d.isNegative then -1 else 1
    match q with
    | .ofNat e => some (sign * (m * Nat.pow 2 e : Nat))
    | .negSucc e =>
      if m % Nat.pow 2 (e + 1) == 0 then some (sign * (m / Nat.pow 2 (e + 1) : Nat)) else none

def isAtMost (d : Double) (num den : Nat) : Bool :=
  d.isAtMostZero || d.exponentBits != 2047 &&
    match d.parts with
    | (m, .ofNat e) => m * Nat.pow 2 e * den ≤ num
    | (m, .negSucc e) => m * den ≤ num * Nat.pow 2 (e + 1)

structure Ratio where
  num : Nat
  den : Nat

def Ratio.ofScaled (m : Nat) : Int → Ratio
  | .ofNat e => ⟨m * Nat.pow 2 e, 1⟩
  | .negSucc e => ⟨m, Nat.pow 2 (e + 1)⟩

def Ratio.scaleDown (r : Ratio) : Int → Ratio
  | .ofNat e => ⟨r.num, r.den * Nat.pow 10 e⟩
  | .negSucc e => ⟨r.num * Nat.pow 10 (e + 1), r.den⟩

def Ratio.compare (a b : Ratio) : Ordering := Ord.compare (a.num * b.den) (b.num * a.den)

/-- Four times the value and the ends of the interval of reals that read back as it, in units of a
quarter of the last place. -/
structure Window where
  low : Ratio
  value : Ratio
  high : Ratio
  closed : Bool

def window (d : Double) : Window :=
  let (m, q) := d.parts
  let below := if d.fractionBits == 0 && 1 < d.exponentBits then 1 else 2
  ⟨.ofScaled (4 * m - below) (q - 2), .ofScaled (4 * m) (q - 2), .ofScaled (4 * m + 2) (q - 2),
    m % 2 == 0⟩

def Window.contains (w : Window) (r : Ratio) : Bool :=
  match w.low.compare r, r.compare w.high with
  | .lt, .lt => true
  | .gt, _ | _, .gt => false
  | _, _ => w.closed

def pointFrom (r : Ratio) : Nat → Int → Int
  | 0, e => e
  | fuel + 1, e =>
    let s := r.scaleDown e
    if s.num < s.den then e else pointFrom r fuel (e + 1)

/-- The digits and the place of the point for `n` digits, when such a decimal reads back: of the two
neighbours of the value on that grid the nearer one, of two equally near ones the even one. -/
def digitsAt (w : Window) (point : Int) (n : Nat) : Option (Nat × Int) :=
  let e := point - n
  let scaled := w.value.scaleDown e
  let down := scaled.num / scaled.den
  let rest := scaled.num % scaled.den
  let back (k : Nat) : Ratio := match e with
    | .ofNat x => ⟨k * Nat.pow 10 x, 1⟩
    | .negSucc x => ⟨k, Nat.pow 10 (x + 1)⟩
  let low := 0 < down && w.contains (back down)
  let high := w.contains (back (down + 1))
  match low, high with
  | false, false => none
  | true, false => some (down, e)
  | false, true => some (down + 1, e)
  | true, true =>
    let nearer := Ord.compare (2 * rest) scaled.den
    some (if nearer == .lt || (nearer == .eq && down % 2 == 0) then (down, e) else (down + 1, e))

def shortest (d : Double) : Nat × Int :=
  let w := d.window
  let point := pointFrom w.value 700 (-330)
  ((List.range 17).findSome? fun n => digitsAt w point (n + 1)).getD (0, 0)

def dropZeros : Nat → Nat × Int → Nat × Int
  | 0, p => p
  | fuel + 1, (n, e) => if n != 0 && n % 10 == 0 then dropZeros fuel (n / 10, e + 1) else (n, e)

/-- How a double is written: positional from `0.0001` up to below `10 ^ 16`, always with a point;
else with one digit before the point and a signed exponent of at least two digits. -/
structure Style where
  least : Int
  most : Int
  exponentWidth : Nat
  nan : String
  infinity : String

def Style.finite (style : Style) (digits : List Char) (point : Int) : List Char :=
  let n := digits.length
  if style.least < point && point ≤ style.most then
    match point with
    | .negSucc z => ['0', '.'] ++ List.replicate (z + 1) '0' ++ digits
    | .ofNat 0 => ['0', '.'] ++ digits
    | .ofNat k =>
      if n ≤ k then digits ++ List.replicate (k - n) '0' ++ ['.', '0']
      else digits.take k ++ ['.'] ++ digits.drop k
  else
    let e := point - 1
    let width := Nat.toDigits 10 e.natAbs
    let mantissa := match digits with
      | [d] => [d]
      | d :: ds => d :: '.' :: ds
      | [] => []
    mantissa ++ ['e', if e < 0 then '-' else '+'] ++
      List.replicate (style.exponentWidth - width.length) '0' ++ width

def text (style : Style) (d : Double) : String :=
  let sign := if d.isNegative then "-" else ""
  if d.isNaN then style.nan
  else if d.isInfinite then sign ++ style.infinity
  else if d.isZero then sign ++ "0.0"
  else
    let (n, e) := dropZeros 20 d.shortest
    let digits := Nat.toDigits 10 n
    sign ++ String.ofList (style.finite digits (e + digits.length))

end Double

end JniContracts.Decimal
