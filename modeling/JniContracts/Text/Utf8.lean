import JniContracts.Text.Quoted

/-!
Bytes as text. Each maximal part of the input that starts a character and cannot be continued is
read as the replacement character, or else the first such part is a fault.
-/

namespace JniContracts.Text.Utf8

def replacement : Char := '�'

def isTail (b : UInt8) : Bool := 0x80 ≤ b && b ≤ 0xBF

/-- The bytes that may follow a lead byte. They leave out overlong forms, surrogates and code points
past the last one. -/
def isSecond (lead b : UInt8) : Bool :=
  if lead == 0xE0 then 0xA0 ≤ b && b ≤ 0xBF
  else if lead == 0xED then 0x80 ≤ b && b ≤ 0x9F
  else if lead == 0xF0 then 0x90 ≤ b && b ≤ 0xBF
  else if lead == 0xF4 then 0x80 ≤ b && b ≤ 0x8F
  else isTail b

/-- The number of bytes that follow a lead byte; `none` for a byte that starts no character. -/
def tailLength (lead : UInt8) : Option Nat :=
  if lead < 0x80 then some 0
  else if 0xC2 ≤ lead && lead ≤ 0xDF then some 1
  else if 0xE0 ≤ lead && lead ≤ 0xEF then some 2
  else if 0xF0 ≤ lead && lead ≤ 0xF4 then some 3
  else none

inductive Cause where
  | badStart
  | badTail
  | cutShort
  deriving DecidableEq, Repr

def Cause.text : Cause → String
  | badStart => "invalid start byte"
  | badTail => "invalid continuation byte"
  | cutShort => "unexpected end of data"

inductive Piece where
  | char (c : Char)
  | broken (first : UInt8) (size : Nat) (cause : Cause)
  deriving DecidableEq, Repr

/-- A character under way: its lead byte, the number and the bits of the bytes read so far, and the
number of bytes to come. -/
structure Partial where
  lead : UInt8
  size : Nat
  bits : Nat
  left : Nat

def Partial.accepts (p : Partial) (b : UInt8) : Bool :=
  if p.size == 1 then isSecond p.lead b else isTail b

inductive Start where
  | char (c : Char)
  | lead (p : Partial)
  | stray

def start (b : UInt8) : Start :=
  match tailLength b with
  | some 0 => .char (Char.ofNat b.toNat)
  | some n => .lead ⟨b, 1, b.toNat % Nat.pow 2 (6 - n), n⟩
  | none => .stray

def read : Option Partial → List UInt8 → List Piece
  | none, [] => []
  | some p, [] => [.broken p.lead p.size .cutShort]
  | none, b :: bs =>
    match start b with
    | .char c => .char c :: read none bs
    | .lead p => read (some p) bs
    | .stray => .broken b 1 .badStart :: read none bs
  | some p, b :: bs =>
    if p.accepts b then
      let bits := p.bits * 64 + b.toNat % 64
      if p.left == 1 then .char (Char.ofNat bits) :: read none bs
      else read (some ⟨p.lead, p.size + 1, bits, p.left - 1⟩) bs
    else .broken p.lead p.size .badTail :: match start b with
      | .char c => .char c :: read none bs
      | .lead q => read (some q) bs
      | .stray => .broken b 1 .badStart :: read none bs

def Piece.shown : Piece → Char
  | char c => c
  | broken .. => replacement

def decode (bytes : List UInt8) : String := String.ofList ((read none bytes).map Piece.shown)

structure Fault where
  start : Nat
  first : UInt8
  size : Nat
  cause : Cause
  deriving DecidableEq, Repr

def Fault.message (f : Fault) : String :=
  let part :=
    if f.size ==
        1 then s!"byte 0x{String.ofList (Quoted.hexDigits 2 f.first.toNat)} in position {f.start}"
    else s!"bytes in position {f.start}-{f.start + f.size - 1}"
  s!"'utf-8' codec can't decode {part}: {f.cause.text}"

def whole (position : Nat) : List Piece → Except Fault (List Char)
  | [] => .ok []
  | .char c :: rest => (whole (position + c.utf8Size) rest).map (c :: ·)
  | .broken first size cause :: _ => .error ⟨position, first, size, cause⟩

def decodeWhole (bytes : List UInt8) : Except Fault String :=
  (whole 0 (read none bytes)).map String.ofList

def encode (s : String) : List UInt8 := s.toUTF8.toList

end JniContracts.Text.Utf8
