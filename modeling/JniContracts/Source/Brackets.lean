import JniContracts.Source.Fault
import JniContracts.Source.Token

/-!
Brackets and their partners.
-/

namespace JniContracts

namespace Brackets

def closer? (t : Token) : Option String :=
  if t.kind != .punct then none
  else if t.text == "(" then some ")"
  else if t.text == "[" then some "]"
  else if t.text == "\x7b" then some "\x7d"
  else none

def isCloser (t : Token) : Bool := t.isPunctOf [")", "]", "\x7d"]

/-- The pairs of positions of brackets that belong together. `i` is the position of the first token,
`waiting` holds the open brackets, the innermost first. -/
def pairs : Nat → List (Nat × Token) → List Token → Except Fault (List (Nat × Nat))
  | _, [], [] => .ok []
  | _, (_, t) :: _, [] => .error ⟨.unclosed t.text, t.line⟩
  | i, waiting, t :: ts =>
    if (closer? t).isSome then pairs (i + 1) ((i, t) :: waiting) ts
    else if isCloser t then
      match waiting with
      | (j, o) :: outer =>
        if closer? o == some t.text then (pairs (i + 1) outer ts).map ((j, i) :: ·)
        else .error ⟨.unbalanced t.text, t.line⟩
      | [] => .error ⟨.unbalanced t.text, t.line⟩
    else pairs (i + 1) waiting ts

def table (tokens : List Token) : Except Fault (Array (Option Nat)) :=
  (pairs 0 [] tokens).map fun ps =>
    ps.foldl (fun a (i, j) => (a.setIfInBounds i (some j)).setIfInBounds j (some i))
      (Array.replicate tokens.length none)

end Brackets

end JniContracts
