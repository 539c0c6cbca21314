/-!
Sets of characters, written as runs of code points that are in turn outside and inside.
-/

namespace JniContracts.Text

/-- The lengths of the runs, of which the first is outside. -/
structure CharSet where
  runs : List Nat

namespace CharSet

def inside (n : Nat) : Bool → List Nat → Bool
  | b, [] => b
  | b, x :: xs => if n < x then b else inside (n - x) (!b) xs

def contains (s : CharSet) (c : Char) : Bool := inside c.toNat false s.runs

end CharSet

end JniContracts.Text
