import JniContracts.Text.Blank

/-!
Paths: an anchor and names. Repeated slashes and single dots do not count; two dots are kept.
-/

namespace JniContracts

structure Path where
  /-- Empty for a relative path, else one slash or two. -/
  anchor : String
  parts : List String
  deriving DecidableEq, Repr

namespace Path

/-- Two leading slashes are kept, three or more are one. -/
def anchorOf : List Char → String
  | ['/', '/'] => "//"
  | '/' :: '/' :: c :: _ => if c == '/' then "/" else "//"
  | '/' :: _ => "/"
  | _ => ""

def ofString (s : String) : Path :=
  ⟨anchorOf s.toList,
    ((Text.runs (· == '/') s.toList).map String.ofList).filter (· != ".")⟩

def text (p : Path) : String :=
  match p.anchor ++ "/".intercalate p.parts with
  | "" => "."
  | s => s

def append (p q : Path) : Path := if q.anchor == "" then ⟨p.anchor, p.parts ++ q.parts⟩ else q

def child (p : Path) (name : String) : Path := ⟨p.anchor, p.parts ++ [name]⟩

def parent (p : Path) : Path := ⟨p.anchor, p.parts.dropLast⟩

def name (p : Path) : String := p.parts.getLast?.getD ""

def components (p : Path) : List String :=
  if p.anchor == "" then p.parts else p.anchor :: p.parts

/-- The part of a name from its last dot on. A dot at either end of the name starts none. -/
def suffixOf (name : List Char) : List Char :=
  let after := (name.reverse.takeWhile (· != '.')).reverse
  if after.isEmpty || name.length ≤ after.length + 1 then [] else '.' :: after

def suffix (p : Path) : String := String.ofList (suffixOf p.name.toList)

def orderNames : List String → List String → Ordering
  | [], [] => .eq
  | [], _ :: _ => .lt
  | _ :: _, [] => .gt
  | a :: as, b :: bs => (compare a b).then (orderNames as bs)

def order (p q : Path) : Ordering := orderNames p.components q.components

def le (p q : Path) : Bool := (order p q).isLE

def sorted (l : List Path) : List Path := l.eraseDups.mergeSort le

/-- Takes each pair of dots back with the name in front of it. -/
def foldDots : List String → List String → List String
  | seen, [] => seen.reverse
  | seen, ".." :: rest => foldDots seen.tail rest
  | seen, name :: rest => foldDots (name :: seen) rest

end Path

end JniContracts
