import JniContracts.Code.Stmt
import JniContracts.Source.Brackets
import JniContracts.Source.Lexer
import JniContracts.Text.Blank

/-!
What every reader of source text works with: the tokens with their bracket table, the place in them,
and the names that are known so far.
-/

namespace JniContracts.Parse

/-- Tokens to be read. `last` is the token that marks the end of input. -/
structure Context where
  tokens : Array Token
  last : Token
  partners : Array (Option Nat)
  interfaceTypes : List String

namespace Context

def tokenAt (c : Context) (i : Nat) : Token := c.tokens.getD i c.last

def partner? (c : Context) (i : Nat) : Option Nat := c.partners.getD i none

def partnerOf (c : Context) (i : Nat) : Nat := (c.partner? i).getD i

def slice (c : Context) (start stop : Nat) : List Token := (c.tokens.extract start stop).toList

def skipFrom (c : Context) (p : Token → Bool) : Nat → Nat → Nat
  | 0, i => i
  | fuel + 1, i => if p (c.tokenAt i) then skipFrom c p fuel (i + 1) else i

def skipWhile (c : Context) (p : Token → Bool) (i : Nat) : Nat :=
  c.skipFrom p (c.tokens.size - i) i

/-- A bound on the rounds of any loop that comes to an end. What a round does depends on the place
and on the two sets of known names, and these only grow, by names of tokens. -/
def rounds (c : Context) : Nat := c.tokens.size * (2 * c.tokens.size + 1) + 1

def ofTokens (tokens : List Token) (interfaceTypes : List String) : Except Fault Context := do
  let partners ← Brackets.table tokens
  pure ⟨tokens.toArray, tokens.getLastD default, partners, interfaceTypes⟩

end Context

def isWordlike (t : Token) : Bool :=
  match t.kind with
  | .ident | .number | .string | .char => true
  | .punct | .eof => false

/-- Whether two neighbours are set apart when tokens are put together again. -/
def needsSpace (a b : Token) : Bool :=
  (isWordlike a && isWordlike b) || a.isPunct "," || (b.isPunctOf ["*", "&"] && a.isIdent)

def joinTokens : List Token → String
  | [] => ""
  | [t] => t.text
  | a :: b :: rest => a.text ++ (if needsSpace a b then " " else "") ++ joinTokens (b :: rest)

def Context.textBetween (c : Context) (start stop : Nat) : String := joinTokens (c.slice start stop)

def Context.isInterfaceType (c : Context) (typeText : String) : Bool :=
  let spaced := typeText.toList.map fun ch => if ch == '*' || ch == '&' then ' ' else ch
  let words := Text.words (String.ofList spaced)
  c.interfaceTypes.any words.contains

/-- Pattern text marks its holes with a dollar sign. -/
def isHole (s : String) : Bool := s.toList.head? == some '$'

structure State where
  pos : Nat
  /-- Names of variables. -/
  locals : List String
  /-- Names of interface pointers. -/
  interfaces : List String

end Parse

abbrev ParseM := ReaderT Parse.Context (StateT Parse.State (Except Stop))

namespace Parse

def insertName (name : String) (names : List String) : List String :=
  if names.contains name then names else names ++ [name]

def peekAt (k : Nat) : ParseM Token := do
  let s ← get
  let c ← read
  pure (c.tokenAt (s.pos + k))

def peek : ParseM Token := peekAt 0

def moveTo (i : Nat) : ParseM Unit := modify fun s => { s with pos := i }

def advance : ParseM Token := do
  let t ← peek
  if !t.isEof then modify fun s => { s with pos := s.pos + 1 }
  pure t

def failAt {α : Type} (t : Token) (problem : Problem) : ParseM α :=
  throw (.fault ⟨problem, t.line⟩)

def fail {α : Type} (problem : Problem) : ParseM α := do failAt (← peek) problem

def accept (text : String) : ParseM Bool := do
  let t ← peek
  if t.isPunct text then
    let _ ← advance
    pure true
  else pure false

def expect (text : String) : ParseM Unit := do
  let t ← peek
  if t.isPunct text then
    let _ ← advance
  else failAt t (.expected text t.shown)

def expectName : ParseM Token := do
  let t ← peek
  if t.isIdent then advance else failAt t (.expectedName t.shown)

def partner (i : Nat) : ParseM Nat := do
  let c ← read
  match c.partner? i with
  | some j => pure j
  | none => throw (.noBracket i)

def jump : ParseM Unit := do
  let s ← get
  let j ← partner s.pos
  moveTo (j + 1)

def skipIndexesFor : Nat → ParseM Unit
  | 0 => throw .endless
  | fuel + 1 => do
    let t ← peek
    if t.isPunct "[" then
      jump
      skipIndexesFor fuel

def skipIndexes : ParseM Unit := do skipIndexesFor (← read).rounds

end Parse

end JniContracts
