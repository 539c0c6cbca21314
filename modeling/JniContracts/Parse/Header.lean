import JniContracts.Parse.Lookahead

/-!
What stands in front of a brace or a semicolon at file scope: the header of a function, a scope
whose definitions count as those of the file, or declarations.
-/

namespace JniContracts.Parse

structure Header where
  name : String
  params : List Param
  pos : Pos

namespace Context

/-- The parts of a run of tokens between its outer commas, as pairs of their ends. -/
def splitCommasFor (c : Context) (stop : Nat) : Nat → Nat → Nat → List (Nat × Nat)
  | 0, first, _ => [(first, stop)]
  | fuel + 1, first, i =>
    if stop ≤ i then [(first, stop)]
    else
      let t := c.tokenAt i
      if t.isPunctOf ["(", "[", "\x7b"] then splitCommasFor c stop fuel first (c.partnerOf i + 1)
      else if t.isPunct "," then (first, i) :: splitCommasFor c stop fuel (i + 1) (i + 1)
      else splitCommasFor c stop fuel first (i + 1)

def splitCommas (c : Context) (start stop : Nat) : List (Nat × Nat) :=
  c.splitCommasFor stop (stop - start) start start

def beforeInitialiser (c : Context) (stop : Nat) : Nat → Nat → Nat
  | 0, _ => stop
  | fuel + 1, i =>
    if stop ≤ i then stop
    else
      let t := c.tokenAt i
      if t.isPunctOf ["(", "[", "\x7b"] then beforeInitialiser c stop fuel (c.partnerOf i + 1)
      else if t.isPunct "=" then i
      else beforeInitialiser c stop fuel (i + 1)

def beforeIndexes (c : Context) (start : Nat) : Nat → Nat → Nat
  | 0, stop => stop
  | fuel + 1, stop =>
    if start < stop && (c.tokenAt (stop - 1)).isPunct "]" then
      beforeIndexes c start fuel (c.partnerOf (stop - 1))
    else stop

/-- The name that a parameter or a declarator at file scope declares. A lone name is a type, unless
`bare` says that it follows a comma. -/
def declaratorName (c : Context) (start stop : Nat) (bare : Bool) : Option String :=
  let stop := c.beforeInitialiser stop (stop - start) start
  let stop := c.beforeIndexes start (stop - start) stop
  if stop ≤ start then none
  else
    let t := c.tokenAt (stop - 1)
    if t.isIdent then if start < stop - 1 || bare then some t.text else none
    else if t.isPunct ")" then
      let opening := c.partnerOf (stop - 1)
      if start < opening && (c.tokenAt (opening - 1)).isPunct ")" then
        let inner := c.slice (c.partnerOf (opening - 1) + 1) (opening - 1)
        (inner.reverse.find? (·.isIdent)).map (·.text)
      else none
    else none

def params (c : Context) (start stop : Nat) : List Param :=
  (c.splitCommas start stop).filterMap fun (a, b) =>
    match c.slice a b with
    | [] => none
    | [t] => if t.isWord "void" || t.isPunct "..." then none
      else some ⟨c.declaratorName a b false, c.textBetween a b⟩
    | _ => some ⟨c.declaratorName a b false, c.textBetween a b⟩

/-- The names declared by a run of tokens at file scope, and which of them are interface pointers.
Prototypes declare none. -/
def fileScopeNames (c : Context) (start stop : Nat) : List String × List String :=
  match c.slice start stop with
  | [] => ([], [])
  | t :: _ =>
    if t.isWord "typedef" then ([], [])
    else
      let names := (c.splitCommas start stop).zipIdx.filterMap fun ((a, b), n) =>
        let prototype := (List.range (b - a)).any fun k =>
          (c.tokenAt (a + k)).isPunct "(" && !(c.tokenAt (a + k + 1)).isPunct "*"
        if prototype then none else c.declaratorName a b (0 < n)
      (names, if c.isInterfaceType (c.textBetween start stop) then names else [])

/-- The colon that opens the initialiser list of a constructor. -/
def initialiserColon (c : Context) (start brace : Nat) : Nat → Nat → Option Nat
  | 0, _ => none
  | fuel + 1, i =>
    if brace ≤ i then none
    else
      let t := c.tokenAt i
      if t.isPunctOf ["(", "["] then initialiserColon c start brace fuel (c.partnerOf i + 1)
      else if t.isPunct ":" && start < i && (c.tokenAt (i - 1)).isPunct ")" then some i
      else initialiserColon c start brace fuel (i + 1)

def backOverWords (c : Context) (start : Nat) : Nat → Nat
  | 0 => 0
  | j + 1 => if start < j + 1 && (c.tokenAt (j + 1)).isIdent then backOverWords c start j else j + 1

def backOverScopes (c : Context) (start : Nat) : Nat → Nat → Nat
  | 0, k => k
  | fuel + 1, k =>
    if start + 2 ≤ k && (c.tokenAt (k - 1)).isPunct "::" && (c.tokenAt (k - 2)).isIdent then
      backOverScopes c start fuel (k - 2)
    else k

/-- The name of a function, given the parenthesis that opens its parameters: a word, perhaps with
qualifiers, or a word and its own parentheses. -/
def headerName (c : Context) (start opening : Nat) : Option (String × Pos) :=
  let before := c.tokenAt (opening - 1)
  if before.isIdent then
    if statementWords.contains before.text then none
    else
      let k := c.backOverScopes start opening (opening - 1)
      some (c.textBetween k opening, (c.tokenAt k).pos)
  else if before.isPunct ")" then
    let k := c.partnerOf (opening - 1)
    if k < start + 1 || !(c.tokenAt (k - 1)).isIdent then none
    else some (c.textBetween (k - 1) opening, (c.tokenAt (k - 1)).pos)
  else none

/-- The header of a function whose parameters end at or before `last`, words in between. -/
def headerEndingAt (c : Context) (start last : Nat) : Option Header :=
  let close := c.backOverWords start last
  let opening := c.partnerOf close
  if !(c.tokenAt close).isPunct ")" || close ≤ start || opening ≤ start then none
  else
    let head := c.slice start opening
    if head.any (·.isPunct "=") || (head.any (·.isWordOf tagWords) && head.length ≤ 2) then none
    else (c.headerName start opening).map fun (name, pos) =>
      ⟨name, c.params (opening + 1) close, pos⟩

/-- The header of a function whose body opens at `brace`. A constructor's initialiser list is left
out, unless it ends in braces: such a constructor is not read. -/
def functionHeader (c : Context) (start brace : Nat) : Option Header :=
  if brace ≤ start then none
  else
    match c.initialiserColon start brace (brace - start) start with
    | some colon =>
      if (c.tokenAt (brace - 1)).isPunct ")" then c.headerEndingAt start (colon - 1) else none
    | none => c.headerEndingAt start (brace - 1)

end Context

def afterTemplate : Int → List Token → List Token
  | _, [] => []
  | depth, t :: ts =>
    if t.isPunct "<" then afterTemplate (depth + 1) ts
    else if t.isPunctOf [">", ">>"] then
      let depth := depth - t.text.length
      if depth ≤ 0 then ts else afterTemplate depth ts
    else if depth == 0 then [] else afterTemplate depth ts

/-- Whether a brace behind these tokens opens a scope whose definitions count: a linkage block, a
namespace, or the body of a class. -/
def opensScope (head : List Token) : Bool :=
  match head with
  | [] => false
  | t :: rest =>
    if t.isWord "extern" && rest.length == 1 && rest.all (·.kind == .string) then true
    else if t.isWord "namespace" then true
    else
      let head := if t.isWord "template" then afterTemplate 0 rest else head
      match head with
      | [] => false
      | t :: _ => !head.any (·.isPunctOf ["=", "("]) && t.isWordOf ["class", "struct"]

end JniContracts.Parse
