import JniContracts.Parse.Expr

/-!
Reading statements. Handlers of a `try` are skipped, a `throw` leaves like a `return`.
-/

namespace JniContracts.Parse

structure Stmts where
  exprs : Exprs
  statement : ParseM Stmt
  block : ParseM Stmt

namespace Stmts

/-- A declared name is a variable from here on, and an interface pointer if its type says so. -/
def declare (name : String) (isInterface : Bool) : ParseM Unit :=
  modify fun s => { s with
    locals := insertName name s.locals
    interfaces := if isInterface then insertName name s.interfaces else s.interfaces }

def declaratorArgs (g : Stmts) : ParseM (List Expr) := do
  let t ← peek
  if t.isPunct "(" then
    let _ ← advance
    let args ← g.exprs.args
    pure [.initList args t.pos]
  else if t.isPunct ":" then
    let _ ← advance
    let _ ← g.exprs.conditional
    pure []
  else pure []

def initialiser (g : Stmts) : ParseM (List Expr) := do
  if ← accept "=" then pure [← g.exprs.assignment]
  else
    let t ← peek
    if t.isPunct "\x7b" then pure [← g.exprs.primary] else pure []

def declarator (g : Stmts) (isInterface : Bool) : ParseM Declarator := do
  let c ← read
  let s ← get
  moveTo (c.skipWhile isPointerMark s.pos)
  let name ← expectName
  declare name.text isInterface
  skipIndexes
  let args ← g.declaratorArgs
  let init ← g.initialiser
  pure ⟨name.text, name.pos, args ++ init⟩

def declaratorsFor (g : Stmts) (isInterface : Bool) :
    Nat → List Declarator → ParseM (List Declarator)
  | 0, _ => throw .endless
  | fuel + 1, seen => do
    let d ← g.declarator isInterface
    if ← accept "," then declaratorsFor g isInterface fuel (d :: seen) else pure (d :: seen).reverse

/-- The type is everything up to the first declarator's name, pointer marks at its end apart. -/
def declaration (g : Stmts) (terminator : String) : ParseM Simple := do
  let c ← read
  let first ← peek
  let start := (← get).pos
  let stop ← c.declaratorStart start c.rounds start
  moveTo stop
  let typeText := String.ofList <|
    Text.dropEndWhile (fun ch => ch == '*' || ch == '&' || ch == ' ')
      (c.textBetween start stop).toList
  let declarators ← g.declaratorsFor (c.isInterfaceType typeText) c.rounds []
  expect terminator
  pure (.decl typeText declarators first.pos)

def condition (g : Stmts) : ParseM Expr := do
  expect "("
  if ← looksLikeDeclaration then
    match ← g.declaration ")" with
    | .decl typeText declarators pos =>
      pure ((declarators.flatMap Declarator.assignments).headD (.verbatim typeText pos))
    | .expr e _ => pure e
  else
    let e ← g.exprs.expression
    expect ")"
    pure e

def skipToSemicolonFor : Nat → ParseM Unit
  | 0 => throw .endless
  | fuel + 1 => do
    let t ← peek
    if t.isPunct ";" then
      let _ ← advance
    else if t.isEof then fail .noSemicolon
    else if t.isPunctOf ["(", "[", "\x7b"] then
      jump
      skipToSemicolonFor fuel
    else
      let _ ← advance
      skipToSemicolonFor fuel

def statementsFor (g : Stmts) : Nat → List Stmt → ParseM (List Stmt)
  | 0, _ => throw .endless
  | fuel + 1, seen => do
    let t ← peek
    if t.isPunct "\x7d" then pure seen.reverse
    else if t.isEof then fail .blockEnds
    else
      let s ← g.statement
      statementsFor g fuel (s :: seen)

def blockStep (g : Stmts) : ParseM Stmt := do
  let t ← peek
  expect "\x7b"
  let stmts ← g.statementsFor (← read).rounds []
  expect "\x7d"
  pure (.block stmts t.pos)

/-- A label may stand at the end of a block. -/
def labelled (g : Stmts) : ParseM Stmt := do
  let t ← peek
  if t.isPunct "\x7d" then pure (.empty t.pos) else g.statement

def ifStep (g : Stmts) (t : Token) : ParseM Stmt := do
  let _ ← advance
  if (← peek).isWord "constexpr" then
    let _ ← advance
  let cond ← g.condition
  let yes ← g.statement
  if (← peek).isWord "else" then
    let _ ← advance
    let no ← g.statement
    pure (.ifElse cond yes (some no) t.pos)
  else pure (.ifElse cond yes none t.pos)

def doStep (g : Stmts) (t : Token) : ParseM Stmt := do
  let _ ← advance
  let body ← g.statement
  if (← peek).isWord "while" then
    let _ ← advance
    let cond ← g.condition
    expect ";"
    pure (.doWhile body cond t.pos)
  else fail .doWithoutWhile

def optional (g : Stmts) (stop : String) : ParseM (Option Expr) := do
  if (← peek).isPunct stop then pure none else pure (some (← g.exprs.expression))

def forInit (g : Stmts) : ParseM (Option Simple) := do
  let t ← peek
  if t.isPunct ";" then
    let _ ← advance
    pure none
  else if t.isIdent && (← looksLikeDeclaration) then pure (some (← g.declaration ";"))
  else
    let e ← g.exprs.expression
    expect ";"
    pure (some (.expr e t.pos))

/-- A header without semicolons is that of a range loop and kept as text. -/
def forStep (g : Stmts) (t : Token) : ParseM Stmt := do
  let _ ← advance
  let c ← read
  let start := (← get).pos
  expect "("
  let close ← partner start
  if (c.slice (start + 1) close).any (·.isPunct ";") then
    let init ← g.forInit
    let cond ← g.optional ";"
    expect ";"
    let step ← g.optional ")"
    expect ")"
    let body ← g.statement
    pure (.forDo init cond step body t.pos)
  else
    moveTo (close + 1)
    let body ← g.statement
    pure (.forDo none (some (.verbatim (c.textBetween (start + 1) close) t.pos)) none body t.pos)

/-- Skips handlers: from the bracket behind `catch` to its partner, and over the block that
follows. -/
def handlersFor (g : Stmts) : Nat → ParseM Unit
  | 0 => throw .endless
  | fuel + 1 => do
    if (← peek).isWord "catch" then
      let _ ← advance
      jump
      let _ ← g.block
      handlersFor g fuel

def tryStep (g : Stmts) (t : Token) : ParseM Stmt := do
  let _ ← advance
  let body ← g.block
  g.handlersFor (← read).rounds
  pure (.block [body] t.pos)

def caseStep (g : Stmts) (t : Token) : ParseM Stmt := do
  let _ ← advance
  let value ← g.exprs.conditional
  if ← accept "..." then
    let _ ← g.exprs.conditional
  expect ":"
  pure (.case (some value) (← g.labelled) t.pos)

def returnStep (g : Stmts) (t : Token) : ParseM Stmt := do
  let _ ← advance
  let value ← g.optional ";"
  expect ";"
  pure (.ret value t.pos)

def bareStep (s : Stmt) : ParseM Stmt := do
  let _ ← advance
  expect ";"
  pure s

def simpleStep (g : Stmts) (t : Token) : ParseM Stmt := do
  if t.isIdent && (← looksLikeDeclaration) then pure (.simple (← g.declaration ";"))
  else
    let e ← g.exprs.expression
    expect ";"
    pure (.simple (.expr e t.pos))

def wordStep (g : Stmts) (t : Token) : ParseM Stmt := do
  let next ← peekAt 1
  match t.text with
  | "if" => g.ifStep t
  | "while" =>
    let _ ← advance
    let cond ← g.condition
    pure (.whileDo cond (← g.statement) t.pos)
  | "do" => g.doStep t
  | "for" => g.forStep t
  | "switch" =>
    let _ ← advance
    let cond ← g.condition
    pure (.switch cond (← g.statement) t.pos)
  | "case" => g.caseStep t
  | "return" | "throw" => g.returnStep t
  | "break" => bareStep (.brk t.pos)
  | "continue" => bareStep (.cont t.pos)
  | "goto" =>
    let _ ← advance
    let label ← expectName
    expect ";"
    pure (.goto label.text t.pos)
  | "using" | "typedef" =>
    skipToSemicolonFor (← read).rounds
    pure (.empty t.pos)
  | word =>
    if word == "default" && next.isPunct ":" then
      let _ ← advance
      let _ ← advance
      pure (.case none (← g.labelled) t.pos)
    else if word == "try" && next.isPunct "\x7b" then g.tryStep t
    else if next.isPunct ":" && !statementWords.contains word then
      let _ ← advance
      let _ ← advance
      pure (.label word (← g.labelled) t.pos)
    else g.simpleStep t

def statementStep (g : Stmts) : ParseM Stmt := do
  let t ← peek
  if t.isPunct "\x7b" then g.blockStep
  else if t.isPunct ";" then
    let _ ← advance
    pure (.empty t.pos)
  else if t.isIdent then g.wordStep t
  else g.simpleStep t

def deeper (g : Stmts) : Stmts where
  exprs := g.exprs.deeper
  statement := g.statementStep
  block := g.blockStep

def tooDeep : Stmts := ⟨Exprs.tooDeep, throw .tooDeep, throw .tooDeep⟩

def within : Nat → Stmts
  | 0 => tooDeep
  | levels + 1 => (within levels).deeper

end Stmts

end JniContracts.Parse
