import JniContracts.Parse.Lookahead

/-!
Reading expressions, by one function for each level of the grammar. What may nest is read by the
functions for one level of nesting less, so that reading ends and nesting has a limit.
-/

namespace JniContracts.Parse

structure Exprs where
  expression : ParseM Expr
  assignment : ParseM Expr
  conditional : ParseM Expr
  unary : ParseM Expr
  primary : ParseM Expr

namespace Exprs

/-- The place of a call is that of its function. Through a function table it is an interface call if
the pointer is repeated as the first argument, through a pointer if the pointer is known as one. -/
def makeCall (interfaces : List String) (func : Expr) (args : List Expr) : Expr :=
  let viaInterface := match func.tablePointer?, func with
    | some r, _ => (args.head?.bind fun a => a.strip.name?) == some r
    | none, .member _ _ true _ =>
      func.namedObject?.any fun r => interfaces.contains r || isHole r
    | _, _ => false
  .call func args viaInterface func.pos

def argsFor (g : Exprs) : Nat → List Expr → ParseM (List Expr)
  | 0, _ => throw .endless
  | fuel + 1, seen => do
    let e ← g.assignment
    if ← accept ")" then pure (e :: seen).reverse
    else
      expect ","
      argsFor g fuel (e :: seen)

def args (g : Exprs) : ParseM (List Expr) := do
  if ← accept ")" then pure []
  else argsFor g (← read).rounds []

def nameFor : Nat → String → ParseM String
  | 0, _ => throw .endless
  | fuel + 1, name => do
    let t ← peek
    let next ← peekAt 1
    if t.isPunct "::" && next.isIdent then
      let _ ← advance
      let _ ← advance
      nameFor fuel (name ++ "::" ++ next.text)
    else pure name

def joinLiterals (a b : String) : String :=
  String.ofList (a.toList.dropLast ++ (b.toList.dropWhile (· != '"')).drop 1)

def stringsFor : Nat → String → ParseM String
  | 0, _ => throw .endless
  | fuel + 1, text => do
    let t ← peek
    if t.kind == .string then
      let _ ← advance
      stringsFor fuel (joinLiterals text t.text)
    else pure text

def designator : ParseM Unit := do
  let t ← peek
  if t.isPunct "." then
    let _ ← advance
    let _ ← expectName
    expect "="
  else if t.isPunct "[" then
    jump
    expect "="

def itemsFor (g : Exprs) : Nat → List Expr → ParseM (List Expr)
  | 0, _ => throw .endless
  | fuel + 1, seen => do
    let t ← peek
    if t.isPunct "\x7d" then pure seen.reverse
    else
      designator
      let e ← g.assignment
      if ← accept "," then itemsFor g fuel (e :: seen) else pure (e :: seen).reverse

def primaryStep (g : Exprs) : ParseM Expr := do
  let t ← peek
  let rounds := (← read).rounds
  match t.kind with
  | .ident =>
    let _ ← advance
    pure (.name (← nameFor rounds t.text) t.pos)
  | .number =>
    let _ ← advance
    pure (.literal t.text .number t.pos)
  | .char =>
    let _ ← advance
    pure (.literal t.text .char t.pos)
  | .string =>
    let _ ← advance
    pure (.literal (← stringsFor rounds t.text) .string t.pos)
  | .punct | .eof =>
    if t.isPunct "(" then
      let _ ← advance
      let e ← g.expression
      expect ")"
      pure e
    else if t.isPunct "\x7b" then
      let _ ← advance
      let items ← itemsFor g rounds []
      expect "\x7d"
      pure (.initList items t.pos)
    else if t.isPunct "..." then
      let _ ← advance
      pure (.ellipsis t.pos)
    else failAt t (.noExpression t.shown)

def suffixesFor (g : Exprs) : Nat → Expr → ParseM Expr
  | 0, _ => throw .endless
  | fuel + 1, e => do
    let t ← peek
    if t.isPunct "(" then
      let _ ← advance
      let args ← g.args
      suffixesFor g fuel (makeCall (← get).interfaces e args)
    else if t.isPunct "[" then
      let _ ← advance
      let i ← g.expression
      expect "]"
      suffixesFor g fuel (.index e i e.pos)
    else if t.isPunctOf [".", "->"] then
      let _ ← advance
      let attr ← expectName
      suffixesFor g fuel (.member e attr.text (t.text == "->") e.pos)
    else if t.isPunct "++" then
      let _ ← advance
      suffixesFor g fuel (.unary .incr e .behind e.pos)
    else if t.isPunct "--" then
      let _ ← advance
      suffixesFor g fuel (.unary .decr e .behind e.pos)
    else pure e

/-- The operand of `sizeof` and its kin is kept as text when it stands in parentheses. -/
def sizeStep (g : Exprs) (op : UnOp) (t : Token) : ParseM Expr := do
  let _ ← advance
  let next ← peek
  if next.isPunct "(" then
    let c ← read
    let start := (← get).pos
    let close ← partner start
    moveTo (close + 1)
    pure (.verbatim (t.text ++ "(" ++ c.textBetween (start + 1) close ++ ")") t.pos)
  else pure (.unary op (← g.unary) .before t.pos)

def castStep (g : Exprs) (t : Token) : ParseM Expr := do
  let c ← read
  let start := (← get).pos
  let close ← partner start
  moveTo (close + 1)
  pure (.cast (c.textBetween (start + 1) close) (← g.unary) t.pos)

def unaryStep (g : Exprs) : ParseM Expr := do
  let t ← peek
  let c ← read
  let s ← get
  match (if t.kind == .punct then UnOp.ofSign? t.text else none),
      (if t.isIdent then UnOp.ofSize? t.text else none) with
  | some op, _ =>
    let _ ← advance
    pure (.unary op (← g.unary) .before t.pos)
  | none, some op => g.sizeStep op t
  | none, none =>
    if t.isWord "new" then
      let _ ← advance
      pure (.unary .new (← g.unary) .before t.pos)
    else if t.isWord "delete" then
      let _ ← advance
      if ← accept "[" then expect "]"
      pure (.unary .delete (← g.unary) .before t.pos)
    else if t.isPunct "(" && c.looksLikeCast s.locals s.pos then g.castStep t
    else
      let e ← g.primaryStep
      g.suffixesFor c.rounds e

def binaryOp? (t : Token) : Option BinOp := if t.kind == .punct then BinOp.ofText? t.text else none

/-- Operators that bind at least as tightly as `least`, grouped to the left. `tighter` reads the
right operand of an operator, given what binds tighter than it. -/
def binaryFor (tighter : Nat → ParseM Expr) (least : Nat) : Nat → Expr → ParseM Expr
  | 0, _ => throw .endless
  | fuel + 1, left => do
    let t ← peek
    match binaryOp? t with
    | some op =>
      if least ≤ op.precedence then
        let _ ← advance
        let right ← tighter (op.precedence + 1)
        binaryFor tighter least fuel (.binary op left right left.pos)
      else pure left
    | none => pure left

/-- `levels` bounds the number of levels of precedence from `least` on. -/
def binary (g : Exprs) : Nat → Nat → ParseM Expr
  | 0, _ => g.unaryStep
  | levels + 1, least => do
    let left ← g.unaryStep
    binaryFor (binary g levels) least (← read).rounds left

def conditionalStep (g : Exprs) : ParseM Expr := do
  let cond ← g.binary 10 4
  if ← accept "?" then
    let yes ← g.expression
    expect ":"
    let no ← g.assignment
    pure (.conditional cond yes no cond.pos)
  else pure cond

def assignOp? (t : Token) : Option AssignOp :=
  if t.kind == .punct then AssignOp.ofText? t.text else none

def assignmentStep (g : Exprs) : ParseM Expr := do
  let left ← g.conditionalStep
  let t ← peek
  match assignOp? t with
  | some op =>
    let _ ← advance
    let value ← g.assignment
    pure (.assign op left value left.pos)
  | none => pure left

def commasFor (g : Exprs) : Nat → Expr → ParseM Expr
  | 0, _ => throw .endless
  | fuel + 1, e => do
    let t ← peek
    if ← accept "," then
      let right ← g.assignmentStep
      commasFor g fuel (.binary .comma e right t.pos)
    else pure e

def expressionStep (g : Exprs) : ParseM Expr := do
  let e ← g.assignmentStep
  g.commasFor (← read).rounds e

def deeper (g : Exprs) : Exprs where
  expression := g.expressionStep
  assignment := g.assignmentStep
  conditional := g.conditionalStep
  unary := g.unaryStep
  primary := g.primaryStep

def tooDeep : Exprs :=
  ⟨throw .tooDeep, throw .tooDeep, throw .tooDeep, throw .tooDeep, throw .tooDeep⟩

def within : Nat → Exprs
  | 0 => tooDeep
  | levels + 1 => (within levels).deeper

end Exprs

/-- How many levels expressions and statements may nest. -/
def nestingLimit : Nat := 1000

def wholeExpression (g : Exprs) : ParseM Expr := do
  let e ← g.expression
  let _ ← accept ";"
  let t ← peek
  if t.isEof then pure e else failAt t (.trailing t.text)

def defaultInterfaceTypes : List String := ["JNIEnv", "JavaVM"]

def expressionWithin (levels : Nat) (text : String) (interfaces : List String) : Except Stop Expr :=
  do
  let tokens ← (tokenize text).mapError .fault
  let c ← (Context.ofTokens tokens defaultInterfaceTypes).mapError .fault
  let (e, _) ← (wholeExpression (Exprs.within levels)).run c |>.run ⟨0, [], interfaces⟩
  pure e

end Parse

def Expr.parse (text : String) (interfaces : List String) : Except Stop Expr :=
  Parse.expressionWithin Parse.nestingLimit text interfaces

end JniContracts
