import JniContracts.Parse.Header
import JniContracts.Parse.Stmt

/-!
Reading a source file: its functions one by one, so that a fault in one hides no other, and the
names that are declared at file scope.
-/

namespace JniContracts

namespace Parse

def functionBody (g : Stmts) (c : Context) (header : Header) (brace : Nat)
    (interfaceGlobals : List String) : Except Stop (Stmt × State) :=
  let named := header.params.filterMap fun p => p.name.map fun n => (n, p.typeText)
  let locals := named.foldl (fun l (n, _) => insertName n l) []
  let interfaces := named.foldl
    (fun l (n, t) => if c.isInterfaceType t then insertName n l else l) interfaceGlobals
  g.block.run c |>.run ⟨brace, locals, interfaces⟩

structure Progress where
  pos : Nat
  /-- Where the declaration under way starts. -/
  start : Nat
  /-- The number of open scopes. -/
  scopes : Nat
  functions : List Function
  globals : List String
  interfaceGlobals : List String
  faults : List Fault

namespace Progress

def goTo (p : Progress) (pos : Nat) : Progress := { p with pos := pos }

def restart (p : Progress) (pos : Nat) : Progress := { p with pos := pos, start := pos }

def function (p : Progress) (g : Stmts) (c : Context) (header : Header) : Except Stop Progress :=
  let next := p.restart (c.partnerOf p.pos + 1)
  match functionBody g c header p.pos p.interfaceGlobals with
  | .ok (body, s) =>
    .ok { next with
      functions := p.functions ++ [⟨header.name, header.params, body, s.locals, header.pos⟩] }
  | .error (.fault f) => .ok { next with faults := p.faults ++ [f] }
  | .error .tooDeep => .ok { next with faults := p.faults ++ [⟨.tooDeep, header.pos.line⟩] }
  | .error stop => .error stop

def declarations (p : Progress) (c : Context) : Progress :=
  let (names, interfaces) := c.fileScopeNames p.start p.pos
  { p.restart (p.pos + 1) with
    globals := names.foldl (fun l n => insertName n l) p.globals
    interfaceGlobals := interfaces.foldl (fun l n => insertName n l) p.interfaceGlobals }

def step (p : Progress) (g : Stmts) (c : Context) : Except Stop Progress :=
  let t := c.tokenAt p.pos
  if t.isPunct "\x7b" then
    match c.functionHeader p.start p.pos with
    | some header => p.function g c header
    | none =>
      if opensScope (c.slice p.start p.pos) then
        .ok { p.restart (p.pos + 1) with scopes := p.scopes + 1 }
      else .ok (p.goTo (c.partnerOf p.pos + 1))
  else if t.isPunct "\x7d" then
    if p.scopes == 0 then .error (.fault ⟨.strayCloser, t.line⟩)
    else .ok { p.restart (p.pos + 1) with scopes := p.scopes - 1 }
  else if t.isPunct ";" then .ok (p.declarations c)
  else if t.isPunctOf ["(", "["] then .ok (p.goTo (c.partnerOf p.pos + 1))
  else if t.isWordOf ["public", "protected", "private"] && (c.tokenAt (p.pos + 1)).isPunct ":" then
    .ok (p.restart (p.pos + 2))
  else .ok (p.goTo (p.pos + 1))

/-- Every step goes forward, so the number of tokens is fuel enough. -/
def run (g : Stmts) (c : Context) : Nat → Progress → Except Stop Progress
  | 0, p => .ok p
  | fuel + 1, p =>
    if (c.tokenAt p.pos).isEof then .ok p
    else
      match p.step g c with
      | .ok p => run g c fuel p
      | .error stop => .error stop

end Progress

def sourceFile (g : Stmts) (source path : String) (interfaceTypes : List String) :
    Except Stop SourceFile := do
  let tokens ← (tokenize source).mapError .fault
  let c ← (Context.ofTokens tokens interfaceTypes).mapError .fault
  let p ← Progress.run g c tokens.length ⟨0, 0, 0, [], [], [], []⟩
  pure ⟨path, c.tokens, p.functions, p.globals, p.interfaceGlobals, p.faults⟩

def readers : Stmts := Stmts.within nestingLimit

end Parse

def SourceFile.parse (source path : String) (interfaceTypes : List String) :
    Except Stop SourceFile :=
  Parse.sourceFile Parse.readers source path interfaceTypes

end JniContracts
