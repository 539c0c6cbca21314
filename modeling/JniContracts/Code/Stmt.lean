import JniContracts.Code.Expr
import JniContracts.Source.Fault

/-!
Statements, functions and source files.
-/

namespace JniContracts

/-- One declared name and the values it is given: arguments of a constructor, an initialiser, or
both. -/
structure Declarator where
  name : String
  pos : Pos
  values : List Expr
  deriving Repr

namespace Declarator

/-- Giving a declared name a value is an assignment to it. -/
def assignments (d : Declarator) : List Expr :=
  d.values.map fun v => .assign .set (.name d.name d.pos) v d.pos

end Declarator

inductive Simple where
  | expr (e : Expr) (pos : Pos)
  | decl (typeText : String) (declarators : List Declarator) (pos : Pos)
  deriving Repr

namespace Simple

def pos : Simple → Pos
  | expr _ p | decl _ _ p => p

def exprs : Simple → List Expr
  | expr e _ => [e]
  | decl _ ds _ => ds.flatMap Declarator.assignments

end Simple

inductive Stmt where
  | block (stmts : List Stmt) (pos : Pos)
  | simple (s : Simple)
  | ifElse (cond : Expr) (yes : Stmt) (no : Option Stmt) (pos : Pos)
  | whileDo (cond : Expr) (body : Stmt) (pos : Pos)
  | doWhile (body : Stmt) (cond : Expr) (pos : Pos)
  | forDo (init : Option Simple) (cond step : Option Expr) (body : Stmt) (pos : Pos)
  | switch (cond : Expr) (body : Stmt) (pos : Pos)
  /-- A case label; without a value it is the default. -/
  | case (value : Option Expr) (stmt : Stmt) (pos : Pos)
  | label (name : String) (stmt : Stmt) (pos : Pos)
  | goto (label : String) (pos : Pos)
  | ret (value : Option Expr) (pos : Pos)
  | brk (pos : Pos)
  | cont (pos : Pos)
  | empty (pos : Pos)
  deriving Repr, Inhabited

namespace Stmt

def pos : Stmt → Pos
  | simple s => s.pos
  | block _ p | ifElse _ _ _ p | whileDo _ _ p | doWhile _ _ p | forDo _ _ _ _ p | switch _ _ p
  | case _ _ p | label _ _ p | goto _ p | ret _ p | brk p | cont p | empty p => p

def line (s : Stmt) : Nat := s.pos.line

/-- The expressions that the statement itself evaluates, the clauses of a `for` apart. -/
def exprs : Stmt → List Expr
  | simple s => s.exprs
  | ifElse c _ _ _ | whileDo c _ _ | doWhile _ c _ | switch c _ _ => [c]
  | ret v _ => v.toList
  | block .. | forDo .. | case .. | label .. | goto .. | brk _ | cont _ | empty _ => []

def children : Stmt → List Stmt
  | block ss _ => ss
  | ifElse _ a b _ => a :: b.toList
  | whileDo _ b _ | doWhile b _ _ | switch _ b _ => [b]
  | forDo i _ _ b _ => (i.map simple).toList ++ [b]
  | case _ s _ | label _ s _ => [s]
  | simple _ | goto .. | ret .. | brk _ | cont _ | empty _ => []

mutual
def walk : Stmt → List Stmt
  | s@(block ss _) => s :: walkAll ss
  | s@(ifElse _ a b _) => s :: (a.walk ++ walkElse b)
  | s@(whileDo _ b _) => s :: b.walk
  | s@(doWhile b _ _) => s :: b.walk
  | s@(forDo i _ _ b _) => s :: ((i.map simple).toList ++ b.walk)
  | s@(switch _ b _) => s :: b.walk
  | s@(case _ b _) => s :: b.walk
  | s@(label _ b _) => s :: b.walk
  | s@(simple _) => [s]
  | s@(goto _ _) => [s]
  | s@(ret _ _) => [s]
  | s@(brk _) => [s]
  | s@(cont _) => [s]
  | s@(empty _) => [s]

def walkAll : List Stmt → List Stmt
  | [] => []
  | s :: ss => s.walk ++ walkAll ss

def walkElse : Option Stmt → List Stmt
  | none => []
  | some s => s.walk
end

def isLoop : Stmt → Bool
  | whileDo .. | doWhile .. | forDo .. => true
  | _ => false

def control? : Stmt → Option Expr
  | ifElse c _ _ _ | whileDo c _ _ | doWhile _ c _ | switch c _ _ => some c
  | forDo _ c _ _ _ => c
  | _ => none

end Stmt

structure Param where
  name : Option String
  typeText : String
  deriving Repr

structure Function where
  name : String
  params : List Param
  body : Stmt
  /-- Parameters and the names declared anywhere in the body. -/
  locals : List String
  pos : Pos
  deriving Repr

/-- A source file as far as it could be read: a function with a fault is left out, its fault
kept. -/
structure SourceFile where
  path : String
  tokens : Array Token
  functions : List Function
  globals : List String
  interfaceGlobals : List String
  faults : List Fault

end JniContracts
