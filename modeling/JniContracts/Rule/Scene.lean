import JniContracts.Flow.Graph
import JniContracts.Rule.Spec
import JniContracts.Text.Alphanumeric

/-!
What rules ask about the code of a function: which calls are hazards, what reads or assigns a
variable, what tests it, and which branch of a test leaves nothing to be done.
-/

namespace JniContracts

namespace Expr

def isVar (var : String) (e : Expr) : Bool :=
  match e.strip with
  | name n _ => n == var
  | assign .set target _ _ => target.strip.name? == some var
  | _ => false

mutual
/-- Whether evaluating an expression reads a variable. The target of a plain assignment is not
read. -/
def reads (var : String) : Expr → Bool
  | assign op target value _ =>
    (match target.strip with
      | name n _ => op != .set && n == var
      | _ => reads var target) || reads var value
  | name n _ => n == var
  | call f args _ _ => reads var f || readsAny var args
  | member o _ _ _ => reads var o
  | index o i _ => reads var o || reads var i
  | unary _ e _ _ => reads var e
  | binary _ l r _ => reads var l || reads var r
  | conditional c a b _ => reads var c || reads var a || reads var b
  | cast _ e _ => reads var e
  | initList es _ => readsAny var es
  | literal .. | ellipsis _ | verbatim .. => false

def readsAny (var : String) : List Expr → Bool
  | [] => false
  | e :: es => reads var e || readsAny var es
end

def assigns (var : String) (e : Expr) : Bool :=
  e.walk.any fun part => match part with
    | assign .set target _ _ => target.strip.name? == some var
    | _ => false

/-- The variable in which an object is reached: through members, elements and pointers. -/
def rootName? : Expr → Option String
  | name n _ => some n
  | cast _ e _ | member e _ _ _ | index e _ _ | unary .deref e _ _ => e.rootName?
  | _ => none

def modified (e : Expr) : List String :=
  e.walk.filterMap fun part => match part with
    | assign _ target _ _ => target.rootName?
    | unary op operand _ _ => if op.isStep || op == .addr then operand.rootName? else none
    | _ => none

end Expr

def isIdentifier (s : String) : Bool :=
  match s.toList with
  | c :: rest => (c.isAlpha || c == '_') && rest.all Text.isWordChar
  | [] => false

namespace Stmt

def modified (s : Stmt) : List String :=
  ((s.evaluated.flatMap Expr.modified) ++
    s.walk.flatMap fun part => match part with
      | simple (.decl _ ds _) => ds.map (·.name)
      | _ => []).eraseDups

end Stmt

namespace Element

def nextSibling? (e : Element) : Option Stmt :=
  match e.ancestors.getLast?, e.address.getLast? with
  | some (.block ss _), some i => ss[i + 1]?
  | _, _ => none

end Element

namespace Site

/-- The loops that run the site again, the outermost first. The first clause of a `for` runs
once. -/
def loopsAround (s : Site) : List Stmt :=
  let loops := s.element.ancestors.filter Stmt.isLoop
  let loops := match s.element.role, s.element.ancestors.getLast? with
    | .init, some last => if last.isLoop then loops.dropLast else loops
    | _, _ => loops
  match s.element.role with
  | .cond | .step => if s.element.stmt.isLoop then loops ++ [s.element.stmt] else loops
  | _ => loops

end Site

namespace Settings

def isExceptionSafe (s : Settings) (name : String) : Bool :=
  s.exceptionSafe.contains name || s.exceptionChecks.contains name || s.exceptionClear.contains name

def isHazard (s : Settings) (c : Call) : Bool :=
  c.viaInterface && !c.callee?.any s.isExceptionSafe

def isTerminator (s : Settings) : Stmt → Bool
  | .ret .. | .goto .. => true
  | .simple (.expr e _) =>
    match e.strip.call? with
    | some c => !c.viaInterface && c.calls s.exitFunctions
    | none => false
  | _ => false

def terminates (s : Settings) (stmt : Stmt) : Bool := stmt.walk.any s.isTerminator

def clears (s : Settings) (stmt : Stmt) : Bool :=
  stmt.walk.any fun part => part.exprs.any fun e => e.calls.any (·.calls s.exceptionClear)

def isOneOf (names : List String) (e : Expr) : Bool :=
  match e.strip with
  | .name n _ => names.contains n
  | .literal t _ _ => names.contains t
  | _ => false

def isNull (s : Settings) (e : Expr) : Bool := isOneOf s.nullLiterals e

def isStatusOk (s : Settings) (e : Expr) : Bool := isOneOf s.statusOk e

def testsNull (s : Settings) (var : String) : Expr → Bool
  | .binary op l r _ =>
    if op.isEquality then (l.isVar var && s.isNull r) || (r.isVar var && s.isNull l)
    else (op == .and || op == .or) && (l.isVar var || r.isVar var)
  | .unary .not e _ _ => e.isVar var
  | .conditional c _ _ _ => c.isVar var
  | _ => false

/-- Whether expressions test a variable for null; a condition that is the variable does. -/
def nullTested (s : Settings) (exprs : List Expr) (var : String) (asCondition : Bool) : Bool :=
  exprs.any fun e => (asCondition && e.isVar var) || e.walk.any (s.testsNull var)

def nullBranch (s : Settings) (cond : Expr) (var : String) : Option Flow.EdgeKind :=
  match cond.strip with
  | .binary .eq l r _ =>
    if (l.isVar var && s.isNull r) || (r.isVar var && s.isNull l) then some .branchTrue else none
  | .binary .ne l r _ =>
    if (l.isVar var && s.isNull r) || (r.isVar var && s.isNull l) then some .branchFalse else none
  | .unary .not e _ _ => if e.isVar var then some .branchTrue else none
  | c => if c.isVar var then some .branchFalse else none

/-- The branch of a condition on which a status is not the good one, where errors are negative. The
subject is asked about places in the condition. -/
def failureBranch (s : Settings) (cond : Expr) (isSubject : Address → Expr → Bool) :
    Option Flow.EdgeKind :=
  let (place, c) := cond.stripAt []
  match c with
  | .binary op l r _ =>
    if op.isEquality || op == .lt || op == .gt then
      if (isSubject (place ++ [0]) l && s.isStatusOk r) ||
          (isSubject (place ++ [1]) r && s.isStatusOk l) then
        some (if op == .eq then .branchFalse else .branchTrue)
      else none
    else if isSubject place c then some .branchTrue else none
  | .unary .not e _ _ =>
    if isSubject (place ++ [0]) e then some .branchFalse
    else if isSubject place c then some .branchTrue else none
  | c => if isSubject place c then some .branchTrue else none

end Settings

end JniContracts
