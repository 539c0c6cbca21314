import JniContracts.Pattern.Instances

/-!
Queries: where in a function a pattern has instances that pass a list of filters.
-/

namespace JniContracts

inductive RuleError where
  | unbound (var : String)
  | noVariable (rule : String)
  deriving DecidableEq, Repr

structure Membership where
  name : String
  values : List String
  negate : Bool
  deriving DecidableEq, Repr

namespace Membership

def accepts (m : Membership) (b : Bindings) : Except RuleError Bool :=
  match b.get? m.name with
  | none => .error (.unbound m.name)
  | some t => .ok (m.values.contains t != m.negate)

/-- Whether all filters accept; those behind the first that refuses are not asked. -/
def allAccept : List Membership → Bindings → Except RuleError Bool
  | [], _ => .ok true
  | m :: ms, b =>
    match m.accepts b with
    | .error e => .error e
    | .ok false => .ok false
    | .ok true => allAccept ms b

end Membership

inductive BlockKind where
  | any
  | branch
  | loop
  | label
  deriving DecidableEq, Repr

/-- A pattern for a statement that encloses others. -/
structure BlockPattern where
  kind : BlockKind
  /-- To be found in the controlling expression. -/
  cond : Option Patterns
  /-- To be found in the enclosed statements. -/
  body : Option Patterns
  /-- The name of the label, for a label. -/
  label : Option String

namespace BlockPattern

def admits (p : BlockPattern) (s : Stmt) : Bool :=
  match p.kind, s with
  | .any, _ => true
  | .branch, .ifElse .. => true
  | .loop, s => s.isLoop
  | .label, .label n _ _ => p.label.all (· == n)
  | _, _ => false

def instances (p : BlockPattern) (s : Stmt) (b : Bindings) : List Bindings :=
  if !p.admits s then []
  else
    let found := match p.cond with
      | none => [b]
      | some cond => match s.control? with
        | none => []
        | some c => cond.inExprs [c] b
    let found := match p.body with
      | none => found
      | some body => found.flatMap fun b => s.children.flatMap fun child => body.inStmt child b
    found.eraseDups

def matchesAny (p : BlockPattern) (ancestors : List Stmt) (b : Bindings) : Bool :=
  ancestors.any fun s => !(p.instances s b).isEmpty

end BlockPattern

/-- An accepted instance: the element, which of its expressions, the place in it, and the
bindings. -/
structure Site where
  element : Element
  root : Nat
  spot : Spot
  bindings : Bindings

namespace Site

def expr (s : Site) : Expr := s.spot.expr

def assignedTo (s : Site) : Option String := s.spot.assignedTo

def line (s : Site) : Nat := if s.expr.line == 0 then s.element.stmt.line else s.expr.line

def col (s : Site) : Nat := s.expr.pos.col

def enclosingCalls (s : Site) : List Call :=
  match s.element.exprs[s.root]? with
  | some e => e.callsAround s.spot.address
  | none => []

def place (s : Site) : (Address × Role) × Nat × Address := (s.element.key, s.root, s.spot.address)

end Site

structure Query where
  pattern : Patterns
  filters : List Membership
  exclude : List Patterns
  inside : List BlockPattern
  notInside : List BlockPattern

namespace Query

def accepts (q : Query) (el : Element) (e : Expr) (b : Bindings) : Except RuleError Bool := do
  if ← Membership.allAccept q.filters b then
    pure (!(q.exclude.any fun p => p.matchesAt e b) &&
      (q.inside.all fun p => p.matchesAny el.ancestors b) &&
      !(q.notInside.any fun p => p.matchesAny el.ancestors b))
  else pure false

def sitesOf (q : Query) (el : Element) (root : Nat) (spot : Spot) : Except RuleError (List Site) :=
  do
  match spot.expr with
  | .cast .. => pure []
  | e =>
    let accepted ← (q.pattern.instancesAt e .empty).filterM fun b => q.accepts el e b
    pure (accepted.map fun b => ⟨el, root, spot, b⟩)

def sitesIn (q : Query) (el : Element) : Except RuleError (List Site) := do
  let groups ← el.exprs.zipIdx.mapM fun (e, root) => do
    let parts ← e.spots.mapM fun spot => q.sitesOf el root spot
    pure parts.flatten
  pure groups.flatten

def sites (q : Query) (f : Function) : Except RuleError (List Site) := do
  let groups ← f.body.elements.mapM q.sitesIn
  pure groups.flatten

end Query

end JniContracts
