import JniContracts.Flow.Build
import JniContracts.Flow.Coverage
import JniContracts.Rule.Scene

/-!
Evaluating rules on functions: at each site of a rule's trigger, whether the contract is broken.
-/

namespace JniContracts

namespace RuleError

def message : RuleError → String
  | unbound var => s!"metavariable ${var} is not bound by the pattern"
  | noVariable rule => s!"rule {rule}: pattern does not bind $VAR"

end RuleError

structure Scene where
  file : String
  function : Function
  settings : Settings
  /-- A branch on an exception check. -/
  guard : BlockPattern
  graph : Except Flow.FlowError Flow.Graph

namespace Scene

def guardOf (s : Settings) : Except Stop BlockPattern := do
  let cond ← Patterns.compile
    (s.exceptionChecks.map fun name => s!"(*$GUARD_ENV)->{name}($GUARD_ENV)")
  pure ⟨.branch, some cond, none, none⟩

def make (file : String) (s : Settings) (f : Function) : Except Stop Scene := do
  let guard ← guardOf s
  pure ⟨file, f, s, guard, Flow.build s.exitFunctions f⟩

def start? (scene : Scene) (site : Site) : Option (Flow.Graph × Flow.Position) :=
  match scene.graph with
  | .ok g => (g.position? site.element.key).map fun p => (g, p)
  | .error _ => none

def callsOne (names : List String) (exprs : List Expr) : Bool :=
  exprs.any fun e => e.calls.any (·.calls names)

def handles (scene : Scene) (handler : Handler) (el : Element) : Bool :=
  let s := scene.settings
  let lenient := handler == .handled
  if !callsOne s.exceptionChecks el.exprs then lenient && callsOne s.exceptionClear el.exprs
  else
    match el.role, el.stmt with
    | .cond, .ifElse _ yes no _ =>
      if lenient then (yes :: no.toList).any fun b => s.clears b || s.terminates b
      else s.clears yes && (s.terminates yes || el.nextSibling?.any s.isTerminator)
    | _, _ => lenient

/-- An exception may be pending behind the trigger: it has to be dealt with before the next hazard,
before the result is read, before the call runs again, and before the function is left. -/
def breaksExceptionCheck (scene : Scene) (rule : Rule) (site : Site) : Bool :=
  match scene.start? site with
  | none => false
  | some (g, position) =>
    let s := scene.settings
    let lenient := rule.handler == .handled
    let el := site.element
    if site.enclosingCalls.any s.isHazard then true
    else if lenient && el.role == .cond &&
        site.assignedTo.any (fun var => s.nullTested el.exprs var true) then false
    else
      let classify (el : Element) : Flow.Verdict :=
        if scene.handles rule.handler el then .satisfied
        else if el.calls.any s.isHazard then .violated
        else
          match site.assignedTo with
          | some var =>
            if Expr.readsAny var el.exprs then
              if el.role == .cond && s.nullTested el.exprs var true then
                if lenient then .satisfied else .pending
              else .violated
            else .pending
          | none => .pending
      !(Flow.Obligation.coverage ⟨position, classify, .violated, .violated,
        fun _ _ => false⟩ g).isSatisfied

def breaksNullCheck (scene : Scene) (rule : Rule) (site : Site) : Except RuleError Bool :=
  match site.bindings.get? "VAR" with
  | none => .error (.noVariable rule.id)
  | some var =>
    if !isIdentifier var then .ok false
    else
      match scene.start? site with
      | none => .ok false
      | some (g, position) =>
        let s := scene.settings
        let tested (el : Element) : Bool := s.nullTested el.exprs var (el.role == .cond)
        if tested site.element then .ok false
        else
          let classify (el : Element) : Flow.Verdict :=
            if tested el then .satisfied
            else if Expr.readsAny var el.exprs then .violated
            else if el.exprs.any (Expr.assigns var) then .satisfied
            else .pending
          .ok !(Flow.Obligation.coverage
            ⟨position, classify, .satisfied, .satisfied, fun _ _ => false⟩ g).isSatisfied

def releases (requires : Patterns) (b : Bindings) (el : Element) : Bool :=
  requires.any fun p => el.exprs.any fun e => !(Patterns.inExprs [p] [e] b).isEmpty

def stores (f : Function) (var : String) : Expr → Bool
  | .assign .set target value _ =>
    value.isVar var && !(target.strip.name?.any f.locals.contains)
  | _ => false

/-- Whether an element hands a variable on, to the caller or to a place that outlives the
function. -/
def escapes (scene : Scene) (rule : Rule) (var : String) (el : Element) : Bool :=
  rule.escapeOnReturn &&
    if el.role == .ret then el.exprs.any (Expr.isVar var)
    else el.exprs.any fun e => e.walk.any (stores scene.function var)

def isSubject (site : Site) (status : Option String) (el : Element) (place : Address) (e : Expr) :
    Bool :=
  let (place, part) := e.stripAt place
  (el.key == site.element.key && site.root == 0 && place == site.spot.address) ||
    status.any fun var => part.isVar var

def exempts (scene : Scene) (rule : Rule) (site : Site) (el : Element) (edge : Flow.Edge) : Bool :=
  let s := scene.settings
  let var := site.bindings.get? "VAR"
  let status := if var.isNone then site.assignedTo else none
  match el.stmt, el.exprs with
  | .ifElse .., cond :: _ | .whileDo .., cond :: _ | .forDo .., cond :: _ =>
    (rule.nullGuard && var.any fun v => s.nullBranch cond v == some edge.kind) ||
      (rule.statusGuard && s.failureBranch cond (isSubject site status el) == some edge.kind)
  | _, _ => false

/-- What was acquired has to be released on every way out, before it is overwritten, and before it
is acquired again. -/
def breaksRelease (scene : Scene) (c : CompiledRule) (site : Site) : Bool :=
  let var := site.bindings.get? "VAR"
  if c.rule.localOnly && var.any
    (fun v => !isIdentifier v || !scene.function.locals.contains v) then false
  else
    match scene.start? site with
    | none => false
    | some (g, position) =>
      let classify (el : Element) : Flow.Verdict :=
        if releases c.requires site.bindings el || var.any
          (fun v => scene.escapes c.rule v el) then .satisfied
        else if var.any fun v => el.exprs.any (Expr.assigns v) then .violated
        else .pending
      !(Flow.Obligation.coverage
        ⟨position, classify, .violated, .violated, scene.exempts c.rule site⟩ g).isSatisfied

def riskyLoop? (scene : Scene) (site : Site) : Option (Call × Stmt) :=
  match site.expr.call?, site.loopsAround.getLast? with
  | some c, some loop =>
    if c.callee?.any scene.settings.isExceptionSafe then none else some (c, loop)
  | _, _ => none

/-- A loop has to check for exceptions somewhere, or the call has to stand under such a check. -/
def breaksLoopException (scene : Scene) (site : Site) : Bool :=
  match scene.riskyLoop? site with
  | none => false
  | some (_, loop) =>
    !callsOne scene.settings.exceptionChecks loop.evaluated &&
      !scene.guard.matchesAny site.element.ancestors .empty

def breaksLoopInvariant (scene : Scene) (site : Site) : Bool :=
  match scene.riskyLoop? site with
  | none => false
  | some (c, loop) =>
    let parts := c.ownArgs.flatMap Expr.walk
    let changed := loop.modified
    parts.all (fun e => e.call?.isNone) && !(parts.filterMap Expr.name?).any changed.contains

def breaks (scene : Scene) (c : CompiledRule) (site : Site) : Except RuleError Bool :=
  match c.rule.kind with
  | .exceptionCheck => .ok (scene.breaksExceptionCheck c.rule site)
  | .nullCheck => scene.breaksNullCheck c.rule site
  | .release => .ok (scene.breaksRelease c site)
  | .loopException => .ok (scene.breaksLoopException site)
  | .loopInvariant => .ok (scene.breaksLoopInvariant site)

def oncePerPlace : List Site → List Site
  | [] => []
  | s :: rest => s :: (oncePerPlace rest).filter (·.place != s.place)

def finding (scene : Scene) (rule : Rule) (site : Site) : Finding where
  ruleId := rule.id
  file := scene.file
  line := site.line
  column := site.col
  function := some scene.function.name
  severity := rule.severity
  message := fillIn rule.message site.bindings
  bindings := site.bindings

def evaluate (scene : Scene) (c : CompiledRule) : Except RuleError (List Finding) := do
  let sites ← c.query.sites scene.function
  let broken ← (oncePerPlace sites).filterM (scene.breaks c)
  pure (broken.map (scene.finding c.rule))

end Scene

end JniContracts
