import JniContracts.Code.Element
import JniContracts.Parse.Expr
import JniContracts.Pattern.Metavariable

/-!
Patterns and their instances. A pattern is an expression in which metavariables stand for
expressions or for parts of names, and three dots for any run of arguments.
-/

namespace JniContracts

def suffixes {α : Type} : List α → List (List α)
  | [] => [[]]
  | a :: as => (a :: as) :: suffixes as

namespace Expr

mutual
/-- The bindings that extend `b` and under which a node is an instance of a pattern. Casts of the
node do not count, unless the pattern is a cast. -/
def instances : Expr → Expr → Bindings → List Bindings
  | ellipsis _, _, b => [b]
  | name p _, node, b =>
    match soleVariable? p, node.strip with
    | some v, node => (b.bind v node.render).toList
    | none, name n _ => (NamePattern.match? p n b).toList
    | none, _ => []
  | call f args viaInterface _, node, b =>
    match node.strip.call? with
    | none => []
    | some c =>
      if viaInterface then
        if c.viaInterface then
          match (NamePattern.matchOption (f.receiver?.getD "") c.receiver? b).bind
              (NamePattern.matchOption (f.callee?.getD "") c.callee?) with
          | none => []
          | some b =>
            match f.tablePointer?.isSome, args with
            | true, _ :: own => instancesOfAll own c.ownArgs b
            | _, args => instancesOfAll args c.ownArgs b
        else []
      else
        match c.viaInterface, f.name? with
        | true, some p =>
          match NamePattern.matchOption p c.callee? b with
          | none => []
          | some b => instancesOfAll args c.ownArgs b
        | _, _ => (instances f c.func b).flatMap fun b => instancesOfAll args c.args b
  | literal t _ _, node, b =>
    match node.strip with
    | literal u _ _ => if u == t then [b] else []
    | _ => []
  | member o attr arrow _, node, b =>
    match node.strip with
    | member o' attr' arrow' _ =>
      if arrow == arrow' then
        match NamePattern.match? attr attr' b with
        | some b => instances o o' b
        | none => []
      else []
    | _ => []
  | index o i _, node, b =>
    match node.strip with
    | index o' i' _ => (instances o o' b).flatMap (instances i i')
    | _ => []
  | unary op e side _, node, b =>
    match node.strip with
    | unary op' e' side' _ => if op == op' && side == side' then instances e e' b else []
    | _ => []
  | binary op l r _, node, b =>
    match node.strip with
    | binary op' l' r' _ =>
      if op == op' then
        (instances l l' b).flatMap (instances r r') ++
          if op.isEquality then (instances l r' b).flatMap (instances r l') else []
      else []
    | _ => []
  | conditional c x y _, node, b =>
    match node.strip with
    | conditional c' x' y' _ =>
      ((instances c c' b).flatMap (instances x x')).flatMap (instances y y')
    | _ => []
  | assign op t v _, node, b =>
    match node.strip with
    | assign op' t' v' _ => if op == op' then (instances t t' b).flatMap (instances v v') else []
    | _ => []
  | cast t e _, node, b =>
    match node with
    | cast t' e' _ => if t == t' then instances e e' b else []
    | _ => []
  | initList es _, node, b =>
    match node.strip with
    | initList es' _ => instancesOfAll es es' b
    | _ => []
  | verbatim t _, node, b =>
    match node.strip with
    | verbatim u _ => if t == u then [b] else []
    | _ => []

/-- Instances of a list of patterns in order, where three dots take any run of nodes. -/
def instancesOfAll : List Expr → List Expr → Bindings → List Bindings
  | [], [], b => [b]
  | [], _ :: _, _ => []
  | ellipsis _ :: ps, nodes, b => (suffixes nodes).flatMap fun rest => instancesOfAll ps rest b
  | _ :: _, [], _ => []
  | p :: ps, n :: ns, b => (instances p n b).flatMap fun b => instancesOfAll ps ns b
end

end Expr

structure Pattern where
  text : String
  expr : Expr

namespace Pattern

def metavariables (p : Pattern) : List String := JniContracts.metavariables p.text

def compile (text : String) : Except Stop Pattern := do
  let text := Text.trim text
  pure ⟨text, ← Expr.parse text []⟩

end Pattern

abbrev Patterns := List Pattern

namespace Patterns

def compile (texts : List String) : Except Stop Patterns := texts.mapM Pattern.compile

def metavariables (ps : Patterns) : List String := (ps.flatMap Pattern.metavariables).eraseDups

def instancesAt (ps : Patterns) (node : Expr) (b : Bindings) : List Bindings :=
  (ps.flatMap fun p => p.expr.instances node b).eraseDups

def matchesAt (ps : Patterns) (node : Expr) (b : Bindings) : Bool :=
  !(ps.instancesAt node b).isEmpty

def inExprs (ps : Patterns) (nodes : List Expr) (b : Bindings) : List Bindings :=
  (nodes.flatMap fun e => e.walk.flatMap fun part => ps.instancesAt part b).eraseDups

def inStmt (ps : Patterns) (s : Stmt) (b : Bindings) : List Bindings := ps.inExprs s.evaluated b

end Patterns

end JniContracts
