import JniContracts.Code.Stmt

/-!
Elements: the parts of statements that evaluate expressions. A statement is identified by its
address, the child numbers on the way to it from the body of its function; two statements that look
alike have different addresses.
-/

namespace JniContracts

abbrev Address := List Nat

inductive Role where
  | stmt
  | cond
  | init
  | step
  | ret
  | goto
  deriving DecidableEq, Repr

namespace Role

def text : Role → String
  | stmt =>
    "stmt" | cond => "cond" | init => "init" | step => "step" | ret => "return" | goto => "goto"

end Role

structure Element where
  address : Address
  stmt : Stmt
  role : Role
  exprs : List Expr
  /-- The statements around it, the outermost first. -/
  ancestors : List Stmt

namespace Element

def line (e : Element) : Nat :=
  match e.exprs with
  | x :: _ => if x.line == 0 then e.stmt.line else x.line
  | [] => e.stmt.line

/-- An element is known by its statement and its role there. -/
def key (e : Element) : Address × Role := (e.address, e.role)

def calls (e : Element) : List Call := e.exprs.flatMap Expr.calls

end Element

namespace Stmt

mutual
/-- The elements of a statement in the order of the text, where `up` are the statements around
it. -/
def elementsIn (up : List Stmt) (addr : Address) : Stmt → List Element
  | s@(block ss _) => elementsOfAll (up ++ [s]) addr 0 ss
  | s@(simple x) => [⟨addr, s, .stmt, x.exprs, up⟩]
  | s@(ifElse c a b _) =>
    ⟨addr, s, .cond, [c], up⟩ ::
      (elementsIn (up ++ [s]) (addr ++ [0]) a ++ elementsOfElse (up ++ [s]) (addr ++ [1]) b)
  | s@(whileDo c b _) => ⟨addr, s, .cond, [c], up⟩ :: elementsIn (up ++ [s]) (addr ++ [0]) b
  | s@(doWhile b c _) => elementsIn (up ++ [s]) (addr ++ [0]) b ++ [⟨addr, s, .cond, [c], up⟩]
  | s@(forDo i c t b _) =>
    i.toList.map (fun x => ⟨addr ++ [0], simple x, .init, x.exprs, up ++ [s]⟩) ++
      c.toList.map (fun c => ⟨addr, s, .cond, [c], up⟩) ++
      elementsIn (up ++ [s]) (addr ++ [1]) b ++
      t.toList.map (fun t => ⟨addr, s, .step, [t], up⟩)
  | s@(switch c b _) => ⟨addr, s, .cond, [c], up⟩ :: elementsIn (up ++ [s]) (addr ++ [0]) b
  | s@(case _ b _) => elementsIn (up ++ [s]) (addr ++ [0]) b
  | s@(label _ b _) => elementsIn (up ++ [s]) (addr ++ [0]) b
  | s@(ret v _) => [⟨addr, s, .ret, v.toList, up⟩]
  | s@(goto _ _) => [⟨addr, s, .goto, [], up⟩]
  | brk _ | cont _ | empty _ => []

def elementsOfAll (up : List Stmt) (addr : Address) : Nat → List Stmt → List Element
  | _, [] => []
  | n, s :: ss => elementsIn up (addr ++ [n]) s ++ elementsOfAll up addr (n + 1) ss

def elementsOfElse (up : List Stmt) (addr : Address) : Option Stmt → List Element
  | none => []
  | some s => elementsIn up addr s
end

def elements (s : Stmt) : List Element := s.elementsIn [] []

def evaluated (s : Stmt) : List Expr := s.elements.flatMap Element.exprs

end Stmt

/-- A place in an expression: the child numbers on the way, the part there, and the variable that is
given the value of the part directly. -/
structure Spot where
  address : Address
  expr : Expr
  assignedTo : Option String

namespace Expr

def assigned? : Expr → Option String
  | assign _ target _ _ => target.strip.name?
  | _ => none

def spot (holder : Option String) (addr : Address) (e : Expr) : Spot :=
  match e with
  | assign .. => ⟨addr, e, e.assigned?⟩
  | _ => ⟨addr, e, holder⟩

mutual
/-- All places in an expression, in the order of `walk`. `holder` is the variable that is given the
value of the expression; casts pass it on. -/
def spotsIn (holder : Option String) (addr : Address) : Expr → List Spot
  | e@(call f args _ _) =>
    e.spot holder addr :: (spotsIn none (addr ++ [0]) f ++ spotsOfAll addr 1 args)
  | e@(member a _ _ _) => e.spot holder addr :: spotsIn none (addr ++ [0]) a
  | e@(index a b _) =>
    e.spot holder addr :: (spotsIn none (addr ++ [0]) a ++ spotsIn none (addr ++ [1]) b)
  | e@(unary _ a _ _) => e.spot holder addr :: spotsIn none (addr ++ [0]) a
  | e@(binary _ a b _) =>
    e.spot holder addr :: (spotsIn none (addr ++ [0]) a ++ spotsIn none (addr ++ [1]) b)
  | e@(conditional a b c _) =>
    e.spot holder addr :: (spotsIn none (addr ++ [0]) a ++ spotsIn none (addr ++ [1]) b ++
      spotsIn none (addr ++ [2]) c)
  | e@(assign op a b _) =>
    e.spot holder addr :: (spotsIn none (addr ++ [0]) a ++
      spotsIn (if op == .set then a.strip.name? else none) (addr ++ [1]) b)
  | e@(cast _ a _) => e.spot holder addr :: spotsIn holder (addr ++ [0]) a
  | e@(initList es _) => e.spot holder addr :: spotsOfAll addr 0 es
  | e@(name _ _) => [e.spot holder addr]
  | e@(literal _ _ _) => [e.spot holder addr]
  | e@(ellipsis _) => [e.spot holder addr]
  | e@(verbatim _ _) => [e.spot holder addr]

def spotsOfAll (addr : Address) : Nat → List Expr → List Spot
  | _, [] => []
  | n, e :: es => spotsIn none (addr ++ [n]) e ++ spotsOfAll addr (n + 1) es
end

def spots (e : Expr) : List Spot := e.spotsIn none []

def stripAt (addr : Address) : Expr → Address × Expr
  | cast _ e _ => stripAt (addr ++ [0]) e
  | e => (addr, e)

def callsAround : Address → Expr → List Call
  | [], _ => []
  | n :: rest, e =>
    e.call?.toList ++ match e.children[n]? with
      | some child => callsAround rest child
      | none => []

end Expr

end JniContracts
