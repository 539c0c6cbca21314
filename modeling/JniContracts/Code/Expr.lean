import JniContracts.Code.Op
import JniContracts.Source.Token

/-!
Expressions. Parentheses are not kept. A call through a function table or an interface pointer,
`(*env)->F(env, x)` or `env->F(x)`, is an interface call; both spellings have the same receiver,
callee and own arguments.
-/

namespace JniContracts

inductive LiteralKind where
  | number
  | string
  | char
  deriving DecidableEq, Repr

inductive Side where
  | before
  | behind
  deriving DecidableEq, Repr

inductive Expr where
  | name (name : String) (pos : Pos)
  | literal (text : String) (kind : LiteralKind) (pos : Pos)
  /-- The three dots of a pattern's argument list. -/
  | ellipsis (pos : Pos)
  | call (func : Expr) (args : List Expr) (viaInterface : Bool) (pos : Pos)
  | member (obj : Expr) (attr : String) (arrow : Bool) (pos : Pos)
  | index (obj subscript : Expr) (pos : Pos)
  | unary (op : UnOp) (operand : Expr) (side : Side) (pos : Pos)
  | binary (op : BinOp) (left right : Expr) (pos : Pos)
  | conditional (cond yes no : Expr) (pos : Pos)
  | assign (op : AssignOp) (target value : Expr) (pos : Pos)
  | cast (typeText : String) (operand : Expr) (pos : Pos)
  | initList (items : List Expr) (pos : Pos)
  /-- Tokens kept as they are: operands of `sizeof`, headers of range loops. -/
  | verbatim (text : String) (pos : Pos)
  deriving Repr, Inhabited

namespace Expr

def pos : Expr → Pos
  | name _ p | literal _ _ p | ellipsis p | call _ _ _ p | member _ _ _ p | index _ _ p
  | unary _ _ _ p | binary _ _ _ p | conditional _ _ _ p | assign _ _ _ p | cast _ _ p
  | initList _ p | verbatim _ p => p

def line (e : Expr) : Nat := e.pos.line

def strip : Expr → Expr
  | cast _ e _ => e.strip
  | e => e

def children : Expr → List Expr
  | call f args _ _ => f :: args
  | member e _ _ _ | unary _ e _ _ | cast _ e _ => [e]
  | index a b _ | binary _ a b _ | assign _ a b _ => [a, b]
  | conditional a b c _ => [a, b, c]
  | initList es _ => es
  | name _ _ | literal _ _ _ | ellipsis _ | verbatim _ _ => []

mutual
def walk : Expr → List Expr
  | e@(call f args _ _) => e :: (f.walk ++ walkAll args)
  | e@(member a _ _ _) => e :: a.walk
  | e@(index a b _) => e :: (a.walk ++ b.walk)
  | e@(unary _ a _ _) => e :: a.walk
  | e@(binary _ a b _) => e :: (a.walk ++ b.walk)
  | e@(conditional a b c _) => e :: (a.walk ++ b.walk ++ c.walk)
  | e@(assign _ a b _) => e :: (a.walk ++ b.walk)
  | e@(cast _ a _) => e :: a.walk
  | e@(initList es _) => e :: walkAll es
  | e@(name _ _) => [e]
  | e@(literal _ _ _) => [e]
  | e@(ellipsis _) => [e]
  | e@(verbatim _ _) => [e]

def walkAll : List Expr → List Expr
  | [] => []
  | e :: es => e.walk ++ walkAll es
end

/-- The pointer of a call through a function table: `env` in `(*env)->F`. -/
def tablePointer? : Expr → Option String
  | member obj _ true _ =>
    match obj.strip with
    | unary .deref (name r _) _ _ => some r
    | _ => none
  | _ => none

/-- The object of a member access that is a plain name: `env` in `env->F`. -/
def namedObject? : Expr → Option String
  | member obj _ _ _ =>
    match obj.strip with
    | name r _ => some r
    | _ => none
  | _ => none

def receiver? (func : Expr) : Option String :=
  match func.tablePointer? with
  | some r => some r
  | none => func.namedObject?

def callee? : Expr → Option String
  | name n _ => some n
  | member _ attr _ _ => some attr
  | _ => none

end Expr

structure Call where
  func : Expr
  args : List Expr
  viaInterface : Bool
  pos : Pos

namespace Call

def receiver? (c : Call) : Option String := c.func.receiver?

def callee? (c : Call) : Option String := c.func.callee?

/-- The arguments without the pointer that a call through a function table repeats in front. -/
def ownArgs (c : Call) : List Expr :=
  if c.viaInterface && c.func.tablePointer?.isSome then c.args.drop 1 else c.args

def calls (c : Call) (names : List String) : Bool :=
  match c.callee? with
  | some n => names.contains n
  | none => false

end Call

namespace Expr

def call? : Expr → Option Call
  | call func args viaInterface pos => some ⟨func, args, viaInterface, pos⟩
  | _ => none

def calls (e : Expr) : List Call := e.walk.filterMap call?

def name? : Expr → Option String
  | name n _ => some n
  | _ => none

/-- Whether a part of this form stands in parentheses inside a larger expression. -/
def isLoose : Expr → Bool
  | binary .. | assign .. | conditional .. => true
  | _ => false

def enclose (e : Expr) (text : String) : String := if e.isLoose then "(" ++ text ++ ")" else text

def commaList (texts : List String) : String := ", ".intercalate texts

mutual
def render : Expr → String
  | name n _ => n
  | literal t _ _ => t
  | ellipsis _ => "..."
  | call f args viaInterface _ =>
    let texts := renderAll args
    match viaInterface, f.receiver?, f.callee? with
    | true, some r, some n =>
      r ++ "->" ++ n ++ "(" ++ commaList
        (if f.tablePointer?.isSome then texts.drop 1 else texts) ++ ")"
    | _, _, _ => enclose f f.render ++ "(" ++ commaList texts ++ ")"
  | member obj attr arrow _ => enclose obj obj.render ++ (if arrow then "->" else ".") ++ attr
  | index obj i _ => enclose obj obj.render ++ "[" ++ i.render ++ "]"
  | unary op e .behind _ => enclose e e.render ++ op.text
  | unary op e .before _ => op.text ++ op.gap ++ enclose e e.render
  | binary .comma a b _ => enclose a a.render ++ ", " ++ enclose b b.render
  | binary op a b _ => enclose a a.render ++ " " ++ op.text ++ " " ++ enclose b b.render
  | conditional c a b _ =>
    enclose c c.render ++ " ? " ++ enclose a a.render ++ " : " ++ enclose b b.render
  | assign op a b _ => a.render ++ " " ++ op.text ++ " " ++ b.render
  | cast t e _ => "(" ++ t ++ ")" ++ enclose e e.render
  | initList es _ => "\x7b" ++ commaList (renderAll es) ++ "\x7d"
  | verbatim t _ => t

def renderAll : List Expr → List String
  | [] => []
  | e :: es => e.render :: renderAll es
end

end Expr

end JniContracts
