import JniContracts.Code.Element

/-!
Control-flow graphs: blocks of elements that run one after the other, and edges between blocks. The
edges are kept in the order in which they were made.
-/

namespace JniContracts.Flow

inductive EdgeKind where
  | fallThrough
  | branchTrue
  | branchFalse
  | backEdge
  | goto
  | ret
  | exit
  | switchCase
  | brk
  | cont
  deriving DecidableEq, Repr

namespace EdgeKind

def text : EdgeKind → String
  | fallThrough => "fall-through" | branchTrue => "branch-true" | branchFalse => "branch-false"
  | backEdge => "back-edge" | goto => "goto" | ret => "return" | exit => "exit"
  | switchCase => "switch-case" | brk => "break" | cont => "continue"

def all : List EdgeKind :=
  [fallThrough, branchTrue, branchFalse, backEdge, goto, ret, exit, switchCase, brk, cont]

end EdgeKind

inductive BlockKind where
  | entry
  | exit
  | body
  | join
  | yes
  | no
  | loopHeader
  | loopBody
  | loopStep
  | loopExit
  | switchExit
  | case
  | label
  deriving DecidableEq, Repr

namespace BlockKind

def text : BlockKind → String
  | entry =>
    "entry" | exit => "exit" | body => "body" | join => "join" | yes => "then" | no => "else"
  | loopHeader => "loop-header" | loopBody => "loop-body" | loopStep => "loop-step"
  | loopExit => "loop-exit" | switchExit => "switch-exit" | case => "case" | label => "label"

end BlockKind

structure Block where
  id : Nat
  kind : BlockKind
  elements : List Element

structure Edge where
  source : Nat
  target : Nat
  kind : EdgeKind
  deriving DecidableEq, Repr

structure Graph where
  entry : Nat
  exit : Nat
  /-- The blocks that control can come to, and the exit. -/
  blocks : List Block
  unreachable : List Block
  edges : List Edge

structure Position where
  block : Nat
  index : Nat
  deriving DecidableEq, Repr

namespace Graph

def block? (g : Graph) (id : Nat) : Option Block := g.blocks.find? fun b => b.id == id

def successors (g : Graph) (id : Nat) : List Edge := g.edges.filter fun e => e.source == id

def predecessors (g : Graph) (id : Nat) : List Edge := g.edges.filter fun e => e.target == id

def placed (g : Graph) : List (Position × Element) :=
  g.blocks.flatMap fun b => b.elements.zipIdx.map fun (e, i) => (⟨b.id, i⟩, e)

/-- The position of an element that control can come to. -/
def position? (g : Graph) (key : Address × Role) : Option Position :=
  (g.placed.find? fun (_, e) => e.key == key).map (·.1)

def elementAt? (g : Graph) (p : Position) : Option Element :=
  (g.block? p.block).bind fun b => b.elements[p.index]?

end Graph

end JniContracts.Flow
