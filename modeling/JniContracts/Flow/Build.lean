import JniContracts.Flow.Graph

/-!
The control-flow graph of a function body. Conditions may go either way, except those of loops that
are true or false literals. A call of an exit function leaves the function.
-/

namespace JniContracts.Flow

inductive FlowError where
  | labelTwice (name : String) (line : Nat)
  | strayBreak (line : Nat)
  | strayContinue (line : Nat)
  | strayCase (line : Nat)
  | noLabel (name : String) (line : Nat)
  deriving DecidableEq, Repr

namespace FlowError

def line : FlowError → Nat
  | labelTwice _ n | strayBreak n | strayContinue n | strayCase n | noLabel _ n => n

def message : FlowError → String
  | labelTwice name _ => s!"label '{name}' defined twice"
  | strayBreak _ => "'break' outside a loop or switch"
  | strayContinue _ => "'continue' outside a loop"
  | strayCase _ => "'case' outside a switch"
  | noLabel name _ => s!"goto target '{name}' is not defined in this function"

end FlowError

def defaultExitFunctions : List String := ["exit", "_exit", "_Exit", "abort"]

def trueLiterals : List String := ["1", "true", "TRUE", "JNI_TRUE"]
def falseLiterals : List String := ["0", "false", "FALSE", "JNI_FALSE"]

def isConstant (literals : List String) (e : Expr) : Bool :=
  match e.strip with
  | .literal t _ _ => literals.contains t
  | .name n _ => literals.contains n
  | _ => false

def isExitCall (exits : List String) (e : Expr) : Bool :=
  match e.strip.call? with
  | some c => !c.viaInterface && c.receiver?.isNone && c.calls exits
  | none => false

mutual
/-- Whether a statement holds a default label of the switch around it. -/
def hasDefault : Stmt → Bool
  | .case none _ _ => true
  | .case (some _) s _ => hasDefault s
  | .label _ s _ => hasDefault s
  | .block ss _ => hasDefaultAmong ss
  | .ifElse _ a b _ => hasDefault a || hasDefaultElse b
  | .whileDo _ b _ => hasDefault b
  | .doWhile b _ _ => hasDefault b
  | .forDo _ _ _ b _ => hasDefault b
  | .switch .. | .simple _ | .goto .. | .ret .. | .brk _ | .cont _ | .empty _ => false

def hasDefaultAmong : List Stmt → Bool
  | [] => false
  | s :: ss => hasDefault s || hasDefaultAmong ss

def hasDefaultElse : Option Stmt → Bool
  | none => false
  | some s => hasDefault s
end

/-- Where the jumps of a statement lead: out of the innermost loop or switch, on in the innermost
loop, and the block that chooses among the cases of the innermost switch. -/
structure Scope where
  brk : Option Nat
  cont : Option Nat
  dispatch : Option Nat

/-- A `goto` to be linked once all labels are known. -/
structure Pending where
  source : Nat
  label : String
  line : Nat

structure Draft where
  blocks : Array Block
  edges : Array Edge
  labels : List (String × Nat)
  gotos : List Pending

end Flow

abbrev BuildM := StateT Flow.Draft (Except Flow.FlowError)

namespace Flow

def newBlock (kind : BlockKind) : BuildM Nat := do
  let d ← get
  set { d with blocks := d.blocks.push ⟨d.blocks.size, kind, []⟩ }
  pure d.blocks.size

def link (source target : Nat) (kind : EdgeKind) : BuildM Unit :=
  modify fun d => { d with edges := d.edges.push ⟨source, target, kind⟩ }

def linkFrom (source : Option Nat) (target : Nat) (kind : EdgeKind) : BuildM Unit :=
  match source with
  | some s => link s target kind
  | none => pure ()

def append (id : Nat) (e : Element) : BuildM Unit :=
  modify fun d => { d with
    blocks := d.blocks.modify id fun b => { b with elements := b.elements ++ [e] } }

def exitId : Nat := 1

/-- Code behind a jump starts a block of its own. -/
def current (cur : Option Nat) : BuildM Nat :=
  match cur with
  | some id => pure id
  | none => newBlock .body

/-- Jumps are possible only to a target that is there. -/
def target (t : Option Nat) (e : FlowError) : BuildM Nat :=
  match t with
  | some id => pure id
  | none => throw e

def openLabel (name : String) (line cur : Nat) : BuildM Nat := do
  if ((← get).labels.lookup name).isSome then throw (.labelTwice name line)
  let block ← newBlock .label
  link cur block .fallThrough
  modify fun d => { d with labels := d.labels ++ [(name, block)] }
  pure block

mutual
/-- Adds a statement that starts in `cur`, or behind a jump. The result is the block in which
control comes out, if it does. `up` are the statements around it and `addr` is its address. -/
def addStmt (exits : List String) (scope : Scope) (up : List Stmt) (addr : Address) :
    Stmt → Option Nat → BuildM (Option Nat)
  | s@(.block ss _), cur => do
    let cur ← current cur
    addAll exits scope (up ++ [s]) addr 0 ss (some cur)
  | s@(.simple x), cur => do
    let cur ← current cur
    match x with
    | .expr e _ =>
      append cur ⟨addr, s, .stmt, x.exprs, up⟩
      if isExitCall exits e then
        link cur exitId .exit
        pure none
      else pure (some cur)
    | .decl .. =>
      if !x.exprs.isEmpty then append cur ⟨addr, s, .stmt, x.exprs, up⟩
      pure (some cur)
  | s@(.ret v _), cur => do
    let cur ← current cur
    append cur ⟨addr, s, .ret, v.toList, up⟩
    link cur exitId .ret
    pure none
  | s@(.goto l p), cur => do
    let cur ← current cur
    append cur ⟨addr, s, .goto, [], up⟩
    modify fun d => { d with gotos := d.gotos ++ [⟨cur, l, p.line⟩] }
    pure none
  | .brk p, cur => do
    let cur ← current cur
    link cur (← target scope.brk (.strayBreak p.line)) .brk
    pure none
  | .cont p, cur => do
    let cur ← current cur
    link cur (← target scope.cont (.strayContinue p.line)) .cont
    pure none
  | .empty _, cur => do
    let cur ← current cur
    pure (some cur)
  | s@(.ifElse c a b _), cur => do
    let cur ← current cur
    append cur ⟨addr, s, .cond, [c], up⟩
    let join ← newBlock .join
    let yes ← newBlock .yes
    link cur yes .branchTrue
    linkFrom (← addStmt exits scope (up ++ [s]) (addr ++ [0]) a (some yes)) join .fallThrough
    addElse exits scope (up ++ [s]) (addr ++ [1]) cur join b
    pure (some join)
  | s@(.whileDo c b _), cur => do
    let cur ← current cur
    let header ← newBlock .loopHeader
    link cur header .fallThrough
    append header ⟨addr, s, .cond, [c], up⟩
    let body ← newBlock .loopBody
    let after ← newBlock .loopExit
    link header body .branchTrue
    if !isConstant trueLiterals c then link header after .branchFalse
    let inner := { scope with brk := some after, cont := some header }
    linkFrom (← addStmt exits inner (up ++ [s]) (addr ++ [0]) b (some body)) header .backEdge
    pure (some after)
  | s@(.doWhile b c _), cur => do
    let cur ← current cur
    let body ← newBlock .loopBody
    link cur body .fallThrough
    let header ← newBlock .loopHeader
    let after ← newBlock .loopExit
    let inner := { scope with brk := some after, cont := some header }
    linkFrom (← addStmt exits inner (up ++ [s]) (addr ++ [0]) b (some body)) header .fallThrough
    append header ⟨addr, s, .cond, [c], up⟩
    if !isConstant falseLiterals c then link header body .backEdge
    if !isConstant trueLiterals c then link header after .branchFalse
    pure (some after)
  | s@(.forDo i c t b _), cur => do
    let cur ← current cur
    match i with
    | some x =>
      if !x.exprs.isEmpty then append cur ⟨addr ++ [0], .simple x, .init, x.exprs, up ++ [s]⟩
    | none => pure ()
    let header ← newBlock .loopHeader
    link cur header .fallThrough
    match c with
    | some c => append header ⟨addr, s, .cond, [c], up⟩
    | none => pure ()
    let step ← newBlock .loopStep
    match t with
    | some t => append step ⟨addr, s, .step, [t], up⟩
    | none => pure ()
    link step header .backEdge
    let body ← newBlock .loopBody
    let after ← newBlock .loopExit
    link header body .branchTrue
    if c.any fun c => !isConstant trueLiterals c then link header after .branchFalse
    let inner := { scope with brk := some after, cont := some step }
    linkFrom (← addStmt exits inner (up ++ [s]) (addr ++ [1]) b (some body)) step .fallThrough
    pure (some after)
  | s@(.switch c b _), cur => do
    let cur ← current cur
    append cur ⟨addr, s, .cond, [c], up⟩
    let after ← newBlock .switchExit
    let body ← newBlock .body
    let inner := { scope with brk := some after, dispatch := some cur }
    linkFrom (← addStmt exits inner (up ++ [s]) (addr ++ [0]) b (some body)) after .fallThrough
    if !hasDefault b then link cur after .switchCase
    pure (some after)
  | s@(.case _ b p), cur => do
    let cur ← current cur
    let dispatch ← target scope.dispatch (.strayCase p.line)
    let block ← newBlock .case
    link cur block .fallThrough
    link dispatch block .switchCase
    addStmt exits scope (up ++ [s]) (addr ++ [0]) b (some block)
  | s@(.label name b p), cur => do
    let cur ← current cur
    let block ← openLabel name p.line cur
    addStmt exits scope (up ++ [s]) (addr ++ [0]) b (some block)

def addAll (exits : List String) (scope : Scope) (up : List Stmt) (addr : Address) :
    Nat → List Stmt → Option Nat → BuildM (Option Nat)
  | _, [], cur => pure cur
  | n, s :: ss, cur => do
    let next ← addStmt exits scope up (addr ++ [n]) s cur
    addAll exits scope up addr (n + 1) ss next

def addElse (exits : List String) (scope : Scope) (up : List Stmt) (addr : Address)
    (cur join : Nat) : Option Stmt → BuildM Unit
  | none => link cur join .branchFalse
  | some s => do
    let no ← newBlock .no
    link cur no .branchFalse
    linkFrom (← addStmt exits scope up addr s (some no)) join .fallThrough
end

section Plain

variable (exits : List String) (scope : Scope) (up : List Stmt) (addr : Address)
  (p : Pos) (cur : Nat)

theorem addStmt_empty : addStmt exits scope up addr (.empty p) (some cur) = pure (some cur) := by
  simp only [addStmt, current, pure_bind]

theorem addStmt_block (ss : List Stmt) : addStmt exits scope up addr (.block ss p) (some cur) =
    addAll exits scope (up ++ [Stmt.block ss p]) addr 0 ss (some cur) := by
  simp only [addStmt, current, pure_bind]

end Plain

def linkGotos : List Pending → BuildM Unit
  | [] => pure ()
  | p :: ps => do
    link p.source (← target ((← get).labels.lookup p.label) (.noLabel p.label p.line)) .goto
    linkGotos ps

def addFunction (exits : List String) (f : Function) : BuildM Unit := do
  let entry ← newBlock .entry
  let exit ← newBlock .exit
  let start ← newBlock .body
  link entry start .fallThrough
  linkFrom (← addStmt exits ⟨none, none, none⟩ [] [] f.body (some start)) exit .ret
  linkGotos (← get).gotos

def reachFor (edges : List Edge) : Nat → List Nat → List Nat → List Nat
  | 0, seen, _ | _, seen, [] => seen
  | fuel + 1, seen, id :: todo =>
    let fresh :=
      ((edges.filter fun e => e.source == id && !seen.contains e.target).map (·.target)).eraseDups
    reachFor edges fuel (seen ++ fresh) (fresh ++ todo)

def reachable (edges : List Edge) (count : Nat) : List Nat := reachFor edges count [0] [0]

/-- Blocks that control cannot come to keep their elements and lose their edges. -/
def Draft.finish (d : Draft) : Graph :=
  let edges := d.edges.toList
  let seen := reachable edges d.blocks.size
  let isKept := fun (id : Nat) => seen.contains id || id == exitId
  { entry := 0
    exit := exitId
    blocks := d.blocks.toList.filter fun b => isKept b.id
    unreachable := d.blocks.toList.filter fun b => !isKept b.id
    edges := edges.filter fun e => isKept e.source && isKept e.target }

def build (exits : List String) (f : Function) : Except FlowError Graph := do
  let ((), d) ← (addFunction exits f).run ⟨#[], #[], [], []⟩
  pure d.finish

end Flow

end JniContracts
