import JniContracts.Flow.Graph

/-!
Obligations along paths. An obligation is opened by the trigger element. Each element after it
settles the obligation, breaks it, or leaves it open; so do the exit and the trigger itself when it
is met again. The search enters each block at its start once.
-/

namespace JniContracts.Flow

inductive Verdict where
  | pending
  | satisfied
  | violated
  deriving DecidableEq, Repr

namespace Verdict

def text : Verdict → String
  | pending => "continue" | satisfied => "satisfied" | violated => "violated"

def ofText? (s : String) : Option Verdict :=
  [pending, satisfied, violated].find? fun v => v.text == s

end Verdict

/-- How a violating path ends. -/
inductive Reason where
  | hazard
  | exit
  | retrigger
  deriving DecidableEq, Repr

namespace Reason

def text : Reason → String
  | hazard => "hazard" | exit => "exit" | retrigger => "retrigger"

end Reason

/-- Whether every path settles the obligation; if not, the lines of one that does not, the trigger's
first, and how it ends. -/
inductive Coverage where
  | satisfied
  | violated (witness : List Nat) (reason : Reason)
  deriving DecidableEq, Repr

namespace Coverage

def isSatisfied : Coverage → Bool
  | satisfied => true
  | violated .. => false

end Coverage

structure Obligation where
  trigger : Position
  classify : Element → Verdict
  atExit : Verdict
  atTrigger : Verdict
  /-- Edges that are not followed, given the condition at the end of their source. -/
  prune : Element → Edge → Bool

namespace Obligation

/-- What running through elements comes to: the obligation is settled, broken, or open with the
lines passed added. -/
inductive Passage where
  | settled
  | broken (lines : List Nat) (reason : Reason)
  | passed (lines : List Nat)

/-- The verdict on an element of a block that was entered at its start, or on one behind the
trigger. -/
def verdict (o : Obligation) (fromStart : Bool) (here : Position) (e : Element) :
    Verdict × Reason :=
  if fromStart && here == o.trigger then (o.atTrigger, .retrigger) else (o.classify e, .hazard)

def pass (o : Obligation) (fromStart : Bool) (block : Nat) : Nat → List Nat → List Element → Passage
  | _, lines, [] => .passed lines
  | i, lines, e :: es =>
    match o.verdict fromStart ⟨block, i⟩ e with
    | (.satisfied, _) => .settled
    | (.violated, reason) => .broken (lines ++ [e.line]) reason
    | (.pending, _) => pass o fromStart block (i + 1) (lines ++ [e.line]) es

def followed (o : Obligation) (g : Graph) (b : Block) : List Edge :=
  match b.elements.getLast? with
  | some last =>
    if last.role == .cond then (g.successors b.id).filter fun e => !o.prune last e
    else g.successors b.id
  | none => g.successors b.id

/-- What happens behind a block that leaves the obligation open: a violating exit, or the blocks to
go on with. -/
def onward (o : Obligation) (g : Graph) (b : Block) : Option (List Nat) :=
  let edges := o.followed g b
  if edges.any (fun e => e.target == g.exit) && o.atExit == .violated then none
  else some ((edges.filter fun e => e.target != g.exit).map (·.target))

structure Entry where
  block : Nat
  lines : List Nat

/-- Takes up the blocks of `todo`, the first one first; those in `expanded` were taken up before. -/
def search (o : Obligation) (g : Graph) : Nat → List Nat → List Entry → Coverage
  | 0, _, _ | _, _, [] => .satisfied
  | fuel + 1, expanded, ⟨id, lines⟩ :: todo =>
    if expanded.contains id then search o g fuel expanded todo
    else
      match g.block? id with
      | none => search o g fuel (id :: expanded) todo
      | some b =>
        match o.pass true id 0 lines b.elements with
        | .settled => search o g fuel (id :: expanded) todo
        | .broken lines reason => .violated lines reason
        | .passed lines =>
          match o.onward g b with
          | none => .violated lines .exit
          | some next => search o g fuel (id :: expanded) (next.map (⟨·, lines⟩) ++ todo)

/-- Every block is taken up once and puts its successors on the list, so that many rounds
suffice. -/
def rounds (g : Graph) : Nat := 2 * g.edges.length + 1

/-- Whether every path from the trigger settles the obligation. The trigger is an element that
control can come to, as the ones that `position?` finds; the answer for one in an unreachable block
is that it is settled, and the elements behind it are not looked at. -/
def coverage (o : Obligation) (g : Graph) : Coverage :=
  match g.block? o.trigger.block, g.elementAt? o.trigger with
  | some b, some e =>
    match o.pass false b.id (o.trigger.index + 1) [e.line]
      (b.elements.drop (o.trigger.index + 1)) with
    | .settled => .satisfied
    | .broken lines reason => .violated lines reason
    | .passed lines =>
      match o.onward g b with
      | none => .violated lines .exit
      | some next => o.search g (rounds g) [] (next.map (⟨·, lines⟩))
  | _, _ => .satisfied

end Obligation

end JniContracts.Flow
