import JniContracts.Flow.Graph
import JniContracts.Text.Quoted

/-!
One-line summaries of graphs and their parts.
-/

namespace JniContracts.Flow

def elementSummary (e : Element) : String := s!"CfgElement({e.role.text}@{e.line})"

namespace Block

def lines (b : Block) : List Nat := b.elements.map Element.line

def summary (b : Block) : String :=
  s!"BasicBlock(id={b.id}, kind='{b.kind.text}', elements={b.elements.length})"

end Block

namespace Graph

def summary (g : Graph) (function : String) : String :=
  "ControlFlowGraph(" ++ Text.Quoted.encode function ++
    s!", blocks={g.blocks.length}, unreachable={g.unreachable.length})"

end Graph

end JniContracts.Flow
