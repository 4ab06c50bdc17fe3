import StackJit.Graph.Surgery

/-!
# Edits

An edit is one change of a graph as a value. `Edit.perform?` refuses an edit that would touch a node
outside the arena; any other edit gives the changed graph, and the number of the node or edge made
or of the edges moved.
-/

namespace StackJit

inductive Edit where
  | addNode (op : Op) (props : Props)
  | addEdge (edge : Edge)
  | eraseEdge (id : EdgeId)
  | eraseNode (id : NodeId)
  | bypass (id : NodeId)
  | interpose (edge : EdgeId) (node : NodeId)
  | moveUses (old new : NodeId)
  | setRoot (id : NodeId)
deriving DecidableEq, Repr

namespace Graph

/-- Whether the arena holds a node of that number. -/
def contains (g : Graph) (id : NodeId) : Bool := id < g.nodes.size

end Graph

namespace Edit

/-- Whether every node that the edit touches is in the arena. An edit that moves nothing touches no
new node. -/
def inArena (g : Graph) : Edit → Bool
  | addNode _ _ => true
  | addEdge e => g.contains e.source && g.contains e.target
  | eraseEdge _ => true
  | eraseNode id => g.contains id
  | bypass id => g.contains id
  | interpose edge node => (g.edge? edge).isNone || g.contains node
  | moveUses old new => g.contains old && ((g.valueUses old).isEmpty || g.contains new)
  | setRoot id => g.contains id

def apply (g : Graph) : Edit → Graph
  | addNode op props => g.addNode op props
  | addEdge e => g.addEdge e
  | eraseEdge id => g.eraseEdge id
  | eraseNode id => g.eraseNode id
  | bypass id => g.bypass id
  | interpose edge node => g.interpose edge node
  | moveUses old new => g.moveUses old new
  | setRoot id => g.rootedAt id

/-- The number that an edit answers with, in the graph before it. -/
def answer? (g : Graph) : Edit → Option Nat
  | addNode _ _ => some g.freshNode
  | addEdge _ => some g.freshEdge
  | moveUses old _ => some (g.valueUses old).length
  | setRoot id => some id
  | _ => none

def perform? (g : Graph) (edit : Edit) : Option (Graph × Option Nat) :=
  if edit.inArena g then some (edit.apply g, edit.answer? g) else none

end Edit

end StackJit
