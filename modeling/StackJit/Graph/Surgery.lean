import StackJit.Graph.Basic

/-!
# Graph surgery

The changes from which the passes are made: removing edges and nodes, moving the uses of a value to
another node, leading control past a node, and putting a node onto a control edge. A moved edge is a
new edge, so it comes last in the attachment order of both of its ends.
-/

namespace StackJit.Graph

/-- Removes an edge; a number without a live edge changes nothing. -/
def eraseEdge (g : Graph) (id : EdgeId) : Graph :=
  match g.edge? id with
  | none => g
  | some e =>
    { g with
      nodes := (g.nodes.modify e.source (·.eraseOutput id)).modify e.target (·.eraseInput id)
      edges := g.edges.setIfInBounds id none }

def eraseEdges (g : Graph) (ids : List EdgeId) : Graph := ids.foldl eraseEdge g

/-- Removes a node with all its edges. -/
def eraseNode (g : Graph) (id : NodeId) : Graph :=
  match g.node? id with
  | none => g
  | some n =>
    let g := g.eraseEdges (n.inputs ++ n.outputs)
    { g with nodes := g.nodes.modify id fun n => { n with removed := true } }

/-- The value edges out of a node. -/
def valueUses (g : Graph) (id : NodeId) : List (EdgeId × Edge) :=
  (g.edgesOutOf id).filter (·.2.isValue)

/-- Moves the source of an edge. -/
def redirect (new : NodeId) (g : Graph) (use : EdgeId × Edge) : Graph :=
  (g.eraseEdge use.1).addEdge { use.2 with source := new }

/-- Makes every use of the value of `old` a use of the value of `new`. -/
def moveUses (g : Graph) (old new : NodeId) : Graph := (g.valueUses old).foldl (redirect new) g

/-- Connects the source of a control edge to the target of another as the first edge leaves and the
second one arrives, unless control already goes that way. -/
def linkPast (g : Graph) (enter leave : Edge) : Graph :=
  if (g.outputs enter.source).any fun e =>
      e.isControl && e.target == leave.target && e.output == enter.output then g
  else g.addEdge ⟨enter.source, leave.target, enter.output, leave.input⟩

/-- Connects every control predecessor of a node to every control successor, past the node. -/
def bypass (g : Graph) (id : NodeId) : Graph :=
  let enters := (g.inputs id).filter fun e => e.isControl && e.source != id
  let leaves := (g.outputs id).filter fun e => e.isControl && e.target != id
  enters.foldl (fun g enter => leaves.foldl (fun g leave => g.linkPast enter leave) g) g

/-- Puts a node onto an edge: control comes to the node as it left the old source, and goes on as
it came to the old target. -/
def interpose (g : Graph) (edge : EdgeId) (node : NodeId) : Graph :=
  match g.edge? edge with
  | none => g
  | some old =>
    ((g.eraseEdge edge).addEdge ⟨old.source, node, old.output, .control⟩).addEdge
      ⟨node, old.target, .control, old.input⟩

end StackJit.Graph
