import StackJit.Graph.Node
import StackJit.Search

/-!
# The graph

A graph is an arena of nodes and edges. Nodes and edges are numbered in the order in which they are
made and are never renumbered: a removed edge leaves an empty slot, and a removed node loses its
edges and is flagged. What belongs to the graph is what a search from its root reaches along edges
in either direction.

Queries on a node outside the arena find nothing, and operations on it change nothing.
-/

namespace StackJit

structure Graph where
  nodes : Array Node
  edges : Array (Option Edge)
  start : NodeId
  finish : NodeId
  root : NodeId
deriving DecidableEq, Repr

namespace Graph

/-- A start and a finish node, rooted at the start. -/
def initial : Graph :=
  { nodes := #[{ op := .start, props := [] }, { op := .finish, props := [] }]
    edges := #[]
    start := 0
    finish := 1
    root := 0 }

instance : Inhabited Graph := ⟨initial⟩

/-! ## Construction -/

/-- The number that the next node gets. -/
def freshNode (g : Graph) : NodeId := g.nodes.size

/-- The number that the next edge gets. -/
def freshEdge (g : Graph) : EdgeId := g.edges.size

/-- Adds a node without edges. -/
def addNode (g : Graph) (op : Op) (props : Props) : Graph :=
  { g with nodes := g.nodes.push { op, props } }

/-- Adds an edge and attaches it last at both ends. -/
def addEdge (g : Graph) (e : Edge) : Graph :=
  let id := g.freshEdge
  { g with
    nodes := (g.nodes.modify e.source (·.addOutput id)).modify e.target (·.addInput id)
    edges := g.edges.push (some e) }

def addEdges (g : Graph) (es : List Edge) : Graph := es.foldl addEdge g

/-- The same arena seen from another root. -/
def rootedAt (g : Graph) (root : NodeId) : Graph := { g with root }

/-! ## Queries -/

def node? (g : Graph) (id : NodeId) : Option Node := g.nodes[id]?

/-- An edge that has not been removed. -/
def edge? (g : Graph) (id : EdgeId) : Option Edge := g.edges[id]?.join

def op? (g : Graph) (id : NodeId) : Option Op := (g.node? id).map (·.op)

def hasOp (g : Graph) (id : NodeId) (op : Op) : Bool := g.op? id == some op

def prop? (g : Graph) (id : NodeId) (key : String) : Option Value := (g.node? id).bind (·.prop? key)

def isRemoved (g : Graph) (id : NodeId) : Bool :=
  match g.node? id with
  | some n => n.removed
  | none => false

/-- The live edges among `ids`, with their numbers. -/
def resolve (g : Graph) (ids : List EdgeId) : List (EdgeId × Edge) :=
  ids.filterMap fun id => (g.edge? id).map fun e => (id, e)

/-- The edges into a node, in attachment order. -/
def edgesInto (g : Graph) (id : NodeId) : List (EdgeId × Edge) :=
  match g.node? id with
  | some n => g.resolve n.inputs
  | none => []

/-- The edges out of a node, in attachment order. -/
def edgesOutOf (g : Graph) (id : NodeId) : List (EdgeId × Edge) :=
  match g.node? id with
  | some n => g.resolve n.outputs
  | none => []

def inputs (g : Graph) (id : NodeId) : List Edge := (g.edgesInto id).map (·.2)

def outputs (g : Graph) (id : NodeId) : List Edge := (g.edgesOutOf id).map (·.2)

/-- The nodes that control comes from, one for each edge. -/
def controlSources (g : Graph) (id : NodeId) : List NodeId :=
  ((g.inputs id).filter (·.isControl)).map (·.source)

def controlTargets (g : Graph) (id : NodeId) : List NodeId :=
  ((g.outputs id).filter (·.isControl)).map (·.target)

/-- The nodes whose values are used, one for each edge. -/
def valueSources (g : Graph) (id : NodeId) : List NodeId :=
  ((g.inputs id).filter (·.isValue)).map (·.source)

def valueTargets (g : Graph) (id : NodeId) : List NodeId :=
  ((g.outputs id).filter (·.isValue)).map (·.target)

/-- The source of the first edge attached in a role. -/
def sourceFor? (g : Graph) (id : NodeId) (role : Role) : Option NodeId :=
  ((g.inputs id).find? (·.input == role)).map (·.source)

def leadsTo (g : Graph) (source : NodeId) (output : Role) (target : NodeId) : Bool :=
  (g.outputs source).any fun e => e.output == output && e.target == target

/-- Whether a node may not be dropped even though no value of it is used. A region matters only
where several control edges meet. -/
def hasEffect (g : Graph) (id : NodeId) : Bool :=
  match g.op? id with
  | some .start | some .finish | some .trace | some .send | some .branch | some .safepoint
  | some .guard => true
  | some .region | some .merge => (g.controlSources id).length > 1
  | _ => false

/-! ## Traversal -/

/-- Both ends of every edge at a node, in the order in which a traversal offers them. -/
def neighbours (g : Graph) (id : NodeId) : List NodeId :=
  (g.inputs id ++ g.outputs id).flatMap fun e => [e.source, e.target]

/-- The nodes of the graph, in the order in which a traversal from the root visits them. -/
def reachable (g : Graph) : List NodeId := Search.order g.nodes.size g.neighbours g.root

def size (g : Graph) : Nat := g.reachable.length

/-- The nodes of the graph that satisfy a predicate, in traversal order. -/
def nodesWhere (g : Graph) (p : Node → Bool) : List NodeId :=
  g.reachable.filter fun id => (g.node? id).any p

def nodesOf (g : Graph) (op : Op) : List NodeId := g.nodesWhere (·.op == op)

/-- The edges between nodes of the graph, in ascending order. -/
def reachableEdges (g : Graph) : List (EdgeId × Edge) :=
  let ids := g.reachable
  (g.resolve (List.range g.edges.size)).filter fun (_, e) =>
    ids.contains e.source || ids.contains e.target

end Graph

end StackJit
