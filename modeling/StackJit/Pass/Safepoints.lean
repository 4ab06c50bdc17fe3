import StackJit.Pass.Sweep

/-!
# Placing safepoints

Traces go, and every control edge into the finish node, or into a region where several control
edges meet, gets a safepoint, unless it comes from one.
-/

namespace StackJit.Graph

def dropTraces (g : Graph) : Swept :=
  g.sweep (fun g id => some ((g.bypass id).eraseNode id)) (g.nodesOf .trace)

/-- Puts a new safepoint onto a control edge. -/
def addSafepoint (g : Graph) (edge : EdgeId) : Graph :=
  (g.addNode .safepoint []).interpose edge g.freshNode

/-- The control edges into a node that do not come from a safepoint. -/
def uncoveredEdges (g : Graph) (id : NodeId) : List EdgeId :=
  ((g.edgesInto id).filter fun (_, e) => e.isControl && !g.hasOp e.source .safepoint).map (·.1)

def coverEntries? (g : Graph) (id : NodeId) : Option Graph :=
  match g.uncoveredEdges id with
  | [] => none
  | edges => some (edges.foldl addSafepoint g)

/-- The nodes whose control inputs need safepoints. -/
def safepointTargets (g : Graph) : List NodeId :=
  g.finish :: (g.nodesWhere (·.op.isRegion)).filter fun id => (g.controlSources id).length > 1

def coverTargets (g : Graph) : Swept := g.sweep coverEntries? g.safepointTargets

def placeSafepoints (g : Graph) : Swept := g.dropTraces.andThen coverTargets

end StackJit.Graph
