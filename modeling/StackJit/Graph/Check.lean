import StackJit.Graph.Basic

/-!
# Well-formed graphs

`Graph.violation?` is the first breach of the rules in traversal order: no edge touches a removed
node, nothing enters a start or leaves a finish, and a phi has one control input, from a region,
and as many values as that region has control inputs.
-/

namespace StackJit

inductive Violation where
  | startHasInputs (id : NodeId)
  | finishHasOutputs (id : NodeId)
  | phiControl (phi : NodeId) (count : Nat)
  | phiOutsideRegion (phi source : NodeId) (op : Op)
  | phiArity (phi : NodeId) (values entries : Nat)
  | danglingEdge (source target : NodeId)
deriving DecidableEq, Repr

def Violation.message : Violation → String
  | startHasInputs id => s!"Start node n{id} has inputs"
  | finishHasOutputs id => s!"Finish node n{id} has outputs"
  | phiControl phi count => s!"Phi n{phi} has {count} control inputs, expected exactly 1"
  | phiOutsideRegion phi source op =>
    s!"Phi n{phi} is controlled by {op.name} node n{source}, expected a region"
  | phiArity phi values entries =>
    s!"Phi n{phi} has {values} value inputs but its region has {entries} predecessors"
  | danglingEdge source target => s!"Edge n{source} -> n{target} touches a removed node"

namespace Graph

def phiViolation? (g : Graph) (phi : NodeId) : Option Violation :=
  match g.controlSources phi with
  | [region] =>
    match g.op? region with
    | none => none
    | some op =>
      if !op.isRegion then some (.phiOutsideRegion phi region op)
      else
        let entries := (g.controlSources region).length
        let values := (g.valueSources phi).length
        if values = entries then none else some (.phiArity phi values entries)
  | controls => some (.phiControl phi controls.length)

def danglingEdge? (g : Graph) (id : NodeId) : Option Violation :=
  ((g.inputs id ++ g.outputs id).find? fun e => g.isRemoved e.source || g.isRemoved e.target).map
    fun e => .danglingEdge e.source e.target

/-- The rule of the node's own operation that it breaks. -/
def shapeViolation? (g : Graph) (id : NodeId) : Option Violation :=
  match g.op? id with
  | some .start => if (g.inputs id).isEmpty then none else some (.startHasInputs id)
  | some .finish => if (g.outputs id).isEmpty then none else some (.finishHasOutputs id)
  | some .phi => g.phiViolation? id
  | _ => none

/-- The first breach of the rules, or none if the graph is well formed. -/
def violation? (g : Graph) : Option Violation :=
  g.reachable.findSome? fun id => (g.danglingEdge? id).or (g.shapeViolation? id)

end Graph

end StackJit
