import StackJit.Pass.Sweep

/-!
# Dropping phis without a choice

A phi whose values, itself apart, all come from one node is that node's value.
-/

namespace StackJit.Graph

/-- The one node that a phi can take its value from. -/
def soleSource? (g : Graph) (phi : NodeId) : Option NodeId :=
  match (g.valueSources phi).filter (· != phi) with
  | [] => none
  | first :: others => if others.all (· == first) then some first else none

def dropPhi? (g : Graph) (phi : NodeId) : Option Graph :=
  if g.isRemoved phi then none
  else (g.soleSource? phi).map fun source => (g.moveUses phi source).eraseNode phi

def dropPhis (g : Graph) : Swept := g.sweep dropPhi? (g.nodesOf .phi)

end StackJit.Graph
