import StackJit.Pass.Sweep

/-!
# Dropping dead code

A node without outputs goes, unless it is a finish. A node that only passes control on, decides no
phi and has no effect goes too, and control is led past it. The root always stays.
-/

namespace StackJit.Graph

/-- Whether a node does nothing but pass control on. -/
def passesControl (g : Graph) (id : NodeId) : Bool :=
  (g.outputs id).all (·.isControl) && !(g.controlTargets id).any (g.hasOp · .phi) &&
    !g.hasEffect id

def dropDead? (g : Graph) (id : NodeId) : Option Graph :=
  if g.isRemoved id || id == g.root then none
  else if (g.outputs id).isEmpty then
    if g.hasOp id .finish then none else some (g.eraseNode id)
  else if g.passesControl id then some ((g.bypass id).eraseNode id)
  else none

def dropDeadCode (g : Graph) : Swept := g.sweep dropDead? g.reachable

end StackJit.Graph
