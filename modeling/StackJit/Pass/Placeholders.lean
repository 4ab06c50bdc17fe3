import StackJit.Pass.Sweep

/-!
# Dropping placeholders

A placeholder with one source stands for that source: its uses become uses of the source, and the
placeholder goes.
-/

namespace StackJit.Graph

def forwardInput? (g : Graph) (input : NodeId) : Option Graph :=
  match g.valueSources input with
  | [source] => some ((g.moveUses input source).eraseNode input)
  | _ => none

def dropPlaceholders (g : Graph) : Swept := g.sweep forwardInput? (g.nodesOf .input)

end StackJit.Graph
