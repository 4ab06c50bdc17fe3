import StackJit.Build.Assembly

/-!
# The graph of a method

`Code.graph` lowers every reachable block, propagates what the blocks inherit and joins the
fragments. A block with one predecessor takes an inherited value straight from there; a block with
several gets a phi for it, controlled by the block's region, with one value for each predecessor. A
block without successors goes to the finish node, with its latest node as the value.
-/

namespace StackJit

/-- Supplies a placeholder with the value from the only source, or with a phi of several. -/
def Graph.supplyPlaceholder (g : Graph) (region input : NodeId) : List NodeId → Graph
  | [] => g
  | [source] => g.addEdge (.value source input .value)
  | sources =>
    let phi := g.freshNode
    let g := (g.addNode .phi []).addEdge (.control region phi)
    let g := g.addEdges (sources.map fun source => .value source phi .value)
    g.addEdge (.value phi input .value)

namespace Assembly

def region? (a : Assembly) (start : Nat) : Option NodeId := a.fragments[start]?.map (·.region)

/-- What the block at `pred` has for a local that block `b` inherits. -/
def localFrom (a : Assembly) (b : Block) (name : String) (pred : Nat) :
    Except BuildError NodeId :=
  match a.fragments[pred]?.bind (·.finalNames[name]?) with
  | some node => .ok node
  | none => .error (.undefinedName name b.start)

/-- What the block at `pred` has for operand `index` of the `depth` operands that block `b`
inherits. Operands are matched from the top of the stack. -/
def operandFrom (a : Assembly) (b : Block) (depth index pred : Nat) : Except BuildError NodeId :=
  match a.fragments[pred]?.bind fun f =>
      if depth ≤ f.finalStack.length then f.finalStack[f.finalStack.length - depth + index]?
      else none with
  | some node => .ok node
  | none => .error (.stackUnderflow b.start)

/-- Each placeholder of a block with its sources: locals by name, then operands from the deepest. -/
def suppliers (a : Assembly) (b : Block) (f : Fragment) :
    Except BuildError (List (NodeId × List NodeId)) := do
  let names ← f.neededNames.toList.mapM fun (name, input) => do
    return (input, ← b.preds.mapM (a.localFrom b name))
  let operands ← f.neededStack.zipIdx.mapM fun (input, index) => do
    return (input, ← b.preds.mapM (a.operandFrom b f.neededStack.length index))
  return names ++ operands

/-- Supplies what a block inherits; control enters the block at index 0 from the start node. -/
def joinEntry (a : Assembly) (g : Graph) (b : Block) (f : Fragment) : Except BuildError Graph :=
  if b.start = 0 then .ok (g.addEdge (.control g.start f.region))
  else
    match a.suppliers b f with
    | .error e => .error e
    | .ok supplied =>
      .ok (supplied.foldl (fun g (input, sources) => g.supplyPlaceholder f.region input sources) g)

/-- The edges by which control leaves a block, and the value it ends the method with. -/
def exits (a : Assembly) (g : Graph) (b : Block) (f : Fragment) : Except BuildError (List Edge) :=
  match b.succs with
  | [] =>
    .ok (.control f.controlEnd g.finish ::
      f.latest.toList.map fun node => .value node g.finish .value)
  | [next] => .ok ((a.region? next).toList.map fun region => .control f.controlEnd region)
  | [taken, following] =>
    if g.hasOp f.controlEnd .branch then
      .ok
        ((a.region? taken).toList.map (fun r => ⟨f.controlEnd, r, .whenTrue, .control⟩) ++
          (a.region? following).toList.map (fun r => ⟨f.controlEnd, r, .whenFalse, .control⟩))
    else .error (.unsupportedControlFlow b.start 2)
  | succs => .error (.unsupportedControlFlow b.start succs.length)

def joinBlock (a : Assembly) (g : Graph) (b : Block) : Except BuildError Graph :=
  match a.fragments[b.start]? with
  | none => .ok g
  | some f =>
    match a.joinEntry g b f with
    | .error e => .error e
    | .ok g =>
      match a.exits g b f with
      | .error e => .error e
      | .ok edges => .ok (g.addEdges edges)

/-- Joins the fragments of all blocks. -/
def joinBlocks (a : Assembly) : List Block → Graph → Except BuildError Graph
  | [], g => .ok g
  | b :: rest, g =>
    match a.joinBlock g b with
    | .error e => .error e
    | .ok g => joinBlocks a rest g

end Assembly

/-- A block that ends in a branch may have two successors, any other block one. -/
def Block.unsupported? (b : Block) : Option BuildError :=
  if b.succs.length > 2 || (b.succs.length == 2 && !b.endsInBranch) then
    some (.unsupportedControlFlow b.start b.succs.length)
  else none

/-- The graph of a method body. -/
def Code.graph (code : Code) : Except BuildError Graph :=
  match code.blocks with
  | .error e => .error e
  | .ok blocks =>
    match blocks.findSome? Block.unsupported? with
    | some e => .error e
    | none =>
      let blocks := Block.reachable blocks code.size
      match (Assembly.ofBlocks blocks).propagate code.size blocks with
      | .error e => .error e
      | .ok a => a.joinBlocks blocks a.graph

end StackJit
