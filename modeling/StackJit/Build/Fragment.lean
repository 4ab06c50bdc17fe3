import StackJit.Graph.Basic
import StackJit.Instr
import Std.Data.TreeMap

/-!
# Lowering one block

A block is lowered by running it on nodes instead of values. A value that the block takes from the
stack or from a local before it has put one there is an `input` node without inputs, a placeholder
for what a predecessor supplies. Traces, sends, jumps and branches are put onto a chain of control
edges that starts at the block's region.

`Lowering` is the state of that run and `Fragment` its outcome.
-/

namespace StackJit

/-- Nodes by the name of the local whose value they are, in the order of names. -/
abbrev NameMap := Std.TreeMap String NodeId

structure Fragment where
  /-- The placeholders of locals read before they are assigned. -/
  neededNames : NameMap
  /-- The placeholders of inherited operands, deepest first. -/
  neededStack : List NodeId
  region : NodeId
  /-- The node that the last instruction to name one produced or returned. -/
  latest : Option NodeId
  /-- The end of the control chain. -/
  controlEnd : NodeId
  /-- The locals known at the end of the block. -/
  finalNames : NameMap
  /-- The operands at the end of the block, deepest first, as far as they are known. -/
  finalStack : List NodeId

structure Lowering where
  graph : Graph
  neededNames : NameMap
  neededStack : List NodeId
  names : NameMap
  /-- The operands, top first. -/
  stack : List NodeId
  latest : Option NodeId
  controlEnd : NodeId

namespace Lowering

/-- At the entry of a block with the given region. -/
def atRegion (graph : Graph) (region : NodeId) : Lowering :=
  { graph, neededNames := ∅, neededStack := [], names := ∅, stack := [], latest := none
    controlEnd := region }

/-- Takes an operand; an empty stack gives a new placeholder below those taken before. -/
def pop (s : Lowering) : NodeId × Lowering :=
  match s.stack with
  | node :: rest => (node, { s with stack := rest })
  | [] =>
    let node := s.graph.freshNode
    (node, { s with graph := s.graph.addNode .input [], neededStack := node :: s.neededStack })

/-- Takes `n` operands, to be put before `taken`, the deepest first. -/
def popMany : Nat → List NodeId → Lowering → List NodeId × Lowering
  | 0, taken, s => (taken, s)
  | n + 1, taken, s =>
    let (node, s) := s.pop
    popMany n (node :: taken) s

/-- Reads a local; one that is not known yet gives a new placeholder. -/
def read (s : Lowering) (name : String) : NodeId × Lowering :=
  match s.names[name]? with
  | some node => (node, s)
  | none =>
    let node := s.graph.freshNode
    (node,
      { s with
        graph := s.graph.addNode .input []
        neededNames := s.neededNames.insert name node
        names := s.names.insert name node })

def push (s : Lowering) (node : NodeId) : Lowering := { s with stack := node :: s.stack }

def assign (s : Lowering) (name : String) (node : NodeId) : Lowering :=
  { s with names := s.names.insert name node }

/-- Adds a node that counts as the latest one. -/
def addNode (s : Lowering) (op : Op) (props : Props) : Lowering :=
  { s with graph := s.graph.addNode op props, latest := some s.graph.freshNode }

def addEdges (s : Lowering) (es : List Edge) : Lowering := { s with graph := s.graph.addEdges es }

/-- Adds a node whose value goes onto the stack. -/
def pushNew (s : Lowering) (op : Op) (props : Props) : Lowering :=
  (s.addNode op props).push s.graph.freshNode

/-- Puts a node at the end of the control chain. -/
def chain (s : Lowering) (node : NodeId) : Lowering :=
  { s with graph := s.graph.addEdge (.control s.controlEnd node), controlEnd := node }

/-- A send is numbered before the operands it takes; its receiver is attached first and its
arguments follow in call order. -/
def send (s : Lowering) (ip : Nat) (name : String) (argc : Nat) : Lowering :=
  let node := s.graph.freshNode
  let s := s.addNode .send [("name", .symbol name), ("argc", .ofNat argc), ("ip", .ofNat ip)]
  let (args, s) := s.popMany argc []
  let (receiver, s) := s.pop
  let s := s.addEdges (.value receiver node .receiver :: args.map fun arg => .value arg node .args)
  (s.push node).chain node

/-- Lowers the instruction at index `ip`. -/
def instr (s : Lowering) (ip : Nat) : Instr → Lowering
  | .trace line => (s.addNode .trace [("line", .ofNat line.toNat)]).chain s.graph.freshNode
  | .self => s.pushNew .self []
  | .arg n => s.pushNew .arg [("n", .ofNat n)]
  | .load name =>
    let (node, s) := s.read name
    s.push node
  | .store name =>
    let (node, s) := s.pop
    s.assign name node
  | .push v => s.pushNew .constant [("value", v)]
  | .send name argc => s.send ip name argc
  | .not =>
    let (operand, s) := s.pop
    (s.pushNew .not []).addEdges [.value operand s.graph.freshNode .value]
  | .jump _ => (s.addNode .jump []).chain s.graph.freshNode
  | .branch _ =>
    let (operand, s) := s.pop
    let node := s.graph.freshNode
    ((s.addNode .branch []).addEdges [.value operand node .condition]).chain node
  | .ret =>
    let (node, s) := s.pop
    { s.push node with latest := some node }

/-- Lowers consecutive instructions, the first of which has index `ip`. -/
def instrs : Nat → List Instr → Lowering → Lowering
  | _, [], s => s
  | ip, i :: rest, s => instrs (ip + 1) rest (s.instr ip i)

/-- What the run has found out about the block with the given region. -/
def fragment (s : Lowering) (region : NodeId) : Fragment :=
  { neededNames := s.neededNames
    neededStack := s.neededStack
    region
    latest := s.latest
    controlEnd := s.controlEnd
    finalNames := s.names
    finalStack := s.stack.reverse }

end Lowering

/-- Adds the block that starts at index `start` to a graph. -/
def Graph.lower (g : Graph) (start : Nat) (body : List Instr) : Fragment × Graph :=
  let region := g.freshNode
  let s := (Lowering.atRegion (g.addNode .region []) region).instrs start body
  (s.fragment region, s.graph)

end StackJit
