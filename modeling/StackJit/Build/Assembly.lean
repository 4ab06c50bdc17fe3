import StackJit.Block
import StackJit.Build.Fragment

/-!
# Blocks that inherit values

Every block of a method is lowered on its own, into one graph. What a block inherits must be known
at the end of each of its predecessors; a predecessor that does not know it inherits it in turn.
`Assembly.propagate` repeats this until no fragment changes. Control also enters the block at index
0 from outside the method, where nothing is known, so that block may inherit nothing.
-/

namespace StackJit

/-- A graph with the fragments of the blocks lowered into it, by the start of their block. -/
structure Assembly where
  graph : Graph
  fragments : Std.TreeMap Nat Fragment

namespace Fragment

/-- Makes a local known at the end of the block. -/
def inheritName (s : Fragment × Graph) (name : String) : Fragment × Graph :=
  let (f, g) := s
  if f.finalNames.contains name then s
  else
    ({ f with
        neededNames := f.neededNames.insert name g.freshNode
        finalNames := f.finalNames.insert name g.freshNode },
      g.addNode .input [])

/-- Makes one more operand known at the end of the block, below the others. -/
def inheritOperand (s : Fragment × Graph) : Fragment × Graph :=
  let (f, g) := s
  ({ f with
      neededStack := g.freshNode :: f.neededStack
      finalStack := g.freshNode :: f.finalStack },
    g.addNode .input [])

def inheritOperands : Nat → Fragment × Graph → Fragment × Graph
  | 0, s => s
  | n + 1, s => inheritOperands n (inheritOperand s)

/-- Makes `names` and the top `depth` operands known at the end of the block. -/
def inherit (names : List String) (depth : Nat) (s : Fragment × Graph) : Fragment × Graph :=
  let s := names.foldl inheritName s
  inheritOperands (depth - s.1.finalStack.length) s

end Fragment

namespace Assembly

/-- Lowers the live part of a block. -/
def addBlock (a : Assembly) (b : Block) : Assembly :=
  let (f, g) := a.graph.lower b.start b.live
  ⟨g, a.fragments.insert b.start f⟩

def ofBlocks (blocks : List Block) : Assembly := blocks.foldl addBlock ⟨.initial, ∅⟩

/-- Makes `names` and the top `depth` operands known at the end of the block at `start`. -/
def supply (names : List String) (depth : Nat) (a : Assembly) (start : Nat) : Assembly :=
  match a.fragments[start]? with
  | none => a
  | some f =>
    let (f, g) := Fragment.inherit names depth (f, a.graph)
    ⟨g, a.fragments.insert start f⟩

/-- Makes what a block inherits known to its predecessors. No block can inherit more than `limit`
operands. -/
def propagateBlock (limit : Nat) (a : Assembly) (b : Block) : Except BuildError Assembly :=
  match a.fragments[b.start]? with
  | none => .ok a
  | some f =>
    let depth := f.neededStack.length
    if depth > limit then .error (.stackUnderflow b.start)
    else if b.start = 0 then
      if depth > 0 then .error (.stackUnderflow b.start)
      else
        match f.neededNames.keys with
        | name :: _ => .error (.undefinedName name b.start)
        | [] => .ok a
    else .ok (b.preds.foldl (supply f.neededNames.keys depth) a)

/-- One round over all blocks. -/
def propagateRound (limit : Nat) : List Block → Assembly → Except BuildError Assembly
  | [], a => .ok a
  | b :: rest, a =>
    match propagateBlock limit a b with
    | .error e => .error e
    | .ok a => propagateRound limit rest a

/-- At most `rounds` rounds, ending with the first that adds no placeholder. -/
def propagateRounds (limit : Nat) (blocks : List Block) :
    Nat → Assembly → Except BuildError Assembly
  | 0, a => .ok a
  | rounds + 1, a =>
    match propagateRound limit blocks a with
    | .error e => .error e
    | .ok next =>
      if next.graph.freshNode = a.graph.freshNode then .ok next
      else propagateRounds limit blocks rounds next

/-- Repeats rounds until nothing changes. With `limit` the length of the method, a block can come
to inherit at most `limit` locals and `limit` operands, so the rounds given are enough. -/
def propagate (a : Assembly) (limit : Nat) (blocks : List Block) : Except BuildError Assembly :=
  propagateRounds limit blocks (2 * limit * blocks.length + 1) a

end Assembly

end StackJit
