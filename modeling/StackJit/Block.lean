import StackJit.BuildError
import StackJit.Instr
import StackJit.Search

/-!
# Basic blocks

`Code.blocks` cuts a method body at every leader: index 0, every jump target and every index after
a branch. A block is named by the index of its first instruction. What follows the first jump,
branch or return of a block is never executed; `Block.live` is the part before it, with it.
Successors list the jump target first and the following block last, and predecessors are listed in
ascending order, once for every edge.
-/

namespace StackJit

structure Block where
  start : Nat
  body : List Instr
  succs : List Nat
  preds : List Nat
deriving DecidableEq, Repr

/-- The instructions up to the first one that ends a block, with it. -/
def livePart : List Instr → List Instr
  | [] => []
  | i :: rest => if i.endsBlock then [i] else i :: livePart rest

/-- Where control goes after `live`, if the next block starts at `following`. -/
def flowAfter (live : List Instr) (following : Option Nat) : List Nat :=
  match live.getLast? with
  | some (.jump target) => [target]
  | some (.branch target) => target :: following.toList
  | some .ret => []
  | _ => following.toList

namespace Block

def live (b : Block) : List Instr := livePart b.body

def terminator? (b : Block) : Option Instr := b.live.getLast?

def endsInBranch (b : Block) : Bool :=
  match b.terminator? with
  | some (.branch _) => true
  | _ => false

/-- Fills in the predecessors of every block. -/
def linkPreds (blocks : List Block) : List Block :=
  blocks.map fun b =>
    { b with preds := blocks.flatMap fun a => List.replicate (a.succs.count b.start) a.start }

/-- The successors of the block that starts at an index. -/
def succsAt (blocks : List Block) (start : Nat) : List Nat :=
  match blocks.find? (·.start == start) with
  | some b => b.succs
  | none => []

/-- The blocks that control can reach from the one at index 0 in a body of `size` instructions,
with their predecessors restricted to those. -/
def reachable (blocks : List Block) (size : Nat) : List Block :=
  let reached := Search.order size (succsAt blocks) 0
  (blocks.filter (reached.contains ·.start)).map fun b =>
    { b with preds := b.preds.filter reached.contains }

end Block

namespace Code

/-- The first instruction whose target lies outside the body. -/
def badTarget? (code : Code) : Option BuildError :=
  code.toList.zipIdx.findSome? fun (i, source) =>
    match i.target? with
    | some target =>
      if target < code.size then none else some (.invalidTarget source target code.size)
    | none => none

/-- Whether a block starts at `i`. -/
def isLeader (code : Code) (i : Nat) : Bool :=
  i == 0 || code.any (fun instr => instr.target? == some i) ||
    match code[i - 1]? with
    | some (.branch _) => true
    | _ => false

/-- The indices at which blocks start, in ascending order. -/
def leaders (code : Code) : Except BuildError (List Nat) :=
  match code.badTarget? with
  | some e => .error e
  | none => .ok ((List.range code.size).filter code.isLeader)

/-- The block from `start` up to `stop`, which is the next leader or the end of the body. Its
predecessors are left open. -/
def blockBetween (code : Code) (start stop : Nat) : Block :=
  let body := (code.extract start stop).toList
  { start, body
    succs := flowAfter (livePart body) (if stop < code.size then some stop else none)
    preds := [] }

/-- The basic blocks of a body, in ascending order. -/
def blocks (code : Code) : Except BuildError (List Block) :=
  match code.leaders with
  | .error e => .error e
  | .ok starts =>
    .ok (Block.linkPreds (starts.zipWith code.blockBetween (starts.drop 1 ++ [code.size])))

end Code

end StackJit
