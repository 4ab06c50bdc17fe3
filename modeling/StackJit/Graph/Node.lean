import StackJit.Value

/-!
# Nodes, edges and roles

A node computes or orders something, an edge carries a value or control from one node to another,
and a role says what an edge means at either of its ends. An edge is a control edge if either end
has the control role; all other edges carry values.
-/

namespace StackJit

abbrev NodeId := Nat

abbrev EdgeId := Nat

inductive Op where
  | start
  | finish
  /-- Where a basic block is entered. -/
  | region
  | merge
  /-- One of several values, chosen by the way control entered the controlling region. -/
  | phi
  /-- Stands for a value that a block inherits and does not produce. -/
  | input
  | constant
  | self
  | arg
  | send
  | not
  | jump
  | branch
  | trace
  | safepoint
  /-- Checks the kind of a receiver before a send. -/
  | guard
deriving DecidableEq, Repr

namespace Op

def all : List Op :=
  [start, finish, region, merge, phi, input, constant, self, arg, send, not, jump, branch, trace,
    safepoint, guard]

def name : Op → String
  | start => "start"
  | finish => "finish"
  | region => "region"
  | merge => "merge"
  | phi => "phi"
  | input => "input"
  | constant => "constant"
  | self => "self"
  | arg => "arg"
  | send => "send"
  | not => "not"
  | jump => "jump"
  | branch => "branch"
  | trace => "trace"
  | safepoint => "safepoint"
  | guard => "guard"

def ofName? (text : String) : Option Op := all.find? fun op => op.name == text

/-- The nodes that control enters by one of several edges. -/
def isRegion : Op → Bool
  | region => true
  | merge => true
  | _ => false

end Op

inductive Role where
  | control
  | value
  /-- Control leaves a branch whose condition counts as true. -/
  | whenTrue
  | whenFalse
  | receiver
  | args
  | condition
deriving DecidableEq, Repr

namespace Role

def all : List Role := [control, value, whenTrue, whenFalse, receiver, args, condition]

def name : Role → String
  | control => "control"
  | value => "value"
  | whenTrue => "true"
  | whenFalse => "false"
  | receiver => "receiver"
  | args => "args"
  | condition => "condition"

def ofName? (text : String) : Option Role := all.find? fun role => role.name == text

end Role

structure Edge where
  source : NodeId
  target : NodeId
  /-- What the edge carries away from its source. -/
  output : Role
  /-- What the edge is to its target. -/
  input : Role
deriving DecidableEq, Repr

namespace Edge

def isControl (e : Edge) : Bool := e.output == .control || e.input == .control

def isValue (e : Edge) : Bool := !e.isControl

/-- Control flowing from `source` to `target`. -/
def control (source target : NodeId) : Edge := ⟨source, target, .control, .control⟩

/-- The value of `source` used by `target` in the given role. -/
def value (source target : NodeId) (role : Role) : Edge := ⟨source, target, .value, role⟩

end Edge

/-- Named attributes of a node, such as the message name of a send. -/
abbrev Props := List (String × Value)

structure Node where
  op : Op
  props : Props
  /-- Edges into the node, in the order in which they were attached. -/
  inputs : List EdgeId := []
  /-- Edges out of the node, in the order in which they were attached. -/
  outputs : List EdgeId := []
  removed : Bool := false
deriving DecidableEq, Repr

namespace Node

def prop? (n : Node) (key : String) : Option Value := n.props.lookup key

def addInput (n : Node) (id : EdgeId) : Node := { n with inputs := n.inputs ++ [id] }

def addOutput (n : Node) (id : EdgeId) : Node := { n with outputs := n.outputs ++ [id] }

def eraseInput (n : Node) (id : EdgeId) : Node := { n with inputs := n.inputs.filter (· != id) }

def eraseOutput (n : Node) (id : EdgeId) : Node := { n with outputs := n.outputs.filter (· != id) }

end Node

end StackJit
