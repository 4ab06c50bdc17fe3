import StackJit.Pass.Sweep
import StackJit.Profile

/-!
# Placing guards

A send whose site met receivers of a single kind gets a guard that checks for that kind, on its only
control input, unless a guard is there already.
-/

namespace StackJit.Graph

/-- The instruction that a send came from. -/
def sendSite? (g : Graph) (send : NodeId) : Option Nat :=
  match (g.prop? send "ip").bind (·.int?) with
  | some ip => if 0 ≤ ip then some ip.toInt.toNat else none
  | none => none

/-- Puts a guard for `kind` onto a control edge of a send. -/
def addGuard (g : Graph) (edge : EdgeId) (receiver : NodeId) (kind : Kind) (ip : Nat) : Graph :=
  let guard := g.freshNode
  ((g.addNode .guard [("kind", .symbol kind.name), ("ip", .ofNat ip)]).interpose edge guard).addEdge
    (.value receiver guard .receiver)

def guardSend? (profile : Profile) (g : Graph) (send : NodeId) : Option Graph := do
  let ip ← g.sendSite? send
  let kind ← profile.monomorphic? ip
  match (g.edgesInto send).filter (·.2.isControl) with
  | [(edge, control)] =>
    if g.hasOp control.source .guard then none
    else
      let receiver ← g.sourceFor? send .receiver
      return g.addGuard edge receiver kind ip
  | _ => none

def placeGuards (profile : Profile) (g : Graph) : Swept :=
  g.sweep (guardSend? profile) (g.nodesOf .send)

end StackJit.Graph
