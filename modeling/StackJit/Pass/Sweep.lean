import StackJit.Graph.Surgery

/-!
# Sweeps

A pass over a graph tries a change at each node of a list that is fixed beforehand, one after the
other, each on the graph that the ones before it left. A change that does not apply answers `none`.
-/

namespace StackJit

/-- A graph after a pass, and whether any change was made. -/
structure Swept where
  graph : Graph
  changed : Bool
deriving DecidableEq, Repr

namespace Swept

def unchanged (g : Graph) : Swept := ⟨g, false⟩

def andThen (r : Swept) (f : Graph → Swept) : Swept :=
  let s := f r.graph
  ⟨s.graph, r.changed || s.changed⟩

/-- Tries one more change. -/
def attempt (change? : Graph → NodeId → Option Graph) (r : Swept) (id : NodeId) : Swept :=
  match change? r.graph id with
  | some g => ⟨g, true⟩
  | none => r

end Swept

/-- Tries a change at each of the given nodes. -/
def Graph.sweep (g : Graph) (change? : Graph → NodeId → Option Graph) (ids : List NodeId) :
    Swept :=
  ids.foldl (Swept.attempt change?) (.unchanged g)

end StackJit
