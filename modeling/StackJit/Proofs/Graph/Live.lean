import Mathlib.Data.List.Basic
import StackJit.Graph.Surgery

/-!
# The live edges of a graph

`Graph.live` lists the edges that have not been removed, in ascending order. In a consistent graph
the edge lists of every node are read off it (`Consistent`), so an operation on the arena is
described by what it does to this one list: an added edge comes last (`live_addEdge`), a removed
edge goes (`live_eraseEdge`), a removed node takes its edges along (`live_eraseNode`), and moved
uses leave their place and come last with a new source (`live_moveUses`).
-/

namespace StackJit.Graph

/-- The live edges with their numbers, in ascending order. -/
def live (g : Graph) : List (EdgeId × Edge) := g.resolve (List.range g.edges.size)

/-! ## Looking up edges -/

theorem edge?_lt {g : Graph} {id : EdgeId} {e : Edge} (h : g.edge? id = some e) :
    id < g.edges.size := by
  unfold edge? at h
  by_contra hge
  simp [Array.getElem?_eq_none (Nat.le_of_not_lt hge)] at h

theorem mem_resolve {g : Graph} {ids : List EdgeId} {id : EdgeId} {e : Edge} :
    (id, e) ∈ g.resolve ids ↔ id ∈ ids ∧ g.edge? id = some e := by
  simp only [resolve, List.mem_filterMap, Option.map_eq_some_iff, Prod.mk.injEq]
  constructor
  · rintro ⟨i, hi, e', he, rfl, rfl⟩
    exact ⟨hi, he⟩
  · rintro ⟨hi, he⟩
    exact ⟨id, hi, e, he, rfl, rfl⟩

@[simp]
theorem mem_live {g : Graph} {id : EdgeId} {e : Edge} :
    (id, e) ∈ g.live ↔ g.edge? id = some e := by
  rw [live, mem_resolve, List.mem_range]
  exact ⟨And.right, fun h => ⟨edge?_lt h, h⟩⟩

theorem resolve_congr {g h : Graph} {ids : List EdgeId}
    (hid : ∀ id ∈ ids, g.edge? id = h.edge? id) : g.resolve ids = h.resolve ids := by
  unfold resolve
  exact List.filterMap_congr fun id hmem => by rw [hid id hmem]

/-- Resolving the numbers of some live edges gives these edges back. -/
theorem resolve_fst {g : Graph} {l : List (EdgeId × Edge)} (h : ∀ p ∈ l, g.edge? p.1 = some p.2) :
    g.resolve (l.map (·.1)) = l := by
  induction l with
  | nil => rfl
  | cons p l ih =>
    have hp := h p List.mem_cons_self
    have hl := ih fun q hq => h q (List.mem_cons_of_mem p hq)
    unfold resolve at hl ⊢
    rw [List.map_cons, List.filterMap_cons, hp, hl]
    rfl

theorem live_sorted (g : Graph) : (g.live.map (·.1)).Pairwise (· < ·) := by
  have hsub : (g.live.map (·.1)).Sublist (List.range g.edges.size) := by
    unfold live resolve
    generalize List.range g.edges.size = ids
    induction ids with
    | nil => simp
    | cons id ids ih =>
      rw [List.filterMap_cons]
      cases he : g.edge? id with
      | none => exact ih.trans (List.sublist_cons_self id ids)
      | some e => simpa using ih
  exact List.pairwise_lt_range.sublist hsub

theorem live_nodup (g : Graph) : (g.live.map (·.1)).Nodup :=
  g.live_sorted.imp Nat.ne_of_lt

/-! ## Single edges -/

@[simp]
theorem size_addEdge (g : Graph) (e : Edge) : (g.addEdge e).edges.size = g.edges.size + 1 := by
  simp [addEdge]

@[simp]
theorem size_eraseEdge (g : Graph) (id : EdgeId) : (g.eraseEdge id).edges.size = g.edges.size := by
  unfold eraseEdge
  cases g.edge? id <;> simp

theorem edge?_addEdge (g : Graph) (e : Edge) (id : EdgeId) :
    (g.addEdge e).edge? id = if id = g.edges.size then some e else g.edge? id := by
  simp only [edge?, addEdge, Array.getElem?_push]
  split <;> simp

theorem edge?_eraseEdge (g : Graph) (id i : EdgeId) :
    (g.eraseEdge id).edge? i = if i = id then none else g.edge? i := by
  unfold eraseEdge
  cases he : g.edge? id with
  | none =>
    by_cases hi : i = id
    · simp [hi, he]
    · simp [hi]
  | some e =>
    have hlt := edge?_lt he
    by_cases hi : i = id
    · simp [hi, edge?, hlt]
    · simp [hi, edge?, Ne.symm hi]

@[simp]
theorem live_addNode (g : Graph) (op : Op) (props : Props) : (g.addNode op props).live = g.live :=
  rfl

@[simp]
theorem edge?_addNode (g : Graph) (op : Op) (props : Props) (id : EdgeId) :
    (g.addNode op props).edge? id = g.edge? id :=
  rfl

theorem live_addEdge (g : Graph) (e : Edge) :
    (g.addEdge e).live = g.live ++ [(g.edges.size, e)] := by
  have hold : (g.addEdge e).resolve (List.range g.edges.size) = g.live := by
    refine resolve_congr fun id hid => ?_
    rw [edge?_addEdge, if_neg (Nat.ne_of_lt (List.mem_range.mp hid))]
  rw [live, size_addEdge, List.range_succ]
  unfold resolve at hold ⊢
  rw [List.filterMap_append, hold]
  simp [edge?_addEdge]

theorem live_eraseEdge (g : Graph) (id : EdgeId) :
    (g.eraseEdge id).live = g.live.filter (·.1 != id) := by
  unfold live resolve
  rw [size_eraseEdge, List.filter_filterMap]
  refine List.filterMap_congr fun i _ => ?_
  rw [edge?_eraseEdge]
  by_cases hi : i = id
  · subst hi
    cases g.edge? i <;> simp [Option.filter]
  · cases g.edge? i <;> simp [Option.filter, hi]

theorem live_eraseEdges (g : Graph) (ids : List EdgeId) :
    (g.eraseEdges ids).live = g.live.filter fun p => !ids.contains p.1 := by
  unfold eraseEdges
  induction ids generalizing g with
  | nil => exact (List.filter_true g.live).symm
  | cons id ids ih =>
    rw [List.foldl_cons, ih, live_eraseEdge, List.filter_filter]
    refine List.filter_congr fun p _ => ?_
    rw [List.contains_cons, Bool.not_or, Bool.and_comm]
    rfl

/-! ## What the operations keep of a node -/

/-- The operation and the attributes of a node, without its edges. -/
def label? (g : Graph) (id : NodeId) : Option (Op × Props) :=
  (g.node? id).map fun n => (n.op, n.props)

theorem op?_eq_label? (g : Graph) (id : NodeId) : g.op? id = (g.label? id).map (·.1) := by
  simp [op?, label?, Function.comp_def]

theorem op?_of_label? {g : Graph} {id : NodeId} {op : Op} {props : Props}
    (h : g.label? id = some (op, props)) : g.op? id = some op := by
  rw [op?_eq_label?, h]
  rfl

theorem prop?_eq_label? (g : Graph) (id : NodeId) (key : String) :
    g.prop? id key = (g.label? id).bind fun l => l.2.lookup key := by
  unfold prop? label?
  cases g.node? id <;> rfl

theorem op?_congr {g h : Graph} {id : NodeId} (hl : g.label? id = h.label? id) :
    g.op? id = h.op? id := by rw [op?_eq_label?, op?_eq_label?, hl]

theorem node?_addEdge (g : Graph) (e : Edge) (id : NodeId) :
    (g.addEdge e).node? id = (g.node? id).map fun n =>
      { n with
        inputs := n.inputs ++ if id = e.target then [g.edges.size] else []
        outputs := n.outputs ++ if id = e.source then [g.edges.size] else [] } := by
  simp only [node?, addEdge, freshEdge, Array.getElem?_modify, eq_comm (a := id)]
  by_cases hs : e.source = id <;> by_cases ht : e.target = id <;>
    cases g.nodes[id]? <;> simp [hs, ht, Node.addInput, Node.addOutput]

theorem node?_eraseEdge {g : Graph} {id : EdgeId} {e : Edge} (he : g.edge? id = some e)
    (i : NodeId) :
    (g.eraseEdge id).node? i = (g.node? i).map fun n =>
      { n with
        inputs := if i = e.target then n.inputs.filter (· != id) else n.inputs
        outputs := if i = e.source then n.outputs.filter (· != id) else n.outputs } := by
  simp only [node?, eraseEdge, he, Array.getElem?_modify, eq_comm (a := i)]
  by_cases hs : e.source = i <;> by_cases ht : e.target = i <;>
    cases g.nodes[i]? <;> simp [hs, ht, Node.eraseInput, Node.eraseOutput]

theorem eraseEdge_of_none {g : Graph} {id : EdgeId} (h : g.edge? id = none) :
    g.eraseEdge id = g := by simp [eraseEdge, h]

@[simp]
theorem label?_addEdge (g : Graph) (e : Edge) (id : NodeId) :
    (g.addEdge e).label? id = g.label? id := by
  rw [label?, node?_addEdge, Option.map_map]
  rfl

@[simp]
theorem label?_eraseEdge (g : Graph) (id : EdgeId) (i : NodeId) :
    (g.eraseEdge id).label? i = g.label? i := by
  cases he : g.edge? id with
  | none => rw [eraseEdge_of_none he]
  | some e =>
    rw [label?, node?_eraseEdge he, Option.map_map]
    rfl

@[simp]
theorem isRemoved_addEdge (g : Graph) (e : Edge) (id : NodeId) :
    (g.addEdge e).isRemoved id = g.isRemoved id := by
  unfold isRemoved
  rw [node?_addEdge]
  cases g.node? id <;> rfl

@[simp]
theorem isRemoved_eraseEdge (g : Graph) (id : EdgeId) (i : NodeId) :
    (g.eraseEdge id).isRemoved i = g.isRemoved i := by
  cases he : g.edge? id with
  | none => rw [eraseEdge_of_none he]
  | some e =>
    unfold isRemoved
    rw [node?_eraseEdge he]
    cases g.node? i <;> rfl

@[simp]
theorem numNodes_addNode (g : Graph) (op : Op) (props : Props) :
    (g.addNode op props).nodes.size = g.nodes.size + 1 := by simp [addNode]

@[simp]
theorem numNodes_addEdge (g : Graph) (e : Edge) : (g.addEdge e).nodes.size = g.nodes.size := by
  simp [addEdge]

@[simp]
theorem numNodes_addEdges (g : Graph) (es : List Edge) :
    (g.addEdges es).nodes.size = g.nodes.size := by
  unfold addEdges
  induction es generalizing g with
  | nil => rfl
  | cons e es ih => rw [List.foldl_cons, ih, numNodes_addEdge]

@[simp]
theorem label?_addEdges (g : Graph) (es : List Edge) (id : NodeId) :
    (g.addEdges es).label? id = g.label? id := by
  unfold addEdges
  induction es generalizing g with
  | nil => rfl
  | cons e es ih => rw [List.foldl_cons, ih, label?_addEdge]

@[simp]
theorem numNodes_eraseEdge (g : Graph) (id : EdgeId) :
    (g.eraseEdge id).nodes.size = g.nodes.size := by
  unfold eraseEdge
  cases g.edge? id <;> simp

theorem label?_addNode (g : Graph) (op : Op) (props : Props) (id : NodeId) :
    (g.addNode op props).label? id =
      if id = g.nodes.size then some (op, props) else g.label? id := by
  simp only [label?, node?, addNode, Array.getElem?_push]
  split <;> simp

theorem op?_addNode (g : Graph) (op : Op) (props : Props) (id : NodeId) :
    (g.addNode op props).op? id = if id = g.nodes.size then some op else g.op? id := by
  rw [op?_eq_label?, op?_eq_label?, label?_addNode]
  split <;> rfl

theorem isRemoved_addNode (g : Graph) (op : Op) (props : Props) (id : NodeId) :
    (g.addNode op props).isRemoved id = g.isRemoved id := by
  simp only [isRemoved, node?, addNode, Array.getElem?_push]
  by_cases h : id = g.nodes.size
  · simp [h]
  · simp [h]

theorem label?_lt {g : Graph} {id : NodeId} {l : Op × Props} (h : g.label? id = some l) :
    id < g.nodes.size := by
  obtain ⟨n, hn, -⟩ := Option.map_eq_some_iff.mp h
  exact (Array.getElem?_eq_some_iff.mp hn).1

theorem op?_lt {g : Graph} {id : NodeId} {op : Op} (h : g.op? id = some op) :
    id < g.nodes.size := by
  obtain ⟨n, hn, -⟩ := Option.map_eq_some_iff.mp h
  exact (Array.getElem?_eq_some_iff.mp hn).1

theorem op?_of_lt {g : Graph} {id : NodeId} (h : id < g.nodes.size) : ∃ op, g.op? id = some op :=
  ⟨g.nodes[id].op, by rw [op?, node?, Array.getElem?_eq_getElem h]; rfl⟩

/-! ## Consistent graphs -/

/-- The edge lists of every node are the live edges at that node in ascending order, and no live
edge leaves the arena. -/
structure Consistent (g : Graph) : Prop where
  inputs : ∀ {id : NodeId} {n : Node}, g.node? id = some n →
    n.inputs = (g.live.filter (·.2.target == id)).map (·.1)
  outputs : ∀ {id : NodeId} {n : Node}, g.node? id = some n →
    n.outputs = (g.live.filter (·.2.source == id)).map (·.1)
  ends : ∀ {id : EdgeId} {e : Edge}, g.edge? id = some e →
    e.source < g.nodes.size ∧ e.target < g.nodes.size

theorem consistent_initial : initial.Consistent := by
  have hlive : initial.live = [] := rfl
  have hnode : ∀ {id : NodeId} {n : Node}, initial.node? id = some n →
      n.inputs = [] ∧ n.outputs = [] := by
    intro id n hn
    have hmem : n ∈ initial.nodes := Array.mem_of_getElem? hn
    simp only [initial, Array.mem_def, List.mem_cons, List.not_mem_nil, or_false] at hmem
    rcases hmem with rfl | rfl <;> exact ⟨rfl, rfl⟩
  refine ⟨?_, ?_, ?_⟩
  · intro id n hn
    rw [hlive, (hnode hn).1]
    rfl
  · intro id n hn
    rw [hlive, (hnode hn).2]
    rfl
  · intro id e he
    simp [edge?, initial] at he

namespace Consistent

variable {g : Graph}

theorem edgesInto_eq (h : g.Consistent) (id : NodeId) :
    g.edgesInto id = g.live.filter (·.2.target == id) := by
  unfold edgesInto
  cases hn : g.node? id with
  | some n =>
    simp only [h.inputs hn]
    exact resolve_fst fun p hp => mem_live.mp (List.mem_filter.mp hp).1
  | none =>
    refine (List.filter_eq_nil_iff.mpr fun p hp ht => ?_).symm
    have hlt := (h.ends (mem_live.mp hp)).2
    rw [beq_iff_eq.mp ht] at hlt
    simp [node?, hlt] at hn

theorem edgesOutOf_eq (h : g.Consistent) (id : NodeId) :
    g.edgesOutOf id = g.live.filter (·.2.source == id) := by
  unfold edgesOutOf
  cases hn : g.node? id with
  | some n =>
    simp only [h.outputs hn]
    exact resolve_fst fun p hp => mem_live.mp (List.mem_filter.mp hp).1
  | none =>
    refine (List.filter_eq_nil_iff.mpr fun p hp ht => ?_).symm
    have hlt := (h.ends (mem_live.mp hp)).1
    rw [beq_iff_eq.mp ht] at hlt
    simp [node?, hlt] at hn

theorem mem_edgesInto (h : g.Consistent) {id : NodeId} {i : EdgeId} {e : Edge} :
    (i, e) ∈ g.edgesInto id ↔ g.edge? i = some e ∧ e.target = id := by
  rw [h.edgesInto_eq, List.mem_filter, mem_live, beq_iff_eq]

theorem mem_edgesOutOf (h : g.Consistent) {id : NodeId} {i : EdgeId} {e : Edge} :
    (i, e) ∈ g.edgesOutOf id ↔ g.edge? i = some e ∧ e.source = id := by
  rw [h.edgesOutOf_eq, List.mem_filter, mem_live, beq_iff_eq]

theorem mem_inputs (h : g.Consistent) {id : NodeId} {e : Edge} :
    e ∈ g.inputs id ↔ e.target = id ∧ ∃ i, g.edge? i = some e := by
  simp only [Graph.inputs, List.mem_map, Prod.exists, h.mem_edgesInto]
  grind

theorem mem_outputs (h : g.Consistent) {id : NodeId} {e : Edge} :
    e ∈ g.outputs id ↔ e.source = id ∧ ∃ i, g.edge? i = some e := by
  simp only [Graph.outputs, List.mem_map, Prod.exists, h.mem_edgesOutOf]
  grind

theorem addNode (h : g.Consistent) (op : Op) (props : Props) : (g.addNode op props).Consistent := by
  have hfresh : ∀ {id : NodeId} {n : Node}, (g.addNode op props).node? id = some n →
      g.node? id = some n ∨ id = g.nodes.size ∧ n.inputs = [] ∧ n.outputs = [] := by
    intro id n hn
    simp only [node?, Graph.addNode, Array.getElem?_push] at hn ⊢
    split at hn
    · next hid =>
      obtain rfl := Option.some.inj hn
      exact .inr ⟨hid, rfl, rfl⟩
    · exact .inl hn
  refine ⟨?_, ?_, ?_⟩
  · intro id n hn
    rw [live_addNode]
    rcases hfresh hn with hn | ⟨rfl, hin, -⟩
    · exact h.inputs hn
    · rw [hin, List.filter_eq_nil_iff.mpr, List.map_nil]
      intro p hp ht
      have hlt := (h.ends (mem_live.mp hp)).2
      rw [beq_iff_eq.mp ht] at hlt
      exact Nat.lt_irrefl _ hlt
  · intro id n hn
    rw [live_addNode]
    rcases hfresh hn with hn | ⟨rfl, -, hout⟩
    · exact h.outputs hn
    · rw [hout, List.filter_eq_nil_iff.mpr, List.map_nil]
      intro p hp ht
      have hlt := (h.ends (mem_live.mp hp)).1
      rw [beq_iff_eq.mp ht] at hlt
      exact Nat.lt_irrefl _ hlt
  · intro id e he
    have he' : g.edge? id = some e := he
    obtain ⟨hs, ht⟩ := h.ends he'
    rw [numNodes_addNode]
    exact ⟨Nat.lt_succ_of_lt hs, Nat.lt_succ_of_lt ht⟩

theorem addEdge (h : g.Consistent) {e : Edge} (hs : e.source < g.nodes.size)
    (ht : e.target < g.nodes.size) : (g.addEdge e).Consistent := by
  refine ⟨?_, ?_, ?_⟩
  · intro id n hn
    rw [node?_addEdge] at hn
    obtain ⟨m, hm, rfl⟩ := Option.map_eq_some_iff.mp hn
    rw [live_addEdge, List.filter_append, List.map_append, ← h.inputs hm]
    by_cases hid : id = e.target
    · simp [hid]
    · simp [hid, Ne.symm hid]
  · intro id n hn
    rw [node?_addEdge] at hn
    obtain ⟨m, hm, rfl⟩ := Option.map_eq_some_iff.mp hn
    rw [live_addEdge, List.filter_append, List.map_append, ← h.outputs hm]
    by_cases hid : id = e.source
    · simp [hid]
    · simp [hid, Ne.symm hid]
  · intro id e' he
    rw [numNodes_addEdge]
    rw [edge?_addEdge] at he
    split at he
    · obtain rfl := Option.some.inj he
      exact ⟨hs, ht⟩
    · exact h.ends he

theorem eraseEdge (h : g.Consistent) (id : EdgeId) : (g.eraseEdge id).Consistent := by
  cases hlive : g.edge? id with
  | none => rwa [eraseEdge_of_none hlive]
  | some e =>
    -- the edge leaves the lists of its own ends, and is in no other list
    have hlist : ∀ (p : Edge → Bool),
        ((g.live.filter (·.1 != id)).filter fun q => p q.2).map (·.1) =
          if p e then ((g.live.filter fun q => p q.2).map (·.1)).filter (· != id)
          else (g.live.filter fun q => p q.2).map (·.1) := by
      intro p
      by_cases hp : p e = true
      · rw [if_pos hp, List.filter_map, List.filter_filter, List.filter_filter]
        congr 1
        exact List.filter_congr fun q _ => Bool.and_comm _ _
      · rw [if_neg hp, List.filter_filter]
        congr 1
        refine List.filter_congr fun q hq => ?_
        by_cases hqid : q.1 = id
        · have hqe := mem_live.mp (show (q.1, q.2) ∈ g.live from hq)
          rw [hqid, hlive] at hqe
          obtain rfl := Option.some.inj hqe
          simp [hp]
        · simp [hqid]
    refine ⟨?_, ?_, ?_⟩
    · intro i n hn
      rw [node?_eraseEdge hlive] at hn
      obtain ⟨m, hm, rfl⟩ := Option.map_eq_some_iff.mp hn
      rw [live_eraseEdge, hlist (fun q => q.target == i), ← h.inputs hm]
      simp [eq_comm (a := i)]
    · intro i n hn
      rw [node?_eraseEdge hlive] at hn
      obtain ⟨m, hm, rfl⟩ := Option.map_eq_some_iff.mp hn
      rw [live_eraseEdge, hlist (fun q => q.source == i), ← h.outputs hm]
      simp [eq_comm (a := i)]
    · intro i e' he
      rw [numNodes_eraseEdge]
      rw [edge?_eraseEdge] at he
      split at he
      · exact absurd he (by simp)
      · exact h.ends he

theorem eraseEdges (h : g.Consistent) (ids : List EdgeId) : (g.eraseEdges ids).Consistent := by
  unfold Graph.eraseEdges
  induction ids generalizing g with
  | nil => exact h
  | cons id ids ih => exact ih (h.eraseEdge id)

/-- A live edge is in the list of the edges into a node iff it goes there. -/
theorem mem_node_inputs (h : g.Consistent) {id : NodeId} {n : Node} (hn : g.node? id = some n)
    {i : EdgeId} {e : Edge} (he : g.edge? i = some e) : i ∈ n.inputs ↔ e.target = id := by
  simp only [h.inputs hn, List.mem_map, List.mem_filter, beq_iff_eq, Prod.exists, mem_live]
  grind

theorem mem_node_outputs (h : g.Consistent) {id : NodeId} {n : Node} (hn : g.node? id = some n)
    {i : EdgeId} {e : Edge} (he : g.edge? i = some e) : i ∈ n.outputs ↔ e.source = id := by
  simp only [h.outputs hn, List.mem_map, List.mem_filter, beq_iff_eq, Prod.exists, mem_live]
  grind

end Consistent

/-! ## Removing a node -/

@[simp]
theorem label?_eraseEdges (g : Graph) (ids : List EdgeId) (i : NodeId) :
    (g.eraseEdges ids).label? i = g.label? i := by
  unfold eraseEdges
  induction ids generalizing g with
  | nil => rfl
  | cons id ids ih => rw [List.foldl_cons, ih, label?_eraseEdge]

@[simp]
theorem isRemoved_eraseEdges (g : Graph) (ids : List EdgeId) (i : NodeId) :
    (g.eraseEdges ids).isRemoved i = g.isRemoved i := by
  unfold eraseEdges
  induction ids generalizing g with
  | nil => rfl
  | cons id ids ih => rw [List.foldl_cons, ih, isRemoved_eraseEdge]

@[simp]
theorem numNodes_eraseEdges (g : Graph) (ids : List EdgeId) :
    (g.eraseEdges ids).nodes.size = g.nodes.size := by
  unfold eraseEdges
  induction ids generalizing g with
  | nil => rfl
  | cons id ids ih => rw [List.foldl_cons, ih, numNodes_eraseEdge]

@[simp]
theorem size_eraseEdges (g : Graph) (ids : List EdgeId) :
    (g.eraseEdges ids).edges.size = g.edges.size := by
  unfold eraseEdges
  induction ids generalizing g with
  | nil => rfl
  | cons id ids ih => rw [List.foldl_cons, ih, size_eraseEdge]

@[simp]
theorem label?_eraseNode (g : Graph) (id i : NodeId) : (g.eraseNode id).label? i = g.label? i := by
  unfold eraseNode
  cases g.node? id with
  | none => rfl
  | some n =>
    rw [← label?_eraseEdges g (n.inputs ++ n.outputs) i]
    simp only [label?, node?, Array.getElem?_modify]
    split <;> simp [Function.comp_def]

@[simp]
theorem numNodes_eraseNode (g : Graph) (id : NodeId) :
    (g.eraseNode id).nodes.size = g.nodes.size := by
  unfold eraseNode
  cases g.node? id <;> simp

@[simp]
theorem size_eraseNode (g : Graph) (id : NodeId) :
    (g.eraseNode id).edges.size = g.edges.size := by
  unfold eraseNode
  cases g.node? id <;> simp

theorem isRemoved_eraseNode (g : Graph) (id i : NodeId) :
    (g.eraseNode id).isRemoved i = (g.isRemoved i || (i == id && decide (i < g.nodes.size))) := by
  unfold eraseNode
  cases hn : g.node? id with
  | none =>
    by_cases hi : i = id
    · subst hi
      have hge : ¬ i < g.nodes.size := fun hlt => by simp [node?, hlt] at hn
      simp [hge]
    · simp [hi]
  | some n =>
    have hlt : id < g.nodes.size := (Array.getElem?_eq_some_iff.mp hn).1
    rw [← isRemoved_eraseEdges g (n.inputs ++ n.outputs) i]
    simp only [isRemoved, node?, Array.getElem?_modify]
    by_cases hi : i = id
    · subst hi
      simp [hlt]
    · simp [hi, Ne.symm hi]

/-- A removed node takes all its edges along. -/
theorem live_eraseNode {g : Graph} (h : g.Consistent) (id : NodeId) :
    (g.eraseNode id).live = g.live.filter fun p => p.2.source != id && p.2.target != id := by
  unfold eraseNode
  cases hn : g.node? id with
  | none =>
    refine (List.filter_eq_self.mpr fun p hp => ?_).symm
    obtain ⟨hs, ht⟩ := h.ends (mem_live.mp hp)
    have hne : ∀ i : NodeId, i < g.nodes.size → i ≠ id := by
      rintro i hi rfl
      simp [node?, hi] at hn
    simp [hne _ hs, hne _ ht]
  | some n =>
    have hflag : ∀ (g' : Graph) (ns : Array Node), { g' with nodes := ns }.live = g'.live :=
      fun _ _ => rfl
    simp only
    rw [hflag, live_eraseEdges]
    refine List.filter_congr fun p hp => ?_
    have hin := h.mem_node_inputs hn (mem_live.mp hp)
    have hout := h.mem_node_outputs hn (mem_live.mp hp)
    rw [Bool.eq_iff_iff]
    simp [hin, hout, and_comm]

theorem edge?_eraseNode {g : Graph} (h : g.Consistent) {id : NodeId} {i : EdgeId} {e : Edge} :
    (g.eraseNode id).edge? i = some e ↔ g.edge? i = some e ∧ e.source ≠ id ∧ e.target ≠ id := by
  rw [← mem_live, live_eraseNode h, List.mem_filter, mem_live]
  simp

theorem Consistent.eraseNode {g : Graph} (h : g.Consistent) (id : NodeId) :
    (g.eraseNode id).Consistent := by
  unfold Graph.eraseNode
  cases g.node? id with
  | none => exact h
  | some n =>
    have hc := h.eraseEdges (n.inputs ++ n.outputs)
    have hnode : ∀ {i : NodeId} {m : Node},
        ((g.eraseEdges (n.inputs ++ n.outputs)).nodes.modify id
          fun n => { n with removed := true })[i]? = some m →
        ∃ m', (g.eraseEdges (n.inputs ++ n.outputs)).node? i = some m' ∧
          m.inputs = m'.inputs ∧ m.outputs = m'.outputs := by
      intro i m hm
      rw [Array.getElem?_modify] at hm
      split at hm
      · obtain ⟨m', hm', rfl⟩ := Option.map_eq_some_iff.mp hm
        exact ⟨m', hm', rfl, rfl⟩
      · exact ⟨m, hm, rfl, rfl⟩
    refine ⟨?_, ?_, ?_⟩
    · intro i m hm
      obtain ⟨m', hm', hin, -⟩ := hnode hm
      exact hin.trans (hc.inputs hm')
    · intro i m hm
      obtain ⟨m', hm', -, hout⟩ := hnode hm
      exact hout.trans (hc.outputs hm')
    · intro i e he
      have he' : (g.eraseEdges (n.inputs ++ n.outputs)).edge? i = some e := he
      have := hc.ends he'
      simpa using this

/-! ## Moving uses -/

/-- Edges with consecutive numbers from `k` on. -/
def stamp (k : EdgeId) : List Edge → List (EdgeId × Edge)
  | [] => []
  | e :: es => (k, e) :: stamp (k + 1) es

theorem stamp_snd (k : EdgeId) (es : List Edge) : (stamp k es).map (·.2) = es := by
  induction es generalizing k with
  | nil => rfl
  | cons e es ih => rw [stamp, List.map_cons, ih]

theorem le_of_mem_stamp {k : EdgeId} {es : List Edge} {p : EdgeId × Edge} (h : p ∈ stamp k es) :
    k ≤ p.1 ∧ p.2 ∈ es := by
  induction es generalizing k with
  | nil => simp [stamp] at h
  | cons e es ih =>
    rcases List.mem_cons.mp h with rfl | h
    · exact ⟨Nat.le_refl _, List.mem_cons_self⟩
    · obtain ⟨hk, he⟩ := ih h
      exact ⟨Nat.le_of_succ_le hk, List.mem_cons_of_mem _ he⟩

/-- Whether an edge is a use of the value of `old`. -/
def isUse (old : NodeId) (e : Edge) : Bool := e.isValue && e.source == old

theorem live_redirect (g : Graph) (new : NodeId) (use : EdgeId × Edge) :
    (redirect new g use).live =
      g.live.filter (·.1 != use.1) ++ [(g.edges.size, { use.2 with source := new })] := by
  rw [redirect, live_addEdge, live_eraseEdge, size_eraseEdge]

/-- Redirecting live edges one after the other takes them out and adds them last, in order. -/
theorem live_foldl_redirect (new : NodeId) (uses : List (EdgeId × Edge)) (g : Graph)
    (hlive : ∀ u ∈ uses, u ∈ g.live) :
    (uses.foldl (redirect new) g).live =
      (g.live.filter fun p => !(uses.map (·.1)).contains p.1) ++
        stamp g.edges.size (uses.map fun u => { u.2 with source := new }) := by
  suffices hgen : ∀ (uses : List (EdgeId × Edge)) (g : Graph) (k : Nat), k ≤ g.edges.size →
      (∀ u ∈ uses, u.1 < k) →
      (uses.foldl (redirect new) g).live =
        (g.live.filter fun p => !(uses.map (·.1)).contains p.1) ++
          stamp g.edges.size (uses.map fun u => { u.2 with source := new }) from
    hgen uses g g.edges.size (Nat.le_refl _) fun u hu => edge?_lt (mem_live.mp (hlive u hu))
  intro uses
  induction uses with
  | nil =>
    intro g k _ _
    simp [stamp]
  | cons u uses ih =>
    intro g k hk hlt
    have hsize : (redirect new g u).edges.size = g.edges.size + 1 := by
      rw [redirect, size_addEdge, size_eraseEdge]
    -- the new edge is not among those still to be redirected
    have hnew : g.edges.size ∉ uses.map (·.1) := by
      rw [List.mem_map]
      rintro ⟨v, hv, hv'⟩
      have := hlt v (List.mem_cons_of_mem u hv)
      lia
    rw [List.foldl_cons, ih (redirect new g u) k (by omega)
      fun v hv => hlt v (List.mem_cons_of_mem u hv), hsize, live_redirect, List.filter_append,
      List.filter_filter, List.map_cons, List.map_cons, stamp]
    have hfilter : (g.live.filter fun p => !(uses.map (·.1)).contains p.1 && p.1 != u.1) =
        g.live.filter fun p => !(u.1 :: uses.map (·.1)).contains p.1 := by
      refine List.filter_congr fun p _ => ?_
      rw [List.contains_cons, Bool.not_or, Bool.and_comm]
      rfl
    rw [hfilter, List.append_assoc, List.filter_cons_of_pos (by simpa using hnew)]
    rfl

theorem Consistent.valueUses_eq {g : Graph} (h : g.Consistent) (old : NodeId) :
    g.valueUses old = g.live.filter fun p => isUse old p.2 := by
  unfold valueUses isUse
  rw [h.edgesOutOf_eq, List.filter_filter]

/-- Moved uses leave their place and come last, with the new source. -/
theorem live_moveUses {g : Graph} (h : g.Consistent) (old new : NodeId) :
    (g.moveUses old new).live =
      (g.live.filter fun p => !isUse old p.2) ++
        stamp g.edges.size ((g.live.filter fun p => isUse old p.2).map
          fun p => { p.2 with source := new }) := by
  have huses := h.valueUses_eq old
  rw [moveUses, live_foldl_redirect new _ g fun u hu => (List.mem_filter.mp (huses ▸ hu)).1, huses]
  congr 1
  refine List.filter_congr fun p hp => ?_
  rw [Bool.not_inj_iff, Bool.eq_iff_iff]
  simp only [List.contains_eq_mem, decide_eq_true_eq, List.mem_map, List.mem_filter, Prod.exists,
    mem_live]
  have hpe := mem_live.mp (show (p.1, p.2) ∈ g.live from hp)
  grind

theorem Consistent.moveUses {g : Graph} (h : g.Consistent) (old new : NodeId)
    (hnew : new < g.nodes.size) : (g.moveUses old new).Consistent := by
  unfold Graph.moveUses
  have hends : ∀ u ∈ g.valueUses old, u.2.target < g.nodes.size := by
    intro u hu
    rw [h.valueUses_eq] at hu
    exact (h.ends (mem_live.mp (List.mem_filter.mp hu).1)).2
  generalize g.valueUses old = uses at hends
  induction uses generalizing g with
  | nil => exact h
  | cons u uses ih =>
    have hsize : (redirect new g u).nodes.size = g.nodes.size := by simp [redirect]
    have hu := hends u List.mem_cons_self
    refine ih ((h.eraseEdge u.1).addEdge ?_ ?_) ?_ ?_
    · simpa using hnew
    · simpa using hu
    · rwa [hsize]
    · intro v hv
      rw [hsize]
      exact hends v (List.mem_cons_of_mem u hv)

@[simp]
theorem label?_moveUses (g : Graph) (old new i : NodeId) :
    (g.moveUses old new).label? i = g.label? i := by
  unfold moveUses
  generalize g.valueUses old = uses
  induction uses generalizing g with
  | nil => rfl
  | cons u uses ih => rw [List.foldl_cons, ih, redirect, label?_addEdge, label?_eraseEdge]

@[simp]
theorem isRemoved_moveUses (g : Graph) (old new i : NodeId) :
    (g.moveUses old new).isRemoved i = g.isRemoved i := by
  unfold moveUses
  generalize g.valueUses old = uses
  induction uses generalizing g with
  | nil => rfl
  | cons u uses ih => rw [List.foldl_cons, ih, redirect, isRemoved_addEdge, isRemoved_eraseEdge]

@[simp]
theorem numNodes_moveUses (g : Graph) (old new : NodeId) :
    (g.moveUses old new).nodes.size = g.nodes.size := by
  unfold moveUses
  generalize g.valueUses old = uses
  induction uses generalizing g with
  | nil => rfl
  | cons u uses ih => rw [List.foldl_cons, ih, redirect, numNodes_addEdge, numNodes_eraseEdge]

end StackJit.Graph
