import Mathlib.Data.Set.Card
import Mathlib.Logic.Relation
import StackJit.Proofs.Bookkeeping

/-!
# What a traversal finds

A traversal is offered both ends of every edge in the lists of the node that it visits, and marks a
node when it puts it on its stack. What it finds is what can be reached along the lists
(`Search.mem_order`). If these record the live edges (`Graph.Listed`), that is what live edges
connect with the root, whichever way they lead (`Graph.mem_reachable_iff`). The order of the lists
does not matter, nor do edges from a node to itself or several edges between the same nodes.

Main statement: `Graph.traversal_exact`.
-/

namespace StackJit.Graph

variable {g : Graph} {n m : NodeId} {i : EdgeId} {e : Edge}

/-! ## Lists and edges -/

/-- A number is in the list of the edges out of a node iff it is that of a live edge with this
source, and in the list of the edges into a node iff it is that of a live edge with this target. -/
structure Listed (g : Graph) : Prop where
  outputs : ∀ {n : NodeId} {i : EdgeId},
    (∃ node, g.node? n = some node ∧ i ∈ node.outputs) ↔ ∃ e, g.edge? i = some e ∧ e.source = n
  inputs : ∀ {n : NodeId} {i : EdgeId},
    (∃ node, g.node? n = some node ∧ i ∈ node.inputs) ↔ ∃ e, g.edge? i = some e ∧ e.target = n

theorem Consistent.listed (hg : g.Consistent) : g.Listed := ⟨hg.mem_outputs_iff, hg.mem_inputs_iff⟩

/-- A live edge leads from one of the nodes to the other. -/
def Adjacent (g : Graph) (n m : NodeId) : Prop :=
  ∃ i e, g.edge? i = some e ∧ (e.source = n ∧ e.target = m ∨ e.source = m ∧ e.target = n)

/-- Live edges lead from the root to the node, some of them perhaps backward. -/
def Connected (g : Graph) (n : NodeId) : Prop := Relation.ReflTransGen g.Adjacent g.root n

theorem mem_outputs_iff_mem_list : e ∈ g.outputs n ↔
    ∃ i, (∃ node, g.node? n = some node ∧ i ∈ node.outputs) ∧ g.edge? i = some e := by
  unfold outputs edgesOutOf
  cases g.node? n with
  | none => simp
  | some node => simp [mem_resolve]

theorem mem_inputs_iff_mem_list : e ∈ g.inputs n ↔
    ∃ i, (∃ node, g.node? n = some node ∧ i ∈ node.inputs) ∧ g.edge? i = some e := by
  unfold inputs edgesInto
  cases g.node? n with
  | none => simp
  | some node => simp [mem_resolve]

namespace Listed

theorem mem_outputs (hg : g.Listed) : e ∈ g.outputs n ↔ ∃ i, g.edge? i = some e ∧ e.source = n := by
  simp only [mem_outputs_iff_mem_list, hg.outputs]
  refine exists_congr fun i => ⟨?_, fun ⟨he, hsource⟩ => ⟨⟨e, he, hsource⟩, he⟩⟩
  rintro ⟨⟨u, hu, hsource⟩, he⟩
  obtain rfl := Option.some.inj (hu.symm.trans he)
  exact ⟨hu, hsource⟩

theorem mem_inputs (hg : g.Listed) : e ∈ g.inputs n ↔ ∃ i, g.edge? i = some e ∧ e.target = n := by
  simp only [mem_inputs_iff_mem_list, hg.inputs]
  refine exists_congr fun i => ⟨?_, fun ⟨he, htarget⟩ => ⟨⟨e, he, htarget⟩, he⟩⟩
  rintro ⟨⟨u, hu, htarget⟩, he⟩
  obtain rfl := Option.some.inj (hu.symm.trans he)
  exact ⟨hu, htarget⟩

/-- The ends of a live edge are nodes, as they have lists. -/
theorem ends (hg : g.Listed) (he : g.edge? i = some e) :
    e.source < g.nodes.size ∧ e.target < g.nodes.size := by
  obtain ⟨_, hsource, -⟩ := hg.outputs.mpr ⟨e, he, rfl⟩
  obtain ⟨_, htarget, -⟩ := hg.inputs.mpr ⟨e, he, rfl⟩
  exact ⟨(Array.getElem?_eq_some_iff.mp hsource).1, (Array.getElem?_eq_some_iff.mp htarget).1⟩

theorem mem_neighbours (hg : g.Listed) : m ∈ g.neighbours n ↔
    ∃ i e, g.edge? i = some e ∧ (e.source = n ∨ e.target = n) ∧ (e.source = m ∨ e.target = m) := by
  simp only [neighbours, List.mem_flatMap, List.mem_append, hg.mem_inputs, hg.mem_outputs,
    List.mem_pair]
  constructor
  · rintro ⟨e, ⟨i, he, htarget⟩ | ⟨i, he, hsource⟩, hm⟩
    · exact ⟨i, e, he, .inr htarget, hm.imp Eq.symm Eq.symm⟩
    · exact ⟨i, e, he, .inl hsource, hm.imp Eq.symm Eq.symm⟩
  · rintro ⟨i, e, he, hsource | htarget, hm⟩
    · exact ⟨e, .inr ⟨i, he, hsource⟩, hm.imp Eq.symm Eq.symm⟩
    · exact ⟨e, .inl ⟨i, he, htarget⟩, hm.imp Eq.symm Eq.symm⟩

/-- A traversal is also offered the node that it comes from. -/
theorem adjacent_or_eq (hg : g.Listed) (h : m ∈ g.neighbours n) : g.Adjacent n m ∨ m = n := by
  obtain ⟨i, e, he, rfl | rfl, rfl | rfl⟩ := hg.mem_neighbours.mp h
  · exact .inr rfl
  · exact .inl ⟨i, e, he, .inl ⟨rfl, rfl⟩⟩
  · exact .inl ⟨i, e, he, .inr ⟨rfl, rfl⟩⟩
  · exact .inr rfl

theorem neighbour_of_adjacent (hg : g.Listed) (h : g.Adjacent n m) :
    m ∈ g.neighbours n ∧ m < g.nodes.size := by
  obtain ⟨i, e, he, ⟨rfl, rfl⟩ | ⟨rfl, rfl⟩⟩ := h
  · exact ⟨hg.mem_neighbours.mpr ⟨i, e, he, .inl rfl, .inr rfl⟩, (hg.ends he).2⟩
  · exact ⟨hg.mem_neighbours.mpr ⟨i, e, he, .inr rfl, .inl rfl⟩, (hg.ends he).1⟩

end Listed

/-! ## The traversal -/

theorem mem_reachable_iff (hg : g.Listed) (hroot : g.root < g.nodes.size) :
    n ∈ g.reachable ↔ g.Connected n := by
  rw [reachable, Search.mem_order]
  constructor
  · intro h
    induction h with
    | root _ => exact .refl
    | step _ hnext _ ih =>
      rcases hg.adjacent_or_eq hnext with hadjacent | rfl
      · exact ih.tail hadjacent
      · exact ih
  · intro h
    induction h with
    | refl => exact .root hroot
    | tail _ hadjacent ih =>
      obtain ⟨hnext, hlt⟩ := hg.neighbour_of_adjacent hadjacent
      exact ih.step hnext hlt

theorem nodup_reachable (g : Graph) : g.reachable.Nodup := Search.nodup_order _ _ _

theorem size_eq_ncard (hg : g.Listed) (hroot : g.root < g.nodes.size) :
    g.size = {n | g.Connected n}.ncard := by
  have hset : {n | g.Connected n} = (g.reachable.toFinset : Set NodeId) := by
    ext n
    simp [mem_reachable_iff hg hroot]
  rw [hset, Set.ncard_coe_finset, List.toFinset_card_of_nodup g.nodup_reachable, size]

theorem mem_nodesWhere {p : Node → Bool} :
    n ∈ g.nodesWhere p ↔ n ∈ g.reachable ∧ ∃ node, g.node? n = some node ∧ p node = true := by
  rw [nodesWhere, List.mem_filter, Option.any_eq_true]

/-- If the lists of a graph record its live edges and its root is one of its nodes, a traversal
finds each node that live edges connect with the root, in whatever direction they lead, once, and no
other node, and it starts with the root. The size is the number of these nodes, and the nodes with a
property or an operation are those among them that have it, in the order in which they are found. -/
theorem traversal_exact (hg : g.Listed) (hroot : g.root < g.nodes.size) :
    (∀ n, n ∈ g.reachable ↔ g.Connected n) ∧ g.reachable.Nodup ∧
    g.reachable.head? = some g.root ∧ g.size = {n | g.Connected n}.ncard ∧
    (∀ p, (g.nodesWhere p).Sublist g.reachable ∧ ∀ n,
      n ∈ g.nodesWhere p ↔ g.Connected n ∧ ∃ node, g.node? n = some node ∧ p node = true) ∧
    ∀ op, (g.nodesOf op).Sublist g.reachable ∧ ∀ n,
      n ∈ g.nodesOf op ↔ g.Connected n ∧ g.op? n = some op := by
  have hmem : ∀ n, n ∈ g.reachable ↔ g.Connected n := fun n => mem_reachable_iff hg hroot
  refine ⟨hmem, g.nodup_reachable, Search.head?_order _ _ _ hroot, size_eq_ncard hg hroot,
    fun p => ⟨List.filter_sublist, fun n => ?_⟩, fun op => ⟨List.filter_sublist, fun n => ?_⟩⟩
  · rw [mem_nodesWhere, hmem]
  · rw [mem_nodesOf, hmem]

end StackJit.Graph

namespace StackJit.Change

/-- A region that is its own successor, a phi in a cycle with it that uses a constant twice, and a
node that is removed after it was connected. -/
def carousel : List Change :=
  [.edit (.addNode .region []), .edit (.addNode .phi []),
    .edit (.addNode .constant [("value", .nil)]), .edit (.addNode .trace []),
    .edit (.addEdge (.control 0 2)), .edit (.addEdge (.control 2 2)),
    .edit (.addEdge (.control 2 3)), .edit (.addEdge (.control 3 2)),
    .edit (.addEdge (.value 4 3 .value)), .edit (.addEdge (.value 4 3 .value)),
    .edit (.addEdge (.control 2 5)), .edit (.eraseNode 5)]

/-- The constant is found, though its edges lead away from it. The removed node is not, nor is the
finish node, to which no edge leads. -/
theorem traversal_exact_carousel : ∃ g, Change.run? .initial carousel = some g ∧ g.Listed ∧
    g.root < g.nodes.size ∧ g.reachable = [0, 2, 3, 4] ∧ g.Connected 4 ∧ ¬ g.Connected 5 ∧
      ¬ g.Connected 1 ∧ {n | g.Connected n}.ncard = 4 := by
  obtain ⟨g, hg, hroot, hfound⟩ : ∃ g, Change.run? .initial carousel = some g ∧
      g.root < g.nodes.size ∧ g.reachable = [0, 2, 3, 4] :=
    ⟨_, rfl, by decide +kernel⟩
  have hlisted := (later_of_run? Graph.consistent_initial.later hg).consistent.listed
  obtain ⟨hmem, -, -, hsize, -⟩ := Graph.traversal_exact hlisted hroot
  refine ⟨g, hg, hlisted, hroot, hfound, (hmem 4).mp ?_, mt (hmem 5).mpr ?_, mt (hmem 1).mpr ?_, ?_⟩
  · simp [hfound]
  · simp [hfound]
  · simp [hfound]
  · rw [← hsize, Graph.size, hfound]
    rfl

end StackJit.Change
