import StackJit.Graph.Edit
import StackJit.Proofs.Rewrite.Passes

/-!
# The edge lists of the arena

Every edge is recorded in three places: in its slot, and in the lists of its two ends. They agree
after any sequence of edits and passes that starts from the initial graph (`Change.later_of_run?`),
since every one of them leaves a consistent graph consistent and never fills a slot again
(`Graph.Later`). An edit has to stay within the arena for that; a pass does so of itself, as the
nodes that it connects are ends of live edges or new.

Main statement: `Change.edgeLists_agree`.
-/

namespace StackJit

namespace Graph

variable {g c d d' : Graph} {n m : NodeId}

/-- `c` is consistent, and comes after `g`: its arena holds that of `g`, and its edges with numbers
of `g` are edges of `g`. -/
structure Later (g c : Graph) : Prop where
  consistent : c.Consistent
  numNodes : g.nodes.size ≤ c.nodes.size
  size : g.edges.size ≤ c.edges.size
  edge : ∀ {i : EdgeId} {e : Edge}, i < g.edges.size → c.edge? i = some e → g.edge? i = some e

theorem Consistent.later (hg : g.Consistent) : g.Later g :=
  ⟨hg, Nat.le_refl _, Nat.le_refl _, fun _ he => he⟩

theorem Consistent.source_lt (hg : g.Consistent) {e : Edge} (he : e ∈ g.inputs n) :
    e.source < g.nodes.size := by
  obtain ⟨-, i, hi⟩ := hg.mem_inputs.mp he
  exact (hg.ends hi).1

theorem Consistent.target_lt (hg : g.Consistent) {e : Edge} (he : e ∈ g.outputs n) :
    e.target < g.nodes.size := by
  obtain ⟨-, i, hi⟩ := hg.mem_outputs.mp he
  exact (hg.ends hi).2

theorem Consistent.lt_of_mem_valueSources (hg : g.Consistent) (hm : m ∈ g.valueSources n) :
    m < g.nodes.size := by
  obtain ⟨e, he, rfl⟩ := List.mem_map.mp hm
  exact hg.source_lt (List.mem_filter.mp he).1

theorem Consistent.lt_of_sourceFor? (hg : g.Consistent) {role : Role}
    (hm : g.sourceFor? n role = some m) : m < g.nodes.size := by
  obtain ⟨e, he, rfl⟩ := Option.map_eq_some_iff.mp hm
  exact hg.source_lt (List.mem_of_find?_eq_some he)

namespace Later

theorem trans (h : g.Later c) (h' : c.Later d) : g.Later d where
  consistent := h'.consistent
  numNodes := h.numNodes.trans h'.numNodes
  size := h.size.trans h'.size
  edge hi he := h.edge hi (h'.edge (Nat.lt_of_lt_of_le hi h.size) he)

/-! ## Edits -/

theorem addNode (h : g.Later c) (op : Op) (props : Props) : g.Later (c.addNode op props) where
  consistent := h.consistent.addNode op props
  numNodes := by
    rw [numNodes_addNode]
    exact Nat.le_succ_of_le h.numNodes
  size := h.size
  edge := h.edge

theorem addEdge (h : g.Later c) {e : Edge} (hs : e.source < c.nodes.size)
    (ht : e.target < c.nodes.size) : g.Later (c.addEdge e) where
  consistent := h.consistent.addEdge hs ht
  numNodes := by
    rw [numNodes_addEdge]
    exact h.numNodes
  size := by
    rw [size_addEdge]
    exact Nat.le_succ_of_le h.size
  edge {i e'} hi he := by
    -- the new number is none of `g`
    rw [edge?_addEdge, if_neg (Nat.ne_of_lt (Nat.lt_of_lt_of_le hi h.size))] at he
    exact h.edge hi he

theorem eraseEdge (h : g.Later c) (i : EdgeId) : g.Later (c.eraseEdge i) where
  consistent := h.consistent.eraseEdge i
  numNodes := by
    rw [numNodes_eraseEdge]
    exact h.numNodes
  size := by
    rw [size_eraseEdge]
    exact h.size
  edge {j e} hj he := by
    rw [edge?_eraseEdge] at he
    split at he
    · cases he
    · exact h.edge hj he

theorem eraseNode (h : g.Later c) (n : NodeId) : g.Later (c.eraseNode n) where
  consistent := h.consistent.eraseNode n
  numNodes := by
    rw [numNodes_eraseNode]
    exact h.numNodes
  size := by
    rw [size_eraseNode]
    exact h.size
  edge hj he := h.edge hj ((edge?_eraseNode h.consistent).mp he).1

theorem rootedAt (h : g.Later c) (root : NodeId) : g.Later (c.rootedAt root) where
  consistent := ⟨h.consistent.inputs, h.consistent.outputs, h.consistent.ends⟩
  numNodes := h.numNodes
  size := h.size
  edge := h.edge

theorem redirect (h : g.Later c) {u : EdgeId × Edge} (hm : m < c.nodes.size)
    (ht : u.2.target < c.nodes.size) : g.Later (Graph.redirect m c u) := by
  apply (h.eraseEdge u.1).addEdge
  · rwa [numNodes_eraseEdge]
  · rwa [numNodes_eraseEdge]

/-- The new source matters only if there are uses to move. -/
theorem moveUses (h : g.Later c) (hm : c.valueUses n = [] ∨ m < c.nodes.size) :
    g.Later (c.moveUses n m) := by
  rcases hm with hnil | hm
  · rw [Graph.moveUses, hnil]
    exact h
  · refine h.trans (List.foldlRecOn (motive := c.Later) _ _ h.consistent.later ?_)
    intro d hd u hu
    rw [h.consistent.valueUses_eq] at hu
    have hends := h.consistent.ends (mem_live.mp (List.mem_filter.mp hu).1)
    exact hd.redirect (Nat.lt_of_lt_of_le hm hd.numNodes) (Nat.lt_of_lt_of_le hends.2 hd.numNodes)

theorem linkPast (h : g.Later c) {enter leave : Edge} (hs : enter.source < c.nodes.size)
    (ht : leave.target < c.nodes.size) : g.Later (c.linkPast enter leave) := by
  unfold Graph.linkPast
  split
  · exact h
  · exact h.addEdge hs ht

theorem bypass (h : g.Later c) (n : NodeId) : g.Later (c.bypass n) := by
  have hc := h.consistent
  refine h.trans (List.foldlRecOn (motive := c.Later) _ _ hc.later ?_)
  intro d hd enter henter
  refine List.foldlRecOn (motive := c.Later) _ _ hd ?_
  intro d hd leave hleave
  have hs := hc.source_lt (List.mem_filter.mp henter).1
  have ht := hc.target_lt (List.mem_filter.mp hleave).1
  exact hd.linkPast (Nat.lt_of_lt_of_le hs hd.numNodes) (Nat.lt_of_lt_of_le ht hd.numNodes)

/-- The node matters only if there is an edge to put it onto. -/
theorem interpose (h : g.Later c) {i : EdgeId} (hn : c.edge? i = none ∨ n < c.nodes.size) :
    g.Later (c.interpose i n) := by
  unfold Graph.interpose
  cases he : c.edge? i with
  | none => exact h
  | some e =>
    have hn : n < c.nodes.size := hn.resolve_left (by simp [he])
    obtain ⟨hs, ht⟩ := h.consistent.ends he
    have hone : g.Later ((c.eraseEdge i).addEdge ⟨e.source, n, e.output, .control⟩) := by
      apply (h.eraseEdge i).addEdge
      · rwa [numNodes_eraseEdge]
      · rwa [numNodes_eraseEdge]
    apply hone.addEdge
    · rwa [numNodes_addEdge, numNodes_eraseEdge]
    · rwa [numNodes_addEdge, numNodes_eraseEdge]

theorem mount (h : g.Later c) (op : Op) (props : Props) (i : EdgeId) :
    g.Later (c.mount op props i) := by
  apply (h.addNode op props).interpose
  right
  rw [numNodes_addNode]
  exact Nat.lt_succ_self _

/-! ## Passes -/

theorem forward (h : g.Later c) (hm : m ∈ c.valueSources n) : g.Later (c.forward n m) :=
  (h.moveUses (.inr (h.consistent.lt_of_mem_valueSources hm))).eraseNode n

theorem forwardInput (h : g.Later d) (hd : d.forwardInput? n = some d') : g.Later d' := by
  obtain ⟨m, hm, rfl⟩ := forwarded_of_forwardInput? hd
  exact h.forward (hm ▸ List.mem_singleton_self m)

theorem dropPhi (h : g.Later d) (hd : d.dropPhi? n = some d') : g.Later d' := by
  obtain ⟨-, m, ⟨hm, -, -⟩, rfl⟩ := dropPhi?_eq_some_iff.mp hd
  exact h.forward hm

theorem dropDead (h : g.Later d) (hd : d.dropDead? n = some d') : g.Later d' := by
  obtain ⟨-, -, -, ⟨-, rfl⟩ | ⟨-, -, rfl⟩⟩ := dropDead?_eq_some_iff.mp hd
  · exact h.eraseNode n
  · exact (h.bypass n).eraseNode n

theorem coverEntries (h : g.Later d) (hd : d.coverEntries? n = some d') : g.Later d' := by
  obtain ⟨-, rfl⟩ := coverEntries?_eq_some_iff.mp hd
  apply List.foldlRecOn (motive := g.Later) _ _ h
  intro d hd i _
  exact hd.mount .safepoint [] i

theorem guardSend (h : g.Later d) {profile : Profile} (hd : guardSend? profile d n = some d') :
    g.Later d' := by
  obtain ⟨ip, kind, i, e, r, -, -, henter, -, hr, rfl⟩ := Rewrites.guarded_of_guardSend? hd
  have he : d.edge? i = some e := by
    have hmem : (i, e) ∈ d.enters n := henter ▸ List.mem_singleton_self _
    exact (h.consistent.mem_enters.mp hmem).1
  have hsize := numNodes_mount .guard [("kind", .symbol kind.name), ("ip", .ofNat ip)] he
  apply (h.mount .guard [("kind", .symbol kind.name), ("ip", .ofNat ip)] i).addEdge
  · rw [hsize]
    exact Nat.lt_succ_of_lt (h.consistent.lt_of_sourceFor? hr)
  · rw [hsize]
    exact Nat.lt_succ_self _

theorem dropPlaceholders (h : g.Later c) : g.Later c.dropPlaceholders.graph :=
  sweep_induct (P := g.Later) h fun _ hd => hd.forwardInput

theorem dropPhis (h : g.Later c) : g.Later c.dropPhis.graph :=
  sweep_induct (P := g.Later) h fun _ hd => hd.dropPhi

theorem dropDeadCode (h : g.Later c) : g.Later c.dropDeadCode.graph :=
  sweep_induct (P := g.Later) h fun _ hd => hd.dropDead

theorem dropTraces (h : g.Later c) : g.Later c.dropTraces.graph := by
  refine sweep_induct (P := g.Later) h ?_
  intro d d' n _ hd hd'
  obtain rfl := Option.some.inj hd'
  exact (hd.bypass n).eraseNode n

theorem placeSafepoints (h : g.Later c) : g.Later c.placeSafepoints.graph :=
  sweep_induct (P := g.Later) h.dropTraces fun _ hd => hd.coverEntries

theorem placeGuards (h : g.Later c) (profile : Profile) : g.Later (c.placeGuards profile).graph :=
  sweep_induct (P := g.Later) h fun _ hd => hd.guardSend

end Later

end Graph

/-! ## Sequences of changes -/

/-- A change of a graph: an edit, or a run of a pass. -/
inductive Change where
  | edit (e : Edit)
  | dropPlaceholders
  | dropPhis
  | dropDeadCode
  | placeSafepoints
  | placeGuards (profile : Profile)

namespace Change

/-- Only edits can be refused. -/
def perform? (g : Graph) : Change → Option Graph
  | edit e => (e.perform? g).map (·.1)
  | dropPlaceholders => some g.dropPlaceholders.graph
  | dropPhis => some g.dropPhis.graph
  | dropDeadCode => some g.dropDeadCode.graph
  | placeSafepoints => some g.placeSafepoints.graph
  | placeGuards profile => some (g.placeGuards profile).graph

/-- The graph after all the changes, if none is refused. -/
def run? (g : Graph) (changes : List Change) : Option Graph := changes.foldlM perform? g

variable {g c d : Graph}

theorem later_of_edit (h : g.Later c) {e : Edit} (hin : e.inArena c = true) :
    g.Later (e.apply c) := by
  cases e with
  | addNode op props => exact h.addNode op props
  | addEdge e =>
    simp only [Edit.inArena, Graph.contains, Bool.and_eq_true, decide_eq_true_eq] at hin
    exact h.addEdge hin.1 hin.2
  | eraseEdge i => exact h.eraseEdge i
  | eraseNode n => exact h.eraseNode n
  | bypass n => exact h.bypass n
  | interpose i n =>
    simp only [Edit.inArena, Graph.contains, Bool.or_eq_true, Option.isNone_iff_eq_none,
      decide_eq_true_eq] at hin
    exact h.interpose hin
  | moveUses old new =>
    simp only [Edit.inArena, Graph.contains, Bool.and_eq_true, Bool.or_eq_true, List.isEmpty_iff,
      decide_eq_true_eq] at hin
    exact h.moveUses hin.2
  | setRoot n => exact h.rootedAt n

theorem later_of_perform? (h : g.Later c) {change : Change} (hd : change.perform? c = some d) :
    g.Later d := by
  cases change with
  | edit e =>
    obtain ⟨p, hp, rfl⟩ := Option.map_eq_some_iff.mp hd
    unfold Edit.perform? at hp
    split at hp
    · next hin =>
      obtain rfl := Option.some.inj hp
      exact later_of_edit h hin
    · cases hp
  | dropPlaceholders => exact Option.some.inj hd ▸ h.dropPlaceholders
  | dropPhis => exact Option.some.inj hd ▸ h.dropPhis
  | dropDeadCode => exact Option.some.inj hd ▸ h.dropDeadCode
  | placeSafepoints => exact Option.some.inj hd ▸ h.placeSafepoints
  | placeGuards profile => exact Option.some.inj hd ▸ h.placeGuards profile

theorem later_of_run? (h : g.Later c) {changes : List Change} (hd : run? c changes = some d) :
    g.Later d := by
  induction changes generalizing c with
  | nil => exact Option.some.inj hd ▸ h
  | cons change changes ih =>
    rw [run?, List.foldlM_cons, Option.bind_eq_bind, Option.bind_eq_some_iff] at hd
    obtain ⟨c', hc', hd⟩ := hd
    exact ih (later_of_perform? h hc') hd

end Change

namespace Graph.Consistent

variable {g : Graph} {n : NodeId} {i : EdgeId}

theorem mem_outputs_iff (hg : g.Consistent) : (∃ node, g.node? n = some node ∧ i ∈ node.outputs) ↔
    ∃ e, g.edge? i = some e ∧ e.source = n := by
  constructor
  · rintro ⟨node, hnode, hi⟩
    rw [hg.outputs hnode, List.mem_map] at hi
    obtain ⟨⟨j, e⟩, he, rfl⟩ := hi
    obtain ⟨he, hsource⟩ := List.mem_filter.mp he
    exact ⟨e, mem_live.mp he, beq_iff_eq.mp hsource⟩
  · rintro ⟨e, he, rfl⟩
    have hlt := (hg.ends he).1
    have hnode : g.node? e.source = some g.nodes[e.source] := Array.getElem?_eq_getElem hlt
    exact ⟨_, hnode, (hg.mem_node_outputs hnode he).mpr rfl⟩

theorem mem_inputs_iff (hg : g.Consistent) : (∃ node, g.node? n = some node ∧ i ∈ node.inputs) ↔
    ∃ e, g.edge? i = some e ∧ e.target = n := by
  constructor
  · rintro ⟨node, hnode, hi⟩
    rw [hg.inputs hnode, List.mem_map] at hi
    obtain ⟨⟨j, e⟩, he, rfl⟩ := hi
    obtain ⟨he, htarget⟩ := List.mem_filter.mp he
    exact ⟨e, mem_live.mp he, beq_iff_eq.mp htarget⟩
  · rintro ⟨e, he, rfl⟩
    have hlt := (hg.ends he).2
    have hnode : g.node? e.target = some g.nodes[e.target] := Array.getElem?_eq_getElem hlt
    exact ⟨_, hnode, (hg.mem_node_inputs hnode he).mpr rfl⟩

theorem lists_sorted (hg : g.Consistent) {node : Node} (hnode : g.node? n = some node) :
    node.inputs.Pairwise (· < ·) ∧ node.outputs.Pairwise (· < ·) := by
  rw [hg.inputs hnode, hg.outputs hnode]
  exact ⟨g.live_sorted.sublist (List.filter_sublist.map _),
    g.live_sorted.sublist (List.filter_sublist.map _)⟩

end Graph.Consistent

/-- After any changes of the initial graph a number is in the list of the edges out of a node iff it
is that of a live edge with this source, and in the list of the edges into a node iff it is that of
a live edge with this target. The lists are ascending, and whatever changes follow, the number of a
removed edge stays without an edge. -/
theorem Change.edgeLists_agree {before after : List Change} {g c : Graph}
    (hg : Change.run? .initial before = some g) (hc : Change.run? g after = some c) :
    (∀ (n : NodeId) (i : EdgeId), (∃ node, g.node? n = some node ∧ i ∈ node.outputs) ↔
      ∃ e, g.edge? i = some e ∧ e.source = n) ∧
    (∀ (n : NodeId) (i : EdgeId), (∃ node, g.node? n = some node ∧ i ∈ node.inputs) ↔
      ∃ e, g.edge? i = some e ∧ e.target = n) ∧
    (∀ (n : NodeId) (node : Node), g.node? n = some node →
      node.inputs.Pairwise (· < ·) ∧ node.outputs.Pairwise (· < ·)) ∧
    ∀ i < g.edges.size, g.edge? i = none → c.edge? i = none := by
  have hcons := (Change.later_of_run? Graph.consistent_initial.later hg).consistent
  have hlater := Change.later_of_run? hcons.later hc
  refine ⟨fun n i => hcons.mem_outputs_iff, fun n i => hcons.mem_inputs_iff,
    fun n node hnode => hcons.lists_sorted hnode, fun i hi hnone => ?_⟩
  rw [Option.eq_none_iff_forall_ne_some]
  intro e he
  rw [hlater.edge hi he] at hnone
  cases hnone

/-- A region that is its own successor, and a constant whose use is moved to itself. -/
def Change.loop : List Change :=
  [.edit (.addNode .merge []), .edit (.addEdge (.control 0 2)), .edit (.addEdge (.control 2 2)),
    .edit (.addEdge (.control 2 1)), .edit (.addNode .constant [("value", .nil)]),
    .edit (.addEdge (.value 3 1 .value)), .edit (.moveUses 3 3)]

/-- The edge of the loop is in both lists of its node, and the moved use leaves its number
for good. -/
theorem Change.edgeLists_agree_loop :
    ∃ g c, Change.run? .initial Change.loop = some g ∧
      Change.run? g [.placeSafepoints, .dropDeadCode] = some c ∧
      (∃ node, g.node? 2 = some node ∧ 1 ∈ node.outputs) ∧
      (∃ node, g.node? 2 = some node ∧ 1 ∈ node.inputs) ∧
      g.edge? 3 = none ∧ c.edge? 3 = none := by
  obtain ⟨g, hg, hloop, hmoved, hsize⟩ : ∃ g, Change.run? .initial Change.loop = some g ∧
      g.edge? 1 = some (.control 2 2) ∧ g.edge? 3 = none ∧ 3 < g.edges.size :=
    ⟨_, rfl, by decide +kernel⟩
  have hc : Change.run? g [.placeSafepoints, .dropDeadCode] =
      some g.placeSafepoints.graph.dropDeadCode.graph := rfl
  obtain ⟨hout, hin, -, hdead⟩ := Change.edgeLists_agree hg hc
  exact ⟨g, _, hg, hc, (hout 2 1).mpr ⟨_, hloop, rfl⟩, (hin 2 1).mpr ⟨_, hloop, rfl⟩, hmoved,
    hdead 3 hsize hmoved⟩

end StackJit
