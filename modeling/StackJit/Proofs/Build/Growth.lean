import StackJit.Proofs.Graph.Live

/-!
# Graphs that only grow

While a method is built, nodes and edges are added and nothing is changed or removed.
`Graph.Grows g h es` says that `h` is `g` with some new nodes and the new edges `es`, so that the
edges into a node of `h` are those of `g` followed by those of `es` that go there (`Grows.inputs`).
-/

namespace StackJit.Graph

theorem stamp_append (k : EdgeId) (as bs : List Edge) :
    stamp k (as ++ bs) = stamp k as ++ stamp (k + as.length) bs := by
  induction as generalizing k with
  | nil => rfl
  | cons a as ih =>
    rw [List.cons_append, stamp, stamp, ih, List.cons_append, List.length_cons,
      Nat.add_assoc, Nat.add_comm 1]

theorem filter_stamp (p : Edge → Bool) (k : EdgeId) (es : List Edge) :
    ((stamp k es).filter fun q => p q.2).map (·.2) = es.filter p := by
  induction es generalizing k with
  | nil => rfl
  | cons e es ih =>
    rw [stamp, List.filter_cons, List.filter_cons]
    split
    · rw [List.map_cons, ih]
    · exact ih (k + 1)

/-- `h` is `g` with some new nodes, and with the edges `es` added in this order. -/
structure Grows (g h : Graph) (es : List Edge) : Prop where
  consistent : g.Consistent → h.Consistent
  size_le : g.nodes.size ≤ h.nodes.size
  label : ∀ {id : NodeId}, id < g.nodes.size → h.label? id = g.label? id
  live : h.live = g.live ++ stamp g.edges.size es
  edges : h.edges.size = g.edges.size + es.length
  removed : ∀ id : NodeId, h.isRemoved id = g.isRemoved id
  start : h.start = g.start
  finish : h.finish = g.finish
  root : h.root = g.root

namespace Grows

variable {g h k : Graph} {es fs : List Edge}

theorem refl (g : Graph) : g.Grows g [] :=
  ⟨id, Nat.le_refl _, fun _ => rfl, by simp [stamp], rfl, fun _ => rfl, rfl, rfl, rfl⟩

theorem trans (h₁ : g.Grows h es) (h₂ : h.Grows k fs) : g.Grows k (es ++ fs) where
  consistent hg := h₂.consistent (h₁.consistent hg)
  size_le := Nat.le_trans h₁.size_le h₂.size_le
  label hid := (h₂.label (Nat.lt_of_lt_of_le hid h₁.size_le)).trans (h₁.label hid)
  live := by rw [h₂.live, h₁.live, h₁.edges, stamp_append, List.append_assoc]
  edges := by rw [h₂.edges, h₁.edges, List.length_append, Nat.add_assoc]
  removed id := (h₂.removed id).trans (h₁.removed id)
  start := h₂.start.trans h₁.start
  finish := h₂.finish.trans h₁.finish
  root := h₂.root.trans h₁.root

theorem addNode (g : Graph) (op : Op) (props : Props) : g.Grows (g.addNode op props) [] where
  consistent hg := hg.addNode op props
  size_le := by simp
  label hid := by rw [label?_addNode, if_neg (Nat.ne_of_lt hid)]
  live := by simp [stamp]
  edges := rfl
  removed := isRemoved_addNode g op props
  start := rfl
  finish := rfl
  root := rfl

theorem addEdge (g : Graph) {e : Edge} (hs : e.source < g.nodes.size)
    (ht : e.target < g.nodes.size) : g.Grows (g.addEdge e) [e] where
  consistent hg := hg.addEdge hs ht
  size_le := by simp
  label _ := label?_addEdge g e _
  live := live_addEdge g e
  edges := size_addEdge g e
  removed := isRemoved_addEdge g e
  start := rfl
  finish := rfl
  root := rfl

theorem addEdges (g : Graph) {es : List Edge}
    (hends : ∀ e ∈ es, e.source < g.nodes.size ∧ e.target < g.nodes.size) :
    g.Grows (g.addEdges es) es := by
  induction es generalizing g with
  | nil => exact refl g
  | cons e es ih =>
    obtain ⟨hs, ht⟩ := hends e List.mem_cons_self
    have hrest := ih (g.addEdge e) fun e' he' => by
      rw [numNodes_addEdge]
      exact hends e' (List.mem_cons_of_mem e he')
    exact (addEdge g hs ht).trans hrest

theorem op (h₁ : g.Grows h es) {id : NodeId} (hid : id < g.nodes.size) : h.op? id = g.op? id :=
  op?_congr (h₁.label hid)

theorem label_some (h₁ : g.Grows h es) {id : NodeId} {l : Op × Props} (hl : g.label? id = some l) :
    h.label? id = some l :=
  (h₁.label (label?_lt hl)).trans hl

theorem op_some (h₁ : g.Grows h es) {id : NodeId} {o : Op} (ho : g.op? id = some o) :
    h.op? id = some o :=
  (h₁.op (op?_lt ho)).trans ho

theorem inputs (h₁ : g.Grows h es) (hg : g.Consistent) (id : NodeId) :
    h.inputs id = g.inputs id ++ es.filter (·.target == id) := by
  unfold Graph.inputs
  rw [(h₁.consistent hg).edgesInto_eq, hg.edgesInto_eq, h₁.live, List.filter_append,
    List.map_append, filter_stamp fun e => e.target == id]

theorem outputs (h₁ : g.Grows h es) (hg : g.Consistent) (id : NodeId) :
    h.outputs id = g.outputs id ++ es.filter (·.source == id) := by
  unfold Graph.outputs
  rw [(h₁.consistent hg).edgesOutOf_eq, hg.edgesOutOf_eq, h₁.live, List.filter_append,
    List.map_append, filter_stamp fun e => e.source == id]

/-- Edges that go elsewhere leave the edges into a node alone. -/
theorem inputs_of_not_target (h₁ : g.Grows h es) (hg : g.Consistent) (id : NodeId)
    (hid : ∀ e ∈ es, e.target ≠ id) : h.inputs id = g.inputs id := by
  rw [h₁.inputs hg, List.filter_eq_nil_iff.mpr fun e he => by simpa using hid e he,
    List.append_nil]

end Grows

/-- A node outside the arena has no edges. -/
theorem Consistent.inputs_of_ge {g : Graph} (hg : g.Consistent) {id : NodeId}
    (hid : g.nodes.size ≤ id) : g.inputs id = [] := by
  unfold Graph.inputs
  rw [hg.edgesInto_eq, List.filter_eq_nil_iff.mpr, List.map_nil]
  intro p hp ht
  have hlt := (hg.ends (mem_live.mp hp)).2
  rw [beq_iff_eq.mp ht] at hlt
  exact absurd hlt (Nat.not_lt.mpr hid)

theorem Consistent.outputs_of_ge {g : Graph} (hg : g.Consistent) {id : NodeId}
    (hid : g.nodes.size ≤ id) : g.outputs id = [] := by
  unfold Graph.outputs
  rw [hg.edgesOutOf_eq, List.filter_eq_nil_iff.mpr, List.map_nil]
  intro p hp ht
  have hlt := (hg.ends (mem_live.mp hp)).1
  rw [beq_iff_eq.mp ht] at hlt
  exact absurd hlt (Nat.not_lt.mpr hid)

/-- No placeholder has been supplied. -/
def Vacant (g : Graph) : Prop := ∀ n : NodeId, g.op? n = some .input → g.inputs n = []

theorem Vacant.grow {g h : Graph} {es : List Edge} (hv : g.Vacant) (hg : g.Consistent)
    (hgrow : g.Grows h es) (hes : ∀ e ∈ es, h.op? e.target ≠ some .input) : h.Vacant := by
  intro n hop
  rw [hgrow.inputs_of_not_target hg n fun e he heq => hes e he (heq ▸ hop)]
  by_cases hn : n < g.nodes.size
  · rw [hgrow.op hn] at hop
    exact hv n hop
  · exact hg.inputs_of_ge (Nat.not_lt.mp hn)

end StackJit.Graph
