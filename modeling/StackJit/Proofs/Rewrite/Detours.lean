import Mathlib.Data.List.Induction
import Mathlib.Data.List.ProdSigma
import StackJit.Proofs.Rewrite.Edits

/-!
# Ways past a node

Control is led past a node one way at a time (`Graph.bypass_eq`). A way consists of a control edge
that enters the node and one that leaves it; its ends are joined by an edge of their own, unless
control goes from one to the other already. So old edges stay, every new one joins the ends of a
way, and in the end all of these are joined (`Graph.detoured_bypass`). Nothing is assumed of how
many edges meet at the node.
-/

namespace StackJit

/-- The edge that leads past a node, from where `enter` leaves to where `leave` arrives. -/
def Edge.past (enter leave : Edge) : Edge :=
  ⟨enter.source, leave.target, enter.output, leave.input⟩

theorem Edge.isControl_past (enter : Edge) {leave : Edge} (h : leave.input = .control) :
    (enter.past leave).isControl = true := by
  simp [Edge.past, Edge.isControl, h]

namespace Graph

variable {g c : Graph} {n : NodeId} {w : Edge × Edge} {ws : List (Edge × Edge)}

/-- The ways of control through a node, from other nodes to other nodes. -/
def ways (g : Graph) (n : NodeId) : List (Edge × Edge) :=
  ((g.inputs n).filter fun e => e.isControl && e.source != n) ×ˢ
    ((g.outputs n).filter fun e => e.isControl && e.target != n)

theorem bypass_eq (g : Graph) (n : NodeId) :
    g.bypass n = (g.ways n).foldl (fun d w => d.linkPast w.1 w.2) g := by
  simp only [bypass, ways, SProd.sprod, List.product, List.foldl_flatMap, List.foldl_map]

theorem Consistent.mem_ways (hg : g.Consistent) :
    w ∈ g.ways n ↔ ((∃ i, (i, w.1) ∈ g.controlEdges) ∧ w.1.source ≠ n ∧ w.1.target = n) ∧
      (∃ j, (j, w.2) ∈ g.controlEdges) ∧ w.2.source = n ∧ w.2.target ≠ n := by
  rw [ways, List.mem_product, List.mem_filter, List.mem_filter, hg.mem_inputs, hg.mem_outputs]
  simp only [mem_controlEdges, Bool.and_eq_true, bne_iff_ne, exists_and_right]
  tauto

/-- `c` is `g` after the ends of the ways `ws` have been joined. -/
structure Detoured (g : Graph) (ws : List (Edge × Edge)) (c : Graph) : Prop where
  consistent : c.Consistent
  numNodes : c.nodes.size = g.nodes.size
  live : ∃ new, c.live = g.live ++ new ∧ ∀ p ∈ new, ∃ w ∈ ws, p.2 = w.1.past w.2
  joined : ∀ w ∈ ws, w.2.input = .control →
    ∃ p ∈ c.controlEdges, p.2.source = w.1.source ∧ p.2.target = w.2.target

namespace Detoured

theorem nil (hg : g.Consistent) : g.Detoured [] g where
  consistent := hg
  numNodes := rfl
  live := ⟨[], (List.append_nil _).symm, fun _ hp => absurd hp List.not_mem_nil⟩
  joined _ hw := absurd hw List.not_mem_nil

/-- Control goes from one end of the way to the other already. -/
theorem found (h : g.Detoured ws c) {p : EdgeId × Edge} (hp : p ∈ c.controlEdges)
    (hsource : p.2.source = w.1.source) (htarget : p.2.target = w.2.target) :
    g.Detoured (ws ++ [w]) c where
  consistent := h.consistent
  numNodes := h.numNodes
  live := by
    obtain ⟨new, hlive, hnew⟩ := h.live
    refine ⟨new, hlive, fun q hq => ?_⟩
    obtain ⟨w', hw', heq⟩ := hnew q hq
    exact ⟨w', List.mem_append_left _ hw', heq⟩
  joined w' hw' hinput := by
    rcases List.mem_append.mp hw' with hw' | hw'
    · exact h.joined w' hw' hinput
    · obtain rfl := List.mem_singleton.mp hw'
      exact ⟨p, hp, hsource, htarget⟩

theorem added (h : g.Detoured ws c) (hs : w.1.source < c.nodes.size)
    (ht : w.2.target < c.nodes.size) : g.Detoured (ws ++ [w]) (c.addEdge (w.1.past w.2)) where
  consistent := h.consistent.addEdge hs ht
  numNodes := (numNodes_addEdge c _).trans h.numNodes
  live := by
    obtain ⟨new, hlive, hnew⟩ := h.live
    refine ⟨new ++ [(c.edges.size, w.1.past w.2)], ?_, fun q hq => ?_⟩
    · rw [live_addEdge, hlive, List.append_assoc]
    · rcases List.mem_append.mp hq with hq | hq
      · obtain ⟨w', hw', heq⟩ := hnew q hq
        exact ⟨w', List.mem_append_left _ hw', heq⟩
      · obtain rfl := List.mem_singleton.mp hq
        exact ⟨w, List.mem_append_right _ (List.mem_singleton_self w), rfl⟩
  joined w' hw' hinput := by
    have hold : c.controlEdges ⊆ (c.addEdge (w.1.past w.2)).controlEdges := by
      rw [controlEdges, controlEdges, live_addEdge, List.filter_append]
      exact List.subset_append_left _ _
    rcases List.mem_append.mp hw' with hw' | hw'
    · obtain ⟨p, hp, hends⟩ := h.joined w' hw' hinput
      exact ⟨p, hold hp, hends⟩
    · obtain rfl := List.mem_singleton.mp hw'
      refine ⟨(c.edges.size, w'.1.past w'.2), ?_, rfl, rfl⟩
      rw [controlEdges_addEdge c (Edge.isControl_past _ hinput)]
      exact List.mem_append_right _ (List.mem_singleton_self _)

theorem linkPast (h : g.Detoured ws c) (hs : w.1.source < c.nodes.size)
    (ht : w.2.target < c.nodes.size) : g.Detoured (ws ++ [w]) (c.linkPast w.1 w.2) := by
  unfold Graph.linkPast
  split
  · next hany =>
    obtain ⟨e, he, hthere⟩ := List.any_eq_true.mp hany
    simp only [Bool.and_eq_true, beq_iff_eq] at hthere
    obtain ⟨hsource, i, hi⟩ := h.consistent.mem_outputs.mp he
    exact h.found (mem_controlEdges.mpr ⟨hi, hthere.1.1⟩) hsource hthere.1.2
  · exact h.added hs ht

/-- Every edge is old, or leads from where a control edge enters the node to where one leaves it. -/
theorem edge (h : g.Detoured ws c) {i : EdgeId} {e : Edge} (he : c.edge? i = some e) :
    g.edge? i = some e ∨ ∃ w ∈ ws, e = w.1.past w.2 := by
  obtain ⟨new, hlive, hnew⟩ := h.live
  rw [← mem_live, hlive, List.mem_append, mem_live] at he
  exact he.imp_right (hnew (i, e))

theorem edge_old (h : g.Detoured ws c) {i : EdgeId} {e : Edge} (he : g.edge? i = some e) :
    c.edge? i = some e := by
  obtain ⟨new, hlive, -⟩ := h.live
  rw [← mem_live, hlive]
  exact List.mem_append_left _ (mem_live.mpr he)

/-- Where all ways leave as control, the values stay as they are. -/
theorem valueEdges (h : g.Detoured ws c) (hinput : ∀ w ∈ ws, w.2.input = .control) :
    c.valueEdges = g.valueEdges := by
  obtain ⟨new, hlive, hnew⟩ := h.live
  have hnone : new.filter (·.2.isValue) = [] := by
    refine List.filter_eq_nil_iff.mpr fun p hp => ?_
    obtain ⟨w, hw, heq⟩ := hnew p hp
    simp [Edge.isValue, heq, Edge.isControl_past _ (hinput w hw)]
  rw [Graph.valueEdges, hlive, List.filter_append, hnone, List.append_nil, Graph.valueEdges]

end Detoured

theorem detoured_bypass (hg : g.Consistent) (n : NodeId) : g.Detoured (g.ways n) (g.bypass n) := by
  have hends : ∀ w ∈ g.ways n, w.1.source < g.nodes.size ∧ w.2.target < g.nodes.size := by
    intro w hw
    obtain ⟨⟨⟨i, hi⟩, -⟩, ⟨j, hj⟩, -⟩ := hg.mem_ways.mp hw
    exact ⟨(hg.ends (mem_controlEdges.mp hi).1).1, (hg.ends (mem_controlEdges.mp hj).1).2⟩
  rw [bypass_eq]
  generalize g.ways n = ws at hends
  induction ws using List.reverseRecOn with
  | nil => exact .nil hg
  | append_singleton ws w ih =>
    have h := ih fun w' hw' => hends w' (List.mem_append_left _ hw')
    obtain ⟨hs, ht⟩ := hends w (List.mem_append_right _ (List.mem_singleton_self w))
    rw [List.foldl_append]
    apply h.linkPast
    · rwa [h.numNodes]
    · rwa [h.numNodes]

end Graph

end StackJit
