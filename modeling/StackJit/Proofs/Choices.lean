import StackJit.Proofs.Bookkeeping
import StackJit.Proofs.Removal

/-!
# Phis without a choice

A phi that has its values from one other node, and perhaps from itself, stands for that node.
Dropping it moves every use of it there. The node may be a phi that is dropped in its turn, so a use
can move more than once; where it ends up is found by following the moves, and is never a node that
has been dropped (`Graph.Collapses`).

Main statement: `Graph.dropPhis_redirects_uses`.
-/

namespace StackJit

namespace Graph

variable {g c d d' : Graph} {n m : NodeId} {moves : Moves}

/-- `c` is what is left of `g` after some nodes have been dropped and their uses moved: a node that
stays has the operands that the moves leave it, and control from the other nodes that stay. -/
structure Collapses (g c : Graph) (moves : Moves) : Prop extends Prunes g c where
  consistent : c.Consistent
  sources : ∀ {i : EdgeId} {e : Edge}, c.edge? i = some e → g.stays c e.source = true
  operands : ∀ {t : NodeId}, g.stays c t = true → c.operands t = requeueAll moves (g.operands t)
  control : c.controlEdges = g.controlEdges.filter fun p => g.keepsEnds c p.2
  stays_follow : ∀ n, g.stays c (follow moves n) = true
  follow_self : ∀ {n : NodeId}, g.stays c n = true → follow moves n = n

namespace Collapses

theorem refl (hg : g.Consistent) : g.Collapses g [] where
  toPrunes := .refl g
  consistent := hg
  sources _ := stays_self g _
  operands _ := rfl
  control := by simp
  stays_follow n := stays_self g n
  follow_self _ := rfl

/-- A node is dropped, and its uses go to a node that it has values from. -/
theorem forward (h : g.Collapses d moves) (hn : n < d.nodes.size) (hlive : ¬ d.Gone n)
    (hm : m ∈ d.valueSources n) (hne : m ≠ n) :
    g.Collapses (d.forward n m) (moves ++ [(n, m)]) := by
  have hc := h.consistent
  have hr := removes_forward hn m
  have hlt : m < d.nodes.size := hc.lt_of_mem_valueSources hm
  have hstays : ∀ x, g.stays (d.forward n m) x = true ↔ g.stays d x = true ∧ x ≠ n := by
    intro x
    rw [h.stays_remove hr hlive, Bool.and_eq_true, bne_iff_ne]
  have hm' : g.stays d m = true := by
    obtain ⟨e, he, rfl⟩ := List.mem_map.mp hm
    obtain ⟨-, i, hi⟩ := hc.mem_inputs.mp (List.mem_filter.mp he).1
    exact h.sources hi
  refine ⟨h.remove hr ((marks_eraseNode _ n).trans (marks_moveUses d n m)),
    (hc.moveUses n m hlt).eraseNode n, ?_, ?_, ?_, ?_, ?_⟩
  · intro i e he
    rw [hstays]
    refine ⟨?_, ((edge?_eraseNode (hc.moveUses n m hlt)).mp he).2.1⟩
    rcases edge?_forward hc hlt he with he | he
    · exact h.sources he
    · rwa [he]
  · intro t ht
    obtain ⟨ht, htn⟩ := (hstays t).mp ht
    rw [operands_forward hc hlt hne htn, h.operands ht, requeueAll_concat]
  · rw [controlEdges_forward hc hlt, h.control, List.filter_filter]
    apply List.filter_congr
    intro p _
    rw [h.keepsEnds_remove hr hlive, Bool.and_comm]
  · intro x
    rw [hstays, follow_concat]
    by_cases hx : follow moves x = n
    · rw [hx, substitute_self]
      exact ⟨hm', hne⟩
    · rw [substitute_of_ne hx]
      exact ⟨h.stays_follow x, hx⟩
  · intro x hx
    obtain ⟨hx, hxn⟩ := (hstays x).mp hx
    rw [follow_concat, h.follow_self hx, substitute_of_ne hxn]

theorem dropPhi (h : g.Collapses d moves) (hn : n < d.nodes.size) (hd : d.dropPhi? n = some d') :
    ∃ moves, g.Collapses d' moves := by
  obtain ⟨hlive, m, ⟨hm, hne, -⟩, rfl⟩ := dropPhi?_eq_some_iff.mp hd
  exact ⟨_, h.forward hn hlive hm hne⟩

/-- Control still enters a node that stays from wherever it did, but for nodes that were dropped. -/
theorem enters (h : g.Collapses c moves) (hg : g.Consistent) {t : NodeId}
    (ht : g.stays c t = true) : c.enters t = (g.enters t).filter fun p => g.stays c p.2.source := by
  rw [h.consistent.enters_eq_controlEdges, hg.enters_eq_controlEdges, h.control, List.filter_filter,
    List.filter_filter]
  apply List.filter_congr
  intro p _
  cases htarget : p.2.target == t with
  | false => simp
  | true => rw [keepsEnds, beq_iff_eq.mp htarget, ht, Bool.and_true, Bool.true_and]

end Collapses

theorem collapses_dropPhis (hg : g.Consistent) : ∃ moves, g.Collapses g.dropPhis.graph moves := by
  refine sweep_induct (P := fun c => ∃ moves, g.Collapses c moves) ⟨[], .refl hg⟩ ?_
  rintro d d' n hn ⟨moves, hd⟩ hd'
  exact hd.dropPhi (hd.size ▸ lt_of_mem_nodesOf hn) hd'

/-- What goes are the reachable phis that have no choice when their turn comes. Each of them has a
node that stays in its place: a node that stays has as many values as before, of the same kinds,
from the same nodes or from those in place of them, and control from the same nodes, those that
went apart. -/
theorem dropPhis_redirects_uses (hg : g.Consistent) :
    (∀ n, g.stays g.dropPhis.graph n = false ↔
      ∃ before m, before ++ [n] <+: g.nodesOf .phi ∧ ¬ (g.sweep dropPhi? before).graph.Gone n ∧
        (g.sweep dropPhi? before).graph.SoleSource n m) ∧
    (∀ n, g.stays g.dropPhis.graph n = false → n ∈ g.reachable ∧ g.op? n = some .phi) ∧
    ∃ σ : NodeId → NodeId, (∀ n, g.stays g.dropPhis.graph (σ n) = true) ∧
      (∀ n, g.stays g.dropPhis.graph n = true → σ n = n) ∧
      ∀ t, g.stays g.dropPhis.graph t = true →
        (g.dropPhis.graph.operands t).Perm ((g.operands t).map (·.reroute σ)) ∧
        g.dropPhis.graph.enters t =
          (g.enters t).filter (fun p => g.stays g.dropPhis.graph p.2.source) := by
  have hturn : ∀ n, g.stays g.dropPhis.graph n = false ↔
      ∃ before m, before ++ [n] <+: g.nodesOf .phi ∧ ¬ (g.sweep dropPhi? before).graph.Gone n ∧
        (g.sweep dropPhi? before).graph.SoleSource n m := by
    intro n
    rw [dropPhis, removing_dropPhi.stays_sweep_eq_false_iff fun _ => lt_of_mem_nodesOf]
    simp only [dropPhi?_eq_some_iff]
    grind
  refine ⟨hturn, fun n hn => ?_, ?_⟩
  · obtain ⟨before, m, hbefore, -⟩ := (hturn n).mp hn
    apply mem_nodesOf.mp
    exact hbefore.subset (List.mem_append_right _ (List.mem_singleton_self n))
  · obtain ⟨moves, h⟩ := collapses_dropPhis hg
    refine ⟨follow moves, h.stays_follow, fun n hn => h.follow_self hn,
      fun t ht => ⟨?_, h.enters hg ht⟩⟩
    rw [h.operands ht]
    exact perm_requeueAll moves (g.operands t)

end Graph

/-- A phi that only repeats another, which has its value from itself and a constant. Control comes
to the end through the first phi too. -/
def Change.echo : List Change :=
  [.edit (.addNode .phi []), .edit (.addNode .phi []), .edit (.addNode .constant [("value", .nil)]),
    .edit (.addEdge (.control 0 1)), .edit (.addEdge (.value 2 1 .value)),
    .edit (.addEdge (.value 3 2 .value)), .edit (.addEdge (.value 3 2 .value)),
    .edit (.addEdge (.value 3 3 .value)), .edit (.addEdge (.value 4 3 .value)),
    .edit (.addEdge (.control 2 1))]

/-- The use of the first phi moves on with the second one. -/
theorem Graph.dropPhis_redirects_uses_echo :
    ∃ g, Change.run? .initial Change.echo = some g ∧ g.Consistent ∧
      g.stays g.dropPhis.graph 2 = false ∧ g.stays g.dropPhis.graph 3 = false ∧
      ∃ σ : NodeId → NodeId, g.stays g.dropPhis.graph (σ 2) = true ∧
        g.dropPhis.graph.operands 1 = [⟨σ 2, 1, .value, .value⟩] ∧
        (g.dropPhis.graph.enters 1).map (·.2) = [.control 0 1] := by
  obtain ⟨g, hg, hphis, hstays, hoperands, henters⟩ : ∃ g,
      Change.run? .initial Change.echo = some g ∧
      (g.stays g.dropPhis.graph 2 = false ∧ g.stays g.dropPhis.graph 3 = false) ∧
      g.stays g.dropPhis.graph 1 = true ∧ g.operands 1 = [.value 2 1 .value] ∧
      ((g.enters 1).filter fun p => g.stays g.dropPhis.graph p.2.source).map (·.2) =
        [.control 0 1] :=
    ⟨_, rfl, by decide +kernel⟩
  have hcons := (Change.later_of_run? Graph.consistent_initial.later hg).consistent
  obtain ⟨-, -, σ, hσ, -, huses⟩ := Graph.dropPhis_redirects_uses hcons
  obtain ⟨hperm, hcontrol⟩ := huses 1 hstays
  rw [hoperands] at hperm
  rw [← hcontrol] at henters
  exact ⟨g, hg, hcons, hphis.1, hphis.2, σ, hσ 2, List.perm_singleton.mp hperm, henters⟩

end StackJit
