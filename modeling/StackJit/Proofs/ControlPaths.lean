import Mathlib.Logic.Relation
import StackJit.Proofs.Bookkeeping
import StackJit.Proofs.Removal
import StackJit.Proofs.Rewrite.Detours

/-!
# Control paths through dead code

Dropping dead code takes nodes out of the way of control. A node without outputs is on no way to
another node. One that passes control on is bypassed first, so that two steps through it become one
past it; this makes and breaks no path between other nodes (`transGen_shortcut`). Whatever has been
dropped, the nodes that stay are connected as they were (`Graph.Trims`).

Main statement: `Graph.dropDeadCode_keeps_connected`.
-/

namespace StackJit

open Relation (TransGen ReflTransGen)

/-- A relation without a point, in which two steps through the point have become one, has the same
paths between other points. -/
theorem transGen_shortcut {α : Type} {R S : α → α → Prop} {n : α}
    (h : ∀ x y, S x y ↔ x ≠ n ∧ y ≠ n ∧ (R x y ∨ R x n ∧ R n y)) {x y : α} (hx : x ≠ n)
    (hy : y ≠ n) : TransGen S x y ↔ TransGen R x y := by
  constructor
  · intro hpath
    refine TransGen.closed (fun a b hab => ?_) x y hpath
    obtain ⟨-, -, hab | ⟨han, hnb⟩⟩ := (h a b).mp hab
    · exact .single hab
    · exact .tail (.single han) hnb
  · intro hpath
    -- a path that stops at the point has come there from elsewhere
    have hstrong : (y ≠ n → TransGen S x y) ∧
        (y = n → ∃ z, ReflTransGen S x z ∧ z ≠ n ∧ R z n) := by
      clear hy
      induction hpath with
      | single hxy =>
        refine ⟨fun hy => .single ((h _ _).mpr ⟨hx, hy, .inl hxy⟩), ?_⟩
        rintro rfl
        exact ⟨x, .refl, hx, hxy⟩
      | @tail b y hxb hby ih =>
        by_cases hb : b = n
        · obtain ⟨z, hxz, hz, hzn⟩ := ih.2 hb
          subst hb
          refine ⟨fun hy => .tail' hxz ((h _ _).mpr ⟨hz, hy, .inr ⟨hzn, hby⟩⟩), ?_⟩
          rintro rfl
          exact ⟨z, hxz, hz, hzn⟩
        · have hxb := ih.1 hb
          refine ⟨fun hy => hxb.tail ((h _ _).mpr ⟨hb, hy, .inl hby⟩), ?_⟩
          rintro rfl
          exact ⟨b, hxb.to_reflTransGen, hb, hby⟩
    exact hstrong.1 hy

namespace Graph

variable {g c d d' : Graph} {n x y : NodeId}

/-- A control edge leads from one node to another. -/
def Flows (g : Graph) (x y : NodeId) : Prop :=
  ∃ p ∈ g.controlEdges, p.2.source = x ∧ p.2.target = y

instance (g : Graph) : DecidableRel g.Flows := fun x y =>
  inferInstanceAs (Decidable (∃ p ∈ g.controlEdges, p.2.source = x ∧ p.2.target = y))

theorem flows_eraseNode (hg : g.Consistent) :
    (g.eraseNode n).Flows x y ↔ x ≠ n ∧ y ≠ n ∧ g.Flows x y := by
  rw [Flows, controlEdges_eraseNode hg, Flows]
  simp only [List.mem_filter, avoids_iff]
  constructor
  · rintro ⟨p, ⟨hp, hs, ht⟩, rfl, rfl⟩
    exact ⟨hs, ht, p, hp, rfl, rfl⟩
  · rintro ⟨hs, ht, p, hp, rfl, rfl⟩
    exact ⟨p, ⟨hp, hs, ht⟩, rfl, rfl⟩

/-- Every control edge arrives as control. -/
def ArrivesAsControl (g : Graph) : Prop := ∀ p ∈ g.controlEdges, p.2.input = .control

instance (g : Graph) : Decidable g.ArrivesAsControl :=
  inferInstanceAs (Decidable (∀ p ∈ g.controlEdges, p.2.input = .control))

namespace ArrivesAsControl

variable (h : g.ArrivesAsControl) (hg : g.Consistent)

include h hg in
theorem ways : ∀ w ∈ g.ways n, w.2.input = .control := by
  intro w hw
  obtain ⟨-, ⟨j, hj⟩, -⟩ := hg.mem_ways.mp hw
  exact h _ hj

include h hg in
theorem bypass (n : NodeId) : (g.bypass n).ArrivesAsControl := by
  intro p hp
  obtain ⟨he, hctl⟩ := mem_controlEdges.mp hp
  rcases (detoured_bypass hg n).edge he with he | ⟨w, hw, heq⟩
  · exact h p (mem_controlEdges.mpr ⟨he, hctl⟩)
  · rw [heq]
    exact h.ways hg w hw

include h hg in
theorem eraseNode (n : NodeId) : (g.eraseNode n).ArrivesAsControl := by
  intro p hp
  rw [controlEdges_eraseNode hg] at hp
  exact h p (List.mem_filter.mp hp).1

end ArrivesAsControl

theorem flows_bypass (hg : g.Consistent) (hcontrol : g.ArrivesAsControl) :
    (g.bypass n).Flows x y ↔ g.Flows x y ∨ x ≠ n ∧ y ≠ n ∧ g.Flows x n ∧ g.Flows n y := by
  have hdetoured := detoured_bypass hg n
  constructor
  · rintro ⟨⟨i, e⟩, hp, rfl, rfl⟩
    obtain ⟨he, hctl⟩ := mem_controlEdges.mp hp
    rcases hdetoured.edge he with he | ⟨w, hw, rfl⟩
    · exact .inl ⟨(i, e), mem_controlEdges.mpr ⟨he, hctl⟩, rfl, rfl⟩
    · obtain ⟨⟨⟨j, hj⟩, hs, hn⟩, ⟨k, hk⟩, hn', ht⟩ := hg.mem_ways.mp hw
      exact .inr ⟨hs, ht, ⟨_, hj, rfl, hn⟩, _, hk, hn', rfl⟩
  · rintro (⟨⟨i, e⟩, hp, rfl, rfl⟩ | ⟨hx, hy, ⟨p, hp, rfl, hpn⟩, q, hq, hqn, rfl⟩)
    · obtain ⟨he, hctl⟩ := mem_controlEdges.mp hp
      exact ⟨(i, e), mem_controlEdges.mpr ⟨hdetoured.edge_old he, hctl⟩, rfl, rfl⟩
    · have hw : (p.2, q.2) ∈ g.ways n := hg.mem_ways.mpr ⟨⟨⟨p.1, hp⟩, hx, hpn⟩, ⟨q.1, hq⟩, hqn, hy⟩
      exact hdetoured.joined _ hw (hcontrol.ways hg _ hw)

/-! ## Dropping -/

/-- `c` is what is left of `g` after some nodes have been dropped: the values that still have both
ends, and control between the other nodes wherever it went before. -/
structure Trims (g c : Graph) : Prop extends Prunes g c where
  consistent : c.Consistent
  control : c.ArrivesAsControl
  values : c.valueEdges = g.valueEdges.filter fun p => g.keepsEnds c p.2
  paths : ∀ {x y : NodeId}, g.stays c x = true → g.stays c y = true →
    (TransGen c.Flows x y ↔ TransGen g.Flows x y)
  kept : ∀ {n : NodeId}, n = g.root ∨ g.op? n = some .finish → g.stays c n = true

namespace Trims

theorem refl (hg : g.Consistent) (hcontrol : g.ArrivesAsControl) : g.Trims g where
  toPrunes := .refl g
  consistent := hg
  control := hcontrol
  values := by simp
  paths _ _ := Iff.rfl
  kept _ := stays_self g _

/-- One node is dropped. -/
theorem drop (h : g.Trims d) (hr : Removes d d' n) (hmarks : d'.marks = d.marks)
    (hlive : ¬ d.Gone n) (hroot : n ≠ d.root) (hfinish : d.op? n ≠ some .finish)
    (hcons : d'.Consistent) (hcontrol : d'.ArrivesAsControl)
    (hvalues : d'.valueEdges = d.valueEdges.filter fun p => avoids n p.2)
    (hflows : ∀ x y, d'.Flows x y ↔ x ≠ n ∧ y ≠ n ∧ (d.Flows x y ∨ d.Flows x n ∧ d.Flows n y)) :
    g.Trims d' where
  toPrunes := h.remove hr hmarks
  consistent := hcons
  control := hcontrol
  values := by
    rw [hvalues, h.values, List.filter_filter]
    apply List.filter_congr
    intro p _
    rw [h.keepsEnds_remove hr hlive, Bool.and_comm]
  paths {x y} hx hy := by
    rw [h.stays_remove hr hlive, Bool.and_eq_true, bne_iff_ne] at hx hy
    exact (transGen_shortcut hflows hx.2 hy.2).trans (h.paths hx.1 hy.1)
  kept {m} hm := by
    rw [h.stays_remove hr hlive, Bool.and_eq_true, bne_iff_ne]
    refine ⟨h.kept hm, ?_⟩
    rintro rfl
    rcases hm with hm | hm
    · exact hroot (hm.trans h.root.symm)
    · exact hfinish ((h.op m).trans hm)

theorem dropDead (h : g.Trims d) (hn : n < d.nodes.size) (hd : d.dropDead? n = some d') :
    g.Trims d' := by
  have hc := h.consistent
  obtain ⟨-, hr, hmarks⟩ := removing_dropDead hn hd
  obtain ⟨hlive, hroot, hfinish, ⟨hout, rfl⟩ | ⟨-, -, rfl⟩⟩ := dropDead?_eq_some_iff.mp hd
  · refine h.drop hr hmarks hlive hroot hfinish (hc.eraseNode n) (h.control.eraseNode hc n)
      (valueEdges_eraseNode hc n) fun x y => ?_
    have hstop : ¬ d.Flows n y := by
      rintro ⟨p, hp, hsource, -⟩
      have hmem := hc.mem_outputs.mpr ⟨hsource, p.1, (mem_controlEdges.mp hp).1⟩
      rw [hout] at hmem
      exact List.not_mem_nil hmem
    simp only [flows_eraseNode hc, hstop, and_false, or_false]
  · have hb := (detoured_bypass hc n).consistent
    refine h.drop hr hmarks hlive hroot hfinish (hb.eraseNode n)
      ((h.control.bypass hc n).eraseNode hb n) ?_ fun x y => ?_
    · rw [valueEdges_eraseNode hb, (detoured_bypass hc n).valueEdges (h.control.ways hc)]
    · rw [flows_eraseNode hb, flows_bypass hc h.control]
      tauto

end Trims

theorem trims_dropDeadCode (hg : g.Consistent) (hcontrol : g.ArrivesAsControl) :
    g.Trims g.dropDeadCode.graph := by
  refine sweep_induct (P := g.Trims) (.refl hg hcontrol) ?_
  intro d d' n hn hd hd'
  exact hd.dropDead (hd.size ▸ lt_of_mem_reachable hn) hd'

/-- Dropping dead code keeps the root and every finish. The value edges between the nodes that stay
are those that were there, every edge that is new is a control edge, and a path of control leads
from one of these nodes to another, or back to itself, iff one did before. -/
theorem dropDeadCode_keeps_connected (hg : g.Consistent) (hcontrol : g.ArrivesAsControl) :
    g.stays g.dropDeadCode.graph g.root = true ∧
    (∀ n, g.op? n = some .finish → g.stays g.dropDeadCode.graph n = true) ∧
    g.dropDeadCode.graph.valueEdges =
      g.valueEdges.filter (fun p => g.keepsEnds g.dropDeadCode.graph p.2) ∧
    (∀ i e, g.dropDeadCode.graph.edge? i = some e →
      g.edge? i = some e ∨ g.edges.size ≤ i ∧ e.isControl = true) ∧
    ∀ x y, g.stays g.dropDeadCode.graph x = true → g.stays g.dropDeadCode.graph y = true →
      (TransGen g.dropDeadCode.graph.Flows x y ↔ TransGen g.Flows x y) := by
  have h := trims_dropDeadCode hg hcontrol
  refine ⟨h.kept (.inl rfl), fun n hn => h.kept (.inr hn), h.values, fun i e he => ?_,
    fun x y => h.paths⟩
  by_cases hi : i < g.edges.size
  · exact .inl (hg.later.dropDeadCode.edge hi he)
  · refine .inr ⟨Nat.le_of_not_lt hi, ?_⟩
    -- a value edge would be an old one
    by_contra hctl
    have hvalue : (i, e) ∈ g.dropDeadCode.graph.valueEdges :=
      mem_valueEdges.mpr ⟨he, by simp [Edge.isValue, hctl]⟩
    rw [h.values] at hvalue
    exact hi (edge?_lt (mem_valueEdges.mp (List.mem_filter.mp hvalue).1).1)

end Graph

/-- A send in a loop of jumps, one of which also goes to itself. -/
def Change.tangle : List Change :=
  [.edit (.addNode .jump []), .edit (.addNode .jump []),
    .edit (.addNode .send [("selector", .symbol "tick"), ("argc", .ofNat 0), ("ip", .ofNat 0)]),
    .edit (.addEdge (.control 0 2)), .edit (.addEdge (.control 2 2)),
    .edit (.addEdge (.control 2 3)), .edit (.addEdge (.control 3 2)),
    .edit (.addEdge (.control 3 4)), .edit (.addEdge (.control 4 2)),
    .edit (.addEdge (.control 3 1)), .edit (.addEdge (.value 4 1 .value))]

/-- Both jumps go, and the send still comes after itself. -/
theorem Graph.dropDeadCode_keeps_connected_tangle :
    ∃ g, Change.run? .initial Change.tangle = some g ∧ g.Consistent ∧ g.ArrivesAsControl ∧
      g.stays g.dropDeadCode.graph 2 = false ∧ g.stays g.dropDeadCode.graph 3 = false ∧
      TransGen g.dropDeadCode.graph.Flows 4 4 ∧ TransGen g.dropDeadCode.graph.Flows 0 1 ∧
      ¬ TransGen g.dropDeadCode.graph.Flows 1 0 := by
  obtain ⟨g, hg, hcontrol, hjumps, hstay, hin, hloop, hout, hlast⟩ : ∃ g,
      Change.run? .initial Change.tangle = some g ∧ g.ArrivesAsControl ∧
      (g.stays g.dropDeadCode.graph 2 = false ∧ g.stays g.dropDeadCode.graph 3 = false) ∧
      (∀ n ∈ [0, 1, 4], g.stays g.dropDeadCode.graph n = true) ∧
      g.Flows 0 2 ∧ (g.Flows 4 2 ∧ g.Flows 2 3 ∧ g.Flows 3 4) ∧ g.Flows 3 1 ∧
      ∀ p ∈ g.controlEdges, p.2.source ≠ 1 :=
    ⟨_, rfl, by decide +kernel⟩
  have hcons := (Change.later_of_run? Graph.consistent_initial.later hg).consistent
  obtain ⟨-, -, -, -, hpaths⟩ := Graph.dropDeadCode_keeps_connected hcons hcontrol
  have h0 := hstay 0 (by decide)
  have h1 := hstay 1 (by decide)
  have h4 := hstay 4 (by decide)
  refine ⟨g, hg, hcons, hcontrol, hjumps.1, hjumps.2, (hpaths 4 4 h4 h4).mpr ?_,
    (hpaths 0 1 h0 h1).mpr ?_, fun hpath => ?_⟩
  · exact .tail (.tail (.single hloop.1) hloop.2.1) hloop.2.2
  · exact .tail (.tail (.single hin) hloop.2.1) hout
  · obtain ⟨y, ⟨p, hp, hsource, -⟩, -⟩ := TransGen.head'_iff.mp ((hpaths 1 0 h1 h0).mp hpath)
    exact hlast p hp hsource

end StackJit
