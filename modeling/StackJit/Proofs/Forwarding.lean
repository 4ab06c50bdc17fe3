import StackJit.Proofs.Build.Placeholders
import StackJit.Proofs.Rewrite.Passes

/-!
# Dropping placeholders

A placeholder stands for its only source, which may be a placeholder again. These chains end
(`Translation.wellFounded_passes`), and every placeholder of a method's graph has a source, because
it is that of a slot. So dropping placeholders finds one source at each of them when it comes to it,
and in the end a use of a placeholder is a use of the node at the end of the chain.
`Graph.Forwarded` is what holds between two changes: the control edges are untouched, and the
operands of all nodes that are left are those of the method's graph after the forwardings made so
far.

Main statement: `Code.dropPlaceholders_keeps`.
-/

namespace StackJit

namespace Graph

/-- The chain of placeholders from `n` ends at `m`. -/
structure Unwinds (g : Graph) (n m : NodeId) : Prop where
  chain : Relation.ReflTransGen g.Passes n m
  stands : g.op? m ≠ some .input

/-- In `c` the node `n` is what it is in `g`, with `σ` applied to the sources of its operands. -/
structure Keeps (g c : Graph) (σ : NodeId → NodeId) (n : NodeId) : Prop where
  live : ¬ c.Gone n
  label : c.label? n = g.label? n
  enters : (c.edgesInto n).filter (·.2.isControl) = (g.edgesInto n).filter (·.2.isControl)
  leaves : (c.edgesOutOf n).filter (·.2.isControl) = (g.edgesOutOf n).filter (·.2.isControl)
  operands : (c.operands n).Perm ((g.operands n).map (·.reroute σ))

/-- `c` is `g` after the placeholders `moves` have been forwarded, and nothing else. -/
structure Forwarded (g c : Graph) (moves : Moves) : Prop where
  rewrites : g.Rewrites c moves
  passed : Rewrites.Passed g moves
  control : c.controlEdges = g.controlEdges
  operands : ∀ {n : NodeId}, ¬ c.Gone n → c.operands n = requeueAll moves (g.operands n)
  lands : ∀ n, ¬ c.Gone (follow moves n)
  gone : ∀ {n : NodeId}, c.Gone n → g.op? n = some .input

/-! ## Reachability -/

/-- A traversal that finds one end of an edge finds the other. -/
theorem Consistent.mem_reachable_iff {g : Graph} (hg : g.Consistent) {i : EdgeId} {e : Edge}
    (he : g.edge? i = some e) : e.source ∈ g.reachable ↔ e.target ∈ g.reachable := by
  obtain ⟨hs, ht⟩ := hg.ends he
  simp only [reachable, Search.mem_order]
  constructor
  · refine fun h => h.step (List.mem_flatMap.mpr ⟨e, List.mem_append_right _ ?_, by simp⟩) ht
    exact hg.mem_outputs.mpr ⟨rfl, i, he⟩
  · refine fun h => h.step (List.mem_flatMap.mpr ⟨e, List.mem_append_left _ ?_, by simp⟩) hs
    exact hg.mem_inputs.mpr ⟨rfl, i, he⟩

/-- A set of nodes that holds the root, and both ends of an edge or none, holds what a traversal
finds. -/
theorem Consistent.reachable_induct {c : Graph} (hc : c.Consistent) {P : NodeId → Prop}
    (hroot : P c.root)
    (hedge : ∀ {i : EdgeId} {e : Edge}, c.edge? i = some e → (P e.source ↔ P e.target))
    {n : NodeId} (hn : n ∈ c.reachable) : P n := by
  rw [reachable, Search.mem_order] at hn
  induction hn with
  | root _ => exact hroot
  | @step v w _ hw _ ih =>
    obtain ⟨e, he, hend⟩ := List.mem_flatMap.mp hw
    obtain ⟨i, hi, hv⟩ : ∃ i, c.edge? i = some e ∧ (e.source = v ∨ e.target = v) := by
      rcases List.mem_append.mp he with he | he
      · obtain ⟨htarget, i, hi⟩ := hc.mem_inputs.mp he
        exact ⟨i, hi, .inr htarget⟩
      · obtain ⟨hsource, i, hi⟩ := hc.mem_outputs.mp he
        exact ⟨i, hi, .inl hsource⟩
    have hends : P e.source ∧ P e.target := by
      rcases hv with rfl | rfl
      · exact ⟨ih, (hedge hi).mp ih⟩
      · exact ⟨(hedge hi).mpr ih, ih⟩
    rcases List.mem_cons.mp hend with rfl | hend
    · exact hends.1
    · rw [List.mem_singleton.mp hend]
      exact hends.2

theorem Consistent.leaves_eq_controlEdges {g : Graph} (hg : g.Consistent) (n : NodeId) :
    (g.edgesOutOf n).filter (·.2.isControl) = g.controlEdges.filter (·.2.source == n) := by
  rw [hg.edgesOutOf_eq, controlEdges, List.filter_filter, List.filter_filter]
  apply List.filter_congr
  intro p _
  exact Bool.and_comm _ _

/-- A placeholder and what it stands for are found together. -/
theorem Consistent.reachable_of_passes {g : Graph} (hg : g.Consistent) {n m : NodeId}
    (h : Relation.ReflTransGen g.Passes n m) : n ∈ g.reachable ↔ m ∈ g.reachable := by
  induction h with
  | refl => exact Iff.rfl
  | @tail k l _ hstep ih =>
    have hmem : l ∈ g.valueSources k := hstep.2 ▸ List.mem_singleton_self l
    obtain ⟨e, he, rfl⟩ := List.mem_map.mp hmem
    obtain ⟨rfl, i, hi⟩ := hg.mem_inputs.mp (List.mem_filter.mp he).1
    exact ih.trans (hg.mem_reachable_iff hi).symm

end Graph

namespace Translation

variable {code : Code} {g : Graph}

/-- Control does not pass a placeholder. -/
theorem avoids_input (t : Translation code g) {n : NodeId} (hop : g.op? n = some .input) :
    ∀ p ∈ g.controlEdges, Graph.avoids n p.2 = true := by
  intro p hp
  obtain ⟨hi, hctl⟩ := Graph.mem_controlEdges.mp hp
  have htyped := t.typed hi
  refine Graph.avoids_iff.mpr ⟨fun hsource => ?_, fun htarget => ?_⟩
  · have hin := htyped.control_input hctl
    obtain ⟨o, u, ho, -, hallow⟩ := htyped
    obtain rfl : o = .input := Option.some.inj (ho.symm.trans (hsource ▸ hop))
    rw [hin] at hallow
    cases hout : p.2.output <;> simp [Op.allows, Op.isLeft, hout] at hallow
  · exact htyped.not_input hctl (htarget ▸ hop)

/-- The placeholder of a slot has one source. -/
theorem Has.exists_source {t : Translation code g} {b : Block} {f : Fragment} (hf : t.Has b f)
    {a : Slot} {n : NodeId} (ha : f.entry.slot a = some n) : ∃ m, g.valueSources n = [m] := by
  obtain ⟨-, sources, -, hsupplied⟩ := hf.supply ha
  cases hsupplied with
  | @direct m _ inputs =>
    refine ⟨m, ?_⟩
    rw [Graph.valueSources, inputs]
    rfl
  | @phi p decides => exact ⟨p, (valueSources_of_decides decides).2⟩

end Translation

namespace Graph.Forwarded

variable {code : Code} {g c d : Graph} {moves : Moves} {n m : NodeId}

theorem refl (t : Translation code g) : g.Forwarded g [] where
  rewrites := t.rewrites
  passed := Rewrites.passed_nil g
  control := rfl
  operands _ := rfl
  lands _ := t.not_gone _
  gone h := absurd h (t.not_gone _)

theorem valueSources_perm (h : g.Forwarded c moves) (hlive : ¬ c.Gone n) :
    (c.valueSources n).Perm ((g.valueSources n).map (follow moves)) := by
  have hperm := (perm_requeueAll moves (g.operands n)).map (·.source)
  rw [valueSources_eq_operands, h.operands hlive]
  rw [List.map_map] at hperm
  rw [valueSources_eq_operands, List.map_map]
  exact hperm

theorem forward (h : g.Forwarded d moves) (t : Translation code g) (hop : g.op? n = some .input)
    (hm : d.valueSources n = [m]) : g.Forwarded (d.forward n m) (moves ++ [(n, m)]) := by
  obtain ⟨hrewrites, hpassed, -⟩ := h.rewrites.forwardInput t h.passed hop hm
  obtain ⟨-, hne⟩ := h.rewrites.passes_source t h.passed hop hm
  obtain ⟨hlt, hlive, -⟩ := h.rewrites.source_of_mem (hm ▸ List.mem_singleton_self m)
  have hd := h.rewrites.descends.consistent
  have hremoves := removes_forward (Nat.lt_of_lt_of_le (op?_lt hop) h.rewrites.descends.size) m
  refine ⟨hrewrites, hpassed, ?_, fun {k} hk => ?_, fun k => ?_, fun {k} hk => ?_⟩
  · rw [controlEdges_forward hd hlt, h.control, List.filter_eq_self]
    exact t.avoids_input hop
  · obtain ⟨hk, hkn⟩ := not_or.mp (fun hor => hk (hremoves.removed.mpr hor))
    rw [operands_forward hd hlt hne hkn, h.operands hk, requeueAll_concat]
  · rw [follow_concat, hremoves.removed, not_or]
    by_cases heq : follow moves k = n
    · rw [heq, substitute_self]
      exact ⟨by simp [hlive], hne⟩
    · rw [substitute_of_ne heq]
      exact ⟨h.lands k, heq⟩
  · rcases hremoves.removed.mp hk with hk | rfl
    · exact h.gone hk
    · exact hop

/-- Both ends of an edge belong to the graph of the method, or none. -/
theorem reachable_iff (h : g.Forwarded c moves) (t : Translation code g) {i : EdgeId} {e : Edge}
    (he : c.edge? i = some e) : e.source ∈ g.reachable ↔ e.target ∈ g.reachable := by
  have hc := h.rewrites.descends.consistent
  by_cases hctl : e.isControl = true
  · have hmem := mem_controlEdges.mpr ⟨he, hctl⟩
    rw [h.control] at hmem
    exact t.consistent.mem_reachable_iff (mem_controlEdges.mp hmem).1
  · -- the operand was one of the same node, and its source passes for that of the other
    have hmem : e ∈ c.operands e.target :=
      List.mem_filter.mpr ⟨hc.mem_inputs.mpr ⟨rfl, i, he⟩, by simp [Edge.isValue, hctl]⟩
    rw [h.operands (h.rewrites.descends.not_gone he).2, (perm_requeueAll _ _).mem_iff] at hmem
    obtain ⟨e₀, he₀, heq⟩ := List.mem_map.mp hmem
    obtain ⟨htarget, j, hj⟩ := t.consistent.mem_inputs.mp (List.mem_filter.mp he₀).1
    have hsource : follow moves e₀.source = e.source := congrArg Edge.source heq
    rw [← hsource, ← t.consistent.reachable_of_passes (h.passed e₀.source), ← htarget]
    exact t.consistent.mem_reachable_iff hj

theorem mem_reachable (h : g.Forwarded c moves) (t : Translation code g) (hn : n ∈ c.reachable) :
    n ∈ g.reachable := by
  refine h.rewrites.descends.consistent.reachable_induct (P := (· ∈ g.reachable)) ?_
    (h.reachable_iff t) hn
  rw [h.rewrites.root_eq t, ← t.root_eq, reachable, Search.mem_order]
  refine .root ?_
  rw [t.root_eq]
  exact op?_lt t.start_eq.2

theorem keeps (h : g.Forwarded c moves) (t : Translation code g) (hn : n ∈ g.reachable)
    (hop : g.op? n ≠ some .input) : g.Keeps c (follow moves) n := by
  have hlive : ¬ c.Gone n := fun hgone => hop (h.gone hgone)
  have hc := h.rewrites.descends.consistent
  have hlt : n < g.nodes.size := (Search.order_closed _ _ _).1 n hn
  refine ⟨hlive, h.rewrites.descends.label hlt, ?_, ?_, ?_⟩
  · change c.enters n = g.enters n
    rw [hc.enters_eq_controlEdges, t.consistent.enters_eq_controlEdges, h.control]
  · rw [hc.leaves_eq_controlEdges, t.consistent.leaves_eq_controlEdges, h.control]
  · rw [h.operands hlive]
    exact perm_requeueAll moves _

end Graph.Forwarded

/-- Dropping placeholders forwards all that belong to the graph. -/
theorem Code.forwarded_dropPlaceholders {code : Code} {g : Graph} (hg : code.graph = .ok g) :
    ∃ (_ : Translation code g) (moves : Graph.Moves),
      g.Forwarded g.dropPlaceholders.graph moves ∧
        ∀ n ∈ g.nodesOf .input, g.dropPlaceholders.graph.Gone n := by
  obtain ⟨t, hslot⟩ := Code.exists_slot hg
  have hstep : ∀ {d d' : Graph} {n : NodeId}, n ∈ g.nodesOf .input →
      (∃ moves, g.Forwarded d moves) → d.forwardInput? n = some d' →
      (∃ moves, g.Forwarded d' moves) ∧ ∀ {k : NodeId}, d'.Gone k ↔ d.Gone k ∨ k = n := by
    rintro d d' n hn ⟨moves, h⟩ hd
    obtain ⟨m, hm, rfl⟩ := Graph.forwarded_of_forwardInput? hd
    have hop := (Graph.mem_nodesOf.mp hn).2
    exact ⟨⟨_, h.forward t hop hm⟩, fun {k} => (Graph.removes_forward
      (Nat.lt_of_lt_of_le (Graph.op?_lt hop) h.rewrites.descends.size) m).removed⟩
  obtain ⟨moves, h⟩ : ∃ moves, g.Forwarded g.dropPlaceholders.graph moves :=
    Graph.sweep_induct (P := fun d => ∃ moves, g.Forwarded d moves) ⟨[], .refl t⟩
      fun hn hd hd' => (hstep hn hd hd').1
  refine ⟨t, moves, h, ?_⟩
  refine Graph.sweep_forall (P := fun d => ∃ moves, g.Forwarded d moves) (Q := Graph.Gone)
    ⟨[], .refl t⟩ (fun hn hd hd' => ?_) ?_
  · obtain ⟨h', hgone⟩ := hstep hn hd hd'
    exact ⟨h', hgone.mpr (.inr rfl), fun m _ hm => hgone.mpr (.inl hm)⟩
  · rintro d n hn ⟨moves, h⟩ hnone
    by_contra hlive
    obtain ⟨b, f, a, hf, ha⟩ := hslot (Graph.mem_nodesOf.mp hn).2
    obtain ⟨s, hs⟩ := hf.exists_source ha
    have hperm := h.valueSources_perm hlive
    rw [hs, List.map_singleton, List.perm_singleton] at hperm
    simp only [Graph.forwardInput?, hperm] at hnone
    cases hnone

/-- After placeholders have been dropped, none belongs to the graph. Every other node of the graph
keeps its control edges and its operands, in some order, with the node at the end of the chain of
placeholders in the place of each source. -/
theorem Code.dropPlaceholders_keeps {code : Code} {g : Graph} (hg : code.graph = .ok g) :
    (∀ n ∈ g.dropPlaceholders.graph.reachable, g.dropPlaceholders.graph.op? n ≠ some .input) ∧
      ∃ σ : NodeId → NodeId, (∀ n ∈ g.reachable, g.Unwinds n (σ n)) ∧
        ∀ n ∈ g.reachable, g.op? n ≠ some .input → g.Keeps g.dropPlaceholders.graph σ n := by
  obtain ⟨t, moves, h, hgone⟩ := Code.forwarded_dropPlaceholders hg
  have hstands : ∀ n ∈ g.reachable, ¬ g.dropPlaceholders.graph.Gone n → g.op? n ≠ some .input :=
    fun n hn hlive hop => hlive (hgone n (Graph.mem_nodesOf.mpr ⟨hn, hop⟩))
  refine ⟨fun n hn hop => ?_, Graph.follow moves, fun n hn => ⟨h.passed n, ?_⟩,
    fun n hn hop => h.keeps t hn hop⟩
  · have hold := h.mem_reachable t hn
    rw [h.rewrites.descends.op ((Search.order_closed _ _ _).1 n hold)] at hop
    exact hstands n hold (h.rewrites.not_gone_of_reachable t hn) hop
  · exact hstands _ ((t.consistent.reachable_of_passes (h.passed n)).mp hn) (h.lands n)

/-- Hands an operand on to the block that returns it, through a block that does not use it. -/
def Code.relay : Code := #[.push (.int 1), .jump 2, .jump 3, .ret]

theorem Code.dropPlaceholders_keeps_relay :
    ∃ g, relay.graph = .ok g ∧ g.valueSources 1 = [8] ∧ g.op? 8 = some .input ∧
      (∀ n ∈ g.dropPlaceholders.graph.reachable, g.dropPlaceholders.graph.op? n ≠ some .input) ∧
      ∃ σ : NodeId → NodeId, g.Unwinds 8 (σ 8) ∧ g.Keeps g.dropPlaceholders.graph σ 1 := by
  obtain ⟨g, hg⟩ : ∃ g, relay.graph = .ok g := Code.exists_graph (by decide +kernel)
  have hfacts : relay.graph.toOption.all (fun g =>
      g.reachable.contains 1 && g.reachable.contains 8 &&
      g.op? 1 == some .finish && g.op? 8 == some .input && g.valueSources 1 == [8]) = true := by
    decide +kernel
  rw [hg] at hfacts
  simp only [Except.toOption, Option.all_some, Bool.and_eq_true, beq_iff_eq,
    List.contains_iff_mem] at hfacts
  obtain ⟨⟨⟨⟨hfinish, hinput⟩, hop⟩, hop'⟩, hsources⟩ := hfacts
  obtain ⟨hnone, σ, hunwinds, hkeeps⟩ := Code.dropPlaceholders_keeps hg
  exact ⟨g, hg, hsources, hop', hnone, σ, hunwinds 8 hinput, hkeeps 1 hfinish (by simp [hop])⟩

end StackJit
