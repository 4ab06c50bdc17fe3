import StackJit.Proofs.Built
import StackJit.Proofs.Rewrite.Passes

/-!
# Compiled graphs are well formed

Whatever passes have made of the graph of a method breaks no rule of `Graph.violation?`: edges touch
no removed node, nothing enters the start node or leaves the finish node, and a phi has one control
input, from a region that control enters in as many ways as the phi has values
(`Graph.Rewrites.phiViolation?_eq_none`). So checking the result of a compilation never fails.

Main statement: `Code.compile_wellFormed`.
-/

namespace StackJit

namespace Translation

variable {code : Code} {g : Graph}

/-- Nothing enters the start node. -/
theorem inputs_start (t : Translation code g) : g.inputs 0 = [] := by
  refine List.eq_nil_iff_forall_not_mem.mpr fun e he => ?_
  obtain ⟨htarget, i, hi⟩ := t.consistent.mem_inputs.mp he
  obtain ⟨o, u, -, hu, hallow⟩ := t.typed hi
  obtain rfl : u = .start := by
    rw [htarget, t.start_eq.2] at hu
    exact (Option.some.inj hu).symm
  cases hin : e.input <;> cases hout : e.output <;> rw [hin, hout] at hallow <;>
    simp [Op.allows, Op.isEntered] at hallow

/-- A phi has a value for each edge into the region that decides it. -/
theorem length_valueSources_phi (t : Translation code g) {p : NodeId} (hop : g.op? p = some .phi) :
    ∃ r, g.op? r = some .region ∧ g.controlSources p = [r] ∧
      (g.valueSources p).length = (g.enters r).length := by
  obtain ⟨b, f, s, n, sources, hf, hfeeds, hd⟩ := t.decides_of_phi hop
  refine ⟨f.region, hf.region_op, ?_, ?_⟩
  · rw [Graph.controlSources, hd.choices, List.filter_cons_of_pos rfl, List.filter_eq_nil_iff.mpr]
    · rfl
    · intro e he
      obtain ⟨m, -, rfl⟩ := List.mem_map.mp he
      simp [Edge.value, Edge.isControl]
  · obtain ⟨hstart, -⟩ := hf.supply hfeeds.needs
    have henters := congrArg List.length (hf.enters_region hstart)
    rw [List.length_map] at henters
    rw [(valueSources_of_decides hd).1, henters, ← (hf.inputs_region hstart).length_eq,
      hfeeds.sources.length_eq]

end Translation

namespace Graph

namespace Rewrites

variable {code : Code} {g c : Graph} {moves : Moves} {n p : NodeId}

theorem inputs_start (h : g.Rewrites c moves) (t : Translation code g) : c.inputs 0 = [] := by
  have hlive : ¬ c.Gone 0 := h.threads.kept t.start_eq.2 rfl
  have hlt : 0 < g.nodes.size := op?_lt t.start_eq.2
  have hcontrol : c.enters 0 = [] := by
    have hlen := h.threads.enters hlt hlive (by simp [t.start_eq.2])
    rw [enters, enters, ← List.length_map (·.2), ← List.length_map (·.2)] at hlen
    have hnone : (g.edgesInto 0).map (·.2) = [] := t.inputs_start
    rw [List.map_eq_nil_iff.mp hnone] at hlen
    simpa [enters] using hlen
  have hvalue : c.operands 0 = [] := by
    rw [h.forwards.operands hlt hlive (t.valued t.start_eq.2 (by simp)), operands, t.inputs_start]
    exact List.perm_nil.mp (perm_requeueAll moves [])
  refine List.eq_nil_iff_forall_not_mem.mpr fun e he => ?_
  cases hctl : e.isControl with
  | true =>
    obtain ⟨htarget, i, hi⟩ := h.descends.consistent.mem_inputs.mp he
    have hmem := h.descends.consistent.mem_enters.mpr ⟨hi, htarget, hctl⟩
    rw [hcontrol] at hmem
    cases hmem
  | false =>
    have hmem : e ∈ c.operands 0 := List.mem_filter.mpr ⟨he, by simp [Edge.isValue, hctl]⟩
    rw [hvalue] at hmem
    cases hmem

theorem outputs_finish (h : g.Rewrites c moves) (t : Translation code g) : c.outputs 1 = [] := by
  refine List.eq_nil_iff_forall_not_mem.mpr fun e he => ?_
  obtain ⟨hsource, i, hi⟩ := h.descends.consistent.mem_outputs.mp he
  exact h.tidy.final hi (hsource.trans t.finish_eq.1.symm)

/-- A phi is decided by one region, which stays as long as the phi does. -/
theorem controlSources_phi (h : g.Rewrites c moves) (t : Translation code g)
    (hop : g.op? p = some .phi) (hlive : ¬ c.Gone p) :
    ∃ r, c.controlSources p = [r] ∧ g.op? r = some .region ∧ ¬ c.Gone r ∧
      (g.valueSources p).length = (g.enters r).length := by
  obtain ⟨r, hr, hsources, hlen⟩ := t.length_valueSources_phi hop
  rw [controlSources_eq_enters, ← h.tidy.decided hop hlive, ← controlSources_eq_enters] at hsources
  refine ⟨r, hsources, hr, ?_, hlen⟩
  have hmem : r ∈ c.controlSources p := hsources ▸ List.mem_singleton_self r
  obtain ⟨e, he, rfl⟩ := List.mem_map.mp hmem
  obtain ⟨-, i, hi⟩ := h.descends.consistent.mem_inputs.mp (List.mem_filter.mp he).1
  exact (h.descends.not_gone hi).1

theorem phiViolation?_eq_none (h : g.Rewrites c moves) (t : Translation code g)
    (hop : g.op? p = some .phi) (hlive : ¬ c.Gone p) : c.phiViolation? p = none := by
  obtain ⟨r, hsources, hr, hrlive, hlen⟩ := h.controlSources_phi t hop hlive
  have hvalues := (h.forwards.valueSources_perm (op?_lt hop) hlive
    (t.valued hop (by simp))).length_eq
  have hentries := h.threads.enters (op?_lt hr) hrlive (by simp [hr])
  rw [List.length_map] at hvalues
  simp only [phiViolation?, hsources, h.descends.op_some hr, Op.isRegion, length_controlSources,
    hvalues, hlen, hentries]
  rfl

theorem danglingEdge?_eq_none (h : g.Rewrites c moves) (n : NodeId) : c.danglingEdge? n = none := by
  rw [danglingEdge?, Option.map_eq_none_iff, List.find?_eq_none]
  intro e he
  obtain ⟨i, hi⟩ : ∃ i, c.edge? i = some e := by
    rcases List.mem_append.mp he with he | he
    · exact (h.descends.consistent.mem_inputs.mp he).2
    · exact (h.descends.consistent.mem_outputs.mp he).2
  obtain ⟨hs, ht⟩ := h.descends.ends hi
  simp [hs, ht]

theorem shapeViolation?_eq_none (h : g.Rewrites c moves) (t : Translation code g)
    (hlive : ¬ c.Gone n) : c.shapeViolation? n = none := by
  have hold : ∀ {op : Op}, c.op? n = some op → op ≠ .safepoint → op ≠ .guard → g.op? n = some op :=
    fun hop => h.op_old hop
  unfold shapeViolation?
  split
  · next hop =>
    have hn : n = 0 := by
      rcases t.ops (hold hop (by simp) (by simp)) with ⟨h, -⟩ | ⟨-, h⟩ | h | h | h | h
      · exact h
      all_goals cases h
    rw [hn, h.inputs_start t]
    rfl
  · next hop =>
    have hn : n = 1 := by
      rcases t.ops (hold hop (by simp) (by simp)) with ⟨-, h⟩ | ⟨h, -⟩ | h | h | h | h
      · cases h
      · exact h
      all_goals cases h
    rw [hn, h.outputs_finish t]
    rfl
  · next hop => exact h.phiViolation?_eq_none t (hold hop (by simp) (by simp)) hlive
  · rfl

/-- A rewritten graph breaks no rule. -/
theorem violation?_eq_none (h : g.Rewrites c moves) (t : Translation code g) :
    c.violation? = none := by
  rw [violation?, List.findSome?_eq_none_iff]
  intro n hn
  rw [h.danglingEdge?_eq_none, Option.none_or]
  exact h.shapeViolation?_eq_none t (h.not_gone_of_reachable t hn)

end Rewrites

end Graph

namespace Code

variable {code : Code} {g : Graph}

theorem violation?_optimize (hg : code.graph = .ok g) (o : CompileOptions)
    (profile : Option Profile) : (o.optimize profile g).violation? = none := by
  obtain ⟨t⟩ := Code.exists_translation hg
  obtain ⟨moves, h⟩ := t.rewritten_optimize o profile
  exact h.violation?_eq_none t

/-- What has a graph can be compiled. -/
theorem compile_of_graph (hg : code.graph = .ok g) (o : CompileOptions) (profile : Option Profile) :
    code.compile o profile = .ok (o.optimize profile g) := by
  simp only [Code.compile, hg, violation?_optimize hg o profile]
  split <;> rfl

/-- The passes leave a well-formed graph, so a compilation never ends in a violation. -/
theorem compile_wellFormed (code : Code) (o : CompileOptions) (profile : Option Profile) :
    (∀ g, code.graph = .ok g → (o.optimize profile g).violation? = none) ∧
      ∀ v, code.compile o profile ≠ .error (.malformed v) := by
  refine ⟨fun g hg => violation?_optimize hg o profile, fun v hv => ?_⟩
  cases hg : code.graph with
  | error e =>
    simp only [Code.compile, hg] at hv
    cases hv
  | ok g =>
    rw [compile_of_graph hg] at hv
    cases hv

/-- The loop of `Code.drain` has a phi, and its graph is compiled without safepoints. -/
theorem compile_wellFormed_drain :
    ∃ g, Code.drain.graph = .ok g ∧
      (CompileOptions.optimize { safepoints := false } none g).violation? = none := by
  obtain ⟨g, hg⟩ := Code.exists_graph_drain
  exact ⟨g, hg, (compile_wellFormed Code.drain { safepoints := false } none).1 g hg⟩

end Code

end StackJit
