import StackJit.Proofs.WellFormed

/-!
# Where phis are placed

A block that several control flow edges lead to has a phi for every slot that it inherits. The phi
is controlled by the region of the block, is used by the placeholder of the slot and by nothing
else, and chooses, for each way into the region, what the block at the other end of that way has in
the slot.

The values of a phi are attached when its block is joined and the control edges of the region when
the predecessors are, so both orders are those of the predecessors. That a phi has one use only is
not seen from its inputs: it is a property of joining, which adds every other edge between the nodes
that were there before (`Graph.UsedOnce`).

Main statement: `Code.phis_of_graph`.
-/

namespace StackJit

namespace Graph

variable {base g : Graph} {region n : NodeId} {sources : List NodeId}

/-- `g` has grown from `base` by nodes that are used once. -/
structure UsedOnce (base g : Graph) : Prop where
  consistent : g.Consistent
  size : base.nodes.size ≤ g.nodes.size
  start : g.start = base.start
  finish : g.finish = base.finish
  once : ∀ {p : NodeId}, base.nodes.size ≤ p → p < g.nodes.size →
    ∃ n, g.outputs p = [.value p n .value]

namespace UsedOnce

/-- Edges between old nodes are no uses of the new ones. -/
theorem addEdges (h : base.UsedOnce g) (es : List Edge)
    (hes : ∀ e ∈ es, e.source < base.nodes.size ∧ e.target < base.nodes.size) :
    base.UsedOnce (g.addEdges es) := by
  have hgrow : g.Grows (g.addEdges es) es := by
    apply Grows.addEdges
    intro e he
    obtain ⟨hs, ht⟩ := hes e he
    exact ⟨Nat.lt_of_lt_of_le hs h.size, Nat.lt_of_lt_of_le ht h.size⟩
  refine ⟨hgrow.consistent h.consistent, ?_, hgrow.start.trans h.start,
    hgrow.finish.trans h.finish, fun {p} hp hlt => ?_⟩
  · rw [numNodes_addEdges]
    exact h.size
  · rw [numNodes_addEdges] at hlt
    have hnone : es.filter (·.source == p) = [] := by
      refine List.filter_eq_nil_iff.mpr fun e he hsource => ?_
      have hs := (hes e he).1
      rw [beq_iff_eq.mp hsource] at hs
      exact absurd hs (Nat.not_lt.mpr hp)
    rw [hgrow.outputs h.consistent, hnone, List.append_nil]
    exact h.once hp hlt

/-- Of the edges of a phi only its use leaves a node that is neither the region nor a source. -/
theorem filter_source_phiEdges {p q : NodeId} (hregion : q ≠ region) (hsources : q ∉ sources) :
    (phiEdges region n p sources).filter (·.source == q) =
      if q = p then [.value p n .value] else [] := by
  have hnone : (sources.map fun m => Edge.value m p .value).filter (·.source == q) = [] := by
    refine List.filter_eq_nil_iff.mpr fun e he hsource => hsources ?_
    obtain ⟨m, hm, rfl⟩ := List.mem_map.mp he
    exact beq_iff_eq.mp hsource ▸ hm
  rw [phiEdges, List.filter_cons_of_neg (by simpa [Edge.control] using Ne.symm hregion),
    List.filter_append, hnone, List.nil_append]
  by_cases hq : q = p
  · simp [hq, Edge.value]
  · simp [hq, Ne.symm hq, Edge.value]

/-- A new phi is used by its placeholder. -/
theorem addPhi (h : base.UsedOnce g) (hregion : region < base.nodes.size)
    (hn : n < base.nodes.size) (hsources : ∀ m ∈ sources, m < base.nodes.size) :
    base.UsedOnce ((g.addNode .phi []).addEdges (phiEdges region n g.nodes.size sources)) := by
  have hgrow := grows_phi g (Nat.lt_of_lt_of_le hregion h.size) (Nat.lt_of_lt_of_le hn h.size)
    fun k hk => Nat.lt_of_lt_of_le (hsources k hk) h.size
  refine ⟨hgrow.consistent h.consistent, ?_, hgrow.start.trans h.start,
    hgrow.finish.trans h.finish, fun {p} hp hlt => ?_⟩
  · rw [numNodes_addEdges, numNodes_addNode]
    exact Nat.le_succ_of_le h.size
  · rw [numNodes_addEdges, numNodes_addNode] at hlt
    have hsource : p ∉ sources := fun hmem => Nat.not_lt.mpr hp (hsources p hmem)
    rw [hgrow.outputs h.consistent,
      filter_source_phiEdges (Ne.symm (Nat.ne_of_lt (Nat.lt_of_lt_of_le hregion hp))) hsource]
    by_cases hnew : p = g.nodes.size
    · rw [if_pos hnew, hnew, h.consistent.outputs_of_ge (Nat.le_refl _)]
      exact ⟨n, rfl⟩
    · rw [if_neg hnew, List.append_nil]
      exact h.once hp (Nat.lt_of_le_of_ne (Nat.le_of_lt_succ hlt) hnew)

/-- What is put in for a placeholder is used by it. -/
theorem supplyPlaceholder (h : base.UsedOnce g) (hregion : region < base.nodes.size)
    (hn : n < base.nodes.size) (hsources : ∀ m ∈ sources, m < base.nodes.size) :
    base.UsedOnce (g.supplyPlaceholder region n sources) := by
  rcases sources with _ | ⟨m, _ | ⟨m', rest⟩⟩
  · exact h
  · apply h.addEdges [.value m n .value]
    intro e he
    rw [List.mem_singleton.mp he]
    exact ⟨hsources m List.mem_cons_self, hn⟩
  · rw [supplyPlaceholder_of_two]
    exact h.addPhi hregion hn hsources

end UsedOnce

end Graph

namespace Assembly

variable {code : Code} {bs : List Block} {a : Assembly} {b : Block} {f : Fragment} {g g' : Graph}

/-- The edges out of a block are edges between nodes of its graph. -/
theorem ends_leaving (h : Assembled a.graph a.table bs) (hl : Layout code bs) (hb : b ∈ bs)
    (hf : a.table b.start = some f) {e : Edge} (he : e ∈ a.leaving b f) :
    e.source < a.graph.nodes.size ∧ e.target < a.graph.nodes.size := by
  have hm := h.fragment_of_mem hb hf
  obtain ⟨-, op, hop, -⟩ := hm.sound.control
  have hend : f.controlEnd < a.graph.nodes.size := Graph.op?_lt hop
  have hfinish : a.graph.finish < a.graph.nodes.size := by
    rw [h.finish.1]
    exact Graph.op?_lt h.finish.2.1
  have hregion : ∀ t ∈ b.succs, a.regionAt t < a.graph.nodes.size := by
    intro t ht
    obtain ⟨c, hc, rfl⟩ := hl.succ b hb t ht
    exact Graph.op?_lt (regionAt_of_mem h hc)
  unfold leaving at he
  split at he
  · rcases List.mem_cons.mp he with rfl | he
    · exact ⟨hend, hfinish⟩
    · obtain ⟨n, hn, rfl⟩ := List.mem_map.mp he
      exact ⟨(hm.latest n (by simpa using hn)).2, hfinish⟩
  · next t hs =>
    rw [List.mem_singleton.mp he]
    exact ⟨hend, hregion t (by simp [hs])⟩
  · next t u hs =>
    rcases List.mem_cons.mp he with rfl | he
    · exact ⟨hend, hregion t (by simp [hs])⟩
    · rw [List.mem_singleton.mp he]
      exact ⟨hend, hregion u (by simp [hs])⟩
  · cases he

theorem usedOnce_joinEntry (h : Assembled a.graph a.table bs) (hl : Layout code bs) (hb : b ∈ bs)
    (hf : a.table b.start = some f) (hg : a.graph.UsedOnce g) (hok : a.joinEntry g b f = .ok g') :
    a.graph.UsedOnce g' := by
  have hregion := Graph.op?_lt (h.fragment_of_mem hb hf).region
  unfold joinEntry at hok
  split at hok
  · cases hok
    apply hg.addEdges [.control g.start f.region]
    intro e he
    rw [List.mem_singleton.mp he]
    exact ⟨hg.start ▸ h.start_lt, hregion⟩
  · next hne =>
    split at hok
    · cases hok
    · next supplied hsupplied =>
      cases hok
      apply List.foldlRecOn (motive := a.graph.UsedOnce) _ _ hg
      intro d hd q hq
      obtain ⟨s, -, hfeeds⟩ := exists_left_of_forall₂ (feeds_suppliers hsupplied) hq
      obtain ⟨⟨hop, -⟩, -, hsources⟩ := sources_of_feeds h hl (.refl _) hb hf hne
        ((joined_nil h).waiting hb List.not_mem_nil hf) hfeeds
      apply hd.supplyPlaceholder hregion (Graph.op?_lt hop)
      intro m hm
      obtain ⟨op, hop, -⟩ := hsources m hm
      exact Graph.op?_lt hop

theorem usedOnce_joinBlock (h : Assembled a.graph a.table bs) (hl : Layout code bs) (hb : b ∈ bs)
    (hg : a.graph.UsedOnce g) (hok : a.joinBlock g b = .ok g') : a.graph.UsedOnce g' := by
  obtain ⟨f, hf, -⟩ := h.models hb
  have hf' : a.fragments[b.start]? = some f := hf
  unfold joinBlock at hok
  rw [hf'] at hok
  simp only at hok
  split at hok
  · cases hok
  next g₁ hentry =>
  split at hok
  · cases hok
  next es hexits =>
  cases hok
  have hg₁ := usedOnce_joinEntry h hl hb hf hg hentry
  have hsucc : ∀ t ∈ b.succs, ∃ f', a.table t = some f' := by
    intro t ht
    obtain ⟨c, hc, rfl⟩ := hl.succ b hb t ht
    obtain ⟨f', hf', -⟩ := h.models hc
    exact ⟨f', hf'⟩
  obtain ⟨rfl, -⟩ := leaving_of_exits hg₁.finish hsucc hexits
  exact hg₁.addEdges _ fun e he => ends_leaving h hl hb hf he

theorem usedOnce_joinBlocks (h : Assembled a.graph a.table bs) (hl : Layout code bs)
    {rest : List Block} (hrest : ∀ b ∈ rest, b ∈ bs) (hg : a.graph.UsedOnce g)
    (hok : a.joinBlocks rest g = .ok g') : a.graph.UsedOnce g' := by
  induction rest generalizing g with
  | nil =>
    cases hok
    exact hg
  | cons b rest ih =>
    unfold joinBlocks at hok
    split at hok
    · cases hok
    next g₁ hblock =>
    exact ih (fun c hc => hrest c (List.mem_cons_of_mem b hc))
      (usedOnce_joinBlock h hl (hrest b List.mem_cons_self) hg hblock) hok

end Assembly

/-- How many edges of the control flow among `blocks` lead to a block. -/
def Block.entries (blocks : List Block) (b : Block) : Nat :=
  (blocks.map (·.succs.count b.start)).sum

theorem Layout.length_preds {code : Code} {bs : List Block} (h : Layout code bs) {b : Block}
    (hb : b ∈ bs) : b.preds.length = Block.entries bs b := by
  rw [h.preds b hb, List.length_flatMap, Block.entries]
  simp only [List.length_replicate]

theorem exists_getElem?_of_forall₂ {α β : Type} {R : α → β → Prop} {xs : List α} {ys : List β}
    (h : List.Forall₂ R xs ys) {k : Nat} {y : β} (hy : ys[k]? = some y) :
    ∃ x, xs[k]? = some x ∧ R x y := by
  induction h generalizing k with
  | nil => cases hy
  | @cons x _ _ _ hxy _ ih =>
    cases k with
    | zero => exact ⟨x, rfl, Option.some.inj hy ▸ hxy⟩
    | succ k => exact ih hy

/-- The phi `p` stands for the slot `s` that the block `b` inherits as `n`. -/
structure Assembly.Chooses (a : Assembly) (blocks : List Block) (g : Graph) (b : Block)
    (f : Fragment) (s : Slot) (n p : NodeId) : Prop where
  op : g.op? p = some .phi
  control : g.controlSources p = [f.region]
  use : g.outputs p = [.value p n .value]
  input : g.inputs n = [.value p n .value]
  arity : (g.valueSources p).length = (g.controlSources f.region).length
  /-- Each control input of the region comes from the end of a predecessor. -/
  pred : ∀ k < (g.controlSources f.region).length, ∃ c ∈ blocks, ∃ f',
    a.fragments[c.start]? = some f' ∧ b.start ∈ c.succs ∧
      (g.controlSources f.region)[k]? = some f'.controlEnd
  /-- The value of the same position is what the predecessor has in the slot at its end. -/
  value : ∀ {k : Nat} {c : Block} {f' : Fragment}, c ∈ blocks → a.fragments[c.start]? = some f' →
    (g.controlSources f.region)[k]? = some f'.controlEnd →
      ∃ m, f'.exit.slot s = some m ∧ (g.valueSources p)[k]? = some m

namespace Translation

open Assembly

variable {code : Code} {g : Graph} {t : Translation code g} {b c : Block} {f fc : Fragment}

/-- Control comes to a region from the ends of the predecessors, in their order. -/
theorem Has.controlSources_region (hc : t.Has c fc) (hcs : c.start ≠ 0) :
    List.Forall₂ (fun p m => ∃ b fb, t.Has b fb ∧ b.start = p ∧ m = fb.controlEnd) c.preds
      (g.controlSources fc.region) := by
  have hinputs := hc.inputs_region hcs
  have hall : (g.inputs fc.region).filter (·.isControl) = g.inputs fc.region := by
    refine List.filter_eq_self.mpr fun e he => ?_
    obtain ⟨p, -, hctl, -⟩ := exists_left_of_forall₂ hinputs he
    exact hctl
  rw [Graph.controlSources, hall, List.forall₂_map_right_iff]
  exact hinputs.imp fun p e h => h.2

/-- A phi that decides a slot stands for it, if it has one use. -/
theorem chooses_of_decides (hf : t.Has b f) {s : Slot} {n p : NodeId} {sources : List NodeId}
    (hfeeds : Feeds t.parts.table b f s n sources) (hd : g.Decides f.region n sources p)
    (huse : ∃ n', g.outputs p = [.value p n' .value]) :
    t.parts.Chooses t.blocks g b f s n p := by
  have hstart := (hf.supply hfeeds.needs).1
  have hcontrols := hf.controlSources_region hstart
  obtain ⟨hsources, -⟩ := valueSources_of_decides hd
  have houtputs : g.outputs p = [.value p n .value] := by
    obtain ⟨n', hn'⟩ := huse
    have hin : Edge.value p n .value ∈ g.inputs n := by
      rw [hd.inputs]
      exact List.mem_singleton_self _
    obtain ⟨-, i, hi⟩ := t.consistent.mem_inputs.mp hin
    have hout := t.consistent.mem_outputs.mpr ⟨rfl, i, hi⟩
    change Edge.value p n .value ∈ g.outputs p at hout
    rw [hn', List.mem_singleton] at hout
    rw [hn', hout]
  refine ⟨hd.op, ?_, houtputs, hd.inputs, ?_, fun k hk => ?_, fun {k c f'} hc hf' hk => ?_⟩
  · have hvalues : (sources.map fun m => Edge.value m p .value).filter (·.isControl) = [] := by
      refine List.filter_eq_nil_iff.mpr fun e he => ?_
      obtain ⟨m, -, rfl⟩ := List.mem_map.mp he
      simp [Edge.value, Edge.isControl]
    rw [Graph.controlSources, hd.choices, List.filter_cons_of_pos rfl, hvalues]
    rfl
  · rw [hsources, ← hfeeds.sources.length_eq, ← hcontrols.length_eq]
  · obtain ⟨q, hq, c, fc, hfc, rfl, hend⟩ :=
      exists_getElem?_of_forall₂ hcontrols (List.getElem?_eq_getElem hk)
    obtain ⟨d, hdmem, hds, hsucc⟩ := (t.layout.mem_preds hf.mem).mp (List.mem_of_getElem? hq)
    obtain rfl := t.layout.eq_of_start hdmem hfc.mem hds
    exact ⟨d, hdmem, fc, hfc.table, hsucc, by rw [← hend]; exact List.getElem?_eq_getElem hk⟩
  · obtain ⟨q, hq, d, fd, hfd, rfl, hend⟩ := exists_getElem?_of_forall₂ hcontrols hk
    have hfc : t.Has c f' := ⟨hc, hf'⟩
    obtain rfl := hfc.eq_of_controlEnd hfd hend
    obtain ⟨m, hm, hslot⟩ := hfc.source_at hfeeds hq
    exact ⟨m, hslot, hsources ▸ hm⟩

/-- Phis are used once. -/
theorem outputs_of_phi (t : Translation code g) (hg : t.parts.graph.UsedOnce g) {p : NodeId}
    (hp : g.op? p = some .phi) : ∃ n, g.outputs p = [.value p n .value] := by
  apply hg.once
  · by_contra hlt
    rw [t.extends_parts.op_of_lt (Nat.lt_of_not_le hlt)] at hp
    rcases t.assembled.ops hp with ⟨-, h⟩ | ⟨-, h⟩ | h | h | h <;> cases h
  · exact Graph.op?_lt hp

end Translation

/-- The graph of a method keeps the rules. It is joined from the fragments of the reachable blocks,
and every phi of it stands for a slot that a block with several entries inherits; every such slot
has one phi. -/
theorem Code.phis_of_graph {code : Code} {g : Graph} (hg : code.graph = .ok g) :
    g.violation? = none ∧
    ∃ all blocks a, code.blocks = .ok all ∧ blocks = Block.reachable all code.size ∧
      (Assembly.ofBlocks blocks).propagate code.size blocks = .ok a ∧
      a.joinBlocks blocks a.graph = .ok g ∧
      (∀ {p : NodeId}, g.op? p = some .phi → ∃ b ∈ blocks, b.start ≠ 0 ∧
        2 ≤ Block.entries blocks b ∧ ∃ f s n, a.fragments[b.start]? = some f ∧
          f.entry.slot s = some n ∧ g.op? n = some .input ∧ a.Chooses blocks g b f s n p) ∧
      ∀ {b : Block} {f : Fragment} {s : Slot} {n : NodeId}, b ∈ blocks →
        2 ≤ Block.entries blocks b → a.fragments[b.start]? = some f → f.entry.slot s = some n →
          ∃! p, a.Chooses blocks g b f s n p := by
  obtain ⟨all, a, hall, hprop, hjoin⟩ := Code.parts_of_graph hg
  obtain ⟨t, hblocks, rfl⟩ := Translation.exists_of_parts hall hprop hjoin
  rw [← hblocks] at hprop hjoin
  have honce : t.parts.graph.UsedOnce g :=
    Assembly.usedOnce_joinBlocks t.assembled t.layout (fun _ hb => hb)
      ⟨t.assembled.consistent, Nat.le_refl _, rfl, rfl,
        fun hp hlt => absurd hlt (Nat.not_lt.mpr hp)⟩ hjoin
  refine ⟨t.rewrites.violation?_eq_none t, all, t.blocks, t.parts, hall, hblocks, hprop,
    hjoin, ?_, ?_⟩
  · intro p hp
    obtain ⟨b, f, s, n, sources, hf, hfeeds, hd⟩ := t.decides_of_phi hp
    have hlen := hfeeds.sources.length_eq
    rw [t.layout.length_preds hf.mem] at hlen
    exact ⟨b, hf.mem, (hf.supply hfeeds.needs).1, hlen ▸ hd.several, f, s, n, hf.table,
      hfeeds.needs, t.extends_parts.op_some (hf.models.op_of_slot hfeeds.needs),
      Translation.chooses_of_decides hf hfeeds hd (t.outputs_of_phi honce hp)⟩
  · intro b f s n hb hentries hfrag hs
    have hf : t.Has b f := ⟨hb, hfrag⟩
    obtain ⟨-, sources, hfeeds, hsupplied⟩ := hf.supply hs
    have hlen := hfeeds.sources.length_eq
    rw [t.layout.length_preds hb] at hlen
    cases hsupplied with
    | direct only _ =>
      rw [only, List.length_singleton] at hlen
      omega
    | @phi p hd =>
      have hchooses := Translation.chooses_of_decides hf hfeeds hd (t.outputs_of_phi honce hd.op)
      refine ⟨p, hchooses, fun q hq => ?_⟩
      have heq := hq.input.symm.trans hchooses.input
      simpa [Edge.value] using heq

/-- Returns seven, after a branch to the instruction that follows it. -/
def Code.fork : Code := #[.push (.int 7), .arg 0, .branch 3, .ret]

/-- Both ways out of a branch lead to one block, which has a phi for the operand that it returns. -/
theorem Code.phis_of_graph_fork :
    ∃ (g : Graph) (all blocks : List Block) (a : Assembly), Code.fork.graph = .ok g ∧
      g.violation? = none ∧ Code.fork.blocks = .ok all ∧
      blocks = Block.reachable all Code.fork.size ∧
      (Assembly.ofBlocks blocks).propagate Code.fork.size blocks = .ok a ∧
      a.joinBlocks blocks a.graph = .ok g ∧
      ∃ b ∈ blocks, ∃ f s n, b.start ≠ 0 ∧ 2 ≤ Block.entries blocks b ∧
        a.fragments[b.start]? = some f ∧ f.entry.slot s = some n ∧
        a.Chooses blocks g b f s n 8 ∧ ∃! p, a.Chooses blocks g b f s n p := by
  obtain ⟨g, hg⟩ : ∃ g, Code.fork.graph = .ok g := Code.exists_graph (by decide +kernel)
  have hop : Code.fork.graph.toOption.all (fun g => g.op? 8 == some .phi) = true := by
    decide +kernel
  rw [hg] at hop
  obtain ⟨hrules, all, blocks, a, hall, hblocks, hprop, hjoin, hphis, hslots⟩ :=
    Code.phis_of_graph hg
  obtain ⟨b, hb, hstart, hentries, f, s, n, hf, hs, -, hchooses⟩ := hphis (beq_iff_eq.mp hop)
  exact ⟨g, all, blocks, a, hg, hrules, hall, hblocks, hprop, hjoin, b, hb, f, s, n, hstart,
    hentries, hf, hs, hchooses, hslots hb hentries hf hs⟩

end StackJit
