import StackJit.Proofs.Build.Method
import StackJit.Proofs.Token

/-!
# The edges of a method's graph

How control runs through the graph of a method. A node is left by at most one edge in each role
(`Translation.exits_nodup`). The edges into the region of a block come from the ends of its
predecessors, in the order in which those are listed (`Translation.pred_of_position`), and the edges
into the finish node from the ends of the blocks without successors, in the order of the values that
those end the method with (`Translation.returned_of_position`).
-/

namespace StackJit

namespace Translation

open Assembly

variable {code : Code} {g : Graph} {t : Translation code g} {b c : Block} {f fb fc : Fragment}

/-! ## Nodes and edges -/

theorem extends_parts (t : Translation code g) : t.parts.graph.Extends Op.isOpen g :=
  t.joined.extends

theorem consistent (t : Translation code g) : g.Consistent :=
  t.extends_parts.consistent t.assembled.consistent

theorem typed (t : Translation code g) {i : EdgeId} {e : Edge} (he : g.edge? i = some e) :
    g.Typed e := by
  obtain ⟨es, hgrow, hes, -⟩ := t.joined.edges
  rcases hgrow.edge?_cases he with he | he
  · exact (t.assembled.chained.typed he).grow hgrow
  · exact (hes e he).1

/-- No node has been removed. -/
theorem whole (t : Translation code g) (n : NodeId) : g.isRemoved n = false := by
  obtain ⟨es, hgrow, -, -⟩ := t.joined.edges
  exact (hgrow.removed n).trans (t.assembled.whole n)

theorem start_eq (t : Translation code g) : g.start = 0 ∧ g.op? 0 = some .start := by
  obtain ⟨es, hgrow, -, -⟩ := t.joined.edges
  exact ⟨hgrow.start.trans t.assembled.start.1, hgrow.op_some t.assembled.start.2⟩

theorem finish_eq (t : Translation code g) : g.finish = 1 ∧ g.op? 1 = some .finish := by
  obtain ⟨es, hgrow, -, -⟩ := t.joined.edges
  exact ⟨hgrow.finish.trans t.assembled.finish.1, hgrow.op_some t.assembled.finish.2.1⟩

theorem root_eq (t : Translation code g) : g.root = 0 := by
  obtain ⟨es, hgrow, -, -⟩ := t.joined.edges
  exact hgrow.root.trans t.assembled.root

/-- Every phi decides a slot of some block. -/
theorem decides_of_phi (t : Translation code g) {p : NodeId} (hp : g.op? p = some .phi) :
    ∃ b f s n sources, t.Has b f ∧ Feeds t.parts.table b f s n sources ∧
      g.Decides f.region n sources p := by
  have hge : t.parts.graph.nodes.size ≤ p := by
    by_contra hlt
    rw [t.extends_parts.op_of_lt (Nat.lt_of_not_le hlt)] at hp
    rcases t.assembled.ops hp with ⟨-, h⟩ | ⟨-, h⟩ | h | h | h <;> cases h
  obtain ⟨-, b, hb, -, f, hf, s, n, sources, hfeeds, hd⟩ := t.joined.phis hge hp
  exact ⟨b, f, s, n, sources, ⟨hb, hf⟩, hfeeds, hd⟩

/-- The operations of a method's graph. -/
theorem ops (t : Translation code g) {n : NodeId} {op : Op} (hop : g.op? n = some op) :
    (n = 0 ∧ op = .start) ∨ (n = 1 ∧ op = .finish) ∨ op = .region ∨ op = .phi ∨
      op.isPure = true ∨ op.isChained = true := by
  by_cases hlt : n < t.parts.graph.nodes.size
  · rw [t.extends_parts.op_of_lt hlt] at hop
    rcases t.assembled.ops hop with h | h | h | h | h
    · exact .inl h
    · exact .inr (.inl h)
    · exact .inr (.inr (.inl h))
    · exact .inr (.inr (.inr (.inr (.inl h))))
    · exact .inr (.inr (.inr (.inr (.inr h))))
  · exact .inr (.inr (.inr (.inl (t.joined.phis (Nat.le_of_not_lt hlt) hop).1)))

theorem Has.region_op (h : t.Has b f) : g.op? f.region = some .region :=
  t.extends_parts.op_some h.models.region

/-- Blocks with the same region, or with the same end, are the same. -/
theorem Has.eq_of_region (hb : t.Has b fb) (hc : t.Has c fc) (h : fb.region = fc.region) :
    b = c := by
  by_contra hne
  exact (t.assembled.apart hb.mem hc.mem hb.table hc.table hne).1 h

theorem Has.eq_of_controlEnd (hb : t.Has b fb) (hc : t.Has c fc)
    (h : fb.controlEnd = fc.controlEnd) : b = c := by
  by_contra hne
  exact (t.assembled.apart hb.mem hc.mem hb.table hc.table hne).2.1 h

/-- Every region is that of a block. -/
theorem has_of_region (t : Translation code g) {n : NodeId} (hop : g.op? n = some .region) :
    ∃ b f, t.Has b f ∧ f.region = n := by
  have hlt : n < t.parts.graph.nodes.size := by
    by_contra hge
    cases (t.joined.phis (Nat.le_of_not_lt hge) hop).1
  rw [t.extends_parts.op_of_lt hlt] at hop
  obtain ⟨-, b, hb, f, hf, hn⟩ := t.assembled.region hop
  exact ⟨b, f, ⟨hb, hf⟩, hn⟩

theorem Has.regionAt (h : t.Has b f) : t.parts.regionAt b.start = f.region := by
  rw [Assembly.regionAt, h.table]
  rfl

theorem Has.spine (h : t.Has b f) :
    t.parts.spine b = t.parts.arriving b f ++ t.parts.leaving b f := by
  rw [Assembly.spine, h.table]

/-- The edges that lead from block to block, from the start node and to the finish node. -/
def spine (t : Translation code g) : List Edge := t.blocks.flatMap t.parts.spine

/-- The edges into a region are those of the blocks that lead there. -/
theorem inputs_of_spine (t : Translation code g) {n : NodeId} {op : Op}
    (hop : t.parts.graph.op? n = some op) (hphi : op ≠ .phi) (hinput : op ≠ .input) :
    g.inputs n = t.parts.graph.inputs n ++ t.spine.filter (·.target == n) := by
  obtain ⟨es, hgrow, -, hspine⟩ := t.joined.edges
  rw [hgrow.inputs t.assembled.consistent, spine, ← hspine, List.filter_filter]
  congr 1
  refine List.filter_congr fun e _ => ?_
  by_cases htarget : e.target = n
  · have : g.isSpine e = true :=
      Graph.isSpine_of_op (htarget ▸ hgrow.op_some hop) hphi hinput
    rw [this, Bool.and_true]
  · simp [htarget]

/-- The edges by which control leaves a node, the first of them from within its block. -/
theorem exits_of_spine (t : Translation code g) (n : NodeId) :
    (g.exits n).map (·.2) = (t.parts.graph.exits n).map (·.2) ++
      t.spine.filter fun e => e.source == n && e.isControl := by
  obtain ⟨es, hgrow, hes, hspine⟩ := t.joined.edges
  rw [hgrow.exits t.assembled.consistent, List.map_append, spine, ← hspine, List.filter_filter,
    Graph.filter_stamp fun e => e.source == n && (e.isControl && !g.hasOp e.target .phi)]
  congr 1
  refine List.filter_congr fun e he => ?_
  cases hctl : e.isControl with
  | false => simp
  | true =>
    have hinput : g.hasOp e.target .input = false := by
      rw [Graph.hasOp, beq_eq_false_iff_ne]
      exact (hes e he).1.not_input hctl
    simp [Graph.isSpine, hinput]

/-! ## Leaving a node -/

theorem source_arriving {e : Edge} (he : e ∈ t.parts.arriving b f) :
    e.source = 0 := by
  unfold arriving at he
  split at he
  · rw [List.mem_singleton.mp he]
    exact t.assembled.start.1
  · cases he

theorem source_leaving {e : Edge} (he : e ∈ t.parts.leaving b f)
    (hctl : e.isControl = true) : e.source = f.controlEnd := by
  unfold leaving at he
  split at he
  · rcases List.mem_cons.mp he with rfl | he
    · rfl
    · obtain ⟨n, -, rfl⟩ := List.mem_map.mp he
      cases hctl
  · rw [List.mem_singleton.mp he]
    rfl
  · rcases List.mem_cons.mp he with rfl | he
    · rfl
    · rw [List.mem_singleton.mp he]
  · cases he

theorem Has.controlEnd_ne_start (h : t.Has b f) : f.controlEnd ≠ 0 := by
  have hregion : f.region ≠ 0 := by
    intro hzero
    have hop := h.models.region
    rw [hzero, t.assembled.start.2] at hop
    cases hop
  have hle := h.models.sound.control.1
  exact Nat.ne_of_gt (Nat.lt_of_lt_of_le (Nat.pos_of_ne_zero hregion) hle)

theorem flatMap_eq_of_forall_ne {α β : Type} {l : List α} {a : α} {F : α → List β}
    (hnodup : l.Nodup) (ha : a ∈ l) (hF : ∀ c ∈ l, c ≠ a → F c = []) : l.flatMap F = F a := by
  induction l with
  | nil => cases ha
  | cons c l ih =>
    obtain ⟨hc, hnodup⟩ := List.nodup_cons.mp hnodup
    rw [List.flatMap_cons]
    rcases List.mem_cons.mp ha with rfl | ha
    · have hrest : l.flatMap F = [] := by
        refine List.flatMap_eq_nil_iff.mpr fun c' hc' => hF c' (List.mem_cons_of_mem _ hc') ?_
        rintro rfl
        exact hc hc'
      rw [hrest, List.append_nil]
    · have hne : c ≠ a := by
        rintro rfl
        exact hc ha
      rw [hF c List.mem_cons_self hne, List.nil_append,
        ih hnodup ha fun c' hc' => hF c' (List.mem_cons_of_mem c hc')]

theorem nodup_blocks (t : Translation code g) : t.blocks.Nodup := t.layout.nodup.of_map

/-- Within its block, control is left where the block ends. -/
theorem exits_parts_of_end (h : t.Has b f) : t.parts.graph.exits f.controlEnd = [] :=
  t.assembled.chained.pending (.inr ⟨b, h.mem, f, h.table, rfl⟩)

/-- Control leaves the end of a block by the edges to its successors. -/
theorem Has.exits_end (h : t.Has b f) :
    (g.exits f.controlEnd).map (·.2) = (t.parts.leaving b f).filter (·.isControl) := by
  rw [t.exits_of_spine, exits_parts_of_end h, List.map_nil, List.nil_append, Translation.spine,
    List.filter_flatMap, flatMap_eq_of_forall_ne t.nodup_blocks h.mem fun c hc hne => ?_]
  · rw [h.spine, List.filter_append, List.filter_eq_nil_iff.mpr fun e he => ?_, List.nil_append]
    · refine List.filter_congr fun e he => ?_
      cases hctl : e.isControl with
      | false => simp
      | true => simp [source_leaving he hctl]
    · rw [source_arriving he]
      simp [Ne.symm h.controlEnd_ne_start]
  · obtain ⟨fc, hfc⟩ := t.exists_has hc
    rw [hfc.spine]
    refine List.filter_eq_nil_iff.mpr fun e he htrue => ?_
    rw [Bool.and_eq_true, beq_iff_eq] at htrue
    rcases List.mem_append.mp he with he | he
    · rw [source_arriving he] at htrue
      exact h.controlEnd_ne_start htrue.1.symm
    · rw [source_leaving he htrue.2] at htrue
      exact hne (hfc.eq_of_controlEnd h htrue.1)

/-- Control goes from the start node to the first block. -/
theorem Has.exits_start (h : t.Has b f) (hstart : b.start = 0) :
    (g.exits 0).map (·.2) = [.control 0 f.region] := by
  have hpending : t.parts.graph.exits 0 = [] :=
    t.assembled.chained.pending (.inl t.assembled.start.1.symm)
  rw [t.exits_of_spine, hpending, List.map_nil, List.nil_append, Translation.spine,
    List.filter_flatMap, flatMap_eq_of_forall_ne t.nodup_blocks h.mem fun c hc hne => ?_]
  · have hnone : (t.parts.leaving b f).filter (fun e => e.source == 0 && e.isControl) = [] := by
      refine List.filter_eq_nil_iff.mpr fun e he htrue => ?_
      rw [Bool.and_eq_true, beq_iff_eq] at htrue
      rw [source_leaving he htrue.2] at htrue
      exact h.controlEnd_ne_start htrue.1
    rw [h.spine, List.filter_append, hnone, List.append_nil, arriving, if_pos hstart,
      t.assembled.start.1]
    rfl
  · obtain ⟨fc, hfc⟩ := t.exists_has hc
    have hcs : c.start ≠ 0 := fun hzero =>
      hne (t.layout.eq_of_start hc h.mem (hzero.trans hstart.symm))
    rw [hfc.spine, arriving, if_neg hcs, List.nil_append]
    refine List.filter_eq_nil_iff.mpr fun e he htrue => ?_
    rw [Bool.and_eq_true, beq_iff_eq] at htrue
    rw [source_leaving he htrue.2] at htrue
    exact hfc.controlEnd_ne_start htrue.1

theorem source_spine {e : Edge} (he : e ∈ t.spine) (hctl : e.isControl = true) :
    e.source = 0 ∨ ∃ b f, t.Has b f ∧ f.controlEnd = e.source := by
  obtain ⟨b, hb, he⟩ := List.mem_flatMap.mp he
  obtain ⟨f, hf⟩ := t.exists_has hb
  rw [hf.spine] at he
  rcases List.mem_append.mp he with he | he
  · exact .inl (source_arriving he)
  · exact .inr ⟨b, f, hf, (source_leaving he hctl).symm⟩

/-- Control leaves every node that is not the end of a block by one edge. -/
theorem exits_cases (t : Translation code g) {x : NodeId} {op : Op} (hop : g.op? x = some op)
    (hleft : op.isLeft = true) :
    x = 0 ∨ (∃ b f, t.Has b f ∧ f.controlEnd = x) ∨
      ∃ e : Edge, (g.exits x).map (·.2) = [e] ∧ e.output = .control := by
  by_cases hend : x = 0 ∨ ∃ b f, t.Has b f ∧ f.controlEnd = x
  · exact hend.imp_right .inl
  · refine .inr (.inr ?_)
    have hlt : x < t.parts.graph.nodes.size := by
      by_contra hge
      rw [(t.joined.phis (Nat.le_of_not_lt hge) hop).1] at hleft
      cases hleft
    rw [t.extends_parts.op_of_lt hlt] at hop
    obtain ⟨p, hp, hout⟩ := t.assembled.chained.left hop hleft fun h => by
      rcases h with h | ⟨b, hb, f, hf, hx⟩
      · exact hend (.inl (h.trans t.assembled.start.1))
      · exact hend (.inr ⟨b, f, ⟨hb, hf⟩, hx⟩)
    refine ⟨p.2, ?_, hout⟩
    rw [t.exits_of_spine, hp, List.filter_eq_nil_iff.mpr fun e he htrue => ?_]
    · rfl
    · rw [Bool.and_eq_true, beq_iff_eq] at htrue
      rw [← htrue.1] at hend
      exact hend (source_spine he htrue.2)

theorem exits_of_not_left (t : Translation code g) {x : NodeId} {op : Op} (hop : g.op? x = some op)
    (hleft : op.isLeft = false) : g.exits x = [] := by
  refine List.eq_nil_iff_forall_not_mem.mpr fun p hp => ?_
  obtain ⟨he, rfl, hctl, hphi⟩ := t.consistent.mem_exits.mp hp
  have htyped := t.typed he
  have hin := htyped.control_input hctl
  obtain ⟨s, u, hs, hu, hallow⟩ := htyped
  obtain rfl : s = op := Option.some.inj (hs.symm.trans hop)
  have hu' : u ≠ .phi := fun h => hphi (h ▸ hu)
  rw [hin] at hallow
  cases hout : p.2.output <;> rw [hout] at hallow <;>
    cases s <;> simp_all [Op.allows, Op.isLeft]

theorem nodup_leaving (a : Assembly) (b : Block) (f : Fragment) :
    (((a.leaving b f).filter (·.isControl)).map (·.output)).Nodup := by
  unfold leaving
  split
  · have hvalues : (f.latest.toList.map fun n => Edge.value n a.graph.finish .value).filter
        (·.isControl) = [] := by
      refine List.filter_eq_nil_iff.mpr fun e he => ?_
      obtain ⟨n, -, rfl⟩ := List.mem_map.mp he
      simp [Edge.value, Edge.isControl]
    rw [List.filter_cons_of_pos rfl, hvalues]
    simp
  · simp [List.filter, Edge.control, Edge.isControl]
  · simp [List.filter, Edge.isControl]
  · simp

/-- Control leaves a node by at most one edge in each role. -/
theorem exits_nodup (t : Translation code g) (x : NodeId) :
    ((g.exits x).map (·.2.output)).Nodup := by
  have hmap : (g.exits x).map (·.2.output) = ((g.exits x).map (·.2)).map (·.output) := by
    rw [List.map_map]
    rfl
  rw [hmap]
  by_cases hlt : x < g.nodes.size
  · obtain ⟨op, hop⟩ := Graph.op?_of_lt hlt
    cases hleft : op.isLeft with
    | false => simp [t.exits_of_not_left hop hleft]
    | true =>
      rcases t.exits_cases hop hleft with rfl | ⟨b, f, h, rfl⟩ | ⟨e, he, -⟩
      · by_cases hpos : 0 < code.size
        · obtain ⟨b, hb, hstart⟩ := t.layout.entry hpos
          obtain ⟨f, hf⟩ := t.exists_has hb
          simp [hf.exits_start hstart]
        · have hblocks : t.blocks = [] := List.eq_nil_iff_forall_not_mem.mpr fun b hb =>
            hpos (Nat.zero_lt_of_lt (t.layout.start_lt hb))
          have hpending : t.parts.graph.exits 0 = [] :=
            t.assembled.chained.pending (.inl t.assembled.start.1.symm)
          simp [t.exits_of_spine, hpending, Translation.spine, hblocks]
      · rw [h.exits_end]
        exact nodup_leaving _ _ _
      · simp [he]
  · simp [t.consistent.exits_of_ge (Nat.le_of_not_lt hlt)]

/-! ## Entering a block -/

theorem forall₂_flatMap {α β γ : Type} {P : β → γ → Prop} {l : List α} {F : α → List β}
    {G : α → List γ} (h : ∀ a ∈ l, List.Forall₂ P (F a) (G a)) :
    List.Forall₂ P (l.flatMap F) (l.flatMap G) := by
  induction l with
  | nil => exact .nil
  | cons a l ih =>
    rw [List.flatMap_cons, List.flatMap_cons]
    exact List.rel_append (h a List.mem_cons_self)
      (ih fun a' ha' => h a' (List.mem_cons_of_mem a ha'))

theorem map_enters (g : Graph) (n : NodeId) :
    (g.enters n).map (·.2) = (g.inputs n).filter (·.isControl) := by
  rw [Graph.enters, Graph.inputs, List.filter_map]
  rfl

theorem length_succs_le (hb : b ∈ t.blocks) : b.succs.length ≤ 2 := by
  rcases (t.layout.fits b hb).succs_cases with hs | ⟨s, hs⟩ | ⟨s, u, -, hs, -⟩ <;> simp [hs]

theorem Has.regionAt_eq_iff (hb : b ∈ t.blocks) (hc : t.Has c fc) {s : Nat} (hs : s ∈ b.succs) :
    t.parts.regionAt s = fc.region ↔ s = c.start := by
  obtain ⟨d, hd, rfl⟩ := t.layout.succ b hb s hs
  obtain ⟨fd, hfd⟩ := t.exists_has hd
  rw [hfd.regionAt]
  constructor
  · intro heq
    rw [hfd.eq_of_region hc heq]
  · intro heq
    obtain rfl := t.layout.eq_of_start hd hc.mem heq
    rw [hfd.unique hc]

theorem finish_ne_region (hc : t.Has c fc) : t.parts.graph.finish ≠ fc.region := by
  intro heq
  have hop := hc.models.region
  rw [← heq, t.assembled.finish.1, t.assembled.finish.2.1] at hop
  cases hop

/-- A block leads to another as often as it has it among its successors. -/
theorem leaving_to_region (hb : t.Has b fb) (hc : t.Has c fc) :
    ((t.parts.leaving b fb).filter (·.target == fc.region)).map (fun e => (e.isControl, e.source)) =
      List.replicate (b.succs.count c.start) (true, fb.controlEnd) := by
  have hiff : ∀ s ∈ b.succs, (t.parts.regionAt s == fc.region) = (s == c.start) := by
    intro s hs
    rw [Bool.eq_iff_iff, beq_iff_eq, beq_iff_eq]
    exact Has.regionAt_eq_iff hb.mem hc hs
  have hlen := length_succs_le hb.mem
  unfold leaving
  split
  · next hs =>
    have hnone : (Edge.control fb.controlEnd t.parts.graph.finish :: fb.latest.toList.map
        fun n => Edge.value n t.parts.graph.finish .value).filter (·.target == fc.region) = [] := by
      refine List.filter_eq_nil_iff.mpr fun e he => ?_
      have htarget : e.target = t.parts.graph.finish := by
        rcases List.mem_cons.mp he with rfl | he
        · rfl
        · obtain ⟨n, -, rfl⟩ := List.mem_map.mp he
          rfl
      simpa [htarget] using finish_ne_region hc
    rw [hnone, hs]
    rfl
  · next s hs =>
    rw [hs] at hiff ⊢
    have hs' := hiff s List.mem_cons_self
    cases hcase : s == c.start <;> rw [hcase] at hs' <;>
      simp [List.filter, List.count_cons, Edge.control, Edge.isControl, hs', hcase]
  · next s u hs =>
    rw [hs] at hiff ⊢
    have hs' := hiff s List.mem_cons_self
    have hu' := hiff u (List.mem_cons_of_mem s List.mem_cons_self)
    cases hcase : s == c.start <;> cases hcase' : u == c.start <;> rw [hcase] at hs' <;>
      rw [hcase'] at hu' <;>
        simp [List.filter, List.count_cons, Edge.isControl, hs', hu', hcase, hcase']
  · next h₀ h₁ h₂ =>
    exfalso
    rcases hs : b.succs with _ | ⟨s, _ | ⟨u, _ | ⟨w, rest⟩⟩⟩
    · exact h₀ hs
    · exact h₁ s hs
    · exact h₂ s u hs
    · rw [hs] at hlen
      simp at hlen

/-- Control enters a block from the ends of its predecessors, in their order. -/
theorem Has.inputs_region (hc : t.Has c fc) (hcs : c.start ≠ 0) :
    List.Forall₂ (fun p e => e.isControl = true ∧
      ∃ b fb, t.Has b fb ∧ b.start = p ∧ e.source = fb.controlEnd)
      c.preds (g.inputs fc.region) := by
  rw [t.inputs_of_spine hc.models.region (by simp) (by simp),
    (t.assembled.region hc.models.region).1, List.nil_append, Translation.spine,
    List.filter_flatMap, t.layout.preds c hc.mem]
  refine forall₂_flatMap fun b hb => ?_
  obtain ⟨fb, hfb⟩ := t.exists_has hb
  have harriving : (t.parts.arriving b fb).filter (·.target == fc.region) = [] := by
    refine List.filter_eq_nil_iff.mpr fun e he htarget => ?_
    unfold arriving at he
    split at he
    · next hstart =>
      rw [List.mem_singleton.mp he] at htarget
      rw [hfb.eq_of_region hc (beq_iff_eq.mp htarget)] at hstart
      exact hcs hstart
    · cases he
  have hleaving := leaving_to_region hfb hc
  rw [hfb.spine, List.filter_append, harriving, List.nil_append]
  generalize (t.parts.leaving b fb).filter (·.target == fc.region) = edges at hleaving
  have hlen : edges.length = b.succs.count c.start := by
    simpa using congrArg List.length hleaving
  refine List.forall₂_iff_get.mpr ⟨by simp [hlen], fun i hi hi' => ?_⟩
  have hget := congrArg (·[i]?) hleaving
  have hi'' : i < b.succs.count c.start := hlen ▸ hi'
  simp only [List.getElem?_map, List.getElem?_eq_getElem hi', Option.map_some,
    List.getElem?_replicate, hi'', if_true, Option.some.injEq, Prod.mk.injEq] at hget
  exact ⟨hget.1, b, fb, hfb, by simp, hget.2⟩

theorem Has.enters_region (hc : t.Has c fc) (hcs : c.start ≠ 0) :
    (g.enters fc.region).map (·.2) = g.inputs fc.region := by
  rw [map_enters]
  refine List.filter_eq_self.mpr fun e he => ?_
  obtain ⟨p, -, hctl, -⟩ := exists_left_of_forall₂ (hc.inputs_region hcs) he
  exact hctl

end Translation

theorem Graph.getElem?_of_position {g : Graph} {n : NodeId} {j : EdgeId} {l : Nat}
    (h : g.position? n j = some l) : ∃ e, (g.enters n)[l]? = some (j, e) := by
  obtain ⟨hlt, hj, -⟩ := List.findIdx?_eq_some_iff_getElem.mp h
  refine ⟨(g.enters n)[l].2, ?_⟩
  rw [List.getElem?_eq_getElem hlt, Option.some.injEq, ← beq_iff_eq.mp hj]

theorem Graph.exists_position {g : Graph} {n : NodeId} {j : EdgeId} {e : Edge}
    (h : (j, e) ∈ g.enters n) : ∃ l, g.position? n j = some l := by
  refine Option.isSome_iff_exists.mp ?_
  rw [position?, List.findIdx?_isSome, List.any_eq_true]
  exact ⟨(j, e), h, beq_self_eq_true j⟩

namespace Translation

variable {code : Code} {g : Graph} {t : Translation code g} {b c : Block} {f fb fc : Fragment}

/-- The position at which control enters a block tells the predecessor that it comes from. -/
theorem pred_of_position (hb : t.Has b fb) (hc : t.Has c fc) (hcs : c.start ≠ 0) {j : EdgeId}
    {e : Edge} {l : Nat} (he : g.edge? j = some e) (hsource : e.source = fb.controlEnd)
    (hl : g.position? fc.region j = some l) : c.preds[l]? = some b.start := by
  obtain ⟨e', hget⟩ := Graph.getElem?_of_position hl
  obtain ⟨he', -, -⟩ := t.consistent.mem_enters.mp (List.mem_of_getElem? hget)
  obtain rfl : e = e' := Option.some.inj (he.symm.trans he')
  have hinputs : (g.inputs fc.region)[l]? = some e := by
    rw [← hc.enters_region hcs, List.getElem?_map, hget]
    rfl
  obtain ⟨hl', hle⟩ := List.getElem?_eq_some_iff.mp hinputs
  have hall := hc.inputs_region hcs
  have hl'' : l < c.preds.length := hall.length_eq ▸ hl'
  obtain ⟨-, b', fb', hb', hstart, hend⟩ := (List.forall₂_iff_get.mp hall).2 l hl'' hl'
  rw [List.get_eq_getElem, hle, hsource] at hend
  obtain rfl := hb.eq_of_controlEnd hb' hend
  rw [List.getElem?_eq_getElem hl'', hstart]
  rfl

theorem Has.exists_exit (hb : t.Has b fb) {e : Edge} (he : e ∈ t.parts.leaving b fb)
    (hctl : e.isControl = true) : ∃ i, (i, e) ∈ g.exits fb.controlEnd := by
  have hmem : e ∈ (g.exits fb.controlEnd).map (·.2) := by
    rw [hb.exits_end]
    exact List.mem_filter.mpr ⟨he, hctl⟩
  obtain ⟨p, hp, rfl⟩ := List.mem_map.mp hmem
  exact ⟨p.1, hp⟩

theorem leaving_of_nil (hs : b.succs = []) :
    .control fb.controlEnd t.parts.graph.finish ∈ t.parts.leaving b fb := by
  simp [Assembly.leaving, hs]

theorem leaving_of_one {s : Nat} (hs : b.succs = [s]) :
    t.parts.leaving b fb = [.control fb.controlEnd (t.parts.regionAt s)] := by
  simp [Assembly.leaving, hs]

theorem leaving_of_two {s u : Nat} (hs : b.succs = [s, u]) :
    t.parts.leaving b fb =
      [⟨fb.controlEnd, t.parts.regionAt s, .whenTrue, .control⟩,
        ⟨fb.controlEnd, t.parts.regionAt u, .whenFalse, .control⟩] := by
  simp [Assembly.leaving, hs]

/-- Control leaves every node but a branch by one edge. -/
theorem exits_single (t : Translation code g) {x : NodeId} {op : Op} (hop : g.op? x = some op)
    (hleft : op.isLeft = true) (hstart : op ≠ .start) (hbranch : op ≠ .branch) :
    ∃ e : Edge, (g.exits x).map (·.2) = [e] ∧ e.output = .control := by
  rcases t.exits_cases hop hleft with rfl | ⟨b, fb, hb, rfl⟩ | h
  · rw [t.start_eq.2] at hop
    exact absurd (Option.some.inj hop).symm hstart
  · match hs : b.succs, length_succs_le hb.mem with
    | [], _ =>
      refine ⟨.control fb.controlEnd t.parts.graph.finish, ?_, rfl⟩
      have hvalues : (fb.latest.toList.map fun n => Edge.value n t.parts.graph.finish .value).filter
          (·.isControl) = [] := by
        refine List.filter_eq_nil_iff.mpr fun e he => ?_
        obtain ⟨n, -, rfl⟩ := List.mem_map.mp he
        simp [Edge.value, Edge.isControl]
      simp only [hb.exits_end, Assembly.leaving, hs]
      rw [List.filter_cons_of_pos rfl, hvalues]
    | [s], _ =>
      refine ⟨.control fb.controlEnd (t.parts.regionAt s), ?_, rfl⟩
      rw [hb.exits_end, leaving_of_one hs]
      rfl
    | [s, u], _ =>
      exfalso
      obtain ⟨i, hi⟩ := hb.exists_exit (leaving_of_two hs ▸ List.mem_cons_self) rfl
      obtain ⟨o, u, ho, -, hallow⟩ := t.typed (t.consistent.mem_exits.mp hi).1
      obtain rfl : o = op := Option.some.inj (ho.symm.trans hop)
      simp only [Op.allows, Bool.and_eq_true, beq_iff_eq] at hallow
      exact hbranch hallow.1
  · exact h

theorem exits_roles (t : Translation code g) {x : NodeId} {op : Op} (hop : g.op? x = some op)
    (hleft : op.isLeft = true) (hstart : op ≠ .start) (hbranch : op ≠ .branch) :
    (g.exits x).map (·.2.output) = [.control] := by
  obtain ⟨e, he, hout⟩ := t.exits_single hop hleft hstart hbranch
  rw [← hout, ← List.map_singleton, ← he, List.map_map]
  rfl

/-! ## Leaving the method -/

/-- What leads from a block to the finish node: control, and the value that it ends the
method with. -/
theorem spine_to_finish (hb : t.Has b fb) :
    (t.parts.spine b).filter (·.target == 1) =
      if b.succs = [] then
        .control fb.controlEnd 1 :: fb.latest.toList.map fun n => .value n 1 .value
      else [] := by
  have hfinish := t.assembled.finish.1
  have hregion : ∀ {c : Block} {fc : Fragment}, t.Has c fc → (fc.region == 1) = false := by
    intro c fc hc
    have hne := finish_ne_region hc
    rw [hfinish] at hne
    simpa using Ne.symm hne
  have harriving : (t.parts.arriving b fb).filter (·.target == 1) = [] := by
    unfold Assembly.arriving
    split
    · rw [List.filter_cons_of_neg (by simp [Edge.control, hregion hb])]
      rfl
    · rfl
  have hsucc : ∀ s ∈ b.succs, (t.parts.regionAt s == 1) = false := by
    intro s hs
    obtain ⟨c, hc, rfl⟩ := t.layout.succ b hb.mem s hs
    obtain ⟨fc, hfc⟩ := t.exists_has hc
    rw [hfc.regionAt]
    exact hregion hfc
  rw [hb.spine, List.filter_append, harriving, List.nil_append]
  unfold Assembly.leaving
  split
  · next hs =>
    rw [if_pos hs, hfinish]
    refine List.filter_eq_self.mpr fun e he => ?_
    rcases List.mem_cons.mp he with rfl | he
    · rfl
    · obtain ⟨n, -, rfl⟩ := List.mem_map.mp he
      rfl
  · next s hs => simp [List.filter, Edge.control, hs, hsucc s (by simp [hs])]
  · next s u hs => simp [List.filter, hs, hsucc s (by simp [hs]), hsucc u (by simp [hs])]
  · next hnil _ _ =>
    rw [if_neg hnil]
    rfl

/-- The edges into the finish node, block by block. -/
theorem inputs_one (t : Translation code g) :
    g.inputs 1 = t.blocks.flatMap fun b => (t.parts.spine b).filter (·.target == 1) := by
  rw [t.inputs_of_spine t.assembled.finish.2.1 (by simp) (by simp), t.assembled.finish.2.2,
    List.nil_append, Translation.spine, List.filter_flatMap]

/-- Control comes to the finish node from the ends of blocks, in the order of what they return. -/
theorem inputs_finish (t : Translation code g)
    (hreturns : ∀ b ∈ t.blocks, b.succs = [] → b.live.getLast? = some .ret) :
    List.Forall₂ (fun e m => ∃ b fb, t.Has b fb ∧ e.source = fb.controlEnd ∧
      ∃ rest, fb.exit.stack = m :: rest)
      ((g.enters 1).map (·.2)) (g.valueSources 1) := by
  rw [map_enters, Graph.valueSources, t.inputs_one, List.filter_flatMap, List.filter_flatMap,
    List.map_flatMap]
  refine forall₂_flatMap fun b hb => ?_
  obtain ⟨fb, hfb⟩ := t.exists_has hb
  rw [spine_to_finish hfb]
  split
  · next hs =>
    obtain ⟨n, rest, hstack, hlatest⟩ := hfb.models.returned (hreturns b hb hs)
    rw [hlatest]
    exact .cons ⟨b, fb, hfb, rfl, rest, hstack⟩ .nil
  · exact .nil

/-- The position at which control comes to the finish node tells the value that is returned. -/
theorem returned_of_position
    (hreturns : ∀ b ∈ t.blocks, b.succs = [] → b.live.getLast? = some .ret) (hb : t.Has b fb)
    {j : EdgeId} {e : Edge} {l : Nat} (he : g.edge? j = some e) (hsource : e.source = fb.controlEnd)
    (hl : g.position? 1 j = some l) :
    ∃ n rest, fb.exit.stack = n :: rest ∧ (g.valueSources 1)[l]? = some n := by
  obtain ⟨e', hget⟩ := Graph.getElem?_of_position hl
  obtain ⟨he', -, -⟩ := t.consistent.mem_enters.mp (List.mem_of_getElem? hget)
  obtain rfl : e = e' := Option.some.inj (he.symm.trans he')
  have henter : ((g.enters 1).map (·.2))[l]? = some e := by
    rw [List.getElem?_map, hget]
    rfl
  obtain ⟨hl', hle⟩ := List.getElem?_eq_some_iff.mp henter
  have hall := t.inputs_finish hreturns
  have hl'' : l < (g.valueSources 1).length := hall.length_eq ▸ hl'
  obtain ⟨b', fb', hb', hend, rest, hstack⟩ := (List.forall₂_iff_get.mp hall).2 l hl' hl''
  rw [List.get_eq_getElem, hle, hsource] at hend
  obtain rfl := hb.eq_of_controlEnd hb' hend
  obtain rfl := hb.unique hb'
  exact ⟨_, rest, hstack, List.getElem?_eq_getElem hl''⟩

end Translation

end StackJit
