import StackJit.Proofs.Reached

/-!
# Safepoint coverage

Placing safepoints leaves no trace, and puts a safepoint onto every control edge into the finish
node or into a region where several control edges meet (`Graph.Safepointed`). The passes that follow
keep that: what they lead control past is no safepoint, so it did not stand before such a node.

Every cycle of control has a safepoint then. Along a cycle without one no node has two entries, so
control that is on the cycle has come from the cycle; but it has come from the start node, which has
no entry (`Graph.Rewrites.safepoint_of_cycle`).

Main statement: `Code.safepoints_cover`.
-/

namespace StackJit

theorem Swept.graph_andThen (r : Swept) (f : Graph → Swept) :
    (r.andThen f).graph = (f r.graph).graph := rfl

namespace Graph

variable {g c d d' : Graph} {n x y : NodeId} {l : List NodeId}

/-! ## Walks -/

/-- Control edges lead from `x` to a node; the nodes that they leave are those of the list. -/
inductive Walk (g : Graph) (x : NodeId) : List NodeId → NodeId → Prop where
  | edge {i : EdgeId} {e : Edge} (he : g.edge? i = some e) (hctl : e.isControl = true)
      (hsource : e.source = x) : Walk g x [x] e.target
  | step {l : List NodeId} {y : NodeId} {i : EdgeId} {e : Edge} (h : Walk g x l y)
      (he : g.edge? i = some e) (hctl : e.isControl = true) (hsource : e.source = y) :
      Walk g x (l ++ [y]) e.target

namespace Walk

theorem head_mem (h : g.Walk x l y) : x ∈ l := by
  induction h with
  | edge => exact List.mem_singleton_self x
  | step _ _ _ _ ih => exact List.mem_append_left _ ih

/-- A walk comes to its end from a node that it has left. -/
theorem exists_last (h : g.Walk x l y) :
    ∃ i e, g.edge? i = some e ∧ e.isControl = true ∧ e.source ∈ l ∧ e.target = y := by
  cases h with
  | edge he hctl hsource => exact ⟨_, _, he, hctl, by simp [hsource], rfl⟩
  | step _ he hctl hsource => exact ⟨_, _, he, hctl, by simp [hsource], rfl⟩

/-- A walk comes to each of its nodes but the first from a node that it has left. -/
theorem exists_enter (h : g.Walk x l y) (hn : n ∈ l) : n = x ∨
    ∃ i e, g.edge? i = some e ∧ e.isControl = true ∧ e.source ∈ l ∧ e.target = n := by
  induction h with
  | edge => exact .inl (List.mem_singleton.mp hn)
  | step h _ _ _ ih =>
    rw [List.mem_append, List.mem_singleton] at hn
    have hlast : n ∈ _ ∨ ∃ i e, g.edge? i = some e ∧ e.isControl = true ∧ e.source ∈ _ ∧
        e.target = n :=
      hn.imp_right fun heq => heq ▸ h.exists_last
    rcases hlast.elim ih .inr with heq | ⟨i, e, he, hctl, hsource, htarget⟩
    · exact .inl heq
    · exact .inr ⟨i, e, he, hctl, List.mem_append_left _ hsource, htarget⟩

/-- A walk leaves each of its nodes for the next one, and the last of them for its end. -/
theorem exists_exit (h : g.Walk x l y) (hn : n ∈ l) : ∃ i e, g.edge? i = some e ∧
    e.isControl = true ∧ e.source = n ∧ (e.target ∈ l ∨ e.target = y) := by
  induction h with
  | edge he hctl hsource =>
    exact ⟨_, _, he, hctl, hsource.trans (List.mem_singleton.mp hn).symm, .inr rfl⟩
  | step _ he hctl hsource ih =>
    rw [List.mem_append, List.mem_singleton] at hn
    rcases hn with hn | rfl
    · obtain ⟨i, e, he, hctl, hsource, htarget⟩ := ih hn
      refine ⟨i, e, he, hctl, hsource, .inl ?_⟩
      rw [List.mem_append, List.mem_singleton]
      exact htarget
    · exact ⟨_, _, he, hctl, hsource, .inr rfl⟩

end Walk

/-! ## What placing safepoints achieves -/

/-- Control edges meet at the finish node, and at a region with several entries. -/
def Meets (g : Graph) (y : NodeId) : Prop :=
  y = g.finish ∨ g.op? y = some .region ∧ 1 < (g.enters y).length

/-- Control comes to `y` from safepoints only. -/
def Covered (c : Graph) (y : NodeId) : Prop :=
  ∀ ⦃i : EdgeId⦄ ⦃e : Edge⦄, c.edge? i = some e → e.isControl = true → e.target = y →
    c.op? e.source = some .safepoint

/-- The traces of `g` are gone from `c`, and there are safepoints where control edges meet. -/
structure Safepointed (g c : Graph) : Prop where
  traces : ∀ {n : NodeId}, g.op? n = some .trace → c.Gone n
  entries : ∀ {y : NodeId}, g.Meets y → c.Covered y

/-- A new node does not change the old ones. -/
theorem addSafepoint_keeps (c : Graph) (i : EdgeId) :
    (c.addSafepoint i).nodes.size = c.nodes.size + 1 ∧
      (∀ n < c.nodes.size, (c.addSafepoint i).op? n = c.op? n) ∧
      ∀ n, (c.addSafepoint i).isRemoved n = c.isRemoved n := by
  cases he : c.edge? i with
  | none =>
    have heq : c.addSafepoint i = c.addNode .safepoint [] := by
      rw [addSafepoint, interpose, edge?_addNode, he]
    rw [heq, numNodes_addNode]
    exact ⟨rfl, fun n hn => op?_congr ((label?_addNode c _ _ n).trans (if_neg (Nat.ne_of_lt hn))),
      isRemoved_addNode c _ _⟩
  | some e =>
    change (c.mount .safepoint [] i).nodes.size = c.nodes.size + 1 ∧
      (∀ n < c.nodes.size, (c.mount .safepoint [] i).op? n = c.op? n) ∧
      ∀ n, (c.mount .safepoint [] i).isRemoved n = c.isRemoved n
    exact ⟨numNodes_mount _ _ he,
      fun n hn => op?_congr ((label?_mount _ _ he n).trans (if_neg (Nat.ne_of_lt hn))),
      isRemoved_mount _ _ he⟩

theorem op?_addSafepoints (edges : List EdgeId) (hn : n < c.nodes.size) :
    (edges.foldl addSafepoint c).op? n = c.op? n := by
  induction edges generalizing c with
  | nil => rfl
  | cons i edges ih =>
    obtain ⟨hsize, hop, -⟩ := addSafepoint_keeps c i
    exact (ih (hsize ▸ Nat.lt_succ_of_lt hn)).trans (hop n hn)

theorem isRemoved_addSafepoints (edges : List EdgeId) (n : NodeId) :
    (edges.foldl addSafepoint c).isRemoved n = c.isRemoved n := by
  induction edges generalizing c with
  | nil => rfl
  | cons i edges ih => exact ih.trans ((addSafepoint_keeps c i).2.2 n)

/-- Control comes to an old node from a safepoint, or by an edge that got none. -/
theorem edge_of_addSafepoints {edges : List EdgeId} (hnodup : edges.Nodup)
    (hedges : ∀ i ∈ edges, ∃ e, c.edge? i = some e) {j : EdgeId} {e : Edge}
    (he : (edges.foldl addSafepoint c).edge? j = some e) (hctl : e.isControl = true)
    (htarget : e.target < c.nodes.size) :
    (edges.foldl addSafepoint c).op? e.source = some .safepoint ∨
      c.edge? j = some e ∧ j ∉ edges := by
  induction edges generalizing c with
  | nil => exact .inr ⟨he, List.not_mem_nil⟩
  | cons i edges ih =>
    obtain ⟨hi, hnodup⟩ := List.nodup_cons.mp hnodup
    obtain ⟨e₀, he₀⟩ := hedges i List.mem_cons_self
    have hedges' : ∀ k ∈ edges, ∃ e, (c.addSafepoint i).edge? k = some e := by
      intro k hk
      obtain ⟨e', he'⟩ := hedges k (List.mem_cons_of_mem i hk)
      exact ⟨e', edge?_mount .safepoint [] he₀ (fun heq => hi (heq ▸ hk)) he'⟩
    have hsize := (addSafepoint_keeps c i).1
    refine (ih hnodup hedges' he (hsize ▸ Nat.lt_succ_of_lt htarget)).elim .inl ?_
    rintro ⟨hj, hnot⟩
    have hmem : (j, e) ∈ (c.mount .safepoint [] i).controlEdges := mem_controlEdges.mpr ⟨hj, hctl⟩
    rw [controlEdges_mount .safepoint [] he₀, List.mem_append, List.mem_filter, bne_iff_ne] at hmem
    rcases hmem with ⟨hold, hne⟩ | hnew
    · refine .inr ⟨(mem_controlEdges.mp hold).1, fun hmem => ?_⟩
      exact (List.mem_cons.mp hmem).elim hne hnot
    · rw [List.mem_cons, List.mem_singleton] at hnew
      rcases hnew with heq | heq
      · -- the edge to the new safepoint
        rw [(Prod.mk.inj heq).2] at htarget
        exact absurd htarget (Nat.lt_irrefl _)
      · -- the edge from it
        left
        rw [(Prod.mk.inj heq).2]
        refine (op?_addSafepoints edges (hsize ▸ Nat.lt_succ_self _)).trans ?_
        change (c.mount .safepoint [] i).op? c.nodes.size = some .safepoint
        rw [op?_eq_label?, label?_mount .safepoint [] he₀, if_pos rfl]
        rfl

/-- Covering the entries of a node leaves none open there, and opens none elsewhere. -/
theorem covered_of_coverEntries? (hd : d.Consistent) (hy : y < d.nodes.size)
    (hd' : d.coverEntries? y = some d') :
    d'.Covered y ∧ ∀ z < d.nodes.size, d.Covered z → d'.Covered z := by
  obtain ⟨-, rfl⟩ := coverEntries?_eq_some_iff.mp hd'
  have hedges : ∀ i ∈ d.uncoveredEdges y, ∃ e, d.edge? i = some e := fun i hi =>
    ((mem_uncoveredEdges hd).mp hi).imp fun _ h => h.1
  have hnodup := nodup_uncoveredEdges hd y
  -- an edge that was there before keeps its source
  have hkept : ∀ {j : EdgeId} {e : Edge}, d.edge? j = some e → d.op? e.source = some .safepoint →
      ((d.uncoveredEdges y).foldl addSafepoint d).op? e.source = some .safepoint := by
    intro j e he hop
    rw [op?_addSafepoints _ (hd.ends he).1]
    exact hop
  constructor
  · intro j e he hctl htarget
    refine (edge_of_addSafepoints hnodup hedges he hctl (htarget ▸ hy)).elim id ?_
    rintro ⟨hj, hnot⟩
    refine hkept hj ?_
    by_contra hop
    exact hnot ((mem_uncoveredEdges hd).mpr ⟨e, hj, hctl, htarget, hop⟩)
  · intro z hz hcovered j e he hctl htarget
    refine (edge_of_addSafepoints hnodup hedges he hctl (htarget ▸ hz)).elim id ?_
    rintro ⟨hj, -⟩
    exact hkept hj (hcovered hj hctl htarget)

theorem covered_iff (hd : d.Consistent) : d.Covered y ↔ d.coverEntries? y = none := by
  rw [coverEntries?_eq_none_iff, List.eq_nil_iff_forall_not_mem]
  constructor
  · intro hcovered i hi
    obtain ⟨e, he, hctl, htarget, hop⟩ := (mem_uncoveredEdges hd).mp hi
    exact hop (hcovered he hctl htarget)
  · intro hnone i e he hctl htarget
    by_contra hop
    exact hnone i ((mem_uncoveredEdges hd).mpr ⟨e, he, hctl, htarget, hop⟩)

end Graph

namespace Graph.Rewrites

variable {code : Code} {g c d d' : Graph} {moves : Moves} {n x y : NodeId} {l : List NodeId}

theorem finish_eq (h : g.Rewrites c moves) : c.finish = g.finish :=
  congrArg (·.2.1) h.descends.marks

/-- Safepoints go onto all edges where control edges meet. -/
theorem mem_safepointTargets (h : g.Rewrites c moves) (t : Translation code g) (hy : g.Meets y) :
    y ∈ c.safepointTargets := by
  rcases hy with rfl | ⟨hop, hlen⟩
  · rw [← h.finish_eq]
    exact List.mem_cons_self
  · have hlive : ¬ c.Gone y := fun hgone =>
      absurd (h.threads.merges hop hgone) (Nat.not_le.mpr hlen)
    have hreach := h.mem_reachable_of_leads t (h.leads_old t hop (.inl rfl) hlive)
    have hop' := h.descends.op_some hop
    refine List.mem_cons_of_mem _ (List.mem_filter.mpr ⟨List.mem_filter.mpr ⟨hreach, ?_⟩, ?_⟩)
    · obtain ⟨node, hnode, hregion⟩ := Option.map_eq_some_iff.mp hop'
      rw [hnode, Option.any_some, hregion]
      rfl
    · rw [length_controlSources, h.threads.enters (op?_lt hop) hlive (by simp [hop])]
      exact decide_eq_true hlen

theorem covered_of_meets (h : g.Rewrites c moves) (t : Translation code g) (hy : g.Meets y) :
    c.coverTargets.graph.Covered y := by
  have htargets : ∀ {n : NodeId}, n ∈ c.safepointTargets → ∀ {d : Graph}, g.Rewrites d moves →
      n < d.nodes.size := by
    intro n hn d hd
    refine Nat.lt_of_lt_of_le ?_ hd.descends.size
    exact (h.op_of_safepointTargets t hn).elim op?_lt op?_lt
  rw [coverTargets]
  refine sweep_forall (P := (g.Rewrites · moves)) (Q := Covered) h ?_ ?_ y
    (h.mem_safepointTargets t hy)
  · intro d d' n hn hd hd'
    obtain ⟨hcovered, hkept⟩ :=
      covered_of_coverEntries? hd.descends.consistent (htargets hn hd) hd'
    exact ⟨(hd.coverEntries t (h.op_of_safepointTargets t hn) hd').1, hcovered,
      fun m hm => hkept m (htargets hm hd)⟩
  · intro d n _ hd hnone
    exact (covered_iff hd.descends.consistent).mpr hnone

theorem gone_coverTargets (hgone : c.Gone n) : c.coverTargets.graph.Gone n := by
  rw [coverTargets]
  refine sweep_induct (P := fun d => d.Gone n) hgone ?_
  intro d d' m _ hd hd'
  obtain ⟨-, rfl⟩ := coverEntries?_eq_some_iff.mp hd'
  rw [Gone, isRemoved_addSafepoints]
  exact hd

/-- Placing safepoints achieves its aim. -/
theorem safepointed (h : g.Rewrites c moves) (t : Translation code g) :
    g.Safepointed c.placeSafepoints.graph := by
  obtain ⟨hd, -, hgone⟩ := h.dropTraces t
  rw [Graph.placeSafepoints, Swept.graph_andThen]
  refine ⟨fun {n} hop => gone_coverTargets (hgone n ?_), fun hy => hd.covered_of_meets t hy⟩
  by_cases hlive : c.Gone n
  · exact .inl hlive
  · -- control leads to the trace, so the pass finds it
    have hreach := h.mem_reachable_of_leads t (h.leads_old t hop (.inr rfl) hlive)
    exact .inr (mem_nodesOf.mpr ⟨hreach, h.descends.op_some hop⟩)

/-! ## What the later passes keep -/

end Graph.Rewrites

/-- A node is removed that stands before no node where control edges meet. -/
theorem Graph.Safepointed.remove {g c c' : Graph} {n : NodeId} {new : List (EdgeId × Edge)}
    (h : g.Safepointed c) (hr : Removes c c' n)
    (hctl : c'.controlEdges = (c.controlEdges.filter fun p => avoids n p.2) ++ new)
    (hnew : ∀ p ∈ new, ¬ g.Meets p.2.target) : g.Safepointed c' where
  traces hop := hr.removed.mpr (.inl (h.traces hop))
  entries {y} hy i e he hcontrol htarget := by
    have hmem : (i, e) ∈ c'.controlEdges := mem_controlEdges.mpr ⟨he, hcontrol⟩
    rw [hctl] at hmem
    rcases List.mem_append.mp hmem with hmem | hmem
    · rw [hr.op]
      exact h.entries hy (mem_controlEdges.mp (List.mem_filter.mp hmem).1).1 hcontrol htarget
    · exact absurd (htarget ▸ hy) (hnew _ hmem)

namespace Graph.Rewrites

variable {code : Code} {g c d d' : Graph} {moves : Moves} {n x y : NodeId} {l : List NodeId}

theorem safepointed_dropDead (h : g.Rewrites d moves) (t : Translation code g)
    (hs : g.Safepointed d) (hd : d.dropDead? n = some d') : g.Safepointed d' := by
  cases h.dropped_of_dropDead? t hd with
  | none heq => exact heq ▸ hs
  | idle hop hidle hout heq =>
    have hlt := Nat.lt_of_lt_of_le (op?_lt hop) h.descends.size
    have hctl := controlEdges_eraseNode h.descends.consistent n
    rw [← List.append_nil (d.controlEdges.filter _)] at hctl
    exact heq ▸ hs.remove (removes_eraseNode hlt) hctl (by simp)
  | passed hop hpass hone hlive hphis heq =>
    have hlt := Nat.lt_of_lt_of_le (op?_lt hop) h.descends.size
    obtain ⟨i₀, j₀, e₀, e₁, new, -, hexit, -, -, -, hcases, hctl⟩ :=
      h.exists_ledPast t hop hpass hone hlive hphis
    refine heq ▸ hs.remove (removes_bypass hlt) hctl fun p hp hmeets => ?_
    -- the node would be a safepoint
    rw [hcases p hp] at hmeets
    obtain ⟨hj₀, hsource, hcontrol, -⟩ := Threads.exit_bypass h.descends hexit
    have hop' := hs.entries hmeets hj₀ hcontrol rfl
    rw [hsource, h.descends.op_some hop] at hop'
    rcases hpass with rfl | rfl | rfl <;> cases hop'

theorem safepointed_dropPhi (h : g.Rewrites d moves) (hop : g.op? n = some .phi)
    (hs : g.Safepointed d) (hd : d.dropPhi? n = some d') : g.Safepointed d' := by
  have hc := h.descends.consistent
  obtain ⟨-, m, ⟨hm, -, -⟩, rfl⟩ := dropPhi?_eq_some_iff.mp hd
  obtain ⟨e, he, rfl⟩ := List.mem_map.mp hm
  obtain ⟨-, i, hi⟩ := hc.mem_inputs.mp (List.mem_filter.mp he).1
  have hctl : (d.forward n e.source).controlEdges = _ := controlEdges_forward hc (hc.ends hi).1
  rw [← List.append_nil (d.controlEdges.filter _)] at hctl
  have hlt := Nat.lt_of_lt_of_le (op?_lt hop) h.descends.size
  exact hs.remove (removes_forward hlt e.source) hctl (by simp)

/-! ## Cycles -/

/-- Control leaves no node that it does not pass. -/
theorem isIdle_of_exit (h : g.Rewrites c moves) (t : Translation code g) {i : EdgeId} {e : Edge}
    (he : c.edge? i = some e) (hctl : e.isControl = true) {op : Op}
    (hop : g.op? e.source = some op) : op.isIdle = false := by
  by_contra hidle
  have hmem : e ∈ c.outputs e.source := h.descends.consistent.mem_outputs.mpr ⟨rfl, i, he⟩
  rw [h.not_control_of_idle t hop (Bool.not_eq_false _ ▸ hidle) hmem] at hctl
  cases hctl

/-- Control enters a node by one edge at most, unless control edges meet there. -/
theorem length_enters_le (h : g.Rewrites c moves) (t : Translation code g) (hn : n < c.nodes.size)
    (hlive : ¬ c.Gone n) (hidle : ∀ {op : Op}, g.op? n = some op → op.isIdle = false)
    (hmeets : ¬ g.Meets n) : (c.enters n).length ≤ 1 := by
  by_cases hold : n < g.nodes.size
  · obtain ⟨op, hop⟩ := op?_of_lt hold
    have hidle := hidle hop
    have hphi : op ≠ .phi := by
      rintro rfl
      cases hidle
    rw [h.threads.enters hold hlive (by simpa [hop] using hphi)]
    rcases t.ops hop with ⟨rfl, -⟩ | ⟨rfl, -⟩ | rfl | rfl | hpure | hchained
    · have hnone : (g.edgesInto 0).map (·.2) = [] := t.inputs_start
      simp [Graph.enters, List.map_eq_nil_iff.mp hnone]
    · exact absurd (.inl t.finish_eq.1.symm) hmeets
    · by_contra hlen
      exact hmeets (.inr ⟨hop, Nat.lt_of_not_le hlen⟩)
    · cases hidle
    · cases op <;> simp_all [Op.isPure, Op.isIdle]
    · obtain ⟨p, hp⟩ := t.enters_of_chained hop hchained
      simp [hp]
  · obtain ⟨p, hp⟩ := (h.threads.inserted (Nat.le_of_not_lt hold) hn).2.2.2
    simp [hp]

section Cycle

variable (h : g.Rewrites c moves) (t : Translation code g) (hs : g.Safepointed c)
  (hw : c.Walk x l x) (hfree : ∀ n ∈ l, c.op? n ≠ some .safepoint)

include hw in
/-- Control comes to each node of a cycle from the cycle. -/
theorem exists_enter_of_cycle (hn : n ∈ l) :
    ∃ i e, c.edge? i = some e ∧ e.isControl = true ∧ e.source ∈ l ∧ e.target = n := by
  rcases hw.exists_enter hn with rfl | henter
  · exact hw.exists_last
  · exact henter

include h t hw in
theorem isIdle_of_cycle (hn : n ∈ l) {op : Op} (hop : g.op? n = some op) : op.isIdle = false := by
  obtain ⟨i, e, he, hctl, rfl, -⟩ := hw.exists_exit hn
  exact h.isIdle_of_exit t he hctl hop

include h t hs hw hfree in
/-- A cycle without a safepoint is not entered from outside. -/
theorem source_mem_of_cycle {i : EdgeId} {e : Edge} (he : c.edge? i = some e)
    (hctl : e.isControl = true) (htarget : e.target ∈ l) : e.source ∈ l := by
  have hc := h.descends.consistent
  obtain ⟨j, e', he', hctl', hsource, heq⟩ := exists_enter_of_cycle hw htarget
  have hmeets : ¬ g.Meets e.target := fun hmeets =>
    hfree _ hsource (hs.entries hmeets he' hctl' heq)
  have hlen := h.length_enters_le t (hc.ends he).2 (h.descends.not_gone he).2
    (h.isIdle_of_cycle t hw htarget) hmeets
  have hmem := hc.mem_enters.mpr ⟨he, rfl, hctl⟩
  have hmem' := hc.mem_enters.mpr ⟨he', heq, hctl'⟩
  match henters : c.enters e.target, hlen with
  | [], _ =>
    rw [henters] at hmem
    cases hmem
  | [p], _ =>
    rw [henters, List.mem_singleton] at hmem hmem'
    rw [(Prod.mk.inj (hmem.trans hmem'.symm)).2]
    exact hsource

include h t hw hfree in
/-- A cycle of guards and safepoints has a safepoint, since guards lead to sends. -/
theorem exists_old_of_cycle : ∃ n ∈ l, n < g.nodes.size := by
  have hc := h.descends.consistent
  by_cases hx : x < g.nodes.size
  · exact ⟨x, hw.head_mem, hx⟩
  · obtain ⟨i, e, he, hctl, hsource, htarget⟩ := hw.exists_exit hw.head_mem
    have hmem : e.target ∈ l := htarget.elim id fun heq => heq ▸ hw.head_mem
    have hlt : x < c.nodes.size := hsource ▸ (hc.ends he).1
    obtain hop | hop := (h.threads.inserted (Nat.le_of_not_lt hx) hlt).2.1
    · exact absurd hop (hfree x hw.head_mem)
    · obtain ⟨s, hwatches⟩ := h.tidy.watching hop
      have hphi : c.op? e.target ≠ some .phi := by
        intro hphi
        have hidle := h.isIdle_of_cycle t hw hmem (h.op_old hphi (by simp) (by simp))
        cases hidle
      have heq := hwatches.next _ (hc.mem_exits.mpr ⟨he, hsource, hctl, hphi⟩)
      exact ⟨s, heq ▸ hmem, op?_lt (h.op_old hwatches.op (by simp) (by simp))⟩

include h t hs hw in
theorem safepoint_of_cycle : ∃ n ∈ l, c.op? n = some .safepoint := by
  by_contra hnone
  have hfree : ∀ n ∈ l, c.op? n ≠ some .safepoint := fun n hn hop => hnone ⟨n, hn, hop⟩
  -- control comes to the cycle from the start node, so this is on the cycle
  have hback : ∀ {n : NodeId}, c.Leads c.start n → n ∈ l → c.start ∈ l := by
    intro n hleads
    induction hleads with
    | refl => exact id
    | step _ he ih =>
      intro hn
      obtain ⟨hi, rfl, hctl, -⟩ := h.descends.consistent.mem_exits.mp he
      exact ih (h.source_mem_of_cycle t hs hw hfree hi hctl hn)
  have hstart : c.start ∉ l := by
    intro hmem
    obtain ⟨i, e, he, hctl, -, htarget⟩ := exists_enter_of_cycle hw hmem
    have hin : e ∈ c.inputs c.start := h.descends.consistent.mem_inputs.mpr ⟨htarget, i, he⟩
    rw [h.start_eq, t.start_eq.1, h.inputs_start t] at hin
    cases hin
  obtain ⟨n, hn, hold⟩ := h.exists_old_of_cycle t hw hfree
  obtain ⟨op, hop⟩ := op?_of_lt hold
  obtain ⟨i, e, he, hctl, hsource, -⟩ := hw.exists_exit hn
  have hcase : op = .region ∨ op.isChained = true := by
    have hidle := h.isIdle_of_cycle t hw hn hop
    rcases t.ops hop with ⟨rfl, -⟩ | ⟨rfl, -⟩ | hregion | rfl | hpure | hchained
    · rw [h.start_eq, t.start_eq.1] at hstart
      exact absurd hn hstart
    · exact absurd (hsource.trans t.finish_eq.1.symm) (h.tidy.final he)
    · exact .inl hregion
    · cases hidle
    · cases op <;> simp_all [Op.isPure, Op.isIdle]
    · exact .inr hchained
  have hlive : ¬ c.Gone n := hsource ▸ (h.descends.not_gone he).1
  exact hstart (hback (h.leads_old t hop hcase hlive) hn)

end Cycle

end Graph.Rewrites

/-- A graph that the passes can make of `g`, with safepoints where control edges meet. -/
def Graph.Instrumented (g c : Graph) : Prop := ∃ moves, g.Rewrites c moves ∧ g.Safepointed c

namespace Graph.Instrumented

variable {code : Code} {g c : Graph}

theorem dropDeadCode (h : g.Instrumented c) (t : Translation code g) :
    g.Instrumented c.dropDeadCode.graph := by
  refine sweep_induct (P := g.Instrumented) h ?_
  rintro d d' n - ⟨moves, hd, hs⟩ hd'
  exact ⟨moves, (hd.dropDead t hd').1, hd.safepointed_dropDead t hs hd'⟩

theorem dropPhis (h : g.Instrumented c) (t : Translation code g) :
    g.Instrumented c.dropPhis.graph := by
  obtain ⟨moves, hc, -⟩ := id h
  refine sweep_induct (P := g.Instrumented) h ?_
  rintro d d' n hn ⟨moves', hd, hs⟩ hd'
  have hop := hc.op_old (mem_nodesOf.mp hn).2 (by simp) (by simp)
  obtain ⟨⟨moves'', hrewrites⟩, -⟩ := hd.dropPhi t hop hd'
  exact ⟨moves'', hrewrites, hd.safepointed_dropPhi hop hs hd'⟩

end Graph.Instrumented

namespace Translation

variable {code : Code} {g : Graph}

/-- The passes leave safepoints where control edges meet, if they are to place any. -/
theorem instrumented_optimize (t : Translation code g) {o : CompileOptions}
    (ho : o.safepoints = true) (profile : Option Profile) :
    g.Instrumented (o.optimize profile g) := by
  have hplaced :
      g.Instrumented ((o.instrumentation profile).run g.dropPlaceholders.graph).run.graph := by
    obtain ⟨moves, h⟩ := t.rewritten_guarded o profile
    rw [o.run_instrumentation, if_pos ho, Schedule.runPasses_singleton]
    exact ⟨moves, (h.placeSafepoints t).1, h.safepointed t⟩
  refine Schedule.iterateFrom_induct (fun p hp c hc => ?_) hplaced 0 o.iterationLimit
  rcases List.mem_cons.mp hp with rfl | hp
  · exact hc.dropDeadCode t
  · rw [List.mem_singleton.mp hp]
    exact hc.dropPhis t

end Translation

/-- Where control edges meet in a rewritten graph, they meet in the graph of the method. -/
theorem Graph.Rewrites.meets_of_entry {code : Code} {g c : Graph} {moves : Moves}
    (h : g.Rewrites c moves) (t : Translation code g) {i : EdgeId} {e : Edge}
    (he : c.edge? i = some e) (hcase : e.target = c.finish ∨
      (∃ op, c.op? e.target = some op ∧ op.isRegion = true) ∧
        2 ≤ (c.controlSources e.target).length) : g.Meets e.target := by
  rcases hcase with hfinish | ⟨⟨op, hop, hregion⟩, hlen⟩
  · exact .inl (hfinish.trans h.finish_eq)
  · have hop' := h.op_old hop (by rintro rfl; cases hregion) (by rintro rfl; cases hregion)
    obtain rfl := t.region_of_isRegion hop' hregion
    rw [length_controlSources,
      h.threads.enters (op?_lt hop') (h.descends.not_gone he).2 (by simp [hop'])] at hlen
    exact .inr ⟨hop', hlen⟩

/-- Compiled code has no trace, a safepoint on each control edge into the finish node or into a
region with several control inputs, and a safepoint on every cycle of control and on every way from
the start node to the finish node. -/
theorem Code.safepoints_cover {code : Code} {g : Graph} (hg : code.graph = .ok g)
    {o : CompileOptions} (ho : o.safepoints = true) (profile : Option Profile) :
    ∃ c, code.compile o profile = .ok c ∧ c.nodesOf .trace = [] ∧
      (∀ {i : EdgeId} {e : Edge}, c.edge? i = some e → e.isControl = true →
        (e.target = c.finish ∨ (∃ op, c.op? e.target = some op ∧ op.isRegion = true) ∧
          2 ≤ (c.controlSources e.target).length) → c.op? e.source = some .safepoint) ∧
      (∀ {x : NodeId} {l : List NodeId}, c.Walk x l x → ∃ n ∈ l, c.op? n = some .safepoint) ∧
      ∀ {l : List NodeId}, c.Walk c.start l c.finish → ∃ n ∈ l, c.op? n = some .safepoint := by
  obtain ⟨t⟩ := Code.exists_translation hg
  obtain ⟨moves, h, hs⟩ := t.instrumented_optimize ho profile
  have hcompile := compile_of_graph hg o profile
  generalize o.optimize profile g = c at h hs hcompile
  refine ⟨c, hcompile, ?_, ?_, fun hw => h.safepoint_of_cycle t hs hw, ?_⟩
  · refine List.eq_nil_iff_forall_not_mem.mpr fun n hn => ?_
    obtain ⟨hreach, hop⟩ := Graph.mem_nodesOf.mp hn
    exact h.not_gone_of_reachable t hreach (hs.traces (h.op_old hop (by simp) (by simp)))
  · intro i e he hctl hcase
    exact hs.entries (h.meets_of_entry t he hcase) he hctl rfl
  · intro l hw
    obtain ⟨i, e, he, hctl, hsource, htarget⟩ := hw.exists_last
    exact ⟨e.source, hsource, hs.entries (h.meets_of_entry t he (.inl htarget)) he hctl rfl⟩

/-- Starts over as long as the argument counts as true. -/
def Code.spin : Code := #[.trace 1, .arg 0, .branch 0, .trace 2, .push .nil, .ret]

/-- A loop back to the entry of the method, and the way out of it. -/
theorem Code.safepoints_cover_spin :
    ∃ c, Code.spin.compile {} none = .ok c ∧ c.nodesOf .trace = [] ∧
      c.Walk 2 [2, 5, 11] 2 ∧ (∃ n ∈ [2, 5, 11], c.op? n = some .safepoint) ∧
      c.Walk c.start [0, 10, 2, 5, 9] c.finish ∧
      ∃ n ∈ [0, 10, 2, 5, 9], c.op? n = some .safepoint := by
  obtain ⟨g, hg⟩ : ∃ g, Code.spin.graph = .ok g := Code.exists_graph (by decide +kernel)
  obtain ⟨c, hc, htraces, -, hcycles, hways⟩ := Code.safepoints_cover hg (o := {}) rfl none
  have hfacts : (Code.spin.compile {} none).toOption.all (fun c =>
      c.start == 0 && c.finish == 1 && c.edge? 9 == some (.control 2 5) &&
        c.edge? 15 == some ⟨5, 11, .whenTrue, .control⟩ && c.edge? 16 == some (.control 11 2) &&
        c.edge? 13 == some (.control 0 10) && c.edge? 14 == some (.control 10 2) &&
        c.edge? 17 == some ⟨5, 9, .whenFalse, .control⟩ && c.edge? 12 == some (.control 9 1)) =
      true := by
    decide +kernel
  rw [hc] at hfacts
  simp only [Except.toOption, Option.all_some, Bool.and_eq_true, beq_iff_eq] at hfacts
  obtain ⟨⟨⟨⟨⟨⟨⟨⟨hstart, hfinish⟩, h₉⟩, h₁₅⟩, h₁₆⟩, h₁₃⟩, h₁₄⟩, h₁₇⟩, h₁₂⟩ := hfacts
  have hcycle : c.Walk 2 [2, 5, 11] 2 :=
    ((Graph.Walk.edge h₉ rfl rfl).step h₁₅ rfl rfl).step h₁₆ rfl rfl
  have hway : c.Walk c.start [0, 10, 2, 5, 9] c.finish := by
    rw [hstart, hfinish]
    exact ((((Graph.Walk.edge h₁₃ rfl rfl).step h₁₄ rfl rfl).step h₉ rfl rfl).step h₁₇ rfl rfl).step
      h₁₂ rfl rfl
  exact ⟨c, hc, htraces, hcycle, hcycles hcycle, hway, hways hway⟩

end StackJit
