import StackJit.Proofs.Guarding
import StackJit.Proofs.Insertion
import StackJit.Proofs.Rewrite.Detours

/-!
# Placing once is enough

Placing safepoints drops the traces that are found, and covers the entries of the finish node and of
the regions that are found and where control edges meet. None of this makes work for another run:
control is led past a trace between nodes that are found anyway (`Graph.Sheds`), and what is put in
is neither a trace nor a region (`Graph.Widens`). So another run finds only nodes that it has
settled. The same goes for guards, each of which settles the send that it is put before.

Main statement: `Graph.placing_idempotent`.
-/

namespace StackJit

namespace Graph

variable {g c d d' : Graph} {n m y : NodeId} {profile : Profile}

/-! ## Traces -/

/-- No edge has the node as an end. -/
def Isolated (g : Graph) (n : NodeId) : Prop :=
  ∀ ⦃i : EdgeId⦄ ⦃e : Edge⦄, g.edge? i = some e → avoids n e = true

/-- `c` is what is left of `g` after control has been led past some nodes, so an edge has both ends
among the nodes that are found in `g`, or none. -/
structure Sheds (g c : Graph) : Prop extends Prunes g c where
  consistent : c.Consistent
  ends : ∀ {i : EdgeId} {e : Edge}, c.edge? i = some e →
    (e.source ∈ g.reachable ↔ e.target ∈ g.reachable)

theorem edge_of_bypass_eraseNode (hd : d.Consistent) {i : EdgeId} {e : Edge}
    (he : ((d.bypass n).eraseNode n).edge? i = some e) : avoids n e = true ∧
      (d.edge? i = some e ∨ ∃ w ∈ d.ways n, e = w.1.past w.2) := by
  have hdetoured := detoured_bypass hd n
  obtain ⟨he, havoids⟩ := (edge?_eraseNode hdetoured.consistent).mp he
  exact ⟨avoids_iff.mpr havoids, hdetoured.edge he⟩

theorem Sheds.drop (h : g.Sheds d) (hn : n < d.nodes.size) :
    g.Sheds ((d.bypass n).eraseNode n) where
  toPrunes := h.remove (removes_bypass hn) ((marks_eraseNode _ n).trans (marks_bypass d n))
  consistent := (detoured_bypass h.consistent n).consistent.eraseNode n
  ends {i e} he := by
    obtain ⟨-, he | ⟨w, hw, rfl⟩⟩ := edge_of_bypass_eraseNode h.consistent he
    · exact h.ends he
    · -- both halves of the way meet at the node
      obtain ⟨⟨⟨j, hj⟩, -, hin⟩, ⟨k, hk⟩, hout, -⟩ := h.consistent.mem_ways.mp hw
      have henter := h.ends (mem_controlEdges.mp hj).1
      have hleave := h.ends (mem_controlEdges.mp hk).1
      rw [hin] at henter
      rw [hout] at hleave
      exact henter.trans hleave

theorem Isolated.drop (h : d.Isolated m) (hd : d.Consistent) :
    ((d.bypass n).eraseNode n).Isolated m := by
  intro i e he
  obtain ⟨-, he | ⟨w, hw, rfl⟩⟩ := edge_of_bypass_eraseNode hd he
  · exact h he
  · obtain ⟨⟨⟨j, hj⟩, -⟩, ⟨k, hk⟩, -⟩ := hd.mem_ways.mp hw
    have henter := avoids_iff.mp (h (mem_controlEdges.mp hj).1)
    have hleave := avoids_iff.mp (h (mem_controlEdges.mp hk).1)
    exact avoids_iff.mpr ⟨henter.1, hleave.2⟩

theorem sheds_dropTraces (hg : g.Consistent) : g.Sheds g.dropTraces.graph := by
  refine sweep_induct (P := g.Sheds) ⟨.refl g, hg, fun he => hg.mem_reachable_iff he⟩ ?_
  intro d d' n hn hd hd'
  obtain rfl := Option.some.inj hd'
  exact hd.drop (hd.size ▸ lt_of_mem_nodesOf hn)

theorem isolated_dropTraces (hg : g.Consistent) :
    ∀ n ∈ g.nodesOf .trace, g.dropTraces.graph.Isolated n := by
  refine sweep_forall (P := Consistent) (Q := Isolated) hg ?_ ?_
  · intro d d' n _ hd hd'
    obtain rfl := Option.some.inj hd'
    refine ⟨(detoured_bypass hd n).consistent.eraseNode n, ?_, fun m _ hm => hm.drop hd⟩
    exact fun i e he => (edge_of_bypass_eraseNode hd he).1
  · intro d n _ _ hnone
    cases hnone

/-- A trace that is still found would be the root. -/
theorem notMem_nodesOf_dropTraces (hg : g.Consistent) (hroot : g.root < g.nodes.size)
    (htrace : g.op? g.root ≠ some .trace) : n ∉ g.dropTraces.graph.nodesOf .trace := by
  have hsheds := sheds_dropTraces hg
  have hisolated := isolated_dropTraces hg
  intro hn
  obtain ⟨hreach, hop⟩ := mem_nodesOf.mp hn
  rw [hsheds.op] at hop
  -- what is found was found before, and is no trace
  suffices hfound : n ∈ g.reachable ∧ g.op? n ≠ some .trace from hfound.2 hop
  refine hsheds.consistent.reachable_induct (P := fun m => m ∈ g.reachable ∧ g.op? m ≠ some .trace)
    ?_ ?_ hreach
  · rw [hsheds.root]
    exact ⟨root_mem_reachable hroot, htrace⟩
  · intro i e he
    have hends := hsheds.ends he
    constructor
    · rintro ⟨hsource, -⟩
      refine ⟨hends.mp hsource, fun hop => ?_⟩
      have havoids := hisolated e.target (mem_nodesOf.mpr ⟨hends.mp hsource, hop⟩) he
      exact (avoids_iff.mp havoids).2 rfl
    · rintro ⟨htarget, -⟩
      refine ⟨hends.mpr htarget, fun hop => ?_⟩
      have havoids := hisolated e.source (mem_nodesOf.mpr ⟨hends.mpr htarget, hop⟩) he
      exact (avoids_iff.mp havoids).1 rfl

/-! ## Entries -/

theorem mem_safepointTargets_iff : y ∈ c.safepointTargets ↔ y = c.finish ∨
    y ∈ c.reachable ∧ (c.op? y = some .region ∨ c.op? y = some .merge) ∧
      2 ≤ (c.controlSources y).length := by
  have hregion : (c.node? y).any (·.op.isRegion) = true ↔
      c.op? y = some .region ∨ c.op? y = some .merge := by
    rw [op?]
    cases c.node? y with
    | none => simp
    | some node => cases hop : node.op <;> simp [hop, Op.isRegion]
  rw [safepointTargets, List.mem_cons, List.mem_filter, nodesWhere, List.mem_filter, hregion,
    decide_eq_true_iff, and_assoc]
  rfl

theorem Widens.coverEntries (h : Widens .safepoint g d) (hroot : g.root < g.nodes.size)
    (hd : d.coverEntries? y = some d') : Widens .safepoint g d' := by
  obtain ⟨-, rfl⟩ := coverEntries?_eq_some_iff.mp hd
  refine h.addSafepoints hroot (nodup_uncoveredEdges h.consistent y) fun i hi => ?_
  obtain ⟨e, he, hctl, -⟩ := (mem_uncoveredEdges h.consistent).mp hi
  exact ⟨e, he, hctl⟩

section Cover

variable (hc : c.Consistent) (hroot : c.root < c.nodes.size) (hfinish : c.finish < c.nodes.size)

include hc hroot in
theorem widens_coverTargets : Widens .safepoint c c.coverTargets.graph := by
  refine sweep_induct (P := Widens .safepoint c) (.refl hc) ?_
  intro d d' y _ hd hd'
  exact hd.coverEntries hroot hd'

include hc hroot hfinish in
theorem covered_coverTargets : ∀ y ∈ c.safepointTargets, c.coverTargets.graph.Covered y := by
  have hlt : ∀ y ∈ c.safepointTargets, y < c.nodes.size := by
    intro y hy
    rcases mem_safepointTargets_iff.mp hy with rfl | ⟨hreach, -⟩
    · exact hfinish
    · exact lt_of_mem_reachable hreach
  refine sweep_forall (P := Widens .safepoint c) (Q := Covered) (.refl hc) ?_ ?_
  · intro d d' y hy hd hd'
    have hle : ∀ z ∈ c.safepointTargets, z < d.nodes.size := fun z hz =>
      Nat.lt_of_lt_of_le (hlt z hz) hd.size
    obtain ⟨hcovered, hkept⟩ := covered_of_coverEntries? hd.consistent (hle y hy) hd'
    exact ⟨hd.coverEntries hroot hd', hcovered, fun z hz => hkept z (hle z hz)⟩
  · intro d y _ hd hnone
    exact (covered_iff hd.consistent).mpr hnone

include hc hroot hfinish in
/-- What needs safepoints after they have been placed needed them before, and has them. -/
theorem covered_of_mem_safepointTargets :
    ∀ y ∈ c.coverTargets.graph.safepointTargets, c.coverTargets.graph.Covered y := by
  have hwidens := widens_coverTargets hc hroot
  intro y hy
  apply covered_coverTargets hc hroot hfinish
  rw [mem_safepointTargets_iff] at hy ⊢
  rcases hy with hy | ⟨hreach, hregion, hlen⟩
  · exact .inl (hy.trans (congrArg (·.2.1) hwidens.marks))
  · have hother : c.coverTargets.graph.op? y ≠ some .safepoint := by
      rcases hregion with hop | hop <;> simp [hop]
    obtain ⟨hreach', hop⟩ := hwidens.old hreach hother
    refine .inr ⟨hreach', hop ▸ hregion, ?_⟩
    rw [Rewrites.length_controlSources] at hlen ⊢
    rwa [hwidens.enters (lt_of_mem_reachable hreach')] at hlen

end Cover

/-- Where there is no trace to be found and every target is covered, no safepoint is placed. -/
theorem placeSafepoints_eq_unchanged (hc : c.Consistent)
    (htraces : ∀ n ∈ c.reachable, c.op? n ≠ some .trace)
    (hcovered : ∀ y ∈ c.safepointTargets, c.Covered y) : c.placeSafepoints = .unchanged c := by
  have hnone : c.nodesOf .trace = [] := by
    apply List.eq_nil_iff_forall_not_mem.mpr
    intro n hn
    obtain ⟨hreach, hop⟩ := mem_nodesOf.mp hn
    exact htraces n hreach hop
  have hdrop : c.dropTraces = .unchanged c := by
    rw [dropTraces, hnone]
    rfl
  have hcover : c.coverTargets = .unchanged c := by
    apply sweep_of_none
    intro y hy
    exact (covered_iff hc).mp (hcovered y hy)
  rw [placeSafepoints, hdrop, Swept.andThen, Swept.unchanged, hcover]
  rfl

/-! ## Sends -/

/-- A send gets no guard iff its site has not met one kind, control does not come to it by one edge,
it has no receiver, or control comes to it from a guard. -/
theorem guardSend?_eq_none_iff : d.guardSend? profile n = none ↔
    ∀ ip kind i e r, d.sendSite? n = some ip → profile.monomorphic? ip = some kind →
      d.enters n = [(i, e)] → d.sourceFor? n .receiver = some r → d.op? e.source = some .guard := by
  constructor
  · intro hnone ip kind i e r hsite hkind henter hr
    exact op?_of_guardSend?_eq_none hnone hsite hkind henter hr
  · intro h
    rw [Option.eq_none_iff_forall_ne_some]
    intro d' hd'
    obtain ⟨ip, kind, i, e, r, hsite, hkind, henter, hguard, hr, -⟩ :=
      Rewrites.guarded_of_guardSend? hd'
    exact hguard (h ip kind i e r hsite hkind henter hr)

theorem exists_sourceFor?_iff {role : Role} :
    (∃ r, d.sourceFor? n role = some r) ↔ ∃ e ∈ d.inputs n, e.input = role := by
  simp [sourceFor?, Option.map_eq_some_iff, ← Option.isSome_iff_exists]

/-- A guard settles its send, and leaves other sends as settled as they were. -/
theorem settled_of_guardSend? (hd : d.Consistent) (hd' : d.guardSend? profile n = some d') :
    d'.guardSend? profile n = none ∧
      ∀ m < d.nodes.size, d.guardSend? profile m = none → d'.guardSend? profile m = none := by
  have hcons : d'.Consistent := (hd.later.guardSend hd').consistent
  obtain ⟨ip, kind, i, e, r, -, -, henter, -, hr, rfl⟩ := Rewrites.guarded_of_guardSend? hd'
  obtain ⟨he, htarget, hctl⟩ := hd.mem_enters.mp (henter ▸ List.mem_singleton_self (i, e))
  obtain ⟨hm, -, -⟩ := mounted_addGuard hd he hctl (hd.lt_of_sourceFor? hr) kind ip
  have hself : (d.addGuard i r kind ip).guardSend? profile n = none := by
    rw [guardSend?_eq_none_iff]
    intro _ _ j u _ _ _ hentered _
    have hnew : (d.edges.size + 1, (⟨d.nodes.size, e.target, .control, e.input⟩ : Edge)) ∈
        (d.addGuard i r kind ip).enters n := by
      rw [Threads.enters_mount hd hcons hm.control]
      simp [htarget]
    rw [hentered, List.mem_singleton] at hnew
    rw [← (Prod.mk.inj hnew).2]
    exact hm.op
  refine ⟨hself, fun m hlt hnone => ?_⟩
  by_cases hne : n = m
  · exact hne ▸ hself
  · rw [guardSend?_eq_none_iff] at hnone ⊢
    have hne' : e.target ≠ m := fun heq => hne (htarget.symm.trans heq)
    intro ip' kind' j u r' hsite hkind hentered hreceiver
    rw [sendSite?_congr (hm.label (Nat.ne_of_lt hlt))] at hsite
    rw [Threads.enters_mount_of_ne hd hcons he hm.control hlt hne'] at hentered
    obtain ⟨v, hv, hrole⟩ := exists_sourceFor?_iff.mp ⟨r', hreceiver⟩
    rw [hm.mem_inputs hd hcons he hlt hne'] at hv
    obtain ⟨r'', hr''⟩ := exists_sourceFor?_iff.mpr ⟨v, hv, hrole⟩
    have hu := (hd.mem_enters.mp (hentered ▸ List.mem_singleton_self (j, u))).1
    rw [op?_congr (hm.label (Nat.ne_of_lt (hd.ends hu).1))]
    exact hnone ip' kind' j u r'' hsite hkind hentered hr''

section Guards

variable (hc : c.Consistent) (hroot : c.root < c.nodes.size)

include hc hroot in
theorem widens_placeGuards (profile : Profile) : Widens .guard c (c.placeGuards profile).graph := by
  refine sweep_induct (P := Widens .guard c) (.refl hc) ?_
  intro d d' n _ hd hd'
  exact hd.guardSend hroot hd'

include hc hroot in
theorem placeGuards_placeGuards (profile : Profile) :
    (c.placeGuards profile).graph.placeGuards profile =
      .unchanged (c.placeGuards profile).graph := by
  have hsettled : ∀ n ∈ c.nodesOf .send,
      (c.placeGuards profile).graph.guardSend? profile n = none := by
    refine sweep_forall (P := Widens .guard c) (Q := fun d n => d.guardSend? profile n = none)
      (.refl hc) ?_ fun _ _ hnone => hnone
    intro d d' n _ hd hd'
    obtain ⟨hself, hothers⟩ := settled_of_guardSend? hd.consistent hd'
    refine ⟨hd.guardSend hroot hd', hself, fun m hm => hothers m ?_⟩
    exact Nat.lt_of_lt_of_le (lt_of_mem_nodesOf hm) hd.size
  apply sweep_of_none
  intro n hn
  exact hsettled n ((widens_placeGuards hc hroot profile).mem_nodesOf (by simp) hn)

end Guards

/-- In a graph that has its root and its finish node, and whose root is no trace: after safepoints
have been placed no trace is found, and control comes to the finish node, and to the regions and
merges that are found and have several control inputs, from safepoints only. Placing them again
changes nothing and says so, and likewise for guards of the same profile. -/
theorem placing_idempotent (hg : g.Consistent) (hroot : ∃ op, g.op? g.root = some op ∧ op ≠ .trace)
    (hfinish : g.finish < g.nodes.size) (profile : Profile) :
    (∀ n ∈ g.placeSafepoints.graph.reachable, g.placeSafepoints.graph.op? n ≠ some .trace) ∧
    (∀ y, y = g.placeSafepoints.graph.finish ∨ y ∈ g.placeSafepoints.graph.reachable ∧
        (g.placeSafepoints.graph.op? y = some .region ∨
          g.placeSafepoints.graph.op? y = some .merge) ∧
        2 ≤ (g.placeSafepoints.graph.controlSources y).length →
      ∀ i e, g.placeSafepoints.graph.edge? i = some e → e.isControl = true → e.target = y →
        g.placeSafepoints.graph.op? e.source = some .safepoint) ∧
    g.placeSafepoints.graph.placeSafepoints = .unchanged g.placeSafepoints.graph ∧
    (g.placeGuards profile).graph.placeGuards profile =
      .unchanged (g.placeGuards profile).graph := by
  obtain ⟨op, hop, hne⟩ := hroot
  have hlt := op?_lt hop
  have hsheds := sheds_dropTraces hg
  have hroot' : g.dropTraces.graph.root < g.dropTraces.graph.nodes.size := by
    rw [hsheds.root, hsheds.size]
    exact hlt
  have hfinish' : g.dropTraces.graph.finish < g.dropTraces.graph.nodes.size := by
    rw [hsheds.finish, hsheds.size]
    exact hfinish
  have hwidens := widens_coverTargets hsheds.consistent hroot'
  have hcovered := covered_of_mem_safepointTargets hsheds.consistent hroot' hfinish'
  rw [placeSafepoints, Swept.graph_andThen]
  have htraces : ∀ n ∈ g.dropTraces.graph.coverTargets.graph.reachable,
      g.dropTraces.graph.coverTargets.graph.op? n ≠ some .trace := by
    intro n hn htrace
    have hother : g.op? g.root ≠ some .trace :=
      fun heq => hne (Option.some.inj (hop.symm.trans heq))
    apply notMem_nodesOf_dropTraces hg hlt hother
    exact hwidens.mem_nodesOf (by simp) (mem_nodesOf.mpr ⟨hn, htrace⟩)
  have hsafepoints := placeSafepoints_eq_unchanged hwidens.consistent htraces hcovered
  have hguards := placeGuards_placeGuards hg hlt profile
  refine ⟨htraces, ?_, hsafepoints, hguards⟩
  intro y hy i e he hctl htarget
  exact hcovered y (mem_safepointTargets_iff.mpr hy) he hctl htarget

end Graph

/-- Two traces in a row before a merge that comes to itself, and a send. -/
def Change.spin : List Change :=
  [.edit (.addNode .trace []), .edit (.addNode .trace []), .edit (.addNode .merge []),
    .edit (.addNode .constant [("value", .int 3)]),
    .edit (.addNode .send [("selector", .symbol "tick"), ("argc", .ofNat 0), ("ip", .ofNat 7)]),
    .edit (.addEdge (.control 0 2)), .edit (.addEdge (.control 2 3)),
    .edit (.addEdge (.control 3 4)), .edit (.addEdge (.control 4 4)),
    .edit (.addEdge (.control 4 6)), .edit (.addEdge (.control 6 1)),
    .edit (.addEdge (.value 5 6 .receiver)), .edit (.addEdge (.value 6 1 .value))]

/-- The first runs have something to do, and safepoints go before the finish node and onto both
entries of the merge. -/
theorem Graph.placing_idempotent_spin :
    ∃ g, Change.run? .initial Change.spin = some g ∧ g.Consistent ∧ g.nodesOf .trace = [2, 3] ∧
      g.placeSafepoints.changed = true ∧ (g.placeGuards ⟨[(7, .int)]⟩).changed = true ∧
      g.placeSafepoints.graph.controlSources 4 = [8, 9] ∧
      (∀ i e, g.placeSafepoints.graph.edge? i = some e → e.isControl = true → e.target = 4 →
        g.placeSafepoints.graph.op? e.source = some .safepoint) ∧
      g.placeSafepoints.graph.placeSafepoints = .unchanged g.placeSafepoints.graph ∧
      (g.placeGuards ⟨[(7, .int)]⟩).graph.placeGuards ⟨[(7, .int)]⟩ =
        .unchanged (g.placeGuards ⟨[(7, .int)]⟩).graph := by
  obtain ⟨g, hg, htraces, hchanged, hchanged', hroot, hfinish, hreach, hmerge, hsources⟩ : ∃ g,
      Change.run? .initial Change.spin = some g ∧ g.nodesOf .trace = [2, 3] ∧
      g.placeSafepoints.changed = true ∧ (g.placeGuards ⟨[(7, .int)]⟩).changed = true ∧
      g.op? g.root = some .start ∧ g.finish < g.nodes.size ∧
      4 ∈ g.placeSafepoints.graph.reachable ∧ g.placeSafepoints.graph.op? 4 = some .merge ∧
      g.placeSafepoints.graph.controlSources 4 = [8, 9] :=
    ⟨_, rfl, by decide +kernel⟩
  have hcons := (Change.later_of_run? Graph.consistent_initial.later hg).consistent
  obtain ⟨-, hcovered, hsafepoints, hguards⟩ :=
    Graph.placing_idempotent hcons ⟨.start, hroot, by simp⟩ hfinish ⟨[(7, .int)]⟩
  have hlen : 2 ≤ (g.placeSafepoints.graph.controlSources 4).length := by
    rw [hsources]
    exact Nat.le_refl 2
  exact ⟨g, hg, hcons, htraces, hchanged, hchanged', hsources,
    hcovered 4 (.inr ⟨hreach, .inr hmerge, hlen⟩), hsafepoints, hguards⟩

end StackJit
