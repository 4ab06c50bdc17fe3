import StackJit.Proofs.Converge
import StackJit.Proofs.Idempotence

/-!
# What a pass reports

Iterating a schedule relies on what its passes say of themselves. A pass says that it has changed
nothing iff the whole arena is the same as before. That nothing is different if nothing is reported
holds of any sweep. For the converse a change must not be undone by those that follow it: numbers
are never given twice and a removed edge never comes back (`Graph.Later`), so an arena that has
grown, or has lost an edge, stays another one (`Graph.Outdated`). Passes that only remove nodes
leave fewer of them (`Swept.Shrinks`).

Main statement: `Change.reports_exact`.
-/

namespace StackJit

namespace Graph

variable {g c d d' : Graph} {n y : NodeId} {i : EdgeId} {e : Edge} {profile : Profile}

/-- `c` comes after `g` and will never be `g` again: something is new in it, or an edge of `g`
is gone. -/
structure Outdated (g c : Graph) : Prop extends Later g c where
  differs : g.nodes.size < c.nodes.size ∨ g.edges.size < c.edges.size ∨
    ∃ i e, g.edge? i = some e ∧ c.edge? i = none

namespace Outdated

theorem ne (h : g.Outdated c) : c ≠ g := by
  rintro rfl
  rcases h.differs with hlt | hlt | ⟨i, e, he, hnone⟩
  · exact Nat.lt_irrefl _ hlt
  · exact Nat.lt_irrefl _ hlt
  · rw [he] at hnone
    cases hnone

theorem later (h : g.Outdated c) (h' : c.Later d) : g.Outdated d where
  toLater := h.toLater.trans h'
  differs := by
    rcases h.differs with hlt | hlt | ⟨i, e, he, hnone⟩
    · exact .inl (Nat.lt_of_lt_of_le hlt h'.numNodes)
    · exact .inr (.inl (Nat.lt_of_lt_of_le hlt h'.size))
    · refine .inr (.inr ⟨i, e, he, Option.eq_none_iff_forall_ne_some.mpr fun u hu => ?_⟩)
      rw [h'.edge (Nat.lt_of_lt_of_le (edge?_lt he) h.size) hu] at hnone
      cases hnone

/-- An edge that is lost on the way from `g` was there in `g`, or the arena has grown. -/
theorem of_later (h : g.Later c) (h' : c.Outdated d) : g.Outdated d where
  toLater := h.trans h'.toLater
  differs := by
    rcases h'.differs with hlt | hlt | ⟨i, e, he, hnone⟩
    · exact .inl (Nat.lt_of_le_of_lt h.numNodes hlt)
    · exact .inr (.inl (Nat.lt_of_le_of_lt h.size hlt))
    · by_cases hi : i < g.edges.size
      · exact .inr (.inr ⟨i, e, h.edge hi he, hnone⟩)
      · refine .inr (.inl (Nat.lt_of_lt_of_le ?_ h'.size))
        exact Nat.lt_of_le_of_lt (Nat.le_of_not_lt hi) (edge?_lt he)

/-- A node has lost all its edges, of which it had one. -/
theorem of_isolated (h : g.Later c) (he : g.edge? i = some e) (hn : e.source = n ∨ e.target = n)
    (hisolated : c.Isolated n) : g.Outdated c := by
  refine ⟨h, .inr (.inr ⟨i, e, he, Option.eq_none_iff_forall_ne_some.mpr fun u hu => ?_⟩)⟩
  have hsame : some u = some e := (h.edge (edge?_lt he) hu).symm.trans he
  obtain ⟨hsource, htarget⟩ := avoids_iff.mp (Option.some.inj hsame ▸ hisolated hu)
  exact hn.elim hsource htarget

end Outdated

/-! ## Changes -/

theorem isolated_eraseNode (hc : c.Consistent) (n : NodeId) : (c.eraseNode n).Isolated n :=
  fun _ _ he => avoids_iff.mpr ((edge?_eraseNode hc).mp he).2

/-- A placeholder that is forwarded had a source. -/
theorem outdated_of_forwardInput? (hd : d.Consistent) (hd' : d.forwardInput? n = some d') :
    d.Outdated d' := by
  have hlater := hd.later.forwardInput hd'
  obtain ⟨m, hm, rfl⟩ := forwarded_of_forwardInput? hd'
  have hmem : m ∈ d.valueSources n := hm ▸ List.mem_singleton_self m
  obtain ⟨e, he, -⟩ := List.mem_map.mp hmem
  obtain ⟨htarget, i, hi⟩ := hd.mem_inputs.mp (List.mem_filter.mp he).1
  have hmoved : (d.moveUses n m).Consistent :=
    (hd.later.moveUses (.inr (hd.lt_of_mem_valueSources hmem))).consistent
  exact .of_isolated hlater hi (.inr htarget) (isolated_eraseNode hmoved n)

theorem outdated_of_coverEntries? (hd : d.Consistent) (hd' : d.coverEntries? y = some d') :
    d.Outdated d' := by
  obtain ⟨hne, rfl⟩ := coverEntries?_eq_some_iff.mp hd'
  obtain ⟨i, edges, hedges⟩ := List.exists_cons_of_ne_nil hne
  have hi : i ∈ d.uncoveredEdges y := hedges ▸ List.mem_cons_self
  obtain ⟨e, he, -⟩ := (mem_uncoveredEdges hd).mp hi
  have hfirst : d.Outdated (d.addSafepoint i) := by
    refine ⟨hd.later.mount .safepoint [] i, .inl ?_⟩
    exact (numNodes_mount .safepoint [] he).symm ▸ Nat.lt_succ_self _
  rw [hedges, List.foldl_cons]
  refine hfirst.later
    (List.foldlRecOn (motive := (d.addSafepoint i).Later) _ _ hfirst.consistent.later ?_)
  intro c hc j _
  exact hc.mount .safepoint [] j

theorem outdated_of_guardSend? (hd : d.Consistent) (hd' : d.guardSend? profile n = some d') :
    d.Outdated d' := by
  have hlater := hd.later.guardSend hd'
  obtain ⟨ip, kind, i, e, r, -, -, henter, -, -, rfl⟩ := Rewrites.guarded_of_guardSend? hd'
  have he := (hd.mem_enters.mp (henter ▸ List.mem_singleton_self (i, e))).1
  have hsize := numNodes_mount .guard [("kind", .symbol kind.name), ("ip", .ofNat ip)] he
  refine ⟨hlater, .inl (Nat.lt_of_lt_of_eq (Nat.lt_succ_self _) ?_)⟩
  exact hsize.symm.trans (numNodes_addEdge _ _).symm

/-- A trace that is dropped had an edge, as the root is none. -/
theorem outdated_dropTraces (hg : g.Consistent) (htrace : g.op? g.root ≠ some .trace)
    (hn : n ∈ g.nodesOf .trace) : g.Outdated g.dropTraces.graph := by
  obtain ⟨hreach, hop⟩ := mem_nodesOf.mp hn
  have hroot : n ≠ g.root := fun heq => htrace (heq ▸ hop)
  obtain ⟨i, e, he, hend⟩ := (hg.eq_root_or_exists_edge hreach).resolve_left hroot
  exact .of_isolated hg.later.dropTraces he hend (isolated_dropTraces hg n hn)

end Graph

/-! ## Sweeps -/

namespace Swept

variable {g : Graph} {r : Swept}

/-- What a pass made of `g`: where a change is reported `g` is outdated, and all else is as
it was. -/
structure Reports (g : Graph) (r : Swept) : Prop where
  later : g.Later r.graph
  same : r.changed = false → r.graph = g
  outdated : r.changed = true → g.Outdated r.graph

theorem Reports.andThen {f : Graph → Swept} (h : Reports g r) (h' : Reports r.graph (f r.graph)) :
    Reports g (r.andThen f) where
  later := h.later.trans h'.later
  same hsame := by
    obtain ⟨hr, hf⟩ := Bool.or_eq_false_iff.mp hsame
    exact (h'.same hf).trans (h.same hr)
  outdated hchanged := by
    rcases Bool.or_eq_true_iff.mp hchanged with hr | hf
    · exact (h.outdated hr).later h'.later
    · exact .of_later h.later (h'.outdated hf)

/-- If what is reported as a change is one, and all else is none, reports are exact. -/
theorem exact_of_ne (hsame : r.changed = false → r.graph = g)
    (hne : r.changed = true → r.graph ≠ g) : r.changed = false ↔ r.graph = g := by
  refine ⟨hsame, fun heq => ?_⟩
  cases hr : r.changed with
  | true => exact absurd heq (hne hr)
  | false => rfl

theorem Reports.exact (h : Reports g r) : r.changed = false ↔ r.graph = g :=
  exact_of_ne h.same fun hr => (h.outdated hr).ne

theorem Shrinks.exact (h : Shrinks g r) : r.changed = false ↔ r.graph = g :=
  exact_of_ne h.same fun hr heq => (h.fewer hr).ne (congrArg Graph.remaining heq)

end Swept

open Swept (Reports)

namespace Graph

variable {g : Graph} {change? : Graph → NodeId → Option Graph} {ids : List NodeId}

theorem reports_sweep (hg : g.Consistent)
    (hchange : ∀ {d d' : Graph} {n : NodeId}, d.Consistent → change? d n = some d' →
      d.Outdated d') :
    Reports g (g.sweep change? ids) := by
  induction ids using List.reverseRecOn with
  | nil => exact ⟨hg.later, fun _ => rfl, nofun⟩
  | append_singleton ids n ih =>
    rw [sweep_concat]
    cases hd : change? (g.sweep change? ids).graph n with
    | none =>
      rw [attempt_of_none hd]
      exact ih
    | some d =>
      have houtdated : g.Outdated d := .of_later ih.later (hchange ih.later.consistent hd)
      rw [attempt_of_some hd]
      exact ⟨houtdated.toLater, nofun, fun _ => houtdated⟩

theorem reports_dropTraces (hg : g.Consistent) (htrace : g.op? g.root ≠ some .trace) :
    Reports g g.dropTraces where
  later := hg.later.dropTraces
  same hsame := congrArg Swept.graph (sweep_of_none (changed_sweep_eq_false_iff.mp hsame))
  outdated hchanged := by
    cases hnodes : g.nodesOf .trace with
    | nil =>
      rw [dropTraces, hnodes] at hchanged
      cases hchanged
    | cons n rest => exact outdated_dropTraces hg htrace (hnodes ▸ List.mem_cons_self)

theorem reports_placeSafepoints (hg : g.Consistent) (htrace : g.op? g.root ≠ some .trace) :
    Reports g g.placeSafepoints := by
  have htraces := reports_dropTraces hg htrace
  exact htraces.andThen (reports_sweep htraces.later.consistent outdated_of_coverEntries?)

end Graph

/-- In a graph that was made by any changes and whose root is no trace, a pass reports no change iff
the whole arena is as it was. -/
theorem Change.reports_exact {changes : List Change} {g : Graph}
    (hg : Change.run? .initial changes = some g) (htrace : g.op? g.root ≠ some .trace)
    (profile : Profile) :
    ∀ p ∈ ([.placeholders, .phis, .deadCode, .safepoints, .guards profile] : List (Pass Id)),
      (p.run g).run.changed = false ↔ (p.run g).run.graph = g := by
  have hcons := (Change.later_of_run? Graph.consistent_initial.later hg).consistent
  intro p hp
  simp only [List.mem_cons, List.not_mem_nil, or_false] at hp
  rcases hp with rfl | rfl | rfl | rfl | rfl
  · exact (Graph.reports_sweep hcons Graph.outdated_of_forwardInput?).exact
  · exact g.shrinks_dropPhis.exact
  · exact g.shrinks_dropDeadCode.exact
  · exact (Graph.reports_placeSafepoints hcons htrace).exact
  · exact (Graph.reports_sweep hcons Graph.outdated_of_guardSend?).exact

/-- A trace on the way to the finish node, and a placeholder before it. -/
def Change.courier : List Change :=
  [.edit (.addNode .trace []), .edit (.addNode .input []),
    .edit (.addNode .constant [("value", .nil)]), .edit (.addEdge (.control 0 2)),
    .edit (.addEdge (.control 2 1)), .edit (.addEdge (.value 4 3 .value)),
    .edit (.addEdge (.value 3 1 .value))]

/-- There is a placeholder and a trace to drop, but no phi. -/
theorem Change.reports_exact_courier : ∃ g, Change.run? .initial Change.courier = some g ∧
    g.op? g.root = some .start ∧ g.dropPlaceholders.changed = true ∧ g.dropPlaceholders.graph ≠ g ∧
      g.placeSafepoints.changed = true ∧ g.placeSafepoints.graph ≠ g ∧
      g.dropPhis.changed = false ∧ g.dropPhis.graph = g := by
  obtain ⟨g, hg, hroot, hplaceholders, hsafepoints, hphis⟩ : ∃ g,
      Change.run? .initial Change.courier = some g ∧ g.op? g.root = some .start ∧
      g.dropPlaceholders.changed = true ∧ g.placeSafepoints.changed = true ∧
      g.dropPhis.changed = false :=
    ⟨_, rfl, by decide +kernel⟩
  have hexact := Change.reports_exact hg (by simp [hroot]) .empty
  have hplaceholders' := hexact .placeholders (by simp)
  have hsafepoints' := hexact .safepoints (by simp)
  have hphis' := hexact .phis (by simp)
  exact ⟨g, hg, hroot, hplaceholders,
    fun heq => ne_false_of_eq_true hplaceholders (hplaceholders'.mpr heq), hsafepoints,
    fun heq => ne_false_of_eq_true hsafepoints (hsafepoints'.mpr heq), hphis, hphis'.mp hphis⟩

/-- A trace that is the root is found again after it has been dropped, and dropping it again
is reported. -/
example : ∃ g,
    Change.run? .initial [.edit (.addNode .trace []), .edit (.setRoot 2), .placeSafepoints] =
      some g ∧ g.placeSafepoints = ⟨g, true⟩ :=
  ⟨_, rfl, by decide +kernel⟩

end StackJit
