import StackJit.Proofs.Bookkeeping
import StackJit.Proofs.Removal

/-!
# Tidying converges

A pass that drops dead code or phis without a choice reports a change only if fewer nodes are left,
and otherwise leaves the graph as it is (`Swept.Shrinks`). Whatever new work one pass makes for
another, a round of such passes is again like that. So each round but the last takes a node away,
and the last one shows that every pass finds nothing to do.

Main statement: `Schedule.iterate_stable`.
-/

namespace StackJit

namespace Swept

variable {g c : Graph} {r s : Swept} {n : NodeId} {change? : Graph → NodeId → Option Graph}

/-- What a pass made of `g`: fewer nodes are left, or nothing has changed. -/
structure Shrinks (g : Graph) (r : Swept) : Prop where
  fewer : r.changed = true → r.graph.remaining ⊂ g.remaining
  same : r.changed = false → r.graph = g

namespace Shrinks

theorem unchanged (g : Graph) : Shrinks g (.unchanged g) := ⟨nofun, fun _ => rfl⟩

theorem subset (h : Shrinks g r) : r.graph.remaining ⊆ g.remaining := by
  cases hr : r.changed with
  | true => exact (h.fewer hr).subset
  | false => rw [h.same hr]

theorem trans (h : Shrinks g r) (h' : Shrinks r.graph s) :
    Shrinks g ⟨s.graph, r.changed || s.changed⟩ where
  fewer hchanged := by
    rcases Bool.or_eq_true_iff.mp hchanged with hr | hs
    · exact h'.subset.trans_ssubset (h.fewer hr)
    · exact (h'.fewer hs).trans_subset h.subset
  same hsame := by
    obtain ⟨hr, hs⟩ := Bool.or_eq_false_iff.mp hsame
    exact (h'.same hs).trans (h.same hr)

theorem attempt (h : Shrinks g r) (hchange : Graph.Removing change?) (hn : n < r.graph.nodes.size) :
    Shrinks g (r.attempt change? n) := by
  cases hd : change? r.graph n with
  | none =>
    rw [Graph.attempt_of_none hd]
    exact h
  | some d =>
    obtain ⟨hlive, hr, -⟩ := hchange hn hd
    rw [Graph.attempt_of_some hd]
    exact ⟨fun _ => (hr.remaining_ssubset hn hlive).trans_subset h.subset, nofun⟩

end Shrinks

end Swept

open Swept (Shrinks)

/-! ## Passes -/

theorem Graph.Removing.shrinks_sweep {change? : Graph → NodeId → Option Graph} {c : Graph}
    {ids : List NodeId} (h : Graph.Removing change?) (hids : ∀ n ∈ ids, n < c.nodes.size) :
    Shrinks c (c.sweep change? ids) := by
  induction ids using List.reverseRecOn with
  | nil => exact .unchanged c
  | append_singleton ids n ih =>
    have hids' : ∀ m ∈ ids, m < c.nodes.size := fun m hm => hids m (List.mem_append_left _ hm)
    rw [Graph.sweep_concat]
    refine (ih hids').attempt h ?_
    rw [(h.prunes_sweep hids').size]
    exact hids n (List.mem_append_right _ (List.mem_singleton_self n))

theorem Graph.shrinks_dropDeadCode (g : Graph) : Shrinks g g.dropDeadCode :=
  Graph.removing_dropDead.shrinks_sweep fun _ => Graph.lt_of_mem_reachable

theorem Graph.shrinks_dropPhis (g : Graph) : Shrinks g g.dropPhis :=
  Graph.removing_dropPhi.shrinks_sweep fun _ => Graph.lt_of_mem_nodesOf

/-! ## Rounds -/

namespace Schedule

variable {passes : List (Pass Id)} {s : Schedule Id} {g : Graph} {limit : Nat}

theorem shrinks_runPasses (h : ∀ p ∈ passes, ∀ c, Shrinks c (p.run c).run) (g : Graph) :
    Shrinks g (runPasses passes g).run := by
  induction passes generalizing g with
  | nil => exact .unchanged g
  | cons p passes ih =>
    have hp := h p List.mem_cons_self g
    exact hp.trans (ih (fun q hq => h q (List.mem_cons_of_mem p hq)) _)

/-- In a round without a change all passes see the same graph. -/
theorem run_eq_unchanged (h : ∀ p ∈ passes, ∀ c, Shrinks c (p.run c).run)
    (hsame : (runPasses passes g).run.changed = false) :
    ∀ p ∈ passes, (p.run g).run = .unchanged g := by
  induction passes with
  | nil => exact fun _ hp => absurd hp List.not_mem_nil
  | cons p passes ih =>
    obtain ⟨hp, hrest⟩ := Bool.or_eq_false_iff.mp hsame
    have hgraph : (p.run g).run.graph = g := (h p List.mem_cons_self g).same hp
    have hrun : (p.run g).run = .unchanged g := by
      rw [Swept.unchanged, ← hp]
      exact congrArg (Swept.mk · (p.run g).run.changed) hgraph
    intro q hq
    rcases List.mem_cons.mp hq with rfl | hq
    · exact hrun
    · refine ih (fun q hq => h q (List.mem_cons_of_mem p hq)) ?_ q hq
      rw [← hgraph]
      exact hrest

/-- The rounds end before the nodes run out. -/
theorem iterateFrom_stable (h : ∀ p ∈ s.passes, ∀ c, Shrinks c (p.run c).run) (done : Nat)
    (hlimit : g.remaining.card < limit) :
    ∃ c rounds, (s.iterateFrom done limit g).run = ⟨c, done + rounds, true⟩ ∧
      rounds ≤ g.remaining.card + 1 ∧ ∀ p ∈ s.passes, (p.run c).run = .unchanged c := by
  induction limit generalizing g done with
  | zero => exact absurd hlimit (Nat.not_lt_zero _)
  | succ limit ih =>
    have hround : Shrinks g (s.run g).run := shrinks_runPasses h g
    cases hchanged : (s.run g).run.changed with
    | true =>
      have hfewer := Finset.card_lt_card (hround.fewer hchanged)
      have hlimit' : (s.run g).run.graph.remaining.card < limit := by omega
      obtain ⟨c, rounds, heq, hrounds, hstable⟩ := ih (done + 1) hlimit'
      refine ⟨c, rounds + 1, ?_, by omega, hstable⟩
      rw [iterateFrom_of_changed hchanged, heq, Nat.add_assoc, Nat.add_comm 1]
    | false =>
      refine ⟨g, 1, ?_, Nat.le_add_left 1 _, run_eq_unchanged h hchanged⟩
      rw [iterateFrom_of_same hchanged, hround.same hchanged]

/-- Any schedule of passes that drop dead code and phis without a choice comes to a round that
changes nothing, after at most as many others as there are nodes left, and then each of the passes
has nothing to do. -/
theorem iterate_stable (hs : ∀ p ∈ s.passes, p = .deadCode ∨ p = .phis)
    (hlimit : g.remaining.card < limit) :
    ∃ c rounds, (s.iterate limit g).run = ⟨c, rounds, true⟩ ∧ rounds ≤ g.remaining.card + 1 ∧
      ∀ p ∈ s.passes, (p.run c).run = .unchanged c := by
  have hshrinks : ∀ p ∈ s.passes, ∀ c, Shrinks c (p.run c).run := by
    intro p hp c
    rcases hs p hp with rfl | rfl
    · exact c.shrinks_dropDeadCode
    · exact c.shrinks_dropPhis
  obtain ⟨c, rounds, heq, hrest⟩ := iterateFrom_stable hshrinks 0 hlimit
  exact ⟨c, rounds, (Nat.zero_add rounds ▸ heq), hrest⟩

end Schedule

/-- A jump, and a region that is kept only by a phi without a choice. -/
def Change.crumbs : List Change :=
  [.edit (.addNode .jump []), .edit (.addNode .region []), .edit (.addNode .phi []),
    .edit (.addNode .constant [("value", .nil)]), .edit (.addEdge (.control 0 2)),
    .edit (.addEdge (.control 2 3)), .edit (.addEdge (.control 3 4)),
    .edit (.addEdge (.control 3 1)), .edit (.addEdge (.value 5 4 .value)),
    .edit (.addEdge (.value 4 1 .value))]

/-- Dropping the phi makes the region dead, so one round is not enough. -/
theorem Schedule.iterate_stable_crumbs :
    ∃ g, Change.run? .initial Change.crumbs = some g ∧ g.remaining.card = 6 ∧
      (CompileOptions.tidy.run g).run.changed = true ∧
      (CompileOptions.tidy.run (CompileOptions.tidy.run g).run.graph).run.changed = true ∧
      ∃ c rounds, (CompileOptions.tidy.iterate 7 g).run = ⟨c, rounds, true⟩ ∧ rounds ≤ 7 ∧
        c.dropDeadCode = .unchanged c ∧ c.dropPhis = .unchanged c := by
  obtain ⟨g, hg, hcard, hfirst, hsecond⟩ : ∃ g, Change.run? .initial Change.crumbs = some g ∧
      g.remaining.card = 6 ∧ (CompileOptions.tidy.run g).run.changed = true ∧
      (CompileOptions.tidy.run (CompileOptions.tidy.run g).run.graph).run.changed = true :=
    ⟨_, rfl, by decide +kernel⟩
  have hpasses : ∀ p ∈ CompileOptions.tidy.passes, p = .deadCode ∨ p = .phis := by
    intro p hp
    simpa [CompileOptions.tidy] using hp
  have hlimit : g.remaining.card < 7 := by omega
  obtain ⟨c, rounds, heq, hrounds, hstable⟩ := Schedule.iterate_stable hpasses hlimit
  rw [hcard] at hrounds
  exact ⟨g, hg, hcard, hfirst, hsecond, c, rounds, heq, hrounds,
    hstable _ List.mem_cons_self, hstable _ (List.mem_cons_of_mem _ List.mem_cons_self)⟩

end StackJit
