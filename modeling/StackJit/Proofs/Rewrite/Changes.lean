import StackJit.Pass.DeadCode
import StackJit.Pass.Phis
import StackJit.Pass.Placeholders
import StackJit.Proofs.Realize
import StackJit.Proofs.Rewrite.Edits

/-!
# When a change applies

A pass tries one change at each node of a list. For each of the changes this says at which nodes it
applies and what it makes of the graph. Nothing is assumed of the graph, so the proofs about passes
can start from here, whatever they are about.
-/

namespace StackJit.Graph

variable {d d' : Graph} {n m y : NodeId}

/-! ## Placeholders and phis -/

theorem forwarded_of_forwardInput? (hd : d.forwardInput? n = some d') :
    ∃ m, d.valueSources n = [m] ∧ d' = d.forward n m := by
  unfold forwardInput? at hd
  split at hd
  · next m hm => exact ⟨m, hm, (Option.some.inj hd).symm⟩
  · cases hd

/-- A node has values from `m`, and from no other node but itself. -/
def SoleSource (g : Graph) (n m : NodeId) : Prop :=
  m ∈ g.valueSources n ∧ m ≠ n ∧ ∀ s ∈ g.valueSources n, s = n ∨ s = m

theorem soleSource?_eq_some_iff : d.soleSource? n = some m ↔ d.SoleSource n m := by
  have hmem : ∀ s, s ∈ (d.valueSources n).filter (· != n) ↔ s ∈ d.valueSources n ∧ s ≠ n := by
    simp
  unfold soleSource? SoleSource
  cases hsources : (d.valueSources n).filter (· != n) with
  | nil => grind
  | cons first others =>
    rw [hsources] at hmem
    have hfirst := (hmem first).mp List.mem_cons_self
    grind

/-- A phi is dropped iff it is still there and has no choice. -/
theorem dropPhi?_eq_some_iff :
    d.dropPhi? n = some d' ↔ ¬ d.Gone n ∧ ∃ m, d.SoleSource n m ∧ d' = d.forward n m := by
  unfold dropPhi?
  split
  · next hgone => simp [hgone]
  · next hlive =>
    rw [Option.map_eq_some_iff, and_iff_right hlive]
    simp only [soleSource?_eq_some_iff, forward, @eq_comm _ d']

/-! ## Dead code -/

theorem not_finish_of_passesControl (h : d.passesControl n = true) : d.op? n ≠ some .finish := by
  intro hop
  simp [passesControl, hasEffect, hop] at h

/-- What is dropped is a node without outputs, or one that only passes control on, but never the
root or a finish. -/
theorem dropDead?_eq_some_iff : d.dropDead? n = some d' ↔
    ¬ d.Gone n ∧ n ≠ d.root ∧ d.op? n ≠ some .finish ∧
      (d.outputs n = [] ∧ d' = d.eraseNode n ∨
        d.outputs n ≠ [] ∧ d.passesControl n = true ∧ d' = (d.bypass n).eraseNode n) := by
  unfold dropDead?
  by_cases hgone : d.Gone n
  · simp [hgone]
  by_cases hroot : n = d.root
  · simp [hroot]
  rw [if_neg (by simp [hroot, hgone]), and_iff_right hgone, and_iff_right hroot]
  by_cases hout : d.outputs n = []
  · by_cases hfinish : d.op? n = some .finish
    · simp [hout, hasOp_iff.mpr hfinish, hfinish]
    · have hno : d.hasOp n .finish = false := by
        rw [Bool.eq_false_iff]
        exact fun htrue => hfinish (hasOp_iff.mp htrue)
      simp [hout, hno, hfinish, @eq_comm _ d']
  · have hsome : (d.outputs n).isEmpty = false := by simpa using hout
    by_cases hpass : d.passesControl n = true
    · simp [hout, hsome, hpass, not_finish_of_passesControl hpass, @eq_comm _ d']
    · simp [hout, hsome, hpass]

/-! ## Safepoints -/

theorem coverEntries?_eq_some_iff : d.coverEntries? y = some d' ↔
    d.uncoveredEdges y ≠ [] ∧ d' = (d.uncoveredEdges y).foldl addSafepoint d := by
  unfold coverEntries?
  cases hedges : d.uncoveredEdges y with
  | nil => simp
  | cons i edges => simp [@eq_comm _ d']

theorem coverEntries?_eq_none_iff : d.coverEntries? y = none ↔ d.uncoveredEdges y = [] := by
  unfold coverEntries?
  cases d.uncoveredEdges y with
  | nil => simp
  | cons i edges => simp

theorem mem_uncoveredEdges (hd : d.Consistent) {i : EdgeId} : i ∈ d.uncoveredEdges y ↔
    ∃ e, d.edge? i = some e ∧ e.isControl = true ∧ e.target = y ∧
      d.op? e.source ≠ some .safepoint := by
  rw [uncoveredEdges, List.mem_map]
  constructor
  · rintro ⟨⟨j, e⟩, hmem, rfl⟩
    obtain ⟨hmem, htrue⟩ := List.mem_filter.mp hmem
    obtain ⟨he, htarget⟩ := hd.mem_edgesInto.mp hmem
    rw [Bool.and_eq_true, Bool.not_eq_true'] at htrue
    refine ⟨e, he, htrue.1, htarget, fun hop => ?_⟩
    rw [hasOp_iff.mpr hop] at htrue
    cases htrue.2
  · rintro ⟨e, he, hctl, htarget, hop⟩
    refine ⟨(i, e), List.mem_filter.mpr ⟨hd.mem_edgesInto.mpr ⟨he, htarget⟩, ?_⟩, rfl⟩
    rw [Bool.and_eq_true, Bool.not_eq_true', Bool.eq_false_iff]
    exact ⟨hctl, fun htrue => hop (hasOp_iff.mp htrue)⟩

theorem nodup_uncoveredEdges (hd : d.Consistent) (y : NodeId) : (d.uncoveredEdges y).Nodup := by
  rw [uncoveredEdges, hd.edgesInto_eq, List.filter_filter]
  exact d.live_nodup.sublist (List.filter_sublist.map _)

end StackJit.Graph
