import Mathlib.Data.Finset.Card
import Mathlib.Data.Finset.Range
import Mathlib.Data.List.Induction
import StackJit.Proofs.Rewrite.Passes

/-!
# Removing nodes

Dead code and phis without a choice go one node at a time: a change that applies removes the node at
which it is tried, which was still there (`Graph.Removing`). So a sweep of such changes leaves the
nodes as they are, apart from those that it removes (`Removing.prunes_sweep`), and removes exactly
those at which the change applies when their turn comes (`Removing.stays_sweep_eq_false_iff`).
-/

namespace StackJit.Graph

variable {g c d d' : Graph} {n m : NodeId} {change? : Graph → NodeId → Option Graph}
  {ids : List NodeId}

/-- The nodes that have not been removed. -/
def remaining (g : Graph) : Finset NodeId :=
  (Finset.range g.nodes.size).filter fun n => g.isRemoved n = false

theorem mem_remaining : n ∈ g.remaining ↔ n < g.nodes.size ∧ ¬ g.Gone n := by
  rw [remaining, Finset.mem_filter, Finset.mem_range, Gone, Bool.not_eq_true]

theorem Removes.remaining_ssubset (h : Removes d d' n) (hn : n < d.nodes.size)
    (hlive : ¬ d.Gone n) : d'.remaining ⊂ d.remaining := by
  refine Finset.ssubset_iff_of_subset ?_ |>.mpr ⟨n, mem_remaining.mpr ⟨hn, hlive⟩, ?_⟩
  · intro m hm
    obtain ⟨hlt, hm⟩ := mem_remaining.mp hm
    exact mem_remaining.mpr ⟨h.size ▸ hlt, (h.live.mp hm).1⟩
  · exact fun hmem => (mem_remaining.mp hmem).2 (h.removed.mpr (.inr rfl))

/-! ## Nodes that stay -/

/-- Whether a node of `g` has not been removed on the way to `c`. -/
def stays (g c : Graph) (n : NodeId) : Bool := g.isRemoved n || !c.isRemoved n

/-- Whether both ends of an edge stay. -/
def keepsEnds (g c : Graph) (e : Edge) : Bool := g.stays c e.source && g.stays c e.target

theorem stays_iff : g.stays c n = true ↔ (c.Gone n → g.Gone n) := by
  rw [stays, Bool.or_eq_true, Bool.not_eq_true', Gone, Gone]
  cases c.isRemoved n <;> simp

@[simp]
theorem stays_self (g : Graph) (n : NodeId) : g.stays g n = true := stays_iff.mpr id

@[simp]
theorem keepsEnds_self (g : Graph) (e : Edge) : g.keepsEnds g e = true := by simp [keepsEnds]

/-- `c` has the nodes of `g`, of which some may have been removed since. -/
structure Prunes (g c : Graph) : Prop where
  size : c.nodes.size = g.nodes.size
  label : ∀ n, c.label? n = g.label? n
  marks : c.marks = g.marks
  gone : ∀ {n : NodeId}, g.Gone n → c.Gone n

namespace Prunes

theorem refl (g : Graph) : g.Prunes g := ⟨rfl, fun _ => rfl, rfl, id⟩

theorem op (h : g.Prunes c) (n : NodeId) : c.op? n = g.op? n := op?_congr (h.label n)

theorem root (h : g.Prunes c) : c.root = g.root := congrArg (·.2.2) h.marks

theorem finish (h : g.Prunes c) : c.finish = g.finish := congrArg (·.2.1) h.marks

theorem remove (h : g.Prunes d) (hr : Removes d d' n) (hmarks : d'.marks = d.marks) :
    g.Prunes d' where
  size := hr.size.trans h.size
  label m := (hr.label m).trans (h.label m)
  marks := hmarks.trans h.marks
  gone hgone := hr.removed.mpr (.inl (h.gone hgone))

theorem stays_remove (h : g.Prunes d) (hr : Removes d d' n) (hlive : ¬ d.Gone n) (m : NodeId) :
    g.stays d' m = (g.stays d m && m != n) := by
  rw [Bool.eq_iff_iff, Bool.and_eq_true, bne_iff_ne, stays_iff, stays_iff, hr.removed]
  constructor
  · refine fun hm => ⟨fun hgone => hm (.inl hgone), ?_⟩
    rintro rfl
    exact hlive (h.gone (hm (.inr rfl)))
  · rintro ⟨hm, hne⟩ hgone
    exact hm (hgone.resolve_right hne)

theorem keepsEnds_remove (h : g.Prunes d) (hr : Removes d d' n) (hlive : ¬ d.Gone n) (e : Edge) :
    g.keepsEnds d' e = (g.keepsEnds d e && avoids n e) := by
  rw [keepsEnds, h.stays_remove hr hlive, h.stays_remove hr hlive, keepsEnds, avoids]
  simp only [Bool.and_assoc, Bool.and_left_comm]

end Prunes

/-! ## Changes that remove a node -/

/-- Where the change applies, it removes the node, which was still there, and no other. -/
def Removing (change? : Graph → NodeId → Option Graph) : Prop :=
  ∀ ⦃d d' : Graph⦄ ⦃n : NodeId⦄, n < d.nodes.size → change? d n = some d' →
    ¬ d.Gone n ∧ Removes d d' n ∧ d'.marks = d.marks

theorem lt_of_mem_reachable (h : n ∈ g.reachable) : n < g.nodes.size :=
  (Search.order_closed _ _ _).1 n h

theorem lt_of_mem_nodesOf {op : Op} (h : n ∈ g.nodesOf op) : n < g.nodes.size :=
  lt_of_mem_reachable (mem_nodesOf.mp h).1

theorem marks_moveUses (g : Graph) (old new : NodeId) : (g.moveUses old new).marks = g.marks := by
  refine List.foldlRecOn (motive := fun d : Graph => d.marks = g.marks) _ _ rfl ?_
  intro d hd use _
  exact (marks_eraseEdge d use.1).trans hd

theorem marks_bypass (g : Graph) (n : NodeId) : (g.bypass n).marks = g.marks :=
  bypass_induct (P := fun d : Graph => d.marks = g.marks) rfl fun _ _ hd => hd

theorem removing_dropDead : Removing dropDead? := by
  intro d d' n hn hd
  obtain ⟨hlive, -, -, ⟨-, rfl⟩ | ⟨-, -, rfl⟩⟩ := dropDead?_eq_some_iff.mp hd
  · exact ⟨hlive, removes_eraseNode hn, marks_eraseNode d n⟩
  · exact ⟨hlive, removes_bypass hn, (marks_eraseNode _ n).trans (marks_bypass d n)⟩

theorem removing_dropPhi : Removing dropPhi? := by
  intro d d' n hn hd
  obtain ⟨hlive, m, -, rfl⟩ := dropPhi?_eq_some_iff.mp hd
  exact ⟨hlive, removes_forward hn m, (marks_eraseNode _ n).trans (marks_moveUses d n m)⟩

/-! ## Sweeps -/

theorem sweep_concat (c : Graph) (change? : Graph → NodeId → Option Graph) (ids : List NodeId)
    (n : NodeId) : c.sweep change? (ids ++ [n]) = (c.sweep change? ids).attempt change? n := by
  rw [sweep, sweep, List.foldl_append]
  rfl

theorem attempt_of_some {r : Swept} (h : change? r.graph n = some d) :
    r.attempt change? n = ⟨d, true⟩ := by rw [Swept.attempt, h]

theorem attempt_of_none {r : Swept} (h : change? r.graph n = none) : r.attempt change? n = r := by
  rw [Swept.attempt, h]

/-- A sweep that finds nothing to change changes nothing. -/
theorem sweep_of_none (h : ∀ n ∈ ids, change? c n = none) : c.sweep change? ids = .unchanged c := by
  refine List.foldlRecOn (motive := (· = Swept.unchanged c)) _ _ rfl ?_
  rintro r rfl n hn
  exact attempt_of_none (h n hn)

/-- A sweep reports no change iff there is nothing to change at any of its nodes. -/
theorem changed_sweep_eq_false_iff :
    (c.sweep change? ids).changed = false ↔ ∀ n ∈ ids, change? c n = none := by
  refine ⟨fun h => ?_, fun h => by rw [sweep_of_none h]; rfl⟩
  induction ids using List.reverseRecOn with
  | nil => exact fun _ hn => absurd hn List.not_mem_nil
  | append_singleton ids n ih =>
    rw [sweep_concat] at h
    cases hd : change? (c.sweep change? ids).graph n with
    | some d =>
      rw [attempt_of_some hd] at h
      cases h
    | none =>
      rw [attempt_of_none hd] at h
      -- the graph has come to the last node as it was
      rw [sweep_of_none (ih h)] at hd
      intro m hm
      rcases List.mem_append.mp hm with hm | hm
      · exact ih h m hm
      · exact List.mem_singleton.mp hm ▸ hd

namespace Removing

variable (h : Removing change?) (hids : ∀ n ∈ ids, n < c.nodes.size)

include h hids in
theorem prunes_sweep : c.Prunes (c.sweep change? ids).graph := by
  refine sweep_induct (P := c.Prunes) (.refl c) ?_
  intro d d' n hn hd hd'
  obtain ⟨-, hr, hmarks⟩ := h (hd.size ▸ hids n hn) hd'
  exact hd.remove hr hmarks

include h hids in
/-- A sweep removes the nodes at which the change applies when their turn comes. -/
theorem stays_sweep_eq_false_iff : c.stays (c.sweep change? ids).graph n = false ↔
    ∃ before d', before ++ [n] <+: ids ∧ change? (c.sweep change? before).graph n = some d' := by
  induction ids using List.reverseRecOn with
  | nil => simp [sweep, Swept.unchanged]
  | append_singleton ids m ih =>
    have hids' : ∀ n ∈ ids, n < c.nodes.size := fun n hn => hids n (List.mem_append_left _ hn)
    have hm : m < c.nodes.size := hids m (List.mem_append_right _ (List.mem_singleton_self m))
    have hprunes := h.prunes_sweep hids'
    -- the turn of `n` is the last one or an earlier one
    have hturn : (∃ before d', before ++ [n] <+: ids ++ [m] ∧
        change? (c.sweep change? before).graph n = some d') ↔
        (n = m ∧ ∃ d', change? (c.sweep change? ids).graph m = some d') ∨
          ∃ before d', before ++ [n] <+: ids ∧
            change? (c.sweep change? before).graph n = some d' := by
      simp only [List.prefix_concat_iff, List.append_singleton_inj]
      grind
    rw [hturn, ← ih hids', sweep_concat]
    cases hd' : change? (c.sweep change? ids).graph m with
    | none => simp [attempt_of_none hd']
    | some d' =>
      obtain ⟨hlive, hr, -⟩ := h (hprunes.size ▸ hm) hd'
      rw [attempt_of_some hd', hprunes.stays_remove hr hlive, Bool.and_eq_false_iff,
        bne_eq_false_iff_eq]
      simp [or_comm]

end Removing

end StackJit.Graph
