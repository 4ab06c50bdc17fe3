import Mathlib.Order.RelClasses
import StackJit.Compile
import StackJit.Proofs.Rewrite.Changes
import StackJit.Proofs.Rewrite.Steps

/-!
# The passes rewrite the graph of a method

Each pass tries one change at each node of a list, so what the change keeps the pass keeps
(`Graph.sweep_induct`). The changes of all passes are those of `Graph.Rewrites`; what is left to
show is that they apply only where these are allowed: a placeholder does not stand for itself, what
dead code elimination drops is not passed by control or is passed in one way only, and the traces
and the edges that a pass has found are still there when it comes to them.

Main statement: `Translation.rewritten_optimize`.
-/

namespace StackJit

namespace Graph

/-! ## Sweeps -/

/-- What every change at the given nodes keeps, the sweep keeps. -/
theorem sweep_induct {P : Graph → Prop} {change? : Graph → NodeId → Option Graph}
    {ids : List NodeId} {c : Graph} (h : P c)
    (hchange : ∀ {d d' : Graph} {id : NodeId}, id ∈ ids → P d → change? d id = some d' → P d') :
    P (c.sweep change? ids).graph := by
  suffices hgen : ∀ r : Swept, P r.graph → P (ids.foldl (Swept.attempt change?) r).graph from
    hgen (.unchanged c) h
  induction ids with
  | nil => exact fun r hr => hr
  | cons id ids ih =>
    intro r hr
    refine ih (fun hid => hchange (List.mem_cons_of_mem _ hid)) _ ?_
    unfold Swept.attempt
    split
    · next d' hd' => exact hchange List.mem_cons_self hr hd'
    · exact hr

/-- What a change brings about at its node, and the other changes keep, the sweep brings about at
all its nodes. -/
theorem sweep_forall {P : Graph → Prop} {Q : Graph → NodeId → Prop}
    {change? : Graph → NodeId → Option Graph} {ids : List NodeId} {c : Graph} (h : P c)
    (hchange : ∀ {d d' : Graph} {id : NodeId}, id ∈ ids → P d → change? d id = some d' →
      P d' ∧ Q d' id ∧ ∀ m ∈ ids, Q d m → Q d' m)
    (hnone : ∀ {d : Graph} {id : NodeId}, id ∈ ids → P d → change? d id = none → Q d id) :
    ∀ n ∈ ids, Q (c.sweep change? ids).graph n := by
  suffices hgen : ∀ (rest : List NodeId), (∀ n ∈ rest, n ∈ ids) → ∀ r : Swept, P r.graph →
      ∀ n ∈ ids, n ∈ rest ∨ Q r.graph n → Q (rest.foldl (Swept.attempt change?) r).graph n from
    fun n hn => hgen ids (fun _ hm => hm) (.unchanged c) h n hn (.inl hn)
  intro rest
  induction rest with
  | nil => exact fun _ r _ n _ hn => hn.resolve_left List.not_mem_nil
  | cons id rest ih =>
    intro hrest r hr n hn hcase
    have hid := hrest id List.mem_cons_self
    obtain ⟨hP, hQ, hkept⟩ : P (Swept.attempt change? r id).graph ∧
        Q (Swept.attempt change? r id).graph id ∧
        ∀ m ∈ ids, Q r.graph m → Q (Swept.attempt change? r id).graph m := by
      unfold Swept.attempt
      split
      · next d' hd' => exact hchange hid hr hd'
      · next hd' => exact ⟨hr, hnone hid hr hd', fun _ _ hm => hm⟩
    refine ih (fun m hm => hrest m (List.mem_cons_of_mem id hm)) _ hP n hn ?_
    rw [List.mem_cons] at hcase
    rcases hcase with (rfl | hmem) | hq
    · exact .inr hQ
    · exact .inl hmem
    · exact .inr (hkept n hn hq)

theorem mem_nodesOf {c : Graph} {op : Op} {n : NodeId} :
    n ∈ c.nodesOf op ↔ n ∈ c.reachable ∧ c.op? n = some op := by
  rw [nodesOf, nodesWhere, List.mem_filter, op?]
  cases c.node? n <;> simp

/-- A graph that the passes can make of `g`. -/
def Rewritten (g c : Graph) : Prop := ∃ moves, g.Rewrites c moves

end Graph

namespace Graph.Rewrites

variable {code : Code} {g c d d' : Graph} {moves : Moves} {n m : NodeId}

/-! ## Placeholders -/

/-- Only placeholders have been forwarded. -/
def Passed (g : Graph) (moves : Moves) : Prop :=
  ∀ n, Relation.ReflTransGen g.Passes n (follow moves n)

theorem passed_nil (g : Graph) : Passed g [] := fun _ => .refl

/-- A placeholder with one source has one in the graph of the method. -/
theorem exists_source (h : g.Rewrites c moves) (t : Translation code g)
    (hop : g.op? n = some .input) (hm : c.valueSources n = [m]) :
    ∃ s, g.Passes n s ∧ follow moves s = m := by
  have hlive : ¬ c.Gone n := by
    have hmem : m ∈ c.valueSources n := hm ▸ List.mem_singleton_self m
    obtain ⟨e, he, -⟩ := List.mem_map.mp hmem
    obtain ⟨rfl, i, hi⟩ := h.descends.consistent.mem_inputs.mp (List.mem_filter.mp he).1
    exact (h.descends.not_gone hi).2
  have hperm := h.forwards.valueSources_perm (op?_lt hop) hlive (t.valued hop (by simp))
  rw [hm] at hperm
  obtain ⟨s, hs, heq⟩ := List.map_eq_singleton_iff.mp (List.perm_singleton.mp hperm.symm)
  exact ⟨s, ⟨hop, hs⟩, heq⟩

/-- A placeholder does not come to stand for itself. -/
theorem passes_source (h : g.Rewrites d moves) (t : Translation code g) (hpassed : Passed g moves)
    (hop : g.op? n = some .input) (hm : d.valueSources n = [m]) :
    Relation.TransGen g.Passes n m ∧ m ≠ n := by
  obtain ⟨s, hs, hfollow⟩ := h.exists_source t hop hm
  have hpath : Relation.TransGen g.Passes n m := .head' hs (hfollow ▸ hpassed s)
  refine ⟨hpath, ?_⟩
  rintro rfl
  have hback := Relation.transGen_swap.mp hpath
  exact t.wellFounded_passes.transGen.asymmetric m m hback hback

theorem forwardInput (h : g.Rewrites d moves) (t : Translation code g) (hpassed : Passed g moves)
    (hop : g.op? n = some .input) (hm : d.valueSources n = [m]) :
    g.Rewrites (d.forward n m) (moves ++ [(n, m)]) ∧ Passed g (moves ++ [(n, m)]) ∧
      d.SameGuards (d.forward n m) := by
  obtain ⟨hpath, hne⟩ := h.passes_source t hpassed hop hm
  have hmem : m ∈ d.valueSources n := hm ▸ List.mem_singleton_self m
  refine ⟨h.forward t (.inl hop) hmem hne fun l hl => ?_, fun k => ?_,
    h.sameGuards_forward t (.inl hop) hmem hne⟩
  · rw [hm, List.mem_singleton] at hl
    exact .inr hl
  · rw [follow_concat]
    by_cases heq : follow moves k = n
    · rw [heq, substitute_self]
      exact (heq ▸ hpassed k).trans hpath.to_reflTransGen
    · rw [substitute_of_ne heq]
      exact hpassed k

/-! ## Guards -/

/-- A send is guarded on its only control input, for the kind that its site met. -/
theorem guarded_of_guardSend? {profile : Profile} (hd : d.guardSend? profile n = some d') :
    ∃ ip kind i e r, d.sendSite? n = some ip ∧ profile.monomorphic? ip = some kind ∧
      d.enters n = [(i, e)] ∧ d.op? e.source ≠ some .guard ∧ d.sourceFor? n .receiver = some r ∧
        d' = d.addGuard i r kind ip := by
  simp only [guardSend?, Option.bind_eq_bind, Option.bind_eq_some_iff] at hd
  obtain ⟨ip, hip, kind, hkind, hd⟩ := hd
  split at hd
  · next i e henter =>
    split at hd
    · cases hd
    · next hguard =>
      simp only [Option.bind_eq_some_iff] at hd
      obtain ⟨r, hr, hd⟩ := hd
      obtain rfl := Option.some.inj hd
      exact ⟨ip, kind, i, e, r, hip, hkind, henter, fun heq => hguard (hasOp_iff.mpr heq), hr, rfl⟩
  · cases hd

theorem guardSend (h : g.Rewrites d moves) (t : Translation code g) {profile : Profile}
    (hop : g.op? n = some .send) (hd : d.guardSend? profile n = some d') : g.Rewrites d' moves := by
  obtain ⟨ip, kind, i, e, r, -, -, henter, hguard, hr, rfl⟩ := guarded_of_guardSend? hd
  exact h.guard hop henter hguard hr kind ip t

end Graph.Rewrites

namespace Graph.Rewritten

variable {code : Code} {g c d d' : Graph} {n m : NodeId}

theorem dropPlaceholders (t : Translation code g) :
    g.Rewritten g.dropPlaceholders.graph ∧ g.SameGuards g.dropPlaceholders.graph := by
  have h : (∃ moves, g.Rewrites g.dropPlaceholders.graph moves ∧ Rewrites.Passed g moves) ∧
      g.SameGuards g.dropPlaceholders.graph := by
    refine sweep_induct (P := fun c =>
      (∃ moves, g.Rewrites c moves ∧ Rewrites.Passed g moves) ∧ g.SameGuards c)
      ⟨⟨[], t.rewrites, Rewrites.passed_nil g⟩, .refl g⟩ ?_
    rintro d d' n hn ⟨⟨moves, h, hpassed⟩, hsame⟩ hd
    obtain ⟨m, hm, rfl⟩ := forwarded_of_forwardInput? hd
    obtain ⟨h', hpassed', hsame'⟩ := h.forwardInput t hpassed (mem_nodesOf.mp hn).2 hm
    exact ⟨⟨_, h', hpassed'⟩, hsame.trans hsame'⟩
  obtain ⟨⟨moves, h, -⟩, hsame⟩ := h
  exact ⟨⟨moves, h⟩, hsame⟩

theorem placeGuards (h : g.Rewritten c) (t : Translation code g) (profile : Profile) :
    g.Rewritten (c.placeGuards profile).graph := by
  obtain ⟨moves, h⟩ := h
  refine ⟨moves, sweep_induct (P := (g.Rewrites · moves)) h ?_⟩
  intro d d' n hn hd hd'
  exact hd.guardSend t (h.op_old (mem_nodesOf.mp hn).2 (by simp) (by simp)) hd'

end Graph.Rewritten

/-- Regions are the only nodes of their kind. -/
theorem Translation.region_of_isRegion {code : Code} {g : Graph} (t : Translation code g)
    {n : NodeId} {op : Op} (hop : g.op? n = some op) (hregion : op.isRegion = true) :
    op = .region := by
  rcases t.ops hop with ⟨-, rfl⟩ | ⟨-, rfl⟩ | h | rfl | h | h
  · cases hregion
  · cases hregion
  · exact h
  · cases hregion
  · cases op <;> simp_all [Op.isRegion, Op.isPure]
  · cases op <;> simp_all [Op.isRegion, Op.isChained]

/-- What a traversal finds is the root or an end of an edge. -/
theorem Graph.Consistent.eq_root_or_exists_edge {g : Graph} (hg : g.Consistent) {n : NodeId}
    (hn : n ∈ g.reachable) :
    n = g.root ∨ ∃ i e, g.edge? i = some e ∧ (e.source = n ∨ e.target = n) := by
  cases (Search.mem_order _ _ _).mp hn with
  | root _ => exact .inl rfl
  | step _ hmem _ =>
    obtain ⟨e, he, hend⟩ := List.mem_flatMap.mp hmem
    obtain ⟨i, hi⟩ : ∃ i, g.edge? i = some e := by
      rcases List.mem_append.mp he with he | he
      · exact (hg.mem_inputs.mp he).2
      · exact (hg.mem_outputs.mp he).2
    exact .inr ⟨i, e, hi, (List.mem_pair.mp hend).imp Eq.symm Eq.symm⟩

namespace Graph.Rewrites

variable {code : Code} {g c d d' : Graph} {moves : Moves} {n m : NodeId}

/-! ## Safepoints -/

theorem root_eq (h : g.Rewrites c moves) (t : Translation code g) : c.root = 0 := by
  have hmarks := h.descends.marks
  rw [marks, marks, Prod.mk.injEq, Prod.mk.injEq] at hmarks
  rw [hmarks.2.2, t.root_eq]

/-- What a traversal finds has not been removed. -/
theorem not_gone_of_reachable (h : g.Rewrites c moves) (t : Translation code g)
    (hn : n ∈ c.reachable) : ¬ c.Gone n := by
  rcases h.descends.consistent.eq_root_or_exists_edge hn with rfl | ⟨i, e, he, rfl | rfl⟩
  · rw [h.root_eq t]
    exact h.threads.kept t.start_eq.2 rfl
  · exact (h.descends.not_gone he).1
  · exact (h.descends.not_gone he).2

theorem dropTrace (h : g.Rewrites c moves) (t : Translation code g) (hop : g.op? n = some .trace)
    (hlive : ¬ c.Gone n) : g.Rewrites ((c.bypass n).eraseNode n) moves ∧
      c.SameGuards ((c.bypass n).eraseNode n) := by
  obtain ⟨p, hp⟩ := t.enters_of_chained hop rfl
  have hone : (g.enters n).length ≤ 1 := by simp [hp]
  have hphis := h.forwards.not_mem_phis_of_op t hop (by simp)
  exact ⟨h.bypass t hop (by simp) hone hlive hphis,
    h.sameGuards_bypass t hop (by simp) hone hlive hphis⟩

/-- The traces found beforehand are still there when the sweep comes to them, and none is left. -/
theorem dropTraces (h : g.Rewrites c moves) (t : Translation code g) :
    g.Rewrites c.dropTraces.graph moves ∧ c.SameGuards c.dropTraces.graph ∧
      ∀ n, c.Gone n ∨ n ∈ c.nodesOf .trace → c.dropTraces.graph.Gone n := by
  have hids : ∀ n ∈ c.nodesOf .trace, g.op? n = some .trace ∧ ¬ c.Gone n := fun n hn =>
    ⟨h.op_old (mem_nodesOf.mp hn).2 (by simp) (by simp),
      h.not_gone_of_reachable t (mem_nodesOf.mp hn).1⟩
  have hnodup : (c.nodesOf .trace).Nodup := (Search.nodup_order _ _ _).filter _
  unfold Graph.dropTraces Graph.sweep
  generalize c.nodesOf .trace = ids at hids hnodup
  suffices hgen : ∀ r : Swept, g.Rewrites r.graph moves →
      (∀ n ∈ ids, g.op? n = some .trace ∧ ¬ r.graph.Gone n) →
        let d := (ids.foldl (Swept.attempt fun g id => some ((g.bypass id).eraseNode id)) r).graph
        g.Rewrites d moves ∧ r.graph.SameGuards d ∧ ∀ n, r.graph.Gone n ∨ n ∈ ids → d.Gone n from
    hgen (.unchanged c) h hids
  clear hids
  induction ids with
  | nil => exact fun r hr _ => ⟨hr, .refl _, fun n hn => hn.resolve_right List.not_mem_nil⟩
  | cons n ids ih =>
    intro r hr hall
    obtain ⟨hn, hnodup⟩ := List.nodup_cons.mp hnodup
    obtain ⟨hop, hlive⟩ := hall n List.mem_cons_self
    have hremoves := removes_bypass (Nat.lt_of_lt_of_le (op?_lt hop) hr.descends.size)
    obtain ⟨hdropped, hsame⟩ := hr.dropTrace t hop hlive
    obtain ⟨hrest, hsame', hgone⟩ := ih hnodup ⟨_, true⟩ hdropped fun m hm => by
      obtain ⟨hop', hlive'⟩ := hall m (List.mem_cons_of_mem n hm)
      exact ⟨hop', hremoves.live.mpr ⟨hlive', fun heq => hn (heq ▸ hm)⟩⟩
    refine ⟨hrest, hsame.trans hsame', fun m hm => hgone m ?_⟩
    rw [List.mem_cons, ← or_assoc] at hm
    exact hm.imp_left hremoves.removed.mpr

/-- The edges found beforehand are still there when safepoints come onto them. -/
theorem addSafepoints (t : Translation code g) {edges : List EdgeId} {c : Graph}
    (h : g.Rewrites c moves) (hnodup : edges.Nodup)
    (hop : c.op? n = some .finish ∨ c.op? n = some .region)
    (hedges : ∀ i ∈ edges, ∃ e, c.edge? i = some e ∧ e.isControl = true ∧ e.target = n) :
    g.Rewrites (edges.foldl addSafepoint c) moves ∧ c.SameGuards (edges.foldl addSafepoint c) := by
  induction edges generalizing c with
  | nil => exact ⟨h, .refl c⟩
  | cons i edges ih =>
    obtain ⟨hi, hnodup⟩ := List.nodup_cons.mp hnodup
    obtain ⟨e, he, hctl, htarget⟩ := hedges i List.mem_cons_self
    have hn : n ≠ c.nodes.size := by
      rintro rfl
      rcases hop with hop | hop <;> exact Nat.lt_irrefl _ (op?_lt hop)
    have hop' : (c.addSafepoint i).op? n = c.op? n := by
      change (c.mount .safepoint [] i).op? n = c.op? n
      exact op?_congr ((label?_mount .safepoint [] he n).trans (if_neg hn))
    have hsame := h.sameGuards_safepoint he hctl (htarget ▸ hop)
    refine And.imp_right hsame.trans
      (ih (h.safepoint t he hctl (htarget ▸ hop)) hnodup (hop'.symm ▸ hop) fun j hj => ?_)
    obtain ⟨e', he', hrest⟩ := hedges j (List.mem_cons_of_mem i hj)
    have hne : j ≠ i := fun heq => hi (heq ▸ hj)
    exact ⟨e', edge?_mount .safepoint [] he hne he', hrest⟩

theorem coverEntries (h : g.Rewrites d moves) (t : Translation code g)
    (hop : g.op? n = some .finish ∨ g.op? n = some .region) (hd : d.coverEntries? n = some d') :
    g.Rewrites d' moves ∧ d.SameGuards d' := by
  have hc := h.descends.consistent
  obtain ⟨-, rfl⟩ := coverEntries?_eq_some_iff.mp hd
  refine addSafepoints t h (nodup_uncoveredEdges hc n)
    (hop.imp h.descends.op_some h.descends.op_some) fun i hi => ?_
  obtain ⟨e, he, hctl, htarget, -⟩ := (mem_uncoveredEdges hc).mp hi
  exact ⟨e, he, hctl, htarget⟩

/-- Safepoints go onto the edges into the finish node and into regions. -/
theorem op_of_safepointTargets (h : g.Rewrites c moves) (t : Translation code g)
    (hn : n ∈ c.safepointTargets) : g.op? n = some .finish ∨ g.op? n = some .region := by
  rcases List.mem_cons.mp hn with rfl | hn
  · have hmarks := h.descends.marks
    rw [marks, marks, Prod.mk.injEq, Prod.mk.injEq] at hmarks
    rw [hmarks.2.1, t.finish_eq.1]
    exact .inl t.finish_eq.2
  · obtain ⟨-, hregion⟩ := List.mem_filter.mp (List.mem_filter.mp hn).1
    cases hnode : c.node? n with
    | none =>
      rw [hnode] at hregion
      cases hregion
    | some node =>
      rw [hnode, Option.any_some] at hregion
      have hop : c.op? n = some node.op := by rw [op?, hnode]; rfl
      have hop' := h.op_old hop (fun heq => by simp [heq, Op.isRegion] at hregion)
        fun heq => by simp [heq, Op.isRegion] at hregion
      rw [t.region_of_isRegion hop' hregion] at hop'
      exact .inr hop'

theorem placeSafepoints (h : g.Rewrites c moves) (t : Translation code g) :
    g.Rewrites c.placeSafepoints.graph moves ∧ c.SameGuards c.placeSafepoints.graph := by
  obtain ⟨htraces, hsame, -⟩ := h.dropTraces t
  refine sweep_induct (P := fun d => g.Rewrites d moves ∧ c.SameGuards d) ⟨htraces, hsame⟩ ?_
  rintro d d' n hn ⟨hd, hsame⟩ hd'
  exact (hd.coverEntries t (htraces.op_of_safepointTargets t hn) hd').imp_right hsame.trans

/-! ## Dead code -/

/-- A node that control passes has outputs. -/
theorem outputs_ne_nil (h : g.Rewrites c moves) (t : Translation code g) {op : Op}
    (hop : c.op? n = some op) (hlive : ¬ c.Gone n) (hidle : op.isIdle = false)
    (hfinish : op ≠ .finish) (hroot : n ≠ 0) : c.outputs n ≠ [] := by
  have hexit : c.exits n ≠ [] := by
    by_cases hn : n < g.nodes.size
    · have hop' : g.op? n = some op := h.descends.op hn ▸ hop
      obtain ⟨hleft, hstart⟩ : op.isLeft = true ∧ op ≠ .start := by
        rcases t.ops hop' with ⟨h, -⟩ | ⟨-, h⟩ | h | h | h | h
        · exact absurd h hroot
        · exact absurd h hfinish
        · simp [h, Op.isLeft]
        · simp [h, Op.isIdle] at hidle
        · cases op <;> simp_all [Op.isPure, Op.isIdle]
        · cases op <;> simp_all [Op.isChained, Op.isLeft]
      intro hnil
      have hperm := h.threads.exits hn hlive
      rw [hnil, List.map_nil, List.nil_perm, List.map_eq_nil_iff] at hperm
      exact t.exits_ne_nil hop' hleft hstart hperm
    · obtain ⟨p, hp⟩ := (h.threads.inserted (Nat.le_of_not_lt hn) (op?_lt hop)).2.2.1
      simp [hp]
  obtain ⟨p, hp⟩ := List.exists_mem_of_ne_nil _ hexit
  exact List.ne_nil_of_mem (List.mem_map_of_mem (List.mem_filter.mp hp).1)

/-- The control edges out of a node that control does not pass decide no phi. -/
theorem not_control_of_idle (h : g.Rewrites c moves) (t : Translation code g) {op : Op}
    (hop : g.op? n = some op) (hidle : op.isIdle = true) {e : Edge} (he : e ∈ c.outputs n) :
    e.isControl = false := by
  by_contra hctl
  rw [Bool.not_eq_false] at hctl
  have hc := h.descends.consistent
  obtain ⟨hsource, i, hi⟩ := hc.mem_outputs.mp he
  by_cases hphi : c.op? e.target = some .phi
  · have hmem : e.target ∈ c.phis n :=
      hc.mem_phis_iff.mpr ⟨hphi, (i, e), mem_controlEdges.mpr ⟨hi, hctl⟩, hsource, rfl⟩
    exact h.forwards.not_mem_phis_of_op t hop (by rintro rfl; cases hidle) _ hmem
  · have hmem := hc.mem_exits.mpr ⟨hi, hsource, hctl, hphi⟩
    rw [h.threads.exits_of_idle h.descends t hop hidle] at hmem
    cases hmem

theorem controlSources_eq_enters (c : Graph) (n : NodeId) :
    c.controlSources n = (c.enters n).map (·.2.source) := by
  rw [controlSources, ← Translation.map_enters, List.map_map]
  rfl

theorem length_controlSources (c : Graph) (n : NodeId) :
    (c.controlSources n).length = (c.enters n).length := by
  rw [controlSources_eq_enters, List.length_map]

/-- A node without an effect that control passes is a jump or a region with one entry. -/
theorem passes_of_passesControl (h : g.Rewrites d moves) (t : Translation code g)
    (hlive : ¬ d.Gone n) (hn : n < d.nodes.size) (hout : d.outputs n ≠ [])
    (hpass : d.passesControl n = true) :
    ∃ op, g.op? n = some op ∧ (op = .region ∨ op = .jump ∨ op = .trace) ∧
      (g.enters n).length ≤ 1 := by
  rw [passesControl, Bool.and_eq_true, Bool.and_eq_true] at hpass
  obtain ⟨⟨hall, -⟩, heffect⟩ := hpass
  obtain ⟨op, hop⟩ := op?_of_lt hn
  have hop' : g.op? n = some op :=
    h.op_old hop (fun heq => by simp [hasEffect, hop, heq] at heffect)
    fun heq => by simp [hasEffect, hop, heq] at heffect
  have hidle : op.isIdle = false := by
    by_contra hidle
    rw [Bool.not_eq_false] at hidle
    obtain ⟨e, he⟩ := List.exists_mem_of_ne_nil _ hout
    have hctl := List.all_eq_true.mp hall e he
    rw [h.not_control_of_idle t hop' hidle he] at hctl
    cases hctl
  refine ⟨op, hop', ?_⟩
  rcases t.ops hop' with ⟨-, rfl⟩ | ⟨-, rfl⟩ | rfl | rfl | hpure | hchained
  · simp [hasEffect, hop] at heffect
  · simp [hasEffect, hop] at heffect
  · simp only [hasEffect, hop, length_controlSources, gt_iff_lt, Bool.not_eq_true',
      decide_eq_false_iff_not, not_lt] at heffect
    rw [h.threads.enters (op?_lt hop') hlive (by simp [hop'])] at heffect
    exact ⟨.inl rfl, heffect⟩
  · cases hidle
  · cases op <;> simp_all [Op.isPure, Op.isIdle]
  · obtain ⟨p, hp⟩ := t.enters_of_chained hop' hchained
    refine ⟨?_, by simp [hp]⟩
    cases op <;> simp_all [Op.isChained, hasEffect]

/-- Nothing is dropped where there is no node. -/
theorem dropDead?_of_ge (hd : d.Consistent) (hn : d.nodes.size ≤ n)
    (hd' : d.dropDead? n = some d') : d' = d := by
  have hnode : d.node? n = none := by simp [node?, hn]
  obtain ⟨-, -, -, ⟨-, rfl⟩ | ⟨hout, -⟩⟩ := dropDead?_eq_some_iff.mp hd'
  · rw [eraseNode, hnode]
  · exact absurd (hd.outputs_of_ge hn) hout

/-- What is dropped is a node without uses that control does not pass, or one that it
only passes. -/
inductive Dropped (g d d' : Graph) (n : NodeId) : Prop where
  | none (heq : d' = d)
  | idle {op : Op} (hop : g.op? n = some op) (hidle : op.isIdle = true) (hout : d.outputs n = [])
      (heq : d' = d.eraseNode n)
  | passed {op : Op} (hop : g.op? n = some op) (hpass : op = .region ∨ op = .jump ∨ op = .trace)
      (hone : (g.enters n).length ≤ 1) (hlive : ¬ d.Gone n) (hphis : ∀ p, p ∉ d.phis n)
      (heq : d' = (d.bypass n).eraseNode n)

theorem dropped_of_dropDead? (h : g.Rewrites d moves) (t : Translation code g)
    (hd : d.dropDead? n = some d') : Dropped g d d' n := by
  have hc := h.descends.consistent
  by_cases hn : n < d.nodes.size
  swap
  · exact .none (dropDead?_of_ge hc (Nat.le_of_not_lt hn) hd)
  obtain ⟨op, hop⟩ := op?_of_lt hn
  obtain ⟨hlive, hroot, hfinish, ⟨hout, heq⟩ | ⟨hout, hpass, heq⟩⟩ := dropDead?_eq_some_iff.mp hd
  · have hidle : op.isIdle = true := by
      by_contra hidle
      rw [Bool.not_eq_true] at hidle
      rw [h.root_eq t] at hroot
      exact h.outputs_ne_nil t hop hlive hidle (fun heq => hfinish (heq ▸ hop)) hroot hout
    have hop' := h.op_old hop (by rintro rfl; cases hidle) (by rintro rfl; cases hidle)
    exact .idle hop' hidle hout heq
  · obtain ⟨op, hop', hcase, hone⟩ := h.passes_of_passesControl t hlive hn hout hpass
    refine .passed hop' hcase hone hlive (fun p hp => ?_) heq
    -- no control edge leads to a phi
    rw [passesControl, Bool.and_eq_true, Bool.and_eq_true] at hpass
    obtain ⟨hphi, q, hq, hsource, htarget⟩ := hc.mem_phis_iff.mp hp
    obtain ⟨hi, hctl⟩ := mem_controlEdges.mp (show (q.1, q.2) ∈ d.controlEdges from hq)
    have hmem : p ∈ d.controlTargets n := htarget ▸ List.mem_map_of_mem (f := (·.target))
      (List.mem_filter.mpr ⟨hc.mem_outputs.mpr ⟨hsource, q.1, hi⟩, hctl⟩)
    have hnone := hpass.1.2
    rw [Bool.not_eq_true', List.any_eq_false] at hnone
    exact hnone p hmem (hasOp_iff.mpr hphi)

theorem dropDead (h : g.Rewrites d moves) (t : Translation code g)
    (hd : d.dropDead? n = some d') : g.Rewrites d' moves ∧ d.SameGuards d' := by
  cases h.dropped_of_dropDead? t hd with
  | none heq =>
    subst heq
    exact ⟨h, .refl _⟩
  | idle hop hidle hout heq =>
    subst heq
    exact ⟨h.erase t hop hidle hout, h.sameGuards_erase t hop hidle hout⟩
  | passed hop hpass hone hlive hphis heq =>
    subst heq
    exact ⟨h.bypass t hop hpass hone hlive hphis, h.sameGuards_bypass t hop hpass hone hlive hphis⟩

theorem dropDeadCode (h : g.Rewrites c moves) (t : Translation code g) :
    g.Rewrites c.dropDeadCode.graph moves ∧ c.SameGuards c.dropDeadCode.graph := by
  refine sweep_induct (P := fun d => g.Rewrites d moves ∧ c.SameGuards d) ⟨h, .refl c⟩ ?_
  rintro d d' n - ⟨hd, hsame⟩ hd'
  exact (hd.dropDead t hd').imp_right hsame.trans

/-! ## Phis without a choice -/

theorem dropPhi (h : g.Rewrites d moves) (t : Translation code g) (hop : g.op? n = some .phi)
    (hd : d.dropPhi? n = some d') : g.Rewritten d' ∧ d.SameGuards d' := by
  obtain ⟨-, m, ⟨hm, hne, hall⟩, rfl⟩ := dropPhi?_eq_some_iff.mp hd
  exact ⟨⟨_, h.forward t (.inr hop) hm hne hall⟩, h.sameGuards_forward t (.inr hop) hm hne⟩

end Graph.Rewrites

namespace Graph.Rewritten

variable {code : Code} {g c : Graph}

theorem placeSafepoints (h : g.Rewritten c) (t : Translation code g) :
    g.Rewritten c.placeSafepoints.graph ∧ c.SameGuards c.placeSafepoints.graph := by
  obtain ⟨moves, h⟩ := h
  exact (h.placeSafepoints t).imp_left (⟨moves, ·⟩)

theorem dropDeadCode (h : g.Rewritten c) (t : Translation code g) :
    g.Rewritten c.dropDeadCode.graph ∧ c.SameGuards c.dropDeadCode.graph := by
  obtain ⟨moves, h⟩ := h
  exact (h.dropDeadCode t).imp_left (⟨moves, ·⟩)

theorem dropPhis (h : g.Rewritten c) (t : Translation code g) :
    g.Rewritten c.dropPhis.graph ∧ c.SameGuards c.dropPhis.graph := by
  obtain ⟨moves, hmoves⟩ := h
  refine sweep_induct (P := fun d => g.Rewritten d ∧ c.SameGuards d) ⟨⟨moves, hmoves⟩, .refl c⟩ ?_
  rintro d d' n hn ⟨⟨moves', hd⟩, hsame⟩ hd'
  have hop := hmoves.op_old (mem_nodesOf.mp hn).2 (by simp) (by simp)
  exact (hd.dropPhi t hop hd').imp_right hsame.trans

end Graph.Rewritten

/-! ## Schedules -/

namespace Schedule

variable {P : Graph → Prop} {c : Graph}

/-- What every pass keeps, running them all keeps. -/
theorem runPasses_induct {passes : List (Pass Id)}
    (hpass : ∀ p ∈ passes, ∀ c, P c → P (p.run c).run.graph) (h : P c) :
    P (runPasses passes c).run.graph := by
  induction passes generalizing c with
  | nil => exact h
  | cons p passes ih =>
    exact ih (fun q hq => hpass q (List.mem_cons_of_mem p hq)) (hpass p List.mem_cons_self c h)

theorem runPasses_append (ps qs : List (Pass Id)) (c : Graph) :
    (runPasses (ps ++ qs) c).run.graph = (runPasses qs (runPasses ps c).run.graph).run.graph := by
  induction ps generalizing c with
  | nil => rfl
  | cons p ps ih => exact ih _

theorem runPasses_singleton (p : Pass Id) (c : Graph) :
    (runPasses [p] c).run.graph = (p.run c).run.graph :=
  rfl

theorem iterateFrom_of_changed {s : Schedule Id} (h : (s.run c).run.changed = true)
    (done limit : Nat) :
    s.iterateFrom done (limit + 1) c = s.iterateFrom (done + 1) limit (s.run c).run.graph := by
  change (if (s.run c).run.changed then s.iterateFrom (done + 1) limit (s.run c).run.graph
    else pure ⟨(s.run c).run.graph, done + 1, true⟩) = _
  rw [h, if_pos rfl]

theorem iterateFrom_of_same {s : Schedule Id} (h : (s.run c).run.changed = false)
    (done limit : Nat) :
    (s.iterateFrom done (limit + 1) c).run = ⟨(s.run c).run.graph, done + 1, true⟩ := by
  change (if (s.run c).run.changed then s.iterateFrom (done + 1) limit (s.run c).run.graph
    else pure ⟨(s.run c).run.graph, done + 1, true⟩).run = _
  rw [h, if_neg Bool.false_ne_true]
  rfl

theorem iterateFrom_induct {s : Schedule Id}
    (hpass : ∀ p ∈ s.passes, ∀ c, P c → P (p.run c).run.graph) (h : P c) (done limit : Nat) :
    P (s.iterateFrom done limit c).run.graph := by
  induction limit generalizing c done with
  | zero => exact h
  | succ limit ih =>
    have hround : P (s.run c).run.graph := runPasses_induct hpass h
    cases hchanged : (s.run c).run.changed with
    | true =>
      rw [iterateFrom_of_changed hchanged]
      exact ih hround (done + 1)
    | false =>
      rw [iterateFrom_of_same hchanged]
      exact hround

end Schedule

/-- A rewritten graph realizes the graph that it was made from. -/
theorem Graph.Rewrites.realizes {code : Code} {g c : Graph} {moves : Moves} (h : g.Rewrites c moves)
    (t : Translation code g) : g.Realizes c (follow moves) where
  consistent := h.descends.consistent
  label hl := (h.descends.label (label?_lt hl)).trans hl
  start := congrArg (·.1) h.descends.marks
  finish := congrArg (·.2.1) h.descends.marks
  ends := h.descends.not_gone
  control := h.threads.control
  kept := h.threads.kept
  merges := h.threads.merges
  operands {n _} hop hfinish hlive := by
    have hoperands := h.forwards.operands (op?_lt hop) hlive (t.valued hop hfinish)
    rw [show (c.inputs n).filter (·.isValue) = _ from hoperands]
    exact perm_requeueAll moves (g.operands n)
  moved hne := ⟨h.forwards.op_of_moved hne, h.forwards.moved hne⟩
  phis := h.forwards.phis
  exits := h.threads.exits
  inserted {n op} hnew hop := by
    obtain ⟨-, hcase, hexits, -⟩ := h.threads.inserted hnew (op?_lt hop)
    rw [hop] at hcase
    exact ⟨by simpa using hcase, hexits⟩
  follows {x ρ j e} hlive harrives hj htarget := by
    -- control leaves only nodes of the graph
    obtain ⟨i, e', he', -⟩ := harrives.exists_exit
    obtain ⟨hi, rfl, -⟩ := t.consistent.mem_exits.mp he'
    exact h.threads.follows (t.consistent.ends hi).1 hlive harrives hj htarget

/-- The graph of a method when the guards have been placed. -/
def CompileOptions.guarded (o : CompileOptions) (profile : Option Profile) (g : Graph) : Graph :=
  (Id.run (Schedule.runPasses (if o.guards then profile.toList.map Pass.guards else [])
    g.dropPlaceholders.graph)).graph

theorem CompileOptions.run_instrumentation (o : CompileOptions) (profile : Option Profile)
    (g : Graph) : ((o.instrumentation profile).run g.dropPlaceholders.graph).run.graph =
      (Id.run (Schedule.runPasses (if o.safepoints then [Pass.safepoints] else [])
        (o.guarded profile g))).graph :=
  Schedule.runPasses_append _ _ _

namespace Translation

variable {code : Code} {g : Graph}

theorem rewritten_guarded (t : Translation code g) (o : CompileOptions) (profile : Option Profile) :
    g.Rewritten (o.guarded profile g) := by
  refine Schedule.runPasses_induct (fun p hp c hc => ?_) (Graph.Rewritten.dropPlaceholders t).1
  split at hp
  · obtain ⟨prof, -, rfl⟩ := List.mem_map.mp hp
    exact hc.placeGuards t prof
  · cases hp

/-- Whatever the options, the passes rewrite the graph of a method. -/
theorem rewritten_optimize (t : Translation code g) (o : CompileOptions)
    (profile : Option Profile) : g.Rewritten (o.optimize profile g) := by
  have hplaced : g.Rewritten
      ((o.instrumentation profile).run g.dropPlaceholders.graph).run.graph := by
    rw [o.run_instrumentation]
    refine Schedule.runPasses_induct (fun p hp c hc => ?_) (t.rewritten_guarded o profile)
    split at hp
    · rw [List.mem_singleton.mp hp]
      exact (hc.placeSafepoints t).1
    · cases hp
  refine Schedule.iterateFrom_induct (fun p hp c hc => ?_) hplaced 0 o.iterationLimit
  rcases List.mem_cons.mp hp with rfl | hp
  · exact (hc.dropDeadCode t).1
  · rw [List.mem_singleton.mp hp]
    exact (hc.dropPhis t).1

end Translation

end StackJit
