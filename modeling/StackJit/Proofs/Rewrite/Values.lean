import Mathlib.Data.List.Induction
import StackJit.Proofs.Rewrite.Threads

/-!
# Values through rewritten graphs

Passes forward placeholders and phis to other nodes. `Graph.Moves` is the list of the forwardings
that were made, in order; `Graph.follow moves n` is the node that stands for `n` in the end, and
`Graph.requeueAll moves` is what the forwardings do to the operands of a node: each puts the
operands that it touches last.

`Graph.Forwards g c moves` says that the nodes of `c` have the operands of `g` after these
forwardings, and that each forwarded node had no other choice.
-/

namespace StackJit

namespace Graph

/-! ## Forwardings -/

/-- The nodes that were forwarded, each with the node that took its place. -/
abbrev Moves := List (NodeId × NodeId)

/-- Where the uses of `old` go. -/
def substitute (old new n : NodeId) : NodeId := if n = old then new else n

def follow (moves : Moves) (n : NodeId) : NodeId :=
  moves.foldl (fun m mv => substitute mv.1 mv.2 m) n

def requeueAll (moves : Moves) (es : List Edge) : List Edge :=
  moves.foldl (fun es mv => requeue mv.1 mv.2 es) es

section Moves

variable {moves : Moves} {old new n : NodeId} {es : List Edge}

theorem substitute_self (old new : NodeId) : substitute old new old = new := if_pos rfl

theorem substitute_of_ne (h : n ≠ old) : substitute old new n = n := if_neg h

theorem follow_concat (moves : Moves) (old new n : NodeId) :
    follow (moves ++ [(old, new)]) n = substitute old new (follow moves n) := by
  simp [follow]

theorem requeueAll_concat (moves : Moves) (old new : NodeId) (es : List Edge) :
    requeueAll (moves ++ [(old, new)]) es = requeue old new (requeueAll moves es) := by
  simp [requeueAll]

/-- A node that was not forwarded stands for itself. -/
theorem follow_of_not_moved (h : ∀ mv ∈ moves, mv.1 ≠ n) : follow moves n = n := by
  induction moves using List.reverseRecOn with
  | nil => rfl
  | append_singleton moves mv ih =>
    have hn := ih fun mv' hmv' => h mv' (List.mem_append_left _ hmv')
    have hne : mv.1 ≠ n := h mv (List.mem_append_right _ (List.mem_singleton_self mv))
    rw [follow_concat, hn, substitute_of_ne (Ne.symm hne)]

/-- A node stands for itself, or another stands for it that took the place of some node. -/
theorem follow_cases (moves : Moves) (n : NodeId) :
    follow moves n = n ∨ ∃ mv ∈ moves, follow moves n = mv.2 := by
  induction moves using List.reverseRecOn with
  | nil => exact .inl rfl
  | append_singleton moves mv ih =>
    rw [follow_concat]
    by_cases hmv : follow moves n = mv.1
    · rw [hmv, substitute_self]
      exact .inr ⟨mv, List.mem_append_right _ (List.mem_singleton_self mv), rfl⟩
    · rw [substitute_of_ne hmv]
      exact ih.imp_right fun ⟨mv', hmv', heq⟩ => ⟨mv', List.mem_append_left _ hmv', heq⟩

theorem perm_requeue (old new : NodeId) (es : List Edge) :
    (requeue old new es).Perm (es.map (·.reroute (substitute old new))) := by
  have hkept : (es.filter (·.source != old)).map (·.reroute (substitute old new)) =
      es.filter (·.source != old) := by
    refine (List.map_congr_left fun e he => ?_).trans (List.map_id _)
    have hne : e.source ≠ old := by simpa using (List.mem_filter.mp he).2
    rw [Edge.reroute, substitute_of_ne hne]
    rfl
  have hmoved : (es.filter (·.source == old)).map (·.reroute (substitute old new)) =
      (es.filter (·.source == old)).map ({ · with source := new }) := by
    refine List.map_congr_left fun e he => ?_
    rw [Edge.reroute, beq_iff_eq.mp (List.mem_filter.mp he).2, substitute_self]
  have hsplit := (List.filter_append_perm (·.source != old) es).map
    (·.reroute (substitute old new))
  have hnot : (fun e : Edge => !(e.source != old)) = fun e => e.source == old :=
    funext fun e => Bool.not_not _
  rw [List.map_append, hkept, hnot, hmoved] at hsplit
  exact hsplit

theorem perm_requeueAll (moves : Moves) (es : List Edge) :
    (requeueAll moves es).Perm (es.map (·.reroute (follow moves))) := by
  induction moves using List.reverseRecOn with
  | nil => exact .of_eq (List.map_id _).symm
  | append_singleton moves mv ih =>
    rw [requeueAll_concat]
    refine (perm_requeue mv.1 mv.2 _).trans ((ih.map _).trans (.of_eq ?_))
    rw [List.map_map]
    refine List.map_congr_left fun e _ => ?_
    rw [Function.comp_apply, Edge.reroute, Edge.reroute, Edge.reroute, follow_concat]

end Moves

/-! ## Operands -/

/-- The node stands for a value. -/
def MakesValue (g : Graph) (n : NodeId) : Prop := ∃ op, g.op? n = some op ∧ op.makesValue = true

/-- The operands of the node are values. -/
def Valued (g : Graph) (n : NodeId) : Prop := ∀ m ∈ g.valueSources n, g.MakesValue m

end Graph

namespace Translation

variable {code : Code} {g : Graph}

/-- Only the finish node is given what may be no value. -/
theorem valued (t : Translation code g) {n : NodeId} {op : Op} (hop : g.op? n = some op)
    (hfinish : op ≠ .finish) : g.Valued n := by
  intro m hm
  obtain ⟨e, he, rfl⟩ := List.mem_map.mp hm
  obtain ⟨he, hvalue⟩ := List.mem_filter.mp he
  obtain ⟨rfl, i, hi⟩ := t.consistent.mem_inputs.mp he
  obtain ⟨o, u, ho, hu, hallow⟩ := t.typed hi
  obtain rfl : u = op := Option.some.inj (hu.symm.trans hop)
  refine ⟨o, ho, ?_⟩
  rw [Edge.isValue, Bool.not_eq_true'] at hvalue
  cases hin : e.input <;> rw [hin] at hallow <;> simp_all [Op.allows, Edge.isControl]

/-- Phis are decided by regions. -/
theorem region_of_mem_phis (t : Translation code g) {r p : NodeId} (hp : p ∈ g.phis r) :
    g.op? r = some .region := by
  obtain ⟨hop, e, he, hctl, rfl⟩ := t.mem_phis.mp hp
  obtain ⟨rfl, i, hi⟩ := t.consistent.mem_inputs.mp he
  have hin := (t.typed hi).control_input hctl
  obtain ⟨o, u, ho, hu, hallow⟩ := t.typed hi
  obtain rfl : u = .phi := Option.some.inj (hu.symm.trans hop)
  rw [hin] at hallow
  cases hout : e.output <;> rw [hout] at hallow <;> simp_all [Op.allows, Op.isEntered]

end Translation

namespace Graph

/-- The nodes of `c` have the operands of `g` after the forwardings `moves`. -/
structure Forwards (g c : Graph) (moves : Moves) : Prop where
  operands : ∀ {n : NodeId}, n < g.nodes.size → ¬ c.Gone n → g.Valued n →
    c.operands n = requeueAll moves (g.operands n)
  sources : ∀ mv ∈ moves, (g.op? mv.1 = some .input ∨ g.op? mv.1 = some .phi) ∧ c.Gone mv.1 ∧
    g.MakesValue mv.2
  /-- A node that another stands for had no choice. -/
  moved : ∀ {n : NodeId}, follow moves n ≠ n → ∀ m ∈ g.valueSources n,
    follow moves m = follow moves n
  phis : ∀ {r p : NodeId}, p ∈ c.phis r ↔ ¬ c.Gone p ∧ p ∈ g.phis r

namespace Forwards

variable {code : Code} {g c c' : Graph} {moves : Moves} {n m : NodeId}

theorem follow_of_live (h : g.Forwards c moves) (hlive : ¬ c.Gone n) : follow moves n = n :=
  follow_of_not_moved fun mv hmv heq => hlive (heq ▸ (h.sources mv hmv).2.1)

theorem makesValue_follow (h : g.Forwards c moves) (hn : g.MakesValue n) :
    g.MakesValue (follow moves n) := by
  rcases follow_cases moves n with heq | ⟨mv, hmv, heq⟩
  · rw [heq]
    exact hn
  · rw [heq]
    exact (h.sources mv hmv).2.2

theorem op_of_moved (h : g.Forwards c moves) (hne : follow moves n ≠ n) :
    g.op? n = some .input ∨ g.op? n = some .phi := by
  by_contra hop
  refine hne (follow_of_not_moved fun mv hmv heq => hop ?_)
  rw [← heq]
  exact (h.sources mv hmv).1

theorem valueSources_perm (h : g.Forwards c moves) (hn : n < g.nodes.size) (hlive : ¬ c.Gone n)
    (hvalued : g.Valued n) : (c.valueSources n).Perm ((g.valueSources n).map (follow moves)) := by
  have hperm := (perm_requeueAll moves (g.operands n)).map (·.source)
  rw [valueSources_eq_operands, h.operands hn hlive hvalued]
  rw [List.map_map] at hperm
  rw [valueSources_eq_operands, List.map_map]
  exact hperm

theorem makesValue_of_source (h : g.Forwards c moves) (hn : n < g.nodes.size) (hlive : ¬ c.Gone n)
    (hvalued : g.Valued n) (hm : m ∈ c.valueSources n) : g.MakesValue m := by
  rw [(h.valueSources_perm hn hlive hvalued).mem_iff] at hm
  obtain ⟨s, hs, rfl⟩ := List.mem_map.mp hm
  exact h.makesValue_follow (hvalued s hs)

/-- The graph before any pass. -/
theorem refl (t : Translation code g) : g.Forwards g [] where
  operands _ _ _ := rfl
  sources _ hmv := absurd hmv List.not_mem_nil
  moved hne := absurd rfl hne
  phis := by simp [t.whole]

/-! ## Removing a node -/

section Remove

variable {new : List (EdgeId × Edge)} (hd : g.Descends c) (hd' : g.Descends c')
  (hr : Removes c c' n)
  (hctl : c'.controlEdges = (c.controlEdges.filter fun p => avoids n p.2) ++ new)
  (hnew : ∀ p ∈ new, c.op? p.2.target ≠ some .phi)

include hd hd' hr hctl hnew in
/-- The other nodes decide the other phis. -/
theorem mem_phis_remove {r p : NodeId} : p ∈ c'.phis r ↔ p ∈ c.phis r ∧ r ≠ n ∧ p ≠ n := by
  rw [hd'.consistent.mem_phis_iff, hd.consistent.mem_phis_iff, hr.op, hctl, and_assoc]
  refine and_congr_right fun hop => ?_
  constructor
  · rintro ⟨q, hq, rfl, rfl⟩
    rcases List.mem_append.mp hq with hq | hq
    · obtain ⟨hq, havoid⟩ := List.mem_filter.mp hq
      obtain ⟨hs, ht⟩ := avoids_iff.mp havoid
      exact ⟨⟨q, hq, rfl, rfl⟩, hs, ht⟩
    · exact absurd hop (hnew q hq)
  · rintro ⟨⟨q, hq, rfl, rfl⟩, hs, ht⟩
    exact ⟨q, List.mem_append_left _ (List.mem_filter.mpr ⟨hq, avoids_iff.mpr ⟨hs, ht⟩⟩), rfl, rfl⟩

include hd hd' hr hctl hnew in
theorem phis_remove (h : g.Forwards c moves) (hphis : ∀ p, p ∉ c.phis n) {r p : NodeId} :
    p ∈ c'.phis r ↔ ¬ c'.Gone p ∧ p ∈ g.phis r := by
  rw [mem_phis_remove hd hd' hr hctl hnew, h.phis, hr.live]
  constructor
  · rintro ⟨⟨hlive, hp⟩, -, hne⟩
    exact ⟨⟨hlive, hne⟩, hp⟩
  · rintro ⟨⟨hlive, hne⟩, hp⟩
    refine ⟨⟨hlive, hp⟩, fun heq => hphis p ?_, hne⟩
    rw [← heq]
    exact h.phis.mpr ⟨hlive, hp⟩

include hd hd' hr hctl hnew in
/-- A node goes that has no uses where operands are values. -/
theorem remove (h : g.Forwards c moves) (hphis : ∀ p, p ∉ c.phis n)
    (hval : c'.valueEdges = c.valueEdges.filter fun p => avoids n p.2)
    (hunused : ∀ {i : EdgeId} {e : Edge}, c.edge? i = some e → e.isValue = true → e.source = n →
      e.target < g.nodes.size → ¬ g.Valued e.target) : g.Forwards c' moves where
  operands {x} hx hlive hvalued := by
    obtain ⟨hlive, hne⟩ := hr.live.mp hlive
    rw [← h.operands hx hlive hvalued, hd'.consistent.operands_eq, hd.consistent.operands_eq, hval,
      List.filter_filter]
    congr 1
    apply List.filter_congr
    intro p hp
    cases htarget : p.2.target == x with
    | false => rfl
    | true =>
      rw [beq_iff_eq] at htarget
      obtain ⟨hi, hvalue⟩ := mem_valueEdges.mp (show (p.1, p.2) ∈ c.valueEdges from hp)
      rw [Bool.true_and, avoids_iff, htarget]
      refine ⟨fun hsource => hunused hi hvalue hsource ?_ ?_, hne⟩
      · rw [htarget]
        exact hx
      · rw [htarget]
        exact hvalued
  sources mv hmv := by
    obtain ⟨hop, hgone, hvalue⟩ := h.sources mv hmv
    exact ⟨hop, hr.removed.mpr (.inl hgone), hvalue⟩
  moved := h.moved
  phis := phis_remove hd hd' hr hctl hnew h hphis

end Remove

/-! ## Forwarding a node -/

theorem not_mem_phis_of_op (h : g.Forwards c moves) (t : Translation code g) {op : Op}
    (hop : g.op? n = some op) (hregion : op ≠ .region) (p : NodeId) : p ∉ c.phis n := by
  intro hp
  rw [t.region_of_mem_phis (h.phis.mp hp).2] at hop
  exact hregion (Option.some.inj hop).symm

/-- A node is forwarded to the only other node that it may stand for. -/
theorem forward (h : g.Forwards c moves) (hd : g.Descends c) (t : Translation code g)
    (hop : g.op? n = some .input ∨ g.op? n = some .phi) (hm : m ∈ c.valueSources n) (hne : m ≠ n)
    (hall : ∀ s ∈ c.valueSources n, s = n ∨ s = m) :
    g.Forwards (c.forward n m) (moves ++ [(n, m)]) := by
  obtain ⟨op, hop', hcase⟩ : ∃ op, g.op? n = some op ∧ (op = .input ∨ op = .phi) :=
    hop.elim (fun h => ⟨_, h, .inl rfl⟩) fun h => ⟨_, h, .inr rfl⟩
  have hn : n < g.nodes.size := op?_lt hop'
  have hn' : n < c.nodes.size := Nat.lt_of_lt_of_le hn hd.size
  obtain ⟨e, he, hsource⟩ := List.mem_map.mp hm
  obtain ⟨htarget, i, hi⟩ := hd.consistent.mem_inputs.mp (List.mem_filter.mp he).1
  have hm' : m < c.nodes.size := hsource ▸ (hd.consistent.ends hi).1
  have hmlive : c.isRemoved m = false := hsource ▸ (hd.ends hi).1
  have hlive : ¬ c.Gone n := htarget ▸ (hd.not_gone hi).2
  have hvalued : g.Valued n := t.valued hop' (by rcases hcase with rfl | rfl <;> simp)
  have hr := removes_forward hn' m
  have hfixed := h.follow_of_live hlive
  refine ⟨fun {x} hx hxlive hxvalued => ?_, fun mv hmv => ?_, fun {x} hx s hs => ?_, ?_⟩
  · obtain ⟨hxlive, hxn⟩ := hr.live.mp hxlive
    rw [operands_forward hd.consistent hm' hne hxn, h.operands hx hxlive hxvalued,
      requeueAll_concat]
  · rcases List.mem_append.mp hmv with hmv | hmv
    · obtain ⟨hop, hgone, hvalue⟩ := h.sources mv hmv
      exact ⟨hop, hr.removed.mpr (.inl hgone), hvalue⟩
    · rw [List.mem_singleton.mp hmv]
      exact ⟨hop, hr.removed.mpr (.inr rfl), h.makesValue_of_source hn hlive hvalued hm⟩
  · rw [follow_concat] at hx
    rw [follow_concat, follow_concat]
    by_cases hmoved : follow moves x = x
    · -- the node itself is forwarded, and all that it may stand for with it
      have hxn : x = n := by
        by_contra hxn
        rw [hmoved, substitute_of_ne hxn] at hx
        exact hx rfl
      subst hxn
      rw [hfixed, substitute_self]
      have hmem : follow moves s ∈ c.valueSources x :=
        (h.valueSources_perm hn hlive hvalued).mem_iff.mpr (List.mem_map_of_mem hs)
      rcases hall _ hmem with heq | heq
      · rw [heq, substitute_self]
      · rw [heq, substitute_of_ne hne]
    · rw [h.moved hmoved s hs]
  · intro r p
    have hctl : (c.forward n m).controlEdges = _ := controlEdges_forward hd.consistent hm'
    rw [← List.append_nil (c.controlEdges.filter _)] at hctl
    exact phis_remove hd (hd.forward hm' hmlive) hr hctl (by simp) h
      (h.not_mem_phis_of_op t hop' (by rcases hcase with rfl | rfl <;> simp))

/-! ## Putting a node onto a control edge -/

section Mount

variable {i₀ : EdgeId} {e₀ : Edge} {op : Op} (hd : g.Descends c) (hd' : g.Descends c')
  (hlabel : ∀ {m : NodeId}, m ≠ c.nodes.size → c'.label? m = c.label? m)
  (hop : c'.op? c.nodes.size = some op) (hkind : op = .safepoint ∨ op = .guard)
  (he₀ : c.edge? i₀ = some e₀) (hphi : c.op? e₀.target ≠ some .phi)
  (hctl : c'.controlEdges = c.controlEdges.filter (·.1 != i₀) ++
    [(c.edges.size, ⟨e₀.source, c.nodes.size, e₀.output, .control⟩),
      (c.edges.size + 1, ⟨c.nodes.size, e₀.target, .control, e₀.input⟩)])

include hd hd' hlabel hop hkind he₀ hphi hctl in
theorem mem_phis_mount {r p : NodeId} : p ∈ c'.phis r ↔ p ∈ c.phis r := by
  have hold : ∀ {m : NodeId}, m < c.nodes.size → c'.op? m = c.op? m := fun hm =>
    op?_congr (hlabel (Nat.ne_of_lt hm))
  rw [hd'.consistent.mem_phis_iff, hd.consistent.mem_phis_iff, hctl]
  constructor
  · rintro ⟨hop', q, hq, rfl, rfl⟩
    rcases List.mem_append.mp hq with hq | hq
    · have hq := (List.mem_filter.mp hq).1
      obtain ⟨hi, -⟩ := mem_controlEdges.mp (show (q.1, q.2) ∈ c.controlEdges from hq)
      rw [hold (hd.consistent.ends hi).2] at hop'
      exact ⟨hop', q, hq, rfl, rfl⟩
    · -- neither new edge goes to a phi
      exfalso
      rcases List.mem_cons.mp hq with rfl | hq
      · rw [hop] at hop'
        rcases hkind with rfl | rfl <;> cases hop'
      · rw [List.mem_singleton.mp hq, hold (hd.consistent.ends he₀).2] at hop'
        exact hphi hop'
  · rintro ⟨hop', q, hq, rfl, rfl⟩
    obtain ⟨hi, -⟩ := mem_controlEdges.mp (show (q.1, q.2) ∈ c.controlEdges from hq)
    refine ⟨(hold (hd.consistent.ends hi).2).trans hop', q, ?_, rfl, rfl⟩
    refine List.mem_append_left _ (List.mem_filter.mpr ⟨hq, ?_⟩)
    rw [bne_iff_ne]
    intro heq
    rw [heq, he₀] at hi
    rw [← Option.some.inj hi] at hop'
    exact hphi hop'

include hd hd' hlabel hop hkind he₀ hphi hctl in
theorem mount (h : g.Forwards c moves) (hremoved : ∀ m, c'.isRemoved m = c.isRemoved m)
    (hoperands : ∀ {x : NodeId}, x < g.nodes.size → c'.operands x = c.operands x) :
    g.Forwards c' moves where
  operands hx hlive hvalued := by
    rw [Gone, hremoved] at hlive
    rw [hoperands hx, h.operands hx hlive hvalued]
  sources mv hmv := by
    rw [Gone, hremoved]
    exact h.sources mv hmv
  moved := h.moved
  phis := by
    intro r p
    rw [mem_phis_mount hd hd' hlabel hop hkind he₀ hphi hctl, h.phis, Gone, Gone, hremoved]

end Mount

end Forwards

end Graph

end StackJit
