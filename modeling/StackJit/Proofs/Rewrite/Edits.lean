import StackJit.Pass.Safepoints
import StackJit.Proofs.Token

/-!
# What the edits do to the edges

The edits that the passes are made of, each described by what it does to the control edges of a
graph and to its value edges. Forwarding a node to another moves uses, leading control past a node
replaces two control edges by one, and putting a node onto a control edge replaces one by two.
-/

namespace StackJit.Graph

/-- The edge does not touch the node. -/
def avoids (n : NodeId) (e : Edge) : Bool := e.source != n && e.target != n

theorem avoids_iff {n : NodeId} {e : Edge} : avoids n e = true ↔ e.source ≠ n ∧ e.target ≠ n := by
  simp [avoids]

def controlEdges (g : Graph) : List (EdgeId × Edge) := g.live.filter (·.2.isControl)

def valueEdges (g : Graph) : List (EdgeId × Edge) := g.live.filter (·.2.isValue)

/-- The value edges into a node, in attachment order. -/
def operands (g : Graph) (n : NodeId) : List Edge := (g.inputs n).filter (·.isValue)

theorem valueSources_eq_operands (g : Graph) (n : NodeId) :
    g.valueSources n = (g.operands n).map (·.source) :=
  rfl

section Views

variable {g : Graph}

theorem mem_controlEdges {i : EdgeId} {e : Edge} :
    (i, e) ∈ g.controlEdges ↔ g.edge? i = some e ∧ e.isControl = true := by
  rw [controlEdges, List.mem_filter, mem_live]

theorem mem_valueEdges {i : EdgeId} {e : Edge} :
    (i, e) ∈ g.valueEdges ↔ g.edge? i = some e ∧ e.isValue = true := by
  rw [valueEdges, List.mem_filter, mem_live]

/-- A number tells the edge. -/
theorem filter_live_id {i : EdgeId} {e : Edge} (he : g.edge? i = some e) :
    g.live.filter (·.1 == i) = [(i, e)] := by
  have hmem : (i, e) ∈ g.live.filter (·.1 == i) :=
    List.mem_filter.mpr ⟨mem_live.mpr he, beq_self_eq_true i⟩
  have hnodup : ((g.live.filter (·.1 == i)).map (·.1)).Nodup :=
    g.live_nodup.sublist (List.filter_sublist.map _)
  have hall : ∀ p ∈ g.live.filter (·.1 == i), p.1 = i := fun p hp =>
    beq_iff_eq.mp (List.mem_filter.mp hp).2
  generalize g.live.filter (·.1 == i) = l at hmem hnodup hall
  match l with
  | [] => cases hmem
  | [p] => rw [← List.mem_singleton.mp hmem]
  | p :: q :: l =>
    have hp := hall p List.mem_cons_self
    have hq := hall q (List.mem_cons_of_mem p List.mem_cons_self)
    simp [hp, hq] at hnodup

namespace Consistent

theorem operands_eq (hg : g.Consistent) (n : NodeId) :
    g.operands n = (g.valueEdges.filter (·.2.target == n)).map (·.2) := by
  rw [operands, Graph.inputs, hg.edgesInto_eq, List.filter_map, valueEdges, List.filter_filter,
    List.filter_filter]
  congr 1
  apply List.filter_congr
  intro p _
  exact Bool.and_comm _ _

theorem exits_eq_controlEdges (hg : g.Consistent) (n : NodeId) :
    g.exits n = g.controlEdges.filter fun p => p.2.source == n && !g.hasOp p.2.target .phi := by
  rw [hg.exits_eq, controlEdges, List.filter_filter]
  apply List.filter_congr
  intro p _
  rw [Bool.and_comm p.2.isControl, ← Bool.and_assoc, Bool.and_right_comm]

theorem enters_eq_controlEdges (hg : g.Consistent) (n : NodeId) :
    g.enters n = g.controlEdges.filter (·.2.target == n) := by
  rw [hg.enters_eq, controlEdges, List.filter_filter]

/-- The control edges from one node to another, seen from either side. -/
theorem exits_to_eq (hg : g.Consistent) {x y : NodeId} (hy : g.op? y ≠ some .phi) :
    (g.exits x).filter (·.2.target == y) = (g.enters y).filter (·.2.source == x) := by
  rw [hg.exits_eq_controlEdges, hg.enters_eq_controlEdges, List.filter_filter, List.filter_filter]
  apply List.filter_congr
  intro p _
  cases htarget : p.2.target == y with
  | false => simp
  | true =>
    have hphi : g.hasOp p.2.target .phi = false := by
      rw [hasOp, beq_eq_false_iff_ne, beq_iff_eq.mp htarget]
      exact hy
    rw [hphi, Bool.not_false, Bool.true_and]

theorem mem_phis_iff (hg : g.Consistent) {r p : NodeId} :
    p ∈ g.phis r ↔ g.op? p = some .phi ∧
      ∃ q ∈ g.controlEdges, q.2.source = r ∧ q.2.target = p := by
  rw [hg.mem_phis]
  refine and_congr_right fun _ => ⟨?_, ?_⟩
  · rintro ⟨e, he, hctl, hsource⟩
    obtain ⟨htarget, i, hi⟩ := hg.mem_inputs.mp he
    exact ⟨(i, e), mem_controlEdges.mpr ⟨hi, hctl⟩, hsource, htarget⟩
  · rintro ⟨⟨i, e⟩, he, hsource, htarget⟩
    obtain ⟨hi, hctl⟩ := mem_controlEdges.mp he
    exact ⟨e, hg.mem_inputs.mpr ⟨htarget, i, hi⟩, hctl, hsource⟩

end Consistent

end Views

/-! ## Removing a node -/

section Erase

variable {g : Graph}

theorem filter_live_eraseNode (hg : g.Consistent) (n : NodeId) (q : Edge → Bool) :
    ((g.eraseNode n).live.filter fun p => q p.2) =
      (g.live.filter fun p => q p.2).filter fun p => avoids n p.2 := by
  rw [live_eraseNode hg, List.filter_filter, List.filter_filter]
  apply List.filter_congr
  intro p _
  exact Bool.and_comm _ _

theorem controlEdges_eraseNode (hg : g.Consistent) (n : NodeId) :
    (g.eraseNode n).controlEdges = g.controlEdges.filter fun p => avoids n p.2 :=
  filter_live_eraseNode hg n (·.isControl)

theorem valueEdges_eraseNode (hg : g.Consistent) (n : NodeId) :
    (g.eraseNode n).valueEdges = g.valueEdges.filter fun p => avoids n p.2 :=
  filter_live_eraseNode hg n (·.isValue)

end Erase

/-! ## Forwarding a node -/

/-- Makes `new` stand for `old`, which goes. -/
def forward (g : Graph) (old new : NodeId) : Graph := (g.moveUses old new).eraseNode old

/-- The operands of a node after the uses of `old` have been moved to `new`: those come last. -/
def requeue (old new : NodeId) (es : List Edge) : List Edge :=
  es.filter (·.source != old) ++ (es.filter (·.source == old)).map ({ · with source := new })

section Forward

variable {g : Graph} {old new : NodeId}

theorem controlEdges_moveUses (hg : g.Consistent) (old new : NodeId) :
    (g.moveUses old new).controlEdges = g.controlEdges := by
  have hmoved : (stamp g.edges.size ((g.live.filter fun p => isUse old p.2).map
      fun p => { p.2 with source := new })).filter (·.2.isControl) = [] := by
    refine filter_stamp_eq_nil (q := fun e => e.isControl) _ fun e he => ?_
    obtain ⟨p, hp, rfl⟩ := List.mem_map.mp he
    have huse := (List.mem_filter.mp hp).2
    rw [isUse, Bool.and_eq_true, Edge.isValue, Bool.not_eq_true'] at huse
    exact huse.1
  rw [controlEdges, live_moveUses hg, List.filter_append, hmoved, List.append_nil, controlEdges,
    List.filter_filter]
  apply List.filter_congr
  intro p _
  cases hctl : p.2.isControl with
  | false => rfl
  | true => simp [isUse, Edge.isValue, hctl]

theorem operands_moveUses (hg : g.Consistent) (hnew : new < g.nodes.size) (t : NodeId) :
    (g.moveUses old new).operands t = requeue old new (g.operands t) := by
  have hkept : ((g.live.filter fun p => !isUse old p.2).filter (·.2.isValue)).filter
      (·.2.target == t) = (g.valueEdges.filter (·.2.target == t)).filter (·.2.source != old) := by
    simp only [valueEdges, List.filter_filter]
    apply List.filter_congr
    intro p _
    cases p.2.target == t <;> cases hval : p.2.isValue <;> simp [isUse, hval, bne]
  have hmoved : (((stamp g.edges.size ((g.live.filter fun p => isUse old p.2).map
      fun p => { p.2 with source := new })).filter (·.2.isValue)).filter
        (·.2.target == t)).map (·.2) =
        ((g.valueEdges.filter (·.2.target == t)).filter (·.2.source == old)).map
          fun p => { p.2 with source := new } := by
    rw [List.filter_filter, filter_stamp fun e => e.target == t && e.isValue, List.filter_map,
      List.filter_filter, valueEdges, List.filter_filter, List.filter_filter]
    congr 1
    apply List.filter_congr
    intro p _
    have hval : ({ p.2 with source := new } : Edge).isValue = p.2.isValue := rfl
    simp only [Function.comp_apply, hval]
    cases p.2.target == t <;> cases hval : p.2.isValue <;> simp [isUse, hval]
  rw [(hg.moveUses old new hnew).operands_eq, valueEdges, live_moveUses hg, List.filter_append,
    List.filter_append, List.map_append, hkept, hmoved, requeue, hg.operands_eq, List.filter_map,
    List.filter_map, List.map_map]
  rfl

/-- An erased node leaves the operands of other nodes that do not use it. -/
theorem operands_eraseNode (hg : g.Consistent) {n t : NodeId} (ht : t ≠ n)
    (hsource : ∀ e ∈ g.operands t, e.source ≠ n) : (g.eraseNode n).operands t = g.operands t := by
  rw [(hg.eraseNode n).operands_eq, valueEdges_eraseNode hg, List.filter_filter, hg.operands_eq]
  congr 1
  apply List.filter_congr
  intro p hp
  cases htarget : p.2.target == t with
  | false => rfl
  | true =>
    have hmem : p.2 ∈ g.operands t := by
      rw [hg.operands_eq]
      exact List.mem_map_of_mem (List.mem_filter.mpr ⟨hp, htarget⟩)
    rw [Bool.true_and, avoids_iff, beq_iff_eq.mp htarget]
    exact ⟨hsource p.2 hmem, ht⟩

theorem source_requeue {es : List Edge} {e : Edge} (hne : new ≠ old) (he : e ∈ requeue old new es) :
    e.source ≠ old := by
  rcases List.mem_append.mp he with he | he
  · simpa using (List.mem_filter.mp he).2
  · obtain ⟨e', -, rfl⟩ := List.mem_map.mp he
    exact hne

theorem controlEdges_forward (hg : g.Consistent) (hnew : new < g.nodes.size) :
    (g.forward old new).controlEdges = g.controlEdges.filter fun p => avoids old p.2 := by
  rw [forward, controlEdges_eraseNode (hg.moveUses old new hnew), controlEdges_moveUses hg]

theorem operands_forward (hg : g.Consistent) (hnew : new < g.nodes.size) (hne : new ≠ old)
    {t : NodeId} (ht : t ≠ old) :
    (g.forward old new).operands t = requeue old new (g.operands t) := by
  have hmoved : (g.moveUses old new).operands t = requeue old new (g.operands t) :=
    operands_moveUses hg hnew t
  rw [forward, operands_eraseNode (hg.moveUses old new hnew) ht, hmoved]
  rw [hmoved]
  exact fun e he => source_requeue hne he

/-- What is an edge after the uses of `old` have been moved was one, or comes from `new`. -/
theorem edge?_moveUses (hg : g.Consistent) {i : EdgeId} {e : Edge}
    (he : (g.moveUses old new).edge? i = some e) : g.edge? i = some e ∨ e.source = new := by
  rw [← mem_live, live_moveUses hg, List.mem_append] at he
  rcases he with he | he
  · exact .inl (mem_live.mp (List.mem_filter.mp he).1)
  · obtain ⟨p, -, heq⟩ := List.mem_map.mp (le_of_mem_stamp he).2
    exact .inr (congrArg Edge.source heq).symm

theorem edge?_forward (hg : g.Consistent) (hnew : new < g.nodes.size) {i : EdgeId} {e : Edge}
    (he : (g.forward old new).edge? i = some e) : g.edge? i = some e ∨ e.source = new :=
  edge?_moveUses hg ((edge?_eraseNode (hg.moveUses old new hnew)).mp he).1

/-- Moving uses does not depend on what the operands are used as. -/
theorem filter_requeue {q : Edge → Bool}
    (hq : ∀ (e : Edge) (m : NodeId), q { e with source := m } = q e)
    (old new : NodeId) (es : List Edge) :
    (requeue old new es).filter q = requeue old new (es.filter q) := by
  rw [requeue, requeue, List.filter_append, List.filter_map, List.filter_filter, List.filter_filter,
    List.filter_filter, List.filter_filter]
  congr 1
  · apply List.filter_congr
    intro e _
    exact Bool.and_comm _ _
  · congr 1
    apply List.filter_congr
    intro e _
    rw [Function.comp_apply, hq, Bool.and_comm]

end Forward

/-! ## Leading control past a node -/

section Bypass

variable {g : Graph} {n : NodeId}

/-- A node that control does not come to from elsewhere is not bypassed. -/
theorem bypass_of_unentered (h : ∀ p ∈ g.enters n, p.2.source = n) : g.bypass n = g := by
  have hnone : (g.inputs n).filter (fun e => e.isControl && e.source != n) = [] := by
    refine List.filter_eq_nil_iff.mpr fun e he htrue => ?_
    rw [Bool.and_eq_true, bne_iff_ne] at htrue
    obtain ⟨p, hp, rfl⟩ := List.mem_map.mp he
    exact htrue.2 (h p (List.mem_filter.mpr ⟨hp, htrue.1⟩))
  rw [bypass, hnone]
  rfl

/-- Control that enters a node by one edge and leaves it by one edge is led past it. -/
theorem bypass_of_single {i j : EdgeId} {enter leave : Edge} (henter : g.enters n = [(i, enter)])
    (hleave : (g.edgesOutOf n).filter (·.2.isControl) = [(j, leave)]) (hsource : enter.source ≠ n)
    (htarget : leave.target ≠ n)
    (hnew : ∀ e ∈ g.outputs enter.source, e.isControl = true → e.output = enter.output →
      e.target ≠ leave.target) :
    g.bypass n = g.addEdge ⟨enter.source, leave.target, enter.output, leave.input⟩ := by
  have henters : (g.inputs n).filter (fun e => e.isControl && e.source != n) = [enter] := by
    have hmap : (g.inputs n).filter (·.isControl) = [enter] := by
      rw [Graph.inputs, List.filter_map]
      exact congrArg (List.map (·.2)) henter
    have hand : (fun e : Edge => e.isControl && e.source != n) =
        fun e => (e.source != n) && e.isControl := funext fun e => Bool.and_comm _ _
    rw [hand, ← List.filter_filter, hmap, List.filter_cons_of_pos (by simpa using hsource)]
    rfl
  have hleaves : (g.outputs n).filter (fun e => e.isControl && e.target != n) = [leave] := by
    have hmap : (g.outputs n).filter (·.isControl) = [leave] := by
      rw [Graph.outputs, List.filter_map]
      exact congrArg (List.map (·.2)) hleave
    have hand : (fun e : Edge => e.isControl && e.target != n) =
        fun e => (e.target != n) && e.isControl := funext fun e => Bool.and_comm _ _
    rw [hand, ← List.filter_filter, hmap, List.filter_cons_of_pos (by simpa using htarget)]
    rfl
  have hany : ((g.outputs enter.source).any fun e =>
      e.isControl && e.target == leave.target && e.output == enter.output) = false := by
    rw [List.any_eq_false]
    intro e he htrue
    simp only [Bool.and_eq_true, beq_iff_eq] at htrue
    exact hnew e he htrue.1.1 htrue.2 htrue.1.2
  rw [bypass, henters, hleaves]
  simp only [List.foldl_cons, List.foldl_nil, linkPast]
  rw [hany]
  rfl

/-- What adding edges keeps, leading control past a node keeps. -/
theorem bypass_induct {P : Graph → Prop} (h : P g) (hadd : ∀ d e, P d → P (d.addEdge e)) :
    P (g.bypass n) := by
  have hlink : ∀ (leaves : List Edge) (enter : Edge) (d : Graph), P d →
      P (leaves.foldl (fun g leave => g.linkPast enter leave) d) := by
    intro leaves enter
    induction leaves with
    | nil => exact fun d hd => hd
    | cons leave leaves ih =>
      intro d hd
      refine ih (d.linkPast enter leave) ?_
      unfold linkPast
      split
      · exact hd
      · exact hadd d _ hd
  unfold bypass
  generalize (g.inputs n).filter (fun e => e.isControl && e.source != n) = enters
  generalize (g.outputs n).filter (fun e => e.isControl && e.target != n) = leaves
  induction enters generalizing g with
  | nil => exact h
  | cons enter enters ih => exact ih (hlink leaves enter g h)

theorem controlEdges_addEdge (g : Graph) {e : Edge} (he : e.isControl = true) :
    (g.addEdge e).controlEdges = g.controlEdges ++ [(g.edges.size, e)] := by
  rw [controlEdges, live_addEdge, List.filter_append]
  simp [controlEdges, he]

theorem valueEdges_addEdge (g : Graph) {e : Edge} (he : e.isControl = true) :
    (g.addEdge e).valueEdges = g.valueEdges := by
  rw [valueEdges, live_addEdge, List.filter_append]
  simp [valueEdges, Edge.isValue, he]

theorem controlEdges_addEdge_value (g : Graph) {e : Edge} (he : e.isValue = true) :
    (g.addEdge e).controlEdges = g.controlEdges := by
  rw [Edge.isValue, Bool.not_eq_true'] at he
  rw [controlEdges, live_addEdge, List.filter_append]
  simp [controlEdges, he]

theorem valueEdges_addEdge_value (g : Graph) {e : Edge} (he : e.isValue = true) :
    (g.addEdge e).valueEdges = g.valueEdges ++ [(g.edges.size, e)] := by
  rw [valueEdges, live_addEdge, List.filter_append]
  simp [valueEdges, he]

theorem operands_addEdge (hg : g.Consistent) {e : Edge} (he : e.isValue = true)
    (hs : e.source < g.nodes.size) (ht : e.target < g.nodes.size) (x : NodeId) :
    (g.addEdge e).operands x = g.operands x ++ if x = e.target then [e] else [] := by
  rw [(hg.addEdge hs ht).operands_eq, valueEdges_addEdge_value g he, List.filter_append,
    List.map_append, hg.operands_eq]
  by_cases hx : x = e.target
  · simp [hx]
  · simp [hx, Ne.symm hx]

end Bypass

/-! ## Putting a node onto a control edge -/

/-- Adds a node and puts it onto an edge. -/
def mount (g : Graph) (op : Op) (props : Props) (edge : EdgeId) : Graph :=
  (g.addNode op props).interpose edge g.freshNode

section Mount

variable {g : Graph} {i : EdgeId} {e : Edge} (op : Op) (props : Props)

theorem mount_eq (he : g.edge? i = some e) :
    g.mount op props i = (((g.addNode op props).eraseEdge i).addEdge
      ⟨e.source, g.nodes.size, e.output, .control⟩).addEdge
        ⟨g.nodes.size, e.target, .control, e.input⟩ := by
  rw [mount, interpose, edge?_addNode, he]
  rfl

theorem consistent_mount (hg : g.Consistent) (he : g.edge? i = some e) :
    (g.mount op props i).Consistent := by
  obtain ⟨hsource, htarget⟩ := hg.ends he
  rw [mount_eq op props he]
  refine Consistent.addEdge (Consistent.addEdge ((hg.addNode op props).eraseEdge i) ?_ ?_) ?_ ?_
  · simpa using Nat.lt_succ_of_lt hsource
  · simp
  · simp
  · simpa using Nat.lt_succ_of_lt htarget

theorem numNodes_mount (he : g.edge? i = some e) :
    (g.mount op props i).nodes.size = g.nodes.size + 1 := by
  simp [mount_eq op props he]

theorem label?_mount (he : g.edge? i = some e) (n : NodeId) :
    (g.mount op props i).label? n = if n = g.nodes.size then some (op, props) else g.label? n := by
  rw [mount_eq op props he]
  simp [label?_addNode]

theorem isRemoved_mount (he : g.edge? i = some e) (n : NodeId) :
    (g.mount op props i).isRemoved n = g.isRemoved n := by
  rw [mount_eq op props he, isRemoved_addEdge, isRemoved_addEdge, isRemoved_eraseEdge,
    isRemoved_addNode]

theorem edge?_mount (he : g.edge? i = some e) {j : EdgeId} (hj : j ≠ i) {e' : Edge}
    (he' : g.edge? j = some e') : (g.mount op props i).edge? j = some e' := by
  have hlt := edge?_lt he'
  rw [mount_eq op props he, edge?_addEdge, edge?_addEdge, edge?_eraseEdge, edge?_addNode]
  simp only [size_addEdge, size_eraseEdge]
  have hsize : (g.addNode op props).edges.size = g.edges.size := rfl
  rw [hsize, if_neg (Nat.ne_of_lt (Nat.lt_succ_of_lt hlt)), if_neg (Nat.ne_of_lt hlt),
    if_neg hj, he']

theorem controlEdges_mount (he : g.edge? i = some e) :
    (g.mount op props i).controlEdges = g.controlEdges.filter (·.1 != i) ++
      [(g.edges.size, ⟨e.source, g.nodes.size, e.output, .control⟩),
        (g.edges.size + 1, ⟨g.nodes.size, e.target, .control, e.input⟩)] := by
  have herase : ((g.addNode op props).eraseEdge i).controlEdges =
      g.controlEdges.filter (·.1 != i) := by
    rw [controlEdges, live_eraseEdge, live_addNode, controlEdges, List.filter_filter,
      List.filter_filter]
    apply List.filter_congr
    intro p _
    exact Bool.and_comm _ _
  rw [mount_eq op props he, controlEdges_addEdge _ (by simp [Edge.isControl]),
    controlEdges_addEdge _ (by simp [Edge.isControl]), herase, List.append_assoc]
  simp [addNode]

theorem valueEdges_mount (he : g.edge? i = some e) (hctl : e.isControl = true) :
    (g.mount op props i).valueEdges = g.valueEdges := by
  rw [mount_eq op props he, valueEdges_addEdge _ (by simp [Edge.isControl]),
    valueEdges_addEdge _ (by simp [Edge.isControl]), valueEdges, live_eraseEdge, live_addNode,
    valueEdges, List.filter_filter]
  apply List.filter_congr
  intro p hp
  by_cases hi : p.1 = i
  · have hp' := mem_live.mp (show (p.1, p.2) ∈ g.live from hp)
    rw [hi, he] at hp'
    rw [← Option.some.inj hp']
    simp [Edge.isValue, hctl]
  · simp [hi]

end Mount

/-! ## Nodes of rewritten graphs -/

/-- The nodes that are marked in a graph. -/
def marks (g : Graph) : NodeId × NodeId × NodeId := (g.start, g.finish, g.root)

theorem marks_eraseEdge (g : Graph) (i : EdgeId) : (g.eraseEdge i).marks = g.marks := by
  unfold eraseEdge
  cases g.edge? i <;> rfl

theorem marks_eraseNode (g : Graph) (n : NodeId) : (g.eraseNode n).marks = g.marks := by
  have hedges : ∀ (ids : List EdgeId) (g : Graph), (g.eraseEdges ids).marks = g.marks := by
    intro ids
    induction ids with
    | nil => exact fun _ => rfl
    | cons i ids ih => exact fun g => (ih _).trans (marks_eraseEdge g i)
  unfold eraseNode
  cases g.node? n with
  | none => rfl
  | some m => exact hedges _ g

/-- `c` has the nodes of `g`, and its edges are between nodes that have not been removed. -/
structure Descends (g c : Graph) : Prop where
  consistent : c.Consistent
  size : g.nodes.size ≤ c.nodes.size
  label : ∀ {n : NodeId}, n < g.nodes.size → c.label? n = g.label? n
  marks : c.marks = g.marks
  ends : ∀ {i : EdgeId} {e : Edge}, c.edge? i = some e →
    c.isRemoved e.source = false ∧ c.isRemoved e.target = false

namespace Descends

variable {g c : Graph}

theorem op (h : g.Descends c) {n : NodeId} (hn : n < g.nodes.size) : c.op? n = g.op? n :=
  op?_congr (h.label hn)

theorem op_some (h : g.Descends c) {n : NodeId} {op : Op} (hop : g.op? n = some op) :
    c.op? n = some op := by
  rw [h.op (op?_lt hop)]
  exact hop

theorem eraseNode (h : g.Descends c) (n : NodeId) : g.Descends (c.eraseNode n) where
  consistent := h.consistent.eraseNode n
  size := by
    rw [numNodes_eraseNode]
    exact h.size
  label hm := by
    rw [label?_eraseNode]
    exact h.label hm
  marks := (marks_eraseNode c n).trans h.marks
  ends he := by
    obtain ⟨he, hs, ht⟩ := (edge?_eraseNode h.consistent).mp he
    obtain ⟨hs', ht'⟩ := h.ends he
    simp [isRemoved_eraseNode, hs, ht, hs', ht']

theorem eraseEdge (h : g.Descends c) (i : EdgeId) : g.Descends (c.eraseEdge i) where
  consistent := h.consistent.eraseEdge i
  size := by
    rw [numNodes_eraseEdge]
    exact h.size
  label hm := by
    rw [label?_eraseEdge]
    exact h.label hm
  marks := (marks_eraseEdge c i).trans h.marks
  ends {j e} he := by
    rw [edge?_eraseEdge] at he
    split at he
    · cases he
    · rw [isRemoved_eraseEdge, isRemoved_eraseEdge]
      exact h.ends he

theorem addEdge (h : g.Descends c) {e : Edge} (hs : e.source < c.nodes.size)
    (ht : e.target < c.nodes.size) (hs' : c.isRemoved e.source = false)
    (ht' : c.isRemoved e.target = false) : g.Descends (c.addEdge e) where
  consistent := h.consistent.addEdge hs ht
  size := by
    rw [numNodes_addEdge]
    exact h.size
  label hm := by
    rw [label?_addEdge]
    exact h.label hm
  marks := h.marks
  ends {j e'} he := by
    rw [isRemoved_addEdge, isRemoved_addEdge]
    rw [edge?_addEdge] at he
    split at he
    · cases he
      exact ⟨hs', ht'⟩
    · exact h.ends he

theorem addNode (h : g.Descends c) (op : Op) (props : Props) : g.Descends (c.addNode op props) where
  consistent := h.consistent.addNode op props
  size := by
    rw [numNodes_addNode]
    exact Nat.le_succ_of_le h.size
  label hm := by
    rw [label?_addNode, if_neg (Nat.ne_of_lt (Nat.lt_of_lt_of_le hm h.size))]
    exact h.label hm
  marks := h.marks
  ends he := by
    rw [isRemoved_addNode, isRemoved_addNode]
    exact h.ends he

theorem moveUses (h : g.Descends c) {old new : NodeId} (hnew : new < c.nodes.size)
    (hlive : c.isRemoved new = false) : g.Descends (c.moveUses old new) := by
  have huses : ∀ u ∈ c.valueUses old,
      u.2.target < c.nodes.size ∧ c.isRemoved u.2.target = false := by
    intro u hu
    rw [h.consistent.valueUses_eq] at hu
    have hu := mem_live.mp (show (u.1, u.2) ∈ c.live from (List.mem_filter.mp hu).1)
    exact ⟨(h.consistent.ends hu).2, (h.ends hu).2⟩
  unfold Graph.moveUses
  generalize c.valueUses old = uses at huses
  induction uses generalizing c with
  | nil => exact h
  | cons u uses ih =>
    obtain ⟨ht, ht'⟩ := huses u List.mem_cons_self
    have hnodes : (redirect new c u).nodes.size = c.nodes.size := by simp [redirect]
    have hremoved : ∀ n, (redirect new c u).isRemoved n = c.isRemoved n := by
      intro n
      rw [redirect, isRemoved_addEdge, isRemoved_eraseEdge]
    refine ih ((h.eraseEdge u.1).addEdge ?_ ?_ ?_ ?_) (hnodes ▸ hnew)
      ((hremoved new).trans hlive) ?_
    · simpa using hnew
    · simpa using ht
    · simpa [isRemoved_eraseEdge] using hlive
    · simpa [isRemoved_eraseEdge] using ht'
    · intro v hv
      rw [hnodes, hremoved]
      exact huses v (List.mem_cons_of_mem u hv)

theorem forward (h : g.Descends c) {old new : NodeId} (hnew : new < c.nodes.size)
    (hlive : c.isRemoved new = false) : g.Descends (c.forward old new) :=
  (h.moveUses hnew hlive).eraseNode old

theorem mount (h : g.Descends c) {i : EdgeId} {e : Edge} (he : c.edge? i = some e) (op : Op)
    (props : Props) : g.Descends (c.mount op props i) := by
  obtain ⟨hs, ht⟩ := h.consistent.ends he
  obtain ⟨hs', ht'⟩ := h.ends he
  have hnew : c.isRemoved c.nodes.size = false := by
    simp [isRemoved, node?]
  rw [mount_eq op props he]
  refine (((h.addNode op props).eraseEdge i).addEdge ?_ ?_ ?_ ?_).addEdge ?_ ?_ ?_ ?_
  · simpa using Nat.lt_succ_of_lt hs
  · simp
  · simpa [isRemoved_eraseEdge, isRemoved_addNode] using hs'
  · simpa [isRemoved_eraseEdge, isRemoved_addNode] using hnew
  · simp
  · simpa using Nat.lt_succ_of_lt ht
  · simpa [isRemoved_addEdge, isRemoved_eraseEdge, isRemoved_addNode] using hnew
  · simpa [isRemoved_addEdge, isRemoved_eraseEdge, isRemoved_addNode] using ht'

end Descends

end StackJit.Graph
