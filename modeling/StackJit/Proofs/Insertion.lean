import StackJit.Proofs.Bookkeeping
import StackJit.Proofs.Forwarding
import StackJit.Proofs.Removal

/-!
# Nodes put onto control edges

A safepoint or a guard is put onto a control edge. What it leads to is where the edge led, and what
a guard checks is a source of that node, so a traversal that finds the new node finds the ends of
the edge too (`Graph.Mounted.mem_reachable`). After any number of such insertions the old nodes have
the labels and the numbers of control inputs that they had, and no other node is found but those
that are new (`Graph.Widens`). Nothing is assumed of the graph but that its lists are consistent and
that its root is one of its nodes.
-/

namespace StackJit.Graph

variable {g c d : Graph} {n y r : NodeId} {op : Op} {i : EdgeId} {e : Edge}

theorem root_mem_reachable (h : g.root < g.nodes.size) : g.root ∈ g.reachable := by
  rw [reachable, Search.mem_order]
  exact .root h

theorem marks_mount (he : c.edge? i = some e) (op : Op) (props : Props) :
    (c.mount op props i).marks = c.marks := by
  have hadd : ∀ (b : Graph) (u : Edge), (b.addEdge u).marks = b.marks := fun _ _ => rfl
  rw [mount_eq op props he, hadd, hadd, marks_eraseEdge]
  rfl

/-- An input is a control input or an operand. -/
theorem mem_inputs_iff_enters {u : Edge} :
    u ∈ c.inputs n ↔ (∃ j, (j, u) ∈ c.enters n) ∨ u ∈ c.operands n := by
  constructor
  · intro hu
    obtain ⟨⟨j, u⟩, hj, rfl⟩ := List.mem_map.mp hu
    cases hctl : u.isControl with
    | true => exact .inl ⟨j, List.mem_filter.mpr ⟨hj, hctl⟩⟩
    | false => exact .inr (List.mem_filter.mpr ⟨hu, by simp [Edge.isValue, hctl]⟩)
  · rintro (⟨j, hj⟩ | hu)
    · exact List.mem_map_of_mem (f := (·.2)) (List.mem_filter.mp hj).1
    · exact (List.mem_filter.mp hu).1

/-! ## One node -/

namespace Mounted

variable (hm : Mounted c d op e i) (hc : c.Consistent) (hd : d.Consistent) (he : c.edge? i = some e)

include hm hc hd in
/-- An edge is old, leads to the new node or from it in place of the old edge, or gives the new node
an operand. -/
theorem edge_cases {j : EdgeId} {u : Edge} (hu : d.edge? j = some u) : (∃ k, c.edge? k = some u) ∨
    u.source = e.source ∧ u.target = c.nodes.size ∨ u.source = c.nodes.size ∧ u.target = e.target ∨
    u.target = c.nodes.size ∧ u ∈ d.operands c.nodes.size := by
  cases hctl : u.isControl with
  | true =>
    have hmem : (j, u) ∈ d.controlEdges := mem_controlEdges.mpr ⟨hu, hctl⟩
    rw [hm.control, List.mem_append, List.mem_cons, List.mem_singleton] at hmem
    rcases hmem with hmem | heq | heq
    · exact .inl ⟨j, (mem_controlEdges.mp (List.mem_filter.mp hmem).1).1⟩
    · rw [(Prod.mk.inj heq).2]
      exact .inr (.inl ⟨rfl, rfl⟩)
    · rw [(Prod.mk.inj heq).2]
      exact .inr (.inr (.inl ⟨rfl, rfl⟩))
  | false =>
    have hvalue : u.isValue = true := by rw [Edge.isValue, hctl, Bool.not_false]
    have hmem : u ∈ d.operands u.target :=
      List.mem_filter.mpr ⟨hd.mem_inputs.mpr ⟨rfl, j, hu⟩, hvalue⟩
    by_cases htarget : u.target = c.nodes.size
    · exact .inr (.inr (.inr ⟨htarget, htarget ▸ hmem⟩))
    · rw [hm.operands htarget] at hmem
      exact .inl (hc.mem_inputs.mp (List.mem_filter.mp hmem).1).2

include hm hc hd he in
/-- Old nodes are found as before, if the operands of the new one are found with the node that it
leads to. -/
theorem mem_reachable (hmarks : d.marks = c.marks) (hroot : c.root < c.nodes.size)
    (hoperands : ∀ u ∈ d.operands c.nodes.size,
      u.source < c.nodes.size ∧ (u.source ∈ c.reachable ↔ e.target ∈ c.reachable))
    (hn : n < c.nodes.size) (hreach : n ∈ d.reachable) : n ∈ c.reachable := by
  have hold : ∀ {m : NodeId}, m < c.nodes.size → substitute c.nodes.size e.target m = m :=
    fun hlt => substitute_of_ne (Nat.ne_of_lt hlt)
  -- the new node counts as the one that it leads to
  have hfound : substitute c.nodes.size e.target n ∈ c.reachable := by
    refine hd.reachable_induct (P := fun m => substitute c.nodes.size e.target m ∈ c.reachable)
      ?_ ?_ hreach
    · have hroot' : d.root = c.root := congrArg (·.2.2) hmarks
      rw [hroot', hold hroot]
      exact root_mem_reachable hroot
    · intro j u hu
      rcases hm.edge_cases hc hd hu with
        ⟨k, hk⟩ | ⟨hsource, htarget⟩ | ⟨hsource, htarget⟩ | ⟨htarget, hmem⟩
      · rw [hold (hc.ends hk).1, hold (hc.ends hk).2]
        exact hc.mem_reachable_iff hk
      · rw [hsource, htarget, substitute_self, hold (hc.ends he).1]
        exact hc.mem_reachable_iff he
      · rw [hsource, htarget, substitute_self, hold (hc.ends he).2]
      · obtain ⟨hlt, hiff⟩ := hoperands u hmem
        rw [htarget, substitute_self, hold hlt]
        exact hiff
  rwa [hold hn] at hfound

include hm hc hd he in
/-- The inputs of other nodes stay as they are. -/
theorem mem_inputs (hn : n < c.nodes.size) (hne : e.target ≠ n) {u : Edge} :
    u ∈ d.inputs n ↔ u ∈ c.inputs n := by
  rw [mem_inputs_iff_enters, mem_inputs_iff_enters,
    Threads.enters_mount_of_ne hc hd he hm.control hn hne, hm.operands (Nat.ne_of_lt hn)]

end Mounted

/-! ## Many nodes -/

/-- `c` is `g` with nodes of one kind put onto control edges. -/
structure Widens (op : Op) (g c : Graph) : Prop where
  consistent : c.Consistent
  size : g.nodes.size ≤ c.nodes.size
  marks : c.marks = g.marks
  label : ∀ {n : NodeId}, n < g.nodes.size → c.label? n = g.label? n
  fresh : ∀ {n : NodeId}, g.nodes.size ≤ n → n < c.nodes.size → c.op? n = some op
  enters : ∀ {n : NodeId}, n < g.nodes.size → (c.enters n).length = (g.enters n).length
  reachable : ∀ {n : NodeId}, n < g.nodes.size → n ∈ c.reachable → n ∈ g.reachable

namespace Widens

theorem refl (hg : g.Consistent) : Widens op g g where
  consistent := hg
  size := Nat.le_refl _
  marks := rfl
  label _ := rfl
  fresh hge hlt := absurd hlt (Nat.not_lt.mpr hge)
  enters _ := rfl
  reachable _ hn := hn

theorem root_lt (h : Widens op g c) (hroot : g.root < g.nodes.size) : c.root < c.nodes.size := by
  have heq : c.root = g.root := congrArg (·.2.2) h.marks
  rw [heq]
  exact Nat.lt_of_lt_of_le hroot h.size

/-- A node of another kind that is found is an old one, and was found before. -/
theorem old (h : Widens op g c) (hn : n ∈ c.reachable) (hop : c.op? n ≠ some op) :
    n ∈ g.reachable ∧ g.op? n = c.op? n := by
  have hlt : n < g.nodes.size := by
    by_contra hge
    exact hop (h.fresh (Nat.le_of_not_lt hge) (lt_of_mem_reachable hn))
  exact ⟨h.reachable hlt hn, (op?_congr (h.label hlt)).symm⟩

theorem mem_nodesOf (h : Widens op g c) {kind : Op} (hne : kind ≠ op) (hn : n ∈ c.nodesOf kind) :
    n ∈ g.nodesOf kind := by
  obtain ⟨hreach, hop⟩ := Graph.mem_nodesOf.mp hn
  have hother : c.op? n ≠ some op := fun heq => hne (Option.some.inj (hop.symm.trans heq))
  obtain ⟨hreach', hop'⟩ := h.old hreach hother
  exact Graph.mem_nodesOf.mpr ⟨hreach', hop'.trans hop⟩

/-- One more node. -/
theorem mounted (h : Widens op g c) (hroot : g.root < g.nodes.size) (hm : Mounted c d op e i)
    (hd : d.Consistent) (hmarks : d.marks = c.marks) (he : c.edge? i = some e)
    (hctl : e.isControl = true)
    (hoperands : ∀ u ∈ d.operands c.nodes.size,
      u.source < c.nodes.size ∧ (u.source ∈ c.reachable ↔ e.target ∈ c.reachable)) :
    Widens op g d where
  consistent := hd
  size := by
    have hsize := h.size
    have hgrown := hm.size
    omega
  marks := hmarks.trans h.marks
  label hn := (hm.label (Nat.ne_of_lt (Nat.lt_of_lt_of_le hn h.size))).trans (h.label hn)
  fresh {n} hge hlt := by
    by_cases hnew : n = c.nodes.size
    · rw [hnew]
      exact hm.op
    · rw [hm.size] at hlt
      rw [op?_congr (hm.label hnew)]
      exact h.fresh hge (Nat.lt_of_le_of_ne (Nat.le_of_lt_succ hlt) hnew)
  enters hn := by
    have hlt := Nat.lt_of_lt_of_le hn h.size
    exact (Threads.length_enters_mount h.consistent hd he hctl hm.control hlt).trans (h.enters hn)
  reachable hn hreach := by
    refine h.reachable hn ?_
    exact hm.mem_reachable h.consistent hd he hmarks (h.root_lt hroot) hoperands
      (Nat.lt_of_lt_of_le hn h.size) hreach

/-! ## Safepoints -/

theorem addSafepoint (h : Widens .safepoint g c) (hroot : g.root < g.nodes.size)
    (he : c.edge? i = some e) (hctl : e.isControl = true) :
    Widens .safepoint g (c.addSafepoint i) := by
  have hc := h.consistent
  have hnone : (c.addSafepoint i).operands c.nodes.size = [] :=
    operands_mount_new hc he hctl .safepoint []
  refine h.mounted hroot (mounted_mount hc he hctl .safepoint []) (consistent_mount _ _ hc he)
    (marks_mount he _ _) he hctl fun u hu => ?_
  rw [hnone] at hu
  exact absurd hu List.not_mem_nil

theorem addSafepoints (h : Widens .safepoint g c) (hroot : g.root < g.nodes.size)
    {edges : List EdgeId} (hnodup : edges.Nodup)
    (hedges : ∀ i ∈ edges, ∃ e, c.edge? i = some e ∧ e.isControl = true) :
    Widens .safepoint g (edges.foldl Graph.addSafepoint c) := by
  induction edges generalizing c with
  | nil => exact h
  | cons i edges ih =>
    obtain ⟨hi, hnodup⟩ := List.nodup_cons.mp hnodup
    obtain ⟨e, he, hctl⟩ := hedges i List.mem_cons_self
    refine ih (h.addSafepoint hroot he hctl) hnodup fun j hj => ?_
    -- the other edges are still there
    obtain ⟨u, hu, huctl⟩ := hedges j (List.mem_cons_of_mem i hj)
    exact ⟨u, edge?_mount .safepoint [] he (fun heq => hi (heq ▸ hj)) hu, huctl⟩

/-! ## Guards -/

theorem guardSend (h : Widens .guard g c) (hroot : g.root < g.nodes.size) {profile : Profile}
    (hd : c.guardSend? profile n = some d) : Widens .guard g d := by
  have hc := h.consistent
  have hd' : d.Consistent := (hc.later.guardSend hd).consistent
  obtain ⟨ip, kind, i, e, r, -, -, henter, -, hr, rfl⟩ := Rewrites.guarded_of_guardSend? hd
  obtain ⟨he, htarget, hctl⟩ := hc.mem_enters.mp (henter ▸ List.mem_singleton_self (i, e))
  have hlt := hc.lt_of_sourceFor? hr
  obtain ⟨hm, -, hoperands⟩ := mounted_addGuard hc he hctl hlt kind ip
  refine h.mounted hroot hm hd' (marks_mount he _ _) he hctl ?_
  rw [hoperands]
  intro u hu
  rw [List.mem_singleton.mp hu]
  refine ⟨hlt, ?_⟩
  -- the receiver is a source of the send
  obtain ⟨v, hv, rfl⟩ := Option.map_eq_some_iff.mp hr
  obtain ⟨hvtarget, j, hj⟩ := hc.mem_inputs.mp (List.mem_of_find?_eq_some hv)
  rw [htarget, ← hvtarget]
  exact hc.mem_reachable_iff hj

end Widens

end StackJit.Graph
