import StackJit.Proofs.Build.Growth

/-!
# Control chains

Which edges the graph of a method can have (`Op.allows`), and how control runs through its nodes.
`Graph.enters` and `Graph.exits` are the control edges of a node; the edge from a region to a phi
that it decides is not an exit. `Graph.Chained g ends` says that control enters each chained node by
one edge and leaves it by one edge, apart from the open `ends`, which have no exit yet.
-/

namespace StackJit

namespace Op

/-- The nodes that stand for a value. -/
def makesValue : Op → Bool
  | phi | input | constant | self | arg | send | not => true
  | _ => false

/-- The nodes for values that control does not pass and does not decide. -/
def isPure : Op → Bool
  | input | constant | self | arg | not => true
  | _ => false

/-- The nodes of a block that control passes, one after the other. -/
def isChained : Op → Bool
  | trace | send | jump | branch => true
  | _ => false

/-- The nodes that control leaves. -/
def isLeft : Op → Bool
  | start | region | trace | send | jump | branch => true
  | _ => false

/-- The nodes that control enters. -/
def isEntered : Op → Bool
  | finish | region | trace | send | jump | branch => true
  | _ => false

/-- Whether a node of operation `s` may lead to one of operation `t` in the given roles. What a
block without a return ends the method with need not be a value. -/
def allows (s t : Op) (output input : Role) : Bool :=
  match input with
  | .control =>
    match output with
    | .control => (s.isLeft && t.isEntered) || (s == .region && t == .phi)
    | .whenTrue | .whenFalse => s == .branch && t == .region
    | _ => false
  | .receiver | .args => output == .value && s.makesValue && t == .send
  | .condition => output == .value && s.makesValue && t == .branch
  | .value =>
    output == .value &&
      ((s.makesValue && (t == .not || t == .input || t == .phi)) || (s != .finish && t == .finish))
  | _ => false

theorem not_isChained_of_isPure {op : Op} (h : op.isPure = true) : op.isChained = false := by
  cases op <;> first | rfl | cases h

theorem not_isLeft_of_isPure {op : Op} (h : op.isPure = true) : op.isLeft = false := by
  cases op <;> first | rfl | cases h

theorem makesValue_of_isPure {op : Op} (h : op.isPure = true) : op.makesValue = true := by
  cases op <;> first | rfl | cases h

theorem isLeft_of_isChained {op : Op} (h : op.isChained = true) : op.isLeft = true := by
  cases op <;> first | rfl | cases h

end Op

namespace Graph

/-- The edges by which control enters a node. -/
def enters (g : Graph) (id : NodeId) : List (EdgeId × Edge) :=
  (g.edgesInto id).filter (·.2.isControl)

/-- The edges by which control leaves a node. -/
def exits (g : Graph) (id : NodeId) : List (EdgeId × Edge) :=
  (g.edgesOutOf id).filter fun p => p.2.isControl && !g.hasOp p.2.target .phi

/-- An edge between nodes that may have one. -/
def Typed (g : Graph) (e : Edge) : Prop :=
  ∃ s t, g.op? e.source = some s ∧ g.op? e.target = some t ∧ s.allows t e.output e.input = true

theorem Typed.grow {g h : Graph} {es : List Edge} {e : Edge} (hg : g.Grows h es)
    (he : g.Typed e) : h.Typed e := by
  obtain ⟨s, t, hs, ht, hst⟩ := he
  exact ⟨s, t, hg.op_some hs, hg.op_some ht, hst⟩

theorem hasOp_iff {g : Graph} {id : NodeId} {op : Op} :
    g.hasOp id op = true ↔ g.op? id = some op := by
  simp [hasOp]

variable {g h : Graph} {es : List Edge}

theorem Consistent.enters_eq (hg : g.Consistent) (id : NodeId) :
    g.enters id = g.live.filter fun p => p.2.target == id && p.2.isControl := by
  rw [enters, hg.edgesInto_eq, List.filter_filter]
  simp only [Bool.and_comm]

theorem Consistent.exits_eq (hg : g.Consistent) (id : NodeId) :
    g.exits id =
      g.live.filter fun p => p.2.source == id && (p.2.isControl && !g.hasOp p.2.target .phi) := by
  rw [exits, hg.edgesOutOf_eq, List.filter_filter]
  simp only [Bool.and_comm]

theorem Consistent.mem_enters (hg : g.Consistent) {id : NodeId} {i : EdgeId} {e : Edge} :
    (i, e) ∈ g.enters id ↔ g.edge? i = some e ∧ e.target = id ∧ e.isControl = true := by
  rw [hg.enters_eq, List.mem_filter, mem_live]
  simp

theorem Consistent.mem_exits (hg : g.Consistent) {id : NodeId} {i : EdgeId} {e : Edge} :
    (i, e) ∈ g.exits id ↔ g.edge? i = some e ∧ e.source = id ∧ e.isControl = true ∧
      g.op? e.target ≠ some .phi := by
  rw [hg.exits_eq, List.mem_filter, mem_live]
  simp [hasOp]

theorem Consistent.exits_of_ge (hg : g.Consistent) {id : NodeId} (hid : g.nodes.size ≤ id) :
    g.exits id = [] := by
  have h := List.map_eq_nil_iff.mp (hg.outputs_of_ge hid)
  rw [exits, h, List.filter_nil]

theorem Consistent.enters_of_ge (hg : g.Consistent) {id : NodeId} (hid : g.nodes.size ≤ id) :
    g.enters id = [] := by
  have h := List.map_eq_nil_iff.mp (hg.inputs_of_ge hid)
  rw [enters, h, List.filter_nil]

/-- New control edges come after the old ones. -/
theorem Grows.enters (hgrow : g.Grows h es) (hg : g.Consistent) (id : NodeId) :
    h.enters id = g.enters id ++
      (stamp g.edges.size es).filter fun p => p.2.target == id && p.2.isControl := by
  rw [(hgrow.consistent hg).enters_eq, hg.enters_eq, hgrow.live, List.filter_append]

theorem Grows.exits (hgrow : g.Grows h es) (hg : g.Consistent) (id : NodeId) :
    h.exits id = g.exits id ++
      (stamp g.edges.size es).filter fun p =>
        p.2.source == id && (p.2.isControl && !h.hasOp p.2.target .phi) := by
  rw [(hgrow.consistent hg).exits_eq, hg.exits_eq, hgrow.live, List.filter_append]
  congr 1
  refine List.filter_congr fun p hp => ?_
  have hop := hgrow.op (hg.ends (mem_live.mp hp)).2
  rw [hasOp, hasOp, hop]

theorem filter_stamp_eq_nil {q : Edge → Bool} (k : EdgeId) (hq : ∀ e ∈ es, q e = false) :
    ((stamp k es).filter fun p => q p.2) = [] := by
  refine List.filter_eq_nil_iff.mpr fun p hp => ?_
  have hmem : p.2 ∈ (stamp k es).map (·.2) := List.mem_map_of_mem hp
  rw [stamp_snd] at hmem
  simp [hq p.2 hmem]

theorem Grows.exits_of_not_source (hgrow : g.Grows h es) (hg : g.Consistent) {id : NodeId}
    (hid : ∀ e ∈ es, e.isControl = true → e.source ≠ id) : h.exits id = g.exits id := by
  rw [hgrow.exits hg]
  have hnil : ((stamp g.edges.size es).filter fun p =>
      p.2.source == id && (p.2.isControl && !h.hasOp p.2.target .phi)) = [] := by
    refine filter_stamp_eq_nil
      (q := fun e => e.source == id && (e.isControl && !h.hasOp e.target .phi)) _ fun e he => ?_
    cases hc : e.isControl with
    | false => simp
    | true => simp [hid e he hc]
  rw [hnil, List.append_nil]

theorem Grows.enters_of_not_target (hgrow : g.Grows h es) (hg : g.Consistent) {id : NodeId}
    (hid : ∀ e ∈ es, e.isControl = true → e.target ≠ id) : h.enters id = g.enters id := by
  rw [hgrow.enters hg]
  have hnil : ((stamp g.edges.size es).filter fun p => p.2.target == id && p.2.isControl) = [] := by
    refine filter_stamp_eq_nil (q := fun e => e.target == id && e.isControl) _ fun e he => ?_
    cases hc : e.isControl with
    | false => simp
    | true => simp [hid e he hc]
  rw [hnil, List.append_nil]

theorem Grows.edge?_cases (hgrow : g.Grows h es) {i : EdgeId} {e : Edge}
    (he : h.edge? i = some e) : g.edge? i = some e ∨ e ∈ es := by
  have hmem := mem_live.mpr he
  rw [hgrow.live, List.mem_append, mem_live] at hmem
  refine hmem.imp_right fun hstamp => ?_
  have hsnd : e ∈ (stamp g.edges.size es).map (·.2) := List.mem_map_of_mem hstamp
  rwa [stamp_snd] at hsnd

/-- Control enters each chained node by one edge, and leaves each chained node and each region by
one edge; only the nodes in `ends` have no exit yet. -/
structure Chained (g : Graph) (ends : NodeId → Prop) : Prop where
  consistent : g.Consistent
  typed : ∀ {id : EdgeId} {e : Edge}, g.edge? id = some e → g.Typed e
  entered : ∀ {n : NodeId} {op : Op}, g.op? n = some op → op.isChained = true →
    ∃ p, g.enters n = [p]
  pending : ∀ {n : NodeId}, ends n → g.exits n = []
  left : ∀ {n : NodeId} {op : Op}, g.op? n = some op → op.isLeft = true → ¬ ends n →
    ∃ p, g.exits n = [p] ∧ p.2.output = .control

namespace Chained

variable {ends : NodeId → Prop}

theorem congr {ends' : NodeId → Prop} (hc : g.Chained ends) (h : ∀ n, ends n ↔ ends' n) :
    g.Chained ends' :=
  have heq : ends = ends' := funext fun n => propext (h n)
  heq ▸ hc

/-- New values, and edges that carry them, do not change how control runs. -/
theorem quiet (hc : g.Chained ends) (hgrow : g.Grows h es)
    (htyped : ∀ e ∈ es, h.Typed e ∧ e.isControl = false)
    (hfresh : ∀ {n : NodeId} {op : Op}, g.nodes.size ≤ n → h.op? n = some op → op.isPure = true) :
    h.Chained ends where
  consistent := hgrow.consistent hc.consistent
  typed he := (hgrow.edge?_cases he).elim (fun h' => (hc.typed h').grow hgrow)
    fun h' => (htyped _ h').1
  entered {n op} hn hop := by
    by_cases hlt : n < g.nodes.size
    · rw [hgrow.op hlt] at hn
      rw [hgrow.enters_of_not_target hc.consistent fun e he hctl => by simp [htyped e he] at hctl]
      exact hc.entered hn hop
    · rw [Op.not_isChained_of_isPure (hfresh (Nat.not_lt.mp hlt) hn)] at hop
      cases hop
  pending hn := by
    rw [hgrow.exits_of_not_source hc.consistent fun e he hctl => by simp [htyped e he] at hctl]
    exact hc.pending hn
  left {n op} hn hop hend := by
    by_cases hlt : n < g.nodes.size
    · rw [hgrow.op hlt] at hn
      rw [hgrow.exits_of_not_source hc.consistent fun e he hctl => by simp [htyped e he] at hctl]
      exact hc.left hn hop hend
    · rw [Op.not_isLeft_of_isPure (hfresh (Nat.not_lt.mp hlt) hn)] at hop
      cases hop

/-- A new region is one more open end. -/
theorem addRegion (hc : g.Chained ends) :
    (g.addNode .region []).Chained fun n => ends n ∨ n = g.nodes.size where
  consistent := hc.consistent.addNode _ _
  typed he := (hc.typed he).grow (.addNode g _ _)
  entered {n op} hn hop := by
    rw [op?_addNode] at hn
    split at hn
    · cases hn
      simp [Op.isChained] at hop
    · rw [(Grows.addNode g _ _).enters_of_not_target hc.consistent (by simp)]
      exact hc.entered hn hop
  pending {n} hn := by
    rw [(Grows.addNode g _ _).exits_of_not_source hc.consistent (by simp)]
    rcases hn with hn | rfl
    · exact hc.pending hn
    · exact hc.consistent.exits_of_ge (Nat.le_refl _)
  left {n op} hn hop hend := by
    rw [op?_addNode] at hn
    split at hn
    · next h => exact absurd (.inr h) hend
    · rw [(Grows.addNode g _ _).exits_of_not_source hc.consistent (by simp)]
      exact hc.left hn hop fun h => hend (.inl h)

/-- A new chained node becomes the end of the chain that ended at `last`. -/
theorem chain (hc : g.Chained ends) {last n : NodeId} {vs : List Edge} {op : Op}
    (hgrow : g.Grows h (vs ++ [.control last n]))
    (htyped : ∀ e ∈ vs, h.Typed e ∧ e.isControl = false) (hlast : ends last)
    (hlt : last < g.nodes.size) (hlink : h.Typed (.control last n)) (hn : g.nodes.size ≤ n)
    (hop : h.op? n = some op) (hchained : op.isChained = true)
    (hfresh : ∀ {x : NodeId} {op : Op}, g.nodes.size ≤ x → x ≠ n → h.op? x = some op →
      op.isPure = true) :
    h.Chained fun x => (ends x ∧ x ≠ last) ∨ x = n := by
  have hctl : ∀ e ∈ vs ++ [.control last n], e.isControl = true → e = .control last n := by
    intro e he hctl
    rcases List.mem_append.mp he with he | he
    · simp [htyped e he] at hctl
    · exact List.mem_singleton.mp he
  have hexits : ∀ {x : NodeId}, x ≠ last → h.exits x = g.exits x := fun hx =>
    hgrow.exits_of_not_source hc.consistent fun e he hctl' => by
      rw [hctl e he hctl']
      exact fun h => hx h.symm
  have henters : ∀ {x : NodeId}, x ≠ n → h.enters x = g.enters x := fun hx =>
    hgrow.enters_of_not_target hc.consistent fun e he hctl' => by
      rw [hctl e he hctl']
      exact fun h => hx h.symm
  have hphi : h.hasOp n .phi = false := by
    rw [hasOp, hop, beq_eq_false_iff_ne]
    rintro h
    rw [Option.some.inj h] at hchained
    cases hchained
  -- the control edge is the only one of the new edges that counts, at either of its ends
  have hexit : h.exits last = [(g.edges.size + vs.length, .control last n)] := by
    rw [hgrow.exits hc.consistent, hc.pending hlast, stamp_append, List.filter_append,
      filter_stamp_eq_nil (q := fun e => e.source == last &&
        (e.isControl && !h.hasOp e.target .phi)) _ fun e he => by simp [htyped e he]]
    simp [stamp, Edge.control, Edge.isControl, hphi]
  have henter : h.enters n = [(g.edges.size + vs.length, .control last n)] := by
    rw [hgrow.enters hc.consistent, hc.consistent.enters_of_ge hn, stamp_append,
      List.filter_append, filter_stamp_eq_nil (q := fun e => e.target == n && e.isControl) _
        fun e he => by simp [htyped e he]]
    simp [stamp, Edge.control, Edge.isControl]
  refine ⟨hgrow.consistent hc.consistent, ?_, ?_, ?_, ?_⟩
  · intro i e he
    rcases hgrow.edge?_cases he with he | he
    · exact (hc.typed he).grow hgrow
    · rcases List.mem_append.mp he with he | he
      · exact (htyped e he).1
      · rw [List.mem_singleton.mp he]
        exact hlink
  · intro x op' hx hop'
    by_cases hxn : x = n
    · exact ⟨_, hxn ▸ henter⟩
    · by_cases hxlt : x < g.nodes.size
      · rw [hgrow.op hxlt] at hx
        rw [henters hxn]
        exact hc.entered hx hop'
      · rw [Op.not_isChained_of_isPure (hfresh (Nat.not_lt.mp hxlt) hxn hx)] at hop'
        cases hop'
  · rintro x (⟨hx, hxlast⟩ | rfl)
    · rw [hexits hxlast]
      exact hc.pending hx
    · rw [hexits (Nat.ne_of_gt (Nat.lt_of_lt_of_le hlt hn))]
      exact hc.consistent.exits_of_ge hn
  · intro x op' hx hop' hend
    by_cases hxlast : x = last
    · exact ⟨_, hxlast ▸ hexit, rfl⟩
    · rw [hexits hxlast]
      by_cases hxlt : x < g.nodes.size
      · rw [hgrow.op hxlt] at hx
        exact hc.left hx hop' fun h => hend (.inl ⟨h, hxlast⟩)
      · have hpure := hfresh (Nat.not_lt.mp hxlt) (fun h => hend (.inr h)) hx
        rw [Op.not_isLeft_of_isPure hpure] at hop'
        cases hop'

end Chained

end Graph

end StackJit
