import StackJit.Proofs.Build.Context
import StackJit.Proofs.Graph.Control

/-!
# What lowering an instruction does

`Lowering.Sound` is the invariant of a block's lowering: the nodes it holds stand for values, its
placeholders are distinct `input` nodes without inputs, and every `input` node it holds is one of
them. `Lowering.lowers_instr` says all that one instruction does: it keeps the invariant, adds
values and at most one chained node to the graph, and executes on the context.
-/

namespace StackJit.Lowering

variable {s t : Lowering} {lo n : NodeId}

/-- A node that the lowering of the block with region `lo` may hold. -/
structure Fits (s : Lowering) (lo n : NodeId) : Prop where
  above : lo < n
  operand : ∃ op, s.graph.op? n = some op ∧ op.makesValue = true
  slot : s.graph.op? n = some .input → ∃ a, s.needs a = some n

structure Sound (s : Lowering) (lo : NodeId) : Prop where
  consistent : s.graph.Consistent
  stack : ∀ {n : NodeId}, n ∈ s.stack → s.Fits lo n
  names : ∀ {x : String} {n : NodeId}, s.names[x]? = some n → s.Fits lo n
  placeholder : ∀ {a : Slot} {n : NodeId}, s.needs a = some n →
    lo < n ∧ s.graph.op? n = some .input ∧ s.graph.inputs n = []
  distinct : ∀ {a b : Slot} {n : NodeId}, s.needs a = some n → s.needs b = some n → a = b
  known : ∀ {x : String} {n : NodeId}, s.needs (.name x) = some n → x ∈ s.names
  control : lo ≤ s.controlEnd ∧ ∃ op, s.graph.op? s.controlEnd = some op ∧ op.isLeft = true

theorem Fits.lt (h : s.Fits lo n) : n < s.graph.nodes.size := by
  obtain ⟨op, hop, -⟩ := h.operand
  exact Graph.op?_lt hop

theorem Sound.control_lt (hs : s.Sound lo) : s.controlEnd < s.graph.nodes.size := by
  obtain ⟨-, op, hop, -⟩ := hs.control
  exact Graph.op?_lt hop

theorem Sound.lo_lt (hs : s.Sound lo) : lo < s.graph.nodes.size :=
  Nat.lt_of_le_of_lt hs.control.1 hs.control_lt

theorem Fits.mono {es : List Edge} (hn : s.Fits lo n) (hgrow : s.graph.Grows t.graph es)
    (hneeds : ∀ {a : Slot} {n : NodeId}, s.needs a = some n → t.needs a = some n) :
    t.Fits lo n where
  above := hn.above
  operand := by
    obtain ⟨op, hop, hval⟩ := hn.operand
    exact ⟨op, hgrow.op_some hop, hval⟩
  slot hop := by
    rw [hgrow.op hn.lt] at hop
    obtain ⟨a, ha⟩ := hn.slot hop
    exact ⟨a, hneeds ha⟩

theorem Fits.congr (hn : s.Fits lo n) (hgraph : t.graph = s.graph) (hneeds : t.needs = s.needs) :
    t.Fits lo n :=
  ⟨hn.above, hgraph ▸ hn.operand, by rw [hgraph, hneeds]; exact hn.slot⟩

theorem Fits.demands (hn : s.Fits lo n) (hd : s.Demands t) : t.Fits lo n :=
  hn.mono hd.grows hd.needs

/-! ## The invariant under the steps of the lowering -/

/-- One more placeholder keeps the invariant and may be held. -/
theorem Sound.demand {a : Slot} (hs : s.Sound lo) (hd : s.Demand t a) :
    t.Sound lo ∧ t.Fits lo s.graph.nodes.size := by
  have hds := hd.demands
  have hop : t.graph.op? s.graph.nodes.size = some .input := by
    rw [hd.graph, op?_addNode_fresh]
  have hfresh : t.Fits lo s.graph.nodes.size :=
    ⟨hs.lo_lt, ⟨.input, hop, rfl⟩, fun _ => ⟨a, hd.new⟩⟩
  have hcases : ∀ {b : Slot} {n : NodeId}, t.needs b = some n →
      (s.needs b = some n) ∨ (b = a ∧ n = s.graph.nodes.size) := by
    intro b n hb
    by_cases hba : b = a
    · subst hba
      rw [hd.new] at hb
      exact .inr ⟨rfl, (Option.some.inj hb).symm⟩
    · rw [hd.old hba] at hb
      exact .inl hb
  refine ⟨⟨hds.grows.consistent hs.consistent, ?_, ?_, ?_, ?_, ?_, ?_⟩, hfresh⟩
  · intro n hn
    rcases hd.stack hn with hn | rfl
    · exact (hs.stack hn).demands hds
    · exact hfresh
  · intro x n hn
    rcases hd.names hn with hn | rfl
    · exact (hs.names hn).demands hds
    · exact hfresh
  · intro b n hb
    have hinputs := hds.grows.inputs_of_not_target hs.consistent n (by simp)
    rcases hcases hb with hb | ⟨-, rfl⟩
    · obtain ⟨hlo, hop, hin⟩ := hs.placeholder hb
      exact ⟨hlo, hds.grows.op_some hop, hinputs.trans hin⟩
    · exact ⟨hs.lo_lt, hop, hinputs.trans (hs.consistent.inputs_of_ge (Nat.le_refl _))⟩
  · intro b c n hb hc
    have hnot : ∀ {b : Slot}, s.needs b ≠ some s.graph.nodes.size := fun {b} h =>
      absurd (Graph.op?_lt (hs.placeholder h).2.1) (Nat.lt_irrefl _)
    rcases hcases hb with hb | ⟨rfl, rfl⟩ <;> rcases hcases hc with hc | ⟨rfl, hn⟩
    · exact hs.distinct hb hc
    · exact absurd (hn ▸ hb) hnot
    · exact absurd hc hnot
    · rfl
  · intro x n hx
    rcases hcases hx with hx | ⟨rfl, -⟩
    · exact hd.known (.inl (hs.known hx))
    · exact hd.known (.inr rfl)
  · obtain ⟨hle, op, hop, hleft⟩ := hs.control
    rw [hd.control]
    exact ⟨hle, op, hds.grows.op_some hop, hleft⟩

/-- What is held may change as long as it fits. -/
theorem Sound.hold (hs : s.Sound lo) (hgraph : t.graph = s.graph) (hneeds : t.needs = s.needs)
    (hcontrol : t.controlEnd = s.controlEnd) (hstack : ∀ n ∈ t.stack, s.Fits lo n)
    (hnames : ∀ {x : String} {n : NodeId}, t.names[x]? = some n → s.Fits lo n)
    (hknown : ∀ {x : String}, x ∈ s.names → x ∈ t.names) : t.Sound lo where
  consistent := hgraph ▸ hs.consistent
  stack hn := (hstack _ hn).congr hgraph hneeds
  names hn := (hnames hn).congr hgraph hneeds
  placeholder := by
    rw [hgraph, hneeds]
    exact hs.placeholder
  distinct := by
    rw [hneeds]
    exact hs.distinct
  known := by
    rw [hneeds]
    exact fun hx => hknown (hs.known hx)
  control := by
    rw [hgraph, hcontrol]
    exact hs.control

theorem Sound.pop (hs : s.Sound lo) : s.pop.2.Sound lo ∧ s.pop.2.Fits lo s.pop.1 := by
  cases h : s.stack with
  | nil =>
    have := hs.demand (demand_pop h)
    rwa [show s.pop.1 = s.graph.nodes.size by rw [pop_of_nil h]]
  | cons n rest =>
    have hn := hs.stack (h ▸ List.mem_cons_self : n ∈ s.stack)
    rw [pop_of_cons h]
    have hrest : ∀ m ∈ rest, s.Fits lo m := fun m hm => hs.stack (h ▸ List.mem_cons_of_mem n hm)
    exact ⟨hs.hold rfl rfl rfl hrest hs.names id, hn.congr rfl rfl⟩

theorem Sound.popMany (hs : s.Sound lo) (k : Nat) {taken : List NodeId}
    (htaken : ∀ n ∈ taken, s.Fits lo n) :
    (popMany k taken s).2.Sound lo ∧
      ∀ n ∈ (Lowering.popMany k taken s).1, (Lowering.popMany k taken s).2.Fits lo n := by
  induction k generalizing taken s with
  | zero => exact ⟨hs, htaken⟩
  | succ k ih =>
    rw [popMany_succ]
    obtain ⟨hpop, hfits⟩ := hs.pop
    refine ih hpop fun n hn => ?_
    rcases List.mem_cons.mp hn with rfl | hn
    · exact hfits
    · exact (htaken n hn).demands (demands_pop s)

theorem Sound.needs_none (hs : s.Sound lo) {x : String} (h : s.names[x]? = none) :
    s.needs (.name x) = none := by
  refine Option.eq_none_iff_forall_ne_some.mpr fun n hn => ?_
  have hx := Std.TreeMap.mem_iff_isSome_getElem?.mp (hs.known hn)
  simp [h] at hx

theorem Sound.demands_read (hs : s.Sound lo) (x : String) : s.Demands (s.read x).2 := by
  cases h : s.names[x]? with
  | some n =>
    rw [read_of_some h]
    exact .refl s
  | none => exact (demand_read h (hs.needs_none h)).demands

theorem Sound.read (hs : s.Sound lo) (x : String) :
    (s.read x).2.Sound lo ∧ (s.read x).2.Fits lo (s.read x).1 := by
  cases h : s.names[x]? with
  | some n =>
    rw [read_of_some h]
    exact ⟨hs, hs.names h⟩
  | none =>
    have := hs.demand (demand_read h (hs.needs_none h))
    rwa [show (s.read x).1 = s.graph.nodes.size by rw [read_of_none h]]

/-- New nodes and edges elsewhere keep the invariant. -/
theorem Sound.grow {g : Graph} {es : List Edge} (hs : s.Sound lo) (hgrow : s.graph.Grows g es)
    (hes : ∀ e ∈ es, s.graph.op? e.target ≠ some .input) : { s with graph := g }.Sound lo where
  consistent := hgrow.consistent hs.consistent
  stack hn := (hs.stack hn).mono hgrow id
  names hn := (hs.names hn).mono hgrow id
  placeholder {a n} ha := by
    obtain ⟨hlo, hop, hin⟩ := hs.placeholder ha
    refine ⟨hlo, hgrow.op_some hop, ?_⟩
    rw [hgrow.inputs_of_not_target hs.consistent n fun e he hen => hes e he (hen ▸ hop)]
    exact hin
  distinct := hs.distinct
  known := hs.known
  control := by
    obtain ⟨hle, op, hop, hleft⟩ := hs.control
    exact ⟨hle, op, hgrow.op_some hop, hleft⟩

theorem Sound.push (hs : s.Sound lo) (hn : s.Fits lo n) : (s.push n).Sound lo := by
  refine hs.hold rfl rfl rfl (fun m hm => ?_) hs.names id
  rcases List.mem_cons.mp hm with rfl | hm
  · exact hn
  · exact hs.stack hm

theorem Sound.assign (hs : s.Sound lo) (hn : s.Fits lo n) (x : String) :
    (s.assign x n).Sound lo := by
  refine hs.hold rfl rfl rfl (fun m hm => hs.stack hm) (fun hm => ?_)
    fun hx => Std.TreeMap.mem_insert.mpr (.inr hx)
  rcases getElem?_insert_cases hm with hm | rfl
  · exact hs.names hm
  · exact hn

theorem Sound.addNode (hs : s.Sound lo) (op : Op) (props : Props) :
    (s.addNode op props).Sound lo :=
  (hs.grow (.addNode s.graph op props) (by simp)).hold rfl rfl rfl
    (fun _ hn => (hs.stack hn).mono (.addNode s.graph op props) id)
    (fun hn => (hs.names hn).mono (.addNode s.graph op props) id) id

theorem Sound.chain (hs : s.Sound lo) {op : Op} (hn : lo ≤ n) (hop : s.graph.op? n = some op)
    (hleft : op.isLeft = true) : (s.chain n).Sound lo := by
  have hgrow : s.graph.Grows (s.chain n).graph [.control s.controlEnd n] :=
    .addEdge s.graph hs.control_lt (Graph.op?_lt hop)
  have hs' : { s with graph := (s.chain n).graph }.Sound lo := by
    refine hs.grow hgrow fun e he => ?_
    rw [List.mem_singleton.mp he]
    intro h
    obtain rfl : op = .input := Option.some.inj (hop.symm.trans h)
    simp [Op.isLeft] at hleft
  exact
    { consistent := hs'.consistent
      stack := fun hm => (hs'.stack hm).congr rfl rfl
      names := fun hm => (hs'.names hm).congr rfl rfl
      placeholder := hs'.placeholder
      distinct := hs'.distinct
      known := hs'.known
      control := ⟨hn, op, hgrow.op_some hop, hleft⟩ }

/-! ## What an instruction adds to the graph -/

/-- What an instruction adds to the graph: values, and at most one node on the control chain. -/
inductive Emits (s t : Lowering) : Prop where
  | quiet {es : List Edge} (grows : s.graph.Grows t.graph es)
      (edges : ∀ e ∈ es, (t.graph.Typed e ∧ e.isControl = false) ∧
        s.graph.nodes.size ≤ e.target ∧ t.graph.op? e.target ≠ some .input)
      (fresh : ∀ {n : NodeId} {op : Op}, s.graph.nodes.size ≤ n → t.graph.op? n = some op →
        op.isPure = true)
      (control : t.controlEnd = s.controlEnd)
  | chained {vs : List Edge} {op : Op}
      (grows : s.graph.Grows t.graph (vs ++ [.control s.controlEnd t.controlEnd]))
      (edges : ∀ e ∈ vs, (t.graph.Typed e ∧ e.isControl = false) ∧
        s.graph.nodes.size ≤ e.target ∧ t.graph.op? e.target ≠ some .input)
      (new : s.graph.nodes.size ≤ t.controlEnd) (label : t.graph.op? t.controlEnd = some op)
      (chained : op.isChained = true)
      (fresh : ∀ {n : NodeId} {op : Op}, s.graph.nodes.size ≤ n → n ≠ t.controlEnd →
        t.graph.op? n = some op → op.isPure = true)

/-- All that lowering the instruction `i` at `ip` does. -/
structure Lowers (lo : NodeId) (ip : Nat) (i : Instr) (s t : Lowering) : Prop where
  sound : t.Sound lo
  emits : s.Emits t
  needs : ∀ {a : Slot} {n : NodeId}, s.needs a = some n → t.needs a = some n
  within : ∀ {below : List NodeId} {inherited : String → Option NodeId},
    t.Within below inherited → s.Within below inherited
  step : ∀ {below : List NodeId} {inherited : String → Option NodeId},
    t.Within below inherited →
      Context.Step t.graph ip i (s.context below inherited) (t.context below inherited)

theorem Demands.emits (hd : s.Demands t) : s.Emits t := by
  refine .quiet hd.grows (by simp) (fun {n op} hn hop => ?_) hd.control
  rw [hd.fresh hn (Graph.op?_lt hop)] at hop
  exact Option.some.inj hop ▸ rfl

/-- A new node of `g` with its inputs. -/
theorem grows_attach {g : Graph} (op : Op) (props : Props) {es : List Edge}
    (hes : ∀ e ∈ es, e.source < g.nodes.size ∧ e.target = g.nodes.size) :
    g.Grows ((g.addNode op props).addEdges es) es := by
  refine (Graph.Grows.addNode g op props).trans (.addEdges _ fun e he => ?_)
  rw [Graph.numNodes_addNode, (hes e he).2]
  exact ⟨Nat.lt_succ_of_lt (hes e he).1, Nat.lt_succ_self _⟩

theorem label?_attach {g : Graph} (op : Op) (props : Props) (es : List Edge) :
    ((g.addNode op props).addEdges es).label? g.nodes.size = some (op, props) := by
  rw [Graph.label?_addEdges, Graph.label?_addNode, if_pos rfl]

theorem inputs_attach {g : Graph} (hg : g.Consistent) (op : Op) (props : Props) {es : List Edge}
    (hes : ∀ e ∈ es, e.source < g.nodes.size ∧ e.target = g.nodes.size) :
    ((g.addNode op props).addEdges es).inputs g.nodes.size = es := by
  rw [(grows_attach op props hes).inputs hg, hg.inputs_of_ge (Nat.le_refl _), List.nil_append,
    List.filter_eq_self.mpr fun e he => by simp [(hes e he).2]]

/-- An edge that brings an operand to the node that `s` makes next, of operation `op`. -/
structure Brings (s : Lowering) (lo : NodeId) (op : Op) (e : Edge) : Prop where
  source : s.Fits lo e.source
  target : e.target = s.graph.nodes.size
  isValue : e.isControl = false
  allowed : ∀ {o : Op}, o.makesValue = true → o.allows op e.output e.input = true

theorem brings_nil {op : Op} : ∀ e ∈ [], s.Brings lo op e := fun _ he => absurd he List.not_mem_nil

section Attach

variable {s₁ : Lowering} {op : Op} {props : Props} {es cs : List Edge}

/-- An operand edge has its ends in the graph and may be there. -/
theorem Brings.typed {g : Graph} {e : Edge} {fs : List Edge} (he : s₁.Brings lo op e)
    (hgrow : s₁.graph.Grows g fs) (hop : g.op? s₁.graph.nodes.size = some op) :
    g.Typed e ∧ e.isControl = false := by
  obtain ⟨o, ho, hval⟩ := he.source.operand
  exact ⟨⟨o, op, hgrow.op_some ho, he.target ▸ hop, he.allowed hval⟩, he.isValue⟩

/-- All new nodes but the one attached are placeholders. -/
theorem fresh_attach (hd : s.Demands s₁)
    (hgrow : s₁.graph.Grows ((s₁.graph.addNode op props).addEdges es) es) {n : NodeId} {o : Op}
    (hn : s.graph.nodes.size ≤ n) (hne : n ≠ s₁.graph.nodes.size)
    (ho : ((s₁.graph.addNode op props).addEdges es).op? n = some o) : o.isPure = true := by
  have hlt := Graph.op?_lt ho
  rw [Graph.numNodes_addEdges, Graph.numNodes_addNode] at hlt
  have hlt₁ : n < s₁.graph.nodes.size := Nat.lt_of_le_of_ne (Nat.le_of_lt_succ hlt) hne
  rw [hgrow.op hlt₁, hd.fresh hn hlt₁] at ho
  obtain rfl := Option.some.inj ho
  rfl

theorem op?_attach : ((s₁.graph.addNode op props).addEdges es).op? s₁.graph.nodes.size =
    some op := by
  rw [Graph.op?_eq_label?, label?_attach]
  rfl

/-- A new node with its operands. -/
theorem Sound.attach (hs : s₁.Sound lo) (props : Props) (hop : op ≠ .input)
    (hes : ∀ e ∈ es, s₁.Brings lo op e) : ((s₁.addNode op props).addEdges es).Sound lo := by
  refine (hs.addNode op props).grow (.addEdges _ fun e he => ?_) fun e he => ?_
  · change _ < (s₁.graph.addNode op props).nodes.size ∧ _ < (s₁.graph.addNode op props).nodes.size
    rw [(hes e he).target, Graph.numNodes_addNode]
    exact ⟨Nat.lt_succ_of_lt (hes e he).source.lt, Nat.lt_succ_self _⟩
  · rw [(hes e he).target]
    change (s₁.graph.addNode op props).op? _ ≠ _
    rw [op?_addNode_fresh]
    exact fun h => hop (Option.some.inj h)

theorem brings_grows (hes : ∀ e ∈ es, s₁.Brings lo op e) (props : Props) :
    s₁.graph.Grows ((s₁.graph.addNode op props).addEdges es) es :=
  grows_attach op props fun e he => ⟨(hes e he).source.lt, (hes e he).target⟩

/-- A new value on top of the stack. -/
theorem sound_value (hs : s₁.Sound lo) (hpure : op.isPure = true) (hop : op ≠ .input)
    (hes : ∀ e ∈ es, s₁.Brings lo op e) : ((s₁.pushNew op props).addEdges es).Sound lo := by
  have hval : op.makesValue = true := Op.makesValue_of_isPure hpure
  have hfits : ((s₁.addNode op props).addEdges es).Fits lo s₁.graph.nodes.size :=
    ⟨hs.lo_lt, ⟨op, op?_attach, hval⟩,
      fun h => absurd (Option.some.inj (op?_attach.symm.trans h)) hop⟩
  exact (hs.attach props hop hes).push hfits

theorem emits_value (hd : s.Demands s₁) (hpure : op.isPure = true) (hop : op ≠ .input)
    (hes : ∀ e ∈ es, s₁.Brings lo op e) : s.Emits ((s₁.pushNew op props).addEdges es) := by
  have hgrow := brings_grows hes props
  refine .quiet (hd.grows.trans hgrow) (fun e he => ⟨(hes e he).typed hgrow op?_attach, ?_⟩) ?_
    hd.control
  · rw [(hes e he).target]
    exact ⟨hd.grows.size_le, fun h => hop (Option.some.inj (op?_attach.symm.trans h))⟩
  · intro n o hn ho
    by_cases hne : n = s₁.graph.nodes.size
    · have ho' : ((s₁.graph.addNode op props).addEdges es).op? n = some o := ho
      rw [hne, op?_attach] at ho'
      exact Option.some.inj ho' ▸ hpure
    · exact fresh_attach hd hgrow hn hne ho

/-- A new node at the end of the control chain. -/
theorem sound_chained (hs : s₁.Sound lo) (hchained : op.isChained = true)
    (hes : ∀ e ∈ es, s₁.Brings lo op e) :
    (((s₁.addNode op props).addEdges es).chain s₁.graph.nodes.size).Sound lo := by
  have hop : op ≠ .input := by rintro rfl; simp [Op.isChained] at hchained
  exact (hs.attach props hop hes).chain (Nat.le_of_lt hs.lo_lt) op?_attach
    (Op.isLeft_of_isChained hchained)

theorem grows_chain (hs : s.Sound lo) (hn : n < s.graph.nodes.size) :
    s.graph.Grows (s.chain n).graph [.control s.controlEnd n] :=
  .addEdge s.graph hs.control_lt hn

theorem emits_chained (hd : s.Demands s₁) (hs : s₁.Sound lo) (hchained : op.isChained = true)
    (hes : ∀ e ∈ es, s₁.Brings lo op e) :
    s.Emits (((s₁.addNode op props).addEdges es).chain s₁.graph.nodes.size) := by
  have hop : op ≠ .input := by rintro rfl; simp [Op.isChained] at hchained
  have hgrow := brings_grows hes props
  have hlink := grows_chain (hs.attach props hop hes) (Graph.op?_lt op?_attach)
  have hlabel := hlink.op_some op?_attach
  have hall := hd.grows.trans (hgrow.trans hlink)
  have hend : ((s₁.addNode op props).addEdges es).controlEnd = s.controlEnd := hd.control
  rw [List.nil_append, hend] at hall
  refine .chained hall (fun e he => ⟨(hes e he).typed (hgrow.trans hlink) hlabel, ?_⟩)
    hd.grows.size_le hlabel hchained ?_
  · rw [(hes e he).target]
    exact ⟨hd.grows.size_le, fun h => hop (Option.some.inj (hlabel.symm.trans h))⟩
  · intro n o hn hne ho
    refine fresh_attach hd hgrow hn hne ?_
    rwa [← Graph.op?_congr (Graph.label?_addEdge _ _ n)]

theorem label?_chained (es : List Edge) :
    (((s₁.addNode op props).addEdges es).chain s₁.graph.nodes.size).graph.label?
      s₁.graph.nodes.size = some (op, props) :=
  (Graph.label?_addEdge _ _ _).trans (label?_attach op props es)

theorem inputs_chained (hs : s₁.Sound lo) (hop : op ≠ .input)
    (hes : ∀ e ∈ es, s₁.Brings lo op e) :
    (((s₁.addNode op props).addEdges es).chain s₁.graph.nodes.size).graph.inputs
      s₁.graph.nodes.size = es ++ [.control s₁.controlEnd s₁.graph.nodes.size] := by
  have hlink := grows_chain (hs.attach props hop hes) (Graph.op?_lt op?_attach)
  rw [hlink.inputs (hs.attach props hop hes).consistent]
  congr 1
  · exact inputs_attach hs.consistent op props fun e he =>
      ⟨(hes e he).source.lt, (hes e he).target⟩
  · simp [Edge.control, Lowering.addEdges, Lowering.addNode]

end Attach

/-! ## One lemma for each instruction -/

section Instructions

variable {ip : Nat}

/-- `trace` and `jump` only pass control. -/
theorem lowers_chainNew (hs : s.Sound lo) {i : Instr} {op : Op} {props : Props}
    (hi : s.instr ip i = ((s.addNode op props).addEdges []).chain s.graph.nodes.size)
    (hchained : op.isChained = true) (hop : op ≠ .input)
    (hstep : ∀ {sc : Context} {g : Graph} {n : NodeId}, g.label? n = some (op, props) →
      g.inputs n = [.control sc.control n] → sc.control < n →
        Context.Step g ip i sc { sc with control := n }) :
    Lowers lo ip i s (s.instr ip i) := by
  rw [hi]
  exact
    { sound := sound_chained hs hchained brings_nil
      emits := emits_chained (.refl s) hs hchained (brings_nil : ∀ e ∈ [], s.Brings lo op e)
      needs := id
      within := fun h => by simpa using h
      step := fun _ => hstep (label?_chained []) (inputs_chained hs hop brings_nil) hs.control_lt }

/-- `self`, `arg` and `push` make a value from nothing. -/
theorem lowers_pushNew (hs : s.Sound lo) {i : Instr} {op : Op} {props : Props}
    (hi : s.instr ip i = s.pushNew op props) (hpure : op.isPure = true) (hop : op ≠ .input)
    (hstep : ∀ {sc : Context} {g : Graph} {n : NodeId}, g.label? n = some (op, props) →
      g.inputs n = [] → Context.Step g ip i sc (sc.push n)) :
    Lowers lo ip i s (s.instr ip i) := by
  rw [hi]
  exact
    { sound := sound_value hs hpure hop brings_nil
      emits := emits_value (.refl s) hpure hop (brings_nil : ∀ e ∈ [], s.Brings lo op e)
      needs := id
      within := fun h => ⟨h.stack, h.names⟩
      step := fun _ => hstep (label?_attach op props [])
        (inputs_attach hs.consistent op props (fun _ he => absurd he List.not_mem_nil)) }

theorem lowers_load (hs : s.Sound lo) (x : String) :
    Lowers lo ip (.load x) s (s.instr ip (.load x)) := by
  obtain ⟨hs₁, hfits⟩ := hs.read x
  have hr := hs.demands_read x
  have hd : s.Demands (s.instr ip (.load x)) := ⟨hr.grows, hr.fresh, hr.control, hr.needs⟩
  have hw : ∀ {below : List NodeId} {inherited : String → Option NodeId},
      (s.instr ip (.load x)).Within below inherited → (s.read x).2.Within below inherited :=
    fun h => ⟨h.stack, h.names⟩
  refine ⟨hs₁.push hfits, hd.emits, hd.needs, fun h => (hw h).of_read hs.needs_none, fun h => ?_⟩
  obtain ⟨hctx, hx⟩ := context_read (hw h)
  rw [← hctx] at hx ⊢
  exact .load hx

theorem lowers_store (hs : s.Sound lo) (x : String) :
    Lowers lo ip (.store x) s (s.instr ip (.store x)) := by
  obtain ⟨hs₁, hfits⟩ := hs.pop
  have hp := demands_pop s
  have hd : s.Demands (s.instr ip (.store x)) := ⟨hp.grows, hp.fresh, hp.control, hp.needs⟩
  have hw : ∀ {below : List NodeId} {inherited : String → Option NodeId},
      (s.instr ip (.store x)).Within below inherited → s.pop.2.Within below inherited :=
    fun h => ⟨h.stack, h.names⟩
  refine ⟨hs₁.assign hfits x, hd.emits, hd.needs, fun h => (hw h).of_pop, ?_⟩
  intro below inherited h
  have hassign : (s.instr ip (.store x)).context below inherited =
      (s.pop.2.context below inherited).assign x s.pop.1 := by
    simp only [context, Context.assign, Context.mk.injEq]
    refine ⟨rfl, ?_, rfl⟩
    funext y
    change (s.pop.2.names.insert x s.pop.1)[y]?.or (inherited y) = _
    rw [Std.TreeMap.getElem?_insert]
    by_cases hxy : x = y
    · simp [hxy]
    · simp [hxy, Ne.symm hxy]
  rw [hassign, context_pop (hw h)]
  exact .store rfl

theorem lowers_ret (hs : s.Sound lo) : Lowers lo ip .ret s (s.instr ip .ret) := by
  obtain ⟨hs₁, hfits⟩ := hs.pop
  have hp := demands_pop s
  have hd : s.Demands (s.instr ip .ret) := ⟨hp.grows, hp.fresh, hp.control, hp.needs⟩
  have hw : ∀ {below : List NodeId} {inherited : String → Option NodeId},
      (s.instr ip .ret).Within below inherited → s.pop.2.Within below inherited :=
    fun h => ⟨h.stack, h.names⟩
  have hs₂ := hs₁.push hfits
  refine ⟨hs₂.hold rfl rfl rfl (fun _ hn => hs₂.stack hn) hs₂.names id, hd.emits, hd.needs,
    fun h => (hw h).of_pop, fun h => ?_⟩
  rw [context_pop (hw h)]
  exact .ret rfl

theorem lowers_not (hs : s.Sound lo) : Lowers lo ip .not s (s.instr ip .not) := by
  obtain ⟨hs₁, hfits⟩ := hs.pop
  have hd := demands_pop s
  have hes : ∀ e ∈ [Edge.value s.pop.1 s.pop.2.graph.nodes.size .value],
      s.pop.2.Brings lo .not e := by
    intro e he
    rw [List.mem_singleton.mp he]
    exact ⟨hfits, rfl, rfl, fun ho => by simp [Op.allows, Edge.value, ho]⟩
  have hw : ∀ {below : List NodeId} {inherited : String → Option NodeId},
      (s.instr ip .not).Within below inherited → s.pop.2.Within below inherited :=
    fun h => ⟨h.stack, h.names⟩
  refine ⟨sound_value hs₁ rfl (by simp) hes, emits_value hd rfl (by simp) hes, hd.needs,
    fun h => (hw h).of_pop, fun h => ?_⟩
  rw [context_pop (hw h)]
  exact .not rfl (label?_attach .not [] _) (inputs_attach hs₁.consistent .not [] fun e he =>
    ⟨(hes e he).source.lt, (hes e he).target⟩)

theorem instr_branch (s : Lowering) (ip target : Nat) :
    s.instr ip (.branch target) =
      ((s.pop.2.addNode .branch []).addEdges
        [.value s.pop.1 s.pop.2.graph.nodes.size .condition]).chain s.pop.2.graph.nodes.size :=
  rfl

theorem lowers_branch (hs : s.Sound lo) (target : Nat) :
    Lowers lo ip (.branch target) s (s.instr ip (.branch target)) := by
  obtain ⟨hs₁, hfits⟩ := hs.pop
  have hd := demands_pop s
  have hes : ∀ e ∈ [Edge.value s.pop.1 s.pop.2.graph.nodes.size .condition],
      s.pop.2.Brings lo .branch e := by
    intro e he
    rw [List.mem_singleton.mp he]
    exact ⟨hfits, rfl, rfl, fun ho => by simp [Op.allows, Edge.value, ho]⟩
  rw [instr_branch]
  refine ⟨sound_chained hs₁ rfl hes, emits_chained hd hs₁ rfl hes,
    fun h => by simpa using hd.needs h, ?_, ?_⟩
  · intro below inherited h
    exact Within.of_pop (by simpa using h)
  · intro below inherited h
    rw [context_pop (by simpa using h), context_chain, context_addEdges, context_addNode]
    exact .branch rfl (label?_chained _) (inputs_chained hs₁ (by simp) hes) hs₁.control_lt

/-- The edges into a send: the receiver first, then the arguments in call order. -/
def operandEdges (receiver : NodeId) (args : List NodeId) (n : NodeId) : List Edge :=
  .value receiver n .receiver :: args.map fun arg => .value arg n .args

theorem mem_operandEdges {receiver : NodeId} {args : List NodeId} {e : Edge}
    (he : e ∈ operandEdges receiver args n) :
    e.source ∈ receiver :: args ∧ e.target = n ∧ e.isControl = false ∧
      ∀ {o : Op}, o.makesValue = true → o.allows .send e.output e.input = true := by
  rcases List.mem_cons.mp he with rfl | he
  · exact ⟨List.mem_cons_self, rfl, rfl, fun ho => by simp [Op.allows, Edge.value, ho]⟩
  · obtain ⟨arg, harg, rfl⟩ := List.mem_map.mp he
    exact ⟨List.mem_cons_of_mem _ harg, rfl, rfl, fun ho => by simp [Op.allows, Edge.value, ho]⟩

section Send

variable {s₂ : Lowering} {props : Props} {receiver : NodeId} {args : List NodeId}

/-- The state after the send `n`, where `s` has taken its operands. -/
abbrev attachSend (s : Lowering) (receiver : NodeId) (args : List NodeId) (n : NodeId) : Lowering :=
  ((s.addEdges (operandEdges receiver args n)).push n).chain n

theorem op?_send (hd : (s.addNode .send props).Demands s₂) :
    s₂.graph.op? s.graph.nodes.size = some .send :=
  hd.grows.op_some (op?_addNode_fresh s.graph .send props)

theorem grows_operandEdges (hd : (s.addNode .send props).Demands s₂)
    (hfits : ∀ m ∈ receiver :: args, s₂.Fits lo m) :
    s₂.graph.Grows (s₂.addEdges (operandEdges receiver args s.graph.nodes.size)).graph
      (operandEdges receiver args s.graph.nodes.size) := by
  refine .addEdges s₂.graph fun e he => ?_
  obtain ⟨hsource, htarget, -⟩ := mem_operandEdges he
  exact ⟨(hfits _ hsource).lt, htarget ▸ Graph.op?_lt (op?_send hd)⟩

theorem sound_operandEdges (hs : s₂.Sound lo) (hd : (s.addNode .send props).Demands s₂)
    (hfits : ∀ m ∈ receiver :: args, s₂.Fits lo m) :
    (s₂.addEdges (operandEdges receiver args s.graph.nodes.size)).Sound lo := by
  refine hs.grow (grows_operandEdges hd hfits) fun e he => ?_
  rw [(mem_operandEdges he).2.1, op?_send hd]
  simp

theorem sound_attachSend (hlo : lo < s.graph.nodes.size) (hs : s₂.Sound lo)
    (hd : (s.addNode .send props).Demands s₂) (hfits : ∀ m ∈ receiver :: args, s₂.Fits lo m) :
    (s₂.attachSend receiver args s.graph.nodes.size).Sound lo := by
  have hop := (grows_operandEdges hd hfits).op_some (op?_send hd)
  have hn : (s₂.addEdges (operandEdges receiver args s.graph.nodes.size)).Fits lo
      s.graph.nodes.size :=
    ⟨hlo, ⟨.send, hop, rfl⟩, fun h => absurd (hop.symm.trans h) (by simp)⟩
  exact ((sound_operandEdges hs hd hfits).push hn).chain (Nat.le_of_lt hlo) hop rfl

theorem grows_attachSend (hs : s₂.Sound lo) (hd : (s.addNode .send props).Demands s₂)
    (hfits : ∀ m ∈ receiver :: args, s₂.Fits lo m) :
    s.graph.Grows (s₂.attachSend receiver args s.graph.nodes.size).graph
      (operandEdges receiver args s.graph.nodes.size ++
        [.control s.controlEnd s.graph.nodes.size]) := by
  have hlink := grows_chain (sound_operandEdges hs hd hfits)
    (Graph.op?_lt ((grows_operandEdges hd hfits).op_some (op?_send hd)))
  have hend : (s₂.addEdges (operandEdges receiver args s.graph.nodes.size)).controlEnd =
      s.controlEnd := hd.control
  rw [hend] at hlink
  exact ((Graph.Grows.addNode s.graph .send props).trans hd.grows).trans
    ((grows_operandEdges hd hfits).trans hlink)

theorem emits_attachSend (hs : s₂.Sound lo) (hd : (s.addNode .send props).Demands s₂)
    (hfits : ∀ m ∈ receiver :: args, s₂.Fits lo m) :
    s.Emits (s₂.attachSend receiver args s.graph.nodes.size) := by
  have hop : ∀ {x : NodeId},
      (s₂.attachSend receiver args s.graph.nodes.size).graph.op? x = s₂.graph.op? x := fun {x} =>
    Graph.op?_congr ((Graph.label?_addEdge _ _ x).trans (Graph.label?_addEdges _ _ x))
  have hsend := hop.trans (op?_send hd)
  refine .chained (grows_attachSend hs hd hfits) (fun e he => ?_) (Nat.le_refl _) hsend rfl
    fun {x o} hx hne ho => ?_
  · obtain ⟨hsource, htarget, hvalue, hallowed⟩ := mem_operandEdges he
    obtain ⟨o, ho, hval⟩ := (hfits _ hsource).operand
    have hinto : (s₂.attachSend receiver args s.graph.nodes.size).graph.op? e.target =
        some .send := by
      rw [htarget]
      exact hsend
    refine ⟨⟨⟨o, .send, hop.trans ho, hinto, hallowed hval⟩, hvalue⟩, ?_, ?_⟩
    · exact Nat.le_of_eq htarget.symm
    · rw [hinto]
      simp
  · -- whatever is newer than the send was made while its operands were taken
    rw [hop] at ho
    have hx' : (s.addNode .send props).graph.nodes.size ≤ x := by
      change (s.graph.addNode .send props).nodes.size ≤ x
      rw [Graph.numNodes_addNode]
      exact Nat.lt_of_le_of_ne hx (Ne.symm hne)
    rw [hd.fresh hx' (Graph.op?_lt ho)] at ho
    exact Option.some.inj ho ▸ rfl

theorem inputs_attachSend (hs : s.Sound lo) (hs₂ : s₂.Sound lo)
    (hd : (s.addNode .send props).Demands s₂) (hfits : ∀ m ∈ receiver :: args, s₂.Fits lo m) :
    (s₂.attachSend receiver args s.graph.nodes.size).graph.inputs s.graph.nodes.size =
      operandEdges receiver args s.graph.nodes.size ++
        [.control s.controlEnd s.graph.nodes.size] := by
  rw [(grows_attachSend hs₂ hd hfits).inputs hs.consistent,
    hs.consistent.inputs_of_ge (Nat.le_refl _), List.nil_append, List.filter_eq_self.mpr]
  intro e he
  rcases List.mem_append.mp he with he | he
  · simp [(mem_operandEdges he).2.1]
  · simp [List.mem_singleton.mp he, Edge.control]

end Send

theorem instr_send (s : Lowering) (ip : Nat) (name : String) (argc : Nat) {s₀ s₁ s₂ : Lowering}
    {args : List NodeId} {receiver : NodeId}
    (hs₀ : s.addNode .send [("name", .symbol name), ("argc", .ofNat argc), ("ip", .ofNat ip)] = s₀)
    (hmany : s₀.popMany argc [] = (args, s₁)) (hpop : s₁.pop = (receiver, s₂)) :
    s.instr ip (.send name argc) = s₂.attachSend receiver args s.graph.nodes.size := by
  rw [instr, send, hs₀]
  simp only [hmany, hpop]
  rfl

theorem lowers_send (hs : s.Sound lo) (name : String) (argc : Nat) :
    Lowers lo ip (.send name argc) s (s.instr ip (.send name argc)) := by
  let props : Props := [("name", .symbol name), ("argc", .ofNat argc), ("ip", .ofNat ip)]
  -- the states before and after the operands are taken
  obtain ⟨s₀, hs₀⟩ : ∃ s₀, s.addNode .send props = s₀ := ⟨_, rfl⟩
  obtain ⟨args, s₁, hmany⟩ : ∃ args s₁, s₀.popMany argc [] = (args, s₁) := ⟨_, _, rfl⟩
  obtain ⟨receiver, s₂, hpop⟩ : ∃ receiver s₂, s₁.pop = (receiver, s₂) := ⟨_, _, rfl⟩
  have hsound₀ : s₀.Sound lo := hs₀ ▸ hs.addNode .send props
  obtain ⟨hsound₁, hargs⟩ := hsound₀.popMany argc (fun _ hn => absurd hn List.not_mem_nil)
  rw [hmany] at hsound₁ hargs
  obtain ⟨hsound₂, hreceiver⟩ := hsound₁.pop
  have hd₁ := demands_popMany argc [] s₀
  have hd₂ := demands_pop s₁
  rw [hmany] at hd₁
  rw [hpop] at hsound₂ hreceiver hd₂
  have hfits : ∀ m ∈ receiver :: args, s₂.Fits lo m := by
    intro m hm
    rcases List.mem_cons.mp hm with rfl | hm
    · exact hreceiver
    · exact (hargs m hm).demands hd₂
  have hd : (s.addNode .send props).Demands s₂ := hs₀ ▸ hd₁.trans hd₂
  have hwithin : ∀ {below : List NodeId} {inherited : String → Option NodeId},
      (s₂.attachSend receiver args s.graph.nodes.size).Within below inherited →
        s₁.pop.2.Within below inherited ∧ (s₀.popMany argc []).2.Within below inherited := by
    intro below inherited h
    have h₁ : s₁.pop.2.Within below inherited := by simpa [hpop] using h
    exact ⟨h₁, by rw [hmany]; exact h₁.of_pop⟩
  rw [instr_send s ip name argc hs₀ hmany hpop]
  refine ⟨sound_attachSend hs.lo_lt hsound₂ hd hfits, emits_attachSend hsound₂ hd hfits,
    fun h => ?_, fun h => ?_, ?_⟩
  · simpa using hd.needs h
  · simpa [← hs₀] using (hwithin h).2.of_popMany
  · intro below inherited h
    obtain ⟨hw₁, hw₀⟩ := hwithin h
    obtain ⟨new, hnew, rfl, hctx⟩ := context_popMany hw₀
    rw [hmany, List.append_nil] at hnew
    rw [hmany, context_pop hw₁, hpop, ← hs₀, context_addNode] at hctx
    obtain rfl : args = new := hnew
    have hnode : (s.addNode .send props).graph.label? s.graph.nodes.size = some (.send, props) :=
      (Graph.label?_addNode s.graph .send props _).trans (if_pos rfl)
    have hlabel : (s₂.attachSend receiver args s.graph.nodes.size).graph.label?
        s.graph.nodes.size = some (.send, props) :=
      (Graph.label?_addEdge _ _ _).trans
        ((Graph.label?_addEdges _ _ _).trans (hd.grows.label_some hnode))
    have htop : (s.context below inherited).stack =
        args.reverse ++ receiver :: (s₂.context below inherited).stack := by
      rw [hctx]
      rfl
    have hstep : Context.Step _ ip (.send name args.length) (s.context below inherited) _ :=
      .send htop hlabel (inputs_attachSend hs hsound₂ hd hfits) hs.control_lt
    rw [hctx] at hstep ⊢
    exact hstep

/-- Lowering an instruction does what executing it on the context does. -/
theorem lowers_instr (hs : s.Sound lo) (ip : Nat) (i : Instr) :
    Lowers lo ip i s (s.instr ip i) := by
  cases i with
  | trace line => exact lowers_chainNew hs rfl rfl (by simp) .trace
  | self => exact lowers_pushNew hs rfl rfl (by simp) .self
  | arg k => exact lowers_pushNew hs rfl rfl (by simp) .arg
  | load x => exact lowers_load hs x
  | store x => exact lowers_store hs x
  | push v => exact lowers_pushNew hs rfl rfl (by simp) .push
  | send name argc => exact lowers_send hs name argc
  | not => exact lowers_not hs
  | jump target => exact lowers_chainNew hs rfl rfl (by simp) .jump
  | branch target => exact lowers_branch hs target
  | ret => exact lowers_ret hs

end Instructions

end StackJit.Lowering
