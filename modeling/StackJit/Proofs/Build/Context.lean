import StackJit.Build.Fragment
import StackJit.Proofs.Build.Growth

/-!
# Lowering as symbolic execution

At each of its instructions a block knows a node for every operand and local that the rest of the
block can use: its own nodes, and below them the placeholders of what it inherits. This is its
`Context`. The lowering creates a placeholder only when it is first asked for, so the context at an
instruction mentions placeholders that are made later: `Lowering.context` takes all placeholders of
the block, and `Lowering.Within` says that those made so far are among them.

`Context.Step` is one instruction executed on contexts. It holds of a lowered instruction in the
graph at hand (`Lowering.step_instr`), and of every graph that keeps the edges into the new node.
-/

namespace StackJit

/-- A place in which a value is inherited: an operand, counted from the top, or a local. -/
inductive Slot where
  | operand (index : Nat)
  | name (name : String)

/-- The nodes known at an instruction; the top of the stack comes first. -/
structure Context where
  stack : List NodeId
  names : String → Option NodeId
  control : NodeId

namespace Context

def push (s : Context) (n : NodeId) : Context := { s with stack := n :: s.stack }

def assign (s : Context) (name : String) (n : NodeId) : Context :=
  { s with names := fun x => if x = name then some n else s.names x }

/-- The node known in a slot. -/
def slot (s : Context) : Slot → Option NodeId
  | .operand i => s.stack[i]?
  | .name x => s.names x

/-- The instruction at `ip`, executed on nodes of `g`. -/
inductive Step (g : Graph) (ip : Nat) : Instr → Context → Context → Prop where
  | trace {s : Context} {line : UInt32} {n : NodeId}
      (label : g.label? n = some (.trace, [("line", .ofNat line.toNat)]))
      (inputs : g.inputs n = [.control s.control n]) (after : s.control < n) :
      Step g ip (.trace line) s { s with control := n }
  | self {s : Context} {n : NodeId} (label : g.label? n = some (.self, []))
      (inputs : g.inputs n = []) : Step g ip .self s (s.push n)
  | arg {s : Context} {k : Nat} {n : NodeId} (label : g.label? n = some (.arg, [("n", .ofNat k)]))
      (inputs : g.inputs n = []) : Step g ip (.arg k) s (s.push n)
  | load {s : Context} {x : String} {n : NodeId} (known : s.names x = some n) :
      Step g ip (.load x) s (s.push n)
  | store {s : Context} {x : String} {n : NodeId} {rest : List NodeId} (top : s.stack = n :: rest) :
      Step g ip (.store x) s ({ s with stack := rest }.assign x n)
  | push {s : Context} {v : Value} {n : NodeId}
      (label : g.label? n = some (.constant, [("value", v)]))
      (inputs : g.inputs n = []) : Step g ip (.push v) s (s.push n)
  | send {s : Context} {name : String} {n receiver : NodeId} {args rest : List NodeId}
      (top : s.stack = args.reverse ++ receiver :: rest)
      (label : g.label? n =
        some (.send, [("name", .symbol name), ("argc", .ofNat args.length), ("ip", .ofNat ip)]))
      (inputs : g.inputs n =
        .value receiver n .receiver :: args.map (fun arg => .value arg n .args) ++
          [.control s.control n])
      (after : s.control < n) :
      Step g ip (.send name args.length) s ⟨n :: rest, s.names, n⟩
  | not {s : Context} {n operand : NodeId} {rest : List NodeId} (top : s.stack = operand :: rest)
      (label : g.label? n = some (.not, [])) (inputs : g.inputs n = [.value operand n .value]) :
      Step g ip .not s { s with stack := n :: rest }
  | jump {s : Context} {target : Nat} {n : NodeId} (label : g.label? n = some (.jump, []))
      (inputs : g.inputs n = [.control s.control n]) (after : s.control < n) :
      Step g ip (.jump target) s { s with control := n }
  | branch {s : Context} {target : Nat} {n operand : NodeId} {rest : List NodeId}
      (top : s.stack = operand :: rest) (label : g.label? n = some (.branch, []))
      (inputs : g.inputs n = [.value operand n .condition, .control s.control n])
      (after : s.control < n) :
      Step g ip (.branch target) s ⟨rest, s.names, n⟩
  | ret {s : Context} {n : NodeId} {rest : List NodeId} (top : s.stack = n :: rest) :
      Step g ip .ret s s

end Context

namespace Lowering

/-- The placeholder made for a slot so far. -/
def needs (s : Lowering) : Slot → Option NodeId
  | .operand i => s.neededStack.reverse[i]?
  | .name x => s.neededNames[x]?

@[simp] theorem needs_push (s : Lowering) (n : NodeId) : (s.push n).needs = s.needs := rfl

@[simp] theorem needs_addNode (s : Lowering) (op : Op) (props : Props) :
    (s.addNode op props).needs = s.needs := rfl

@[simp] theorem needs_addEdges (s : Lowering) (es : List Edge) :
    (s.addEdges es).needs = s.needs := rfl

@[simp] theorem needs_chain (s : Lowering) (n : NodeId) : (s.chain n).needs = s.needs := rfl

/-- The placeholders made so far are among those of the whole block: `below` for operands, top
first, and `inherited` for locals. -/
structure Within (s : Lowering) (below : List NodeId) (inherited : String → Option NodeId) :
    Prop where
  stack : s.neededStack.reverse <+: below
  names : ∀ {x : String} {n : NodeId}, s.neededNames[x]? = some n → inherited x = some n

/-- What is known in a state, with the placeholders of the whole block. -/
def context (s : Lowering) (below : List NodeId) (inherited : String → Option NodeId) : Context :=
  { stack := s.stack ++ below.drop s.neededStack.length
    names := fun x => s.names[x]?.or (inherited x)
    control := s.controlEnd }

section Steps

variable (s : Lowering) (below : List NodeId) (inherited : String → Option NodeId)

@[simp] theorem within_push (n : NodeId) :
    (s.push n).Within below inherited ↔ s.Within below inherited :=
  ⟨fun h => ⟨h.stack, h.names⟩, fun h => ⟨h.stack, h.names⟩⟩

@[simp] theorem within_addNode (op : Op) (props : Props) :
    (s.addNode op props).Within below inherited ↔ s.Within below inherited :=
  ⟨fun h => ⟨h.stack, h.names⟩, fun h => ⟨h.stack, h.names⟩⟩

@[simp] theorem within_addEdges (es : List Edge) :
    (s.addEdges es).Within below inherited ↔ s.Within below inherited :=
  ⟨fun h => ⟨h.stack, h.names⟩, fun h => ⟨h.stack, h.names⟩⟩

@[simp] theorem within_chain (n : NodeId) :
    (s.chain n).Within below inherited ↔ s.Within below inherited :=
  ⟨fun h => ⟨h.stack, h.names⟩, fun h => ⟨h.stack, h.names⟩⟩

@[simp] theorem context_push (n : NodeId) :
    (s.push n).context below inherited = (s.context below inherited).push n := rfl

@[simp] theorem context_addNode (op : Op) (props : Props) :
    (s.addNode op props).context below inherited = s.context below inherited := rfl

@[simp] theorem context_addEdges (es : List Edge) :
    (s.addEdges es).context below inherited = s.context below inherited := rfl

@[simp] theorem context_chain (n : NodeId) :
    (s.chain n).context below inherited = { s.context below inherited with control := n } := rfl

end Steps

/-- `t` is `s` with one more placeholder, for the slot `a`. -/
structure Demand (s t : Lowering) (a : Slot) : Prop where
  graph : t.graph = s.graph.addNode .input []
  lacks : s.needs a = none
  new : t.needs a = some s.graph.nodes.size
  old : ∀ {b : Slot}, b ≠ a → t.needs b = s.needs b
  stack : ∀ {n : NodeId}, n ∈ t.stack → n ∈ s.stack ∨ n = s.graph.nodes.size
  names : ∀ {x : String} {n : NodeId}, t.names[x]? = some n →
    s.names[x]? = some n ∨ n = s.graph.nodes.size
  known : ∀ {x : String}, x ∈ s.names ∨ a = .name x → x ∈ t.names
  control : t.controlEnd = s.controlEnd

/-- `t` has placeholders that `s` lacks, and no other new node. -/
structure Demands (s t : Lowering) : Prop where
  grows : s.graph.Grows t.graph []
  fresh : ∀ {n : NodeId}, s.graph.nodes.size ≤ n → n < t.graph.nodes.size →
    t.graph.op? n = some .input
  control : t.controlEnd = s.controlEnd
  needs : ∀ {a : Slot} {n : NodeId}, s.needs a = some n → t.needs a = some n

namespace Demands

theorem refl (s : Lowering) : s.Demands s :=
  ⟨.refl _, fun h h' => absurd h' (Nat.not_lt.mpr h), rfl, id⟩

theorem trans {s t u : Lowering} (h₁ : s.Demands t) (h₂ : t.Demands u) : s.Demands u where
  grows := h₁.grows.trans h₂.grows
  fresh {n} hn hn' := by
    by_cases h : n < t.graph.nodes.size
    · exact h₂.grows.op_some (h₁.fresh hn h)
    · exact h₂.fresh (Nat.not_lt.mp h) hn'
  control := h₂.control.trans h₁.control
  needs h := h₂.needs (h₁.needs h)

end Demands

theorem op?_addNode_fresh (g : Graph) (op : Op) (props : Props) :
    (g.addNode op props).op? g.nodes.size = some op := by
  rw [Graph.op?_addNode, if_pos rfl]

theorem Demand.demands {s t : Lowering} {a : Slot} (h : s.Demand t a) : s.Demands t where
  grows := h.graph ▸ Graph.Grows.addNode s.graph _ _
  fresh {n} hn hn' := by
    rw [h.graph, Graph.numNodes_addNode] at hn'
    obtain rfl : n = s.graph.nodes.size := Nat.le_antisymm (Nat.le_of_lt_succ hn') hn
    rw [h.graph, op?_addNode_fresh]
  control := h.control
  needs {b n} hn := by
    by_cases hb : b = a
    · rw [hb, h.lacks] at hn
      exact absurd hn (by simp)
    · rw [h.old hb]
      exact hn

variable {s : Lowering} {below : List NodeId} {inherited : String → Option NodeId}

/-! ## Taking operands and reading locals -/

theorem pop_of_cons {n : NodeId} {rest : List NodeId} (h : s.stack = n :: rest) :
    s.pop = (n, { s with stack := rest }) := by
  simp [pop, h]

theorem pop_of_nil (h : s.stack = []) :
    s.pop = (s.graph.nodes.size,
      { s with
        graph := s.graph.addNode .input []
        neededStack := s.graph.nodes.size :: s.neededStack }) := by
  simp [pop, h, Graph.freshNode]

/-- One more operand placeholder below the others: the part of `Demand` that is about slots. -/
theorem needs_cons (t : Lowering) (n : NodeId) {b : Slot} (hb : b ≠ .operand s.neededStack.length)
    (hstack : t.neededStack = n :: s.neededStack) (hnames : t.neededNames = s.neededNames) :
    t.needs b = s.needs b := by
  cases b with
  | operand i =>
    have hi : i ≠ s.neededStack.length := fun h => hb (h ▸ rfl)
    simp only [needs, hstack, List.reverse_cons]
    by_cases hlt : i < s.neededStack.length
    · rw [List.getElem?_append_left (by simpa using hlt)]
    · rw [List.getElem?_eq_none (by simp; omega), List.getElem?_eq_none (by simp; omega)]
  | name x => rw [needs, needs, hnames]

theorem demand_pop (h : s.stack = []) : s.Demand s.pop.2 (.operand s.neededStack.length) := by
  rw [pop_of_nil h]
  exact
    { graph := rfl
      lacks := by simp [needs]
      new := by simp [needs]
      old := fun hb => needs_cons _ _ hb rfl rfl
      stack := .inl
      names := .inl
      known := by simp
      control := rfl }

theorem demands_pop (s : Lowering) : s.Demands s.pop.2 := by
  cases h : s.stack with
  | cons n rest =>
    rw [pop_of_cons h]
    exact ⟨.refl _, fun h h' => absurd h' (Nat.not_lt.mpr h), rfl, id⟩
  | nil => exact (demand_pop h).demands

theorem Within.of_pop (h : s.pop.2.Within below inherited) : s.Within below inherited := by
  cases hs : s.stack with
  | cons n rest =>
    rw [pop_of_cons hs] at h
    exact ⟨h.stack, h.names⟩
  | nil =>
    rw [pop_of_nil hs] at h
    have hp := h.stack
    simp only [List.reverse_cons] at hp
    exact ⟨(List.prefix_append _ _).trans hp, h.names⟩

/-- Taking an operand takes it from the context, whether or not it was made before. -/
theorem context_pop (h : s.pop.2.Within below inherited) :
    s.context below inherited = (s.pop.2.context below inherited).push s.pop.1 := by
  cases hs : s.stack with
  | cons n rest =>
    rw [pop_of_cons hs]
    simp [context, Context.push, hs]
  | nil =>
    rw [pop_of_nil hs] at h ⊢
    obtain ⟨rest, rfl⟩ := h.stack
    simp [context, Context.push, hs, List.drop_append]

theorem popMany_succ (n : Nat) (taken : List NodeId) (s : Lowering) :
    popMany (n + 1) taken s = popMany n (s.pop.1 :: taken) s.pop.2 := rfl

theorem demands_popMany (n : Nat) (taken : List NodeId) (s : Lowering) :
    s.Demands (popMany n taken s).2 := by
  induction n generalizing taken s with
  | zero => exact .refl s
  | succ n ih => exact (demands_pop s).trans (ih (s.pop.1 :: taken) s.pop.2)

theorem Within.of_popMany {n : Nat} {taken : List NodeId}
    (h : (popMany n taken s).2.Within below inherited) : s.Within below inherited := by
  induction n generalizing taken s with
  | zero => exact h
  | succ n ih => exact (ih h).of_pop

theorem context_popMany {n : Nat} {taken : List NodeId}
    (h : (popMany n taken s).2.Within below inherited) :
    ∃ new : List NodeId, (popMany n taken s).1 = new ++ taken ∧ new.length = n ∧
      s.context below inherited =
        ⟨new.reverse ++ ((popMany n taken s).2.context below inherited).stack,
          ((popMany n taken s).2.context below inherited).names,
          (popMany n taken s).2.controlEnd⟩ := by
  induction n generalizing taken s with
  | zero => exact ⟨[], rfl, rfl, rfl⟩
  | succ n ih =>
    rw [popMany_succ] at h ⊢
    obtain ⟨new, htaken, hlen, hctx⟩ := ih h
    refine ⟨new ++ [s.pop.1], ?_, by simp [hlen], ?_⟩
    · rw [htaken, List.append_assoc, List.singleton_append]
    · rw [context_pop (Within.of_popMany h), hctx]
      simp [Context.push]

theorem read_of_some {x : String} {n : NodeId} (h : s.names[x]? = some n) : s.read x = (n, s) := by
  simp [read, h]

theorem read_of_none {x : String} (h : s.names[x]? = none) :
    s.read x = (s.graph.nodes.size,
      { s with
        graph := s.graph.addNode .input []
        neededNames := s.neededNames.insert x s.graph.nodes.size
        names := s.names.insert x s.graph.nodes.size }) := by
  simp [read, h, Graph.freshNode]

/-- One more local among the placeholders: the part of `Demand` that is about slots. -/
theorem needs_insert (t : Lowering) (n : NodeId) {x : String} {b : Slot} (hb : b ≠ .name x)
    (hstack : t.neededStack = s.neededStack) (hnames : t.neededNames = s.neededNames.insert x n) :
    t.needs b = s.needs b := by
  cases b with
  | operand i => rw [needs, needs, hstack]
  | name y =>
    have hxy : x ≠ y := fun h => hb (h ▸ rfl)
    simp [needs, hnames, Std.TreeMap.getElem?_insert, hxy]

theorem getElem?_insert_cases {m : NameMap} {x y : String} {n k : NodeId}
    (h : (m.insert x n)[y]? = some k) : m[y]? = some k ∨ k = n := by
  rw [Std.TreeMap.getElem?_insert] at h
  split at h
  · exact .inr (Option.some.inj h).symm
  · exact .inl h

theorem demand_read {x : String} (h : s.names[x]? = none) (hneeds : s.needs (.name x) = none) :
    s.Demand (s.read x).2 (.name x) := by
  rw [read_of_none h]
  exact
    { graph := rfl
      lacks := hneeds
      new := by simp [needs]
      old := fun hb => needs_insert _ _ hb rfl rfl
      stack := .inl
      names := getElem?_insert_cases
      known := by
        rintro y (hy | hy)
        · exact Std.TreeMap.mem_insert.mpr (.inr hy)
        · cases hy
          exact Std.TreeMap.mem_insert_self
      control := rfl }

theorem Within.of_read {x : String} (h : (s.read x).2.Within below inherited)
    (hneeds : s.names[x]? = none → s.needs (.name x) = none) : s.Within below inherited := by
  cases hs : s.names[x]? with
  | some n =>
    rw [read_of_some hs] at h
    exact h
  | none =>
    have hd := demand_read hs (hneeds hs)
    rw [read_of_none hs] at h hd
    exact ⟨h.stack, fun hy => h.names (hd.demands.needs (a := .name _) hy)⟩

/-- Reading a local finds it in the context and leaves the context as it is. -/
theorem context_read {x : String} (h : (s.read x).2.Within below inherited) :
    (s.read x).2.context below inherited = s.context below inherited ∧
      (s.context below inherited).names x = some (s.read x).1 := by
  cases hs : s.names[x]? with
  | some n =>
    rw [read_of_some hs]
    exact ⟨rfl, by simp [context, hs]⟩
  | none =>
    rw [read_of_none hs] at h ⊢
    have hx : inherited x = some s.graph.nodes.size := h.names (by simp)
    refine ⟨?_, by simp [context, hs, hx]⟩
    simp only [context, Context.mk.injEq, true_and, and_true]
    funext y
    rw [Std.TreeMap.getElem?_insert]
    by_cases hxy : x = y
    · subst hxy
      simp [hs, hx]
    · simp [hxy]

end Lowering

end StackJit
