import StackJit.Proofs.Graph.Control
import StackJit.Value.Send

/-!
# Executing a graph

A graph is executed by a token that travels along control edges. Sends and phis have the values that
they last got, kept in the token's store; every other value is computed where it is used. A region
that is entered by its k-th control input gives all its phis their k-th values at once, and the
finish node that is entered by its k-th control input answers its k-th value. Traces, jumps,
safepoints and guards pass the token on.

Evaluation is bounded by a depth and execution by a budget; larger bounds keep an answer
(`Execution.run_of_le`). `Execution.Reaches x v` says that some bounds give the answer `v`.
-/

namespace StackJit

namespace Graph

/-- The only edge by which control leaves a node. -/
def exit? (g : Graph) (id : NodeId) : Option EdgeId :=
  match g.exits id with
  | [p] => some p.1
  | _ => none

/-- The only edge by which control leaves a node in a role. -/
def arm? (g : Graph) (id : NodeId) (role : Role) : Option EdgeId :=
  match (g.exits id).filter (·.2.output == role) with
  | [p] => some p.1
  | _ => none

/-- The place of an edge among the control inputs of a node, in attachment order. -/
def position? (g : Graph) (id : NodeId) (edge : EdgeId) : Option Nat :=
  (g.enters id).findIdx? (·.1 == edge)

/-- The phis that a region decides. -/
def phis (g : Graph) (region : NodeId) : List NodeId :=
  ((g.outputs region).filter fun e => e.isControl && g.hasOp e.target .phi).map (·.target)

/-- The arguments of a send, in attachment order. -/
def argSources (g : Graph) (id : NodeId) : List NodeId :=
  ((g.inputs id).filter (·.input == .args)).map (·.source)

theorem Consistent.mem_phis {g : Graph} (hg : g.Consistent) {r p : NodeId} :
    p ∈ g.phis r ↔ g.op? p = some .phi ∧ ∃ e ∈ g.inputs p, e.isControl = true ∧ e.source = r := by
  rw [phis, List.mem_map]
  constructor
  · rintro ⟨e, he, rfl⟩
    obtain ⟨he, htrue⟩ := List.mem_filter.mp he
    rw [Bool.and_eq_true, hasOp_iff] at htrue
    obtain ⟨hsource, i, hi⟩ := hg.mem_outputs.mp he
    exact ⟨htrue.2, e, hg.mem_inputs.mpr ⟨rfl, i, hi⟩, htrue.1, hsource⟩
  · rintro ⟨hop, e, he, hctl, hsource⟩
    obtain ⟨htarget, i, hi⟩ := hg.mem_inputs.mp he
    refine ⟨e, List.mem_filter.mpr ⟨hg.mem_outputs.mpr ⟨hsource, i, hi⟩, ?_⟩, htarget⟩
    rw [Bool.and_eq_true, hasOp_iff, htarget]
    exact ⟨hctl, hop⟩

end Graph

/-- The token is on a control edge. -/
structure Token where
  edge : EdgeId
  /-- The values of sends and phis. -/
  store : NodeId → Option Value

/-- Where the token goes, or what the execution ends with. -/
inductive Move where
  | next (token : Token)
  | stop (result : Except RunError Value)

structure Execution where
  graph : Graph
  receiver : Value
  args : List Value

namespace Execution

/-- The value of a node. The number of an argument is kept as a word. -/
def value (x : Execution) (store : NodeId → Option Value) : Nat → NodeId → Option Value
  | 0, _ => none
  | depth + 1, id =>
    match x.graph.op? id with
    | some .constant => x.graph.prop? id "value"
    | some .self => some x.receiver
    | some .arg => ((x.graph.prop? id "n").bind (·.int?)).bind fun n => x.args[n.toUInt64.toNat]?
    | some .not =>
      match x.graph.valueSources id with
      | [source] => (x.value store depth source).map fun v => .bool (!v.truthy)
      | _ => none
    | some .input =>
      match x.graph.valueSources id with
      | [source] => x.value store depth source
      | _ => none
    | some .send | some .phi => store id
    | _ => none

/-- The value that a phi takes when its region is entered by control input `k`. -/
def choice (x : Execution) (store : NodeId → Option Value) (depth k : Nat) (phi : NodeId) :
    Option (NodeId × Value) :=
  ((x.graph.valueSources phi)[k]?.bind (x.value store depth)).map fun v => (phi, v)

/-- The store when a region has been entered by control input `k`. -/
def enter (x : Execution) (store : NodeId → Option Value) (depth k : Nat) (region : NodeId) :
    Option (NodeId → Option Value) :=
  ((x.graph.phis region).mapM (x.choice store depth k)).map fun chosen id =>
    (chosen.lookup id).or (store id)

/-- What a send answers. -/
def dispatch (x : Execution) (store : NodeId → Option Value) (depth : Nat) (send : NodeId) :
    Option (Except RunError Value) := do
  let name ← (x.graph.prop? send "name").bind (·.symbol?)
  let receiver ← (x.graph.sourceFor? send .receiver).bind (x.value store depth)
  let args ← (x.graph.argSources send).mapM (x.value store depth)
  return receiver.send name args

/-- What happens when the token arrives at the node at the end of its edge. -/
def arrive (x : Execution) (depth : Nat) (t : Token) (id : NodeId) : Option Move :=
  match x.graph.op? id with
  | some .finish => do
    let k ← x.graph.position? id t.edge
    let v ← (x.graph.valueSources id)[k]?.bind (x.value t.store depth)
    return .stop (.ok v)
  | some .region | some .merge => do
    let k ← x.graph.position? id t.edge
    let store ← x.enter t.store depth k id
    let edge ← x.graph.exit? id
    return .next ⟨edge, store⟩
  | some .send => do
    match ← x.dispatch t.store depth id with
    | .ok v =>
      let edge ← x.graph.exit? id
      return .next ⟨edge, fun n => if n = id then some v else t.store n⟩
    | .error e => return .stop (.error e)
  | some .branch => do
    let v ← (x.graph.sourceFor? id .condition).bind (x.value t.store depth)
    let edge ← x.graph.arm? id (if v.truthy then .whenTrue else .whenFalse)
    return .next ⟨edge, t.store⟩
  | some .trace | some .jump | some .safepoint | some .guard => do
    let edge ← x.graph.exit? id
    return .next ⟨edge, t.store⟩
  | _ => none

def step (x : Execution) (depth : Nat) (t : Token) : Option Move :=
  (x.graph.edge? t.edge).bind fun e => x.arrive depth t e.target

/-- Executes at most `budget` steps. -/
def run (x : Execution) (depth : Nat) : Nat → Token → Option (Except RunError Value)
  | 0, _ => none
  | budget + 1, t =>
    match x.step depth t with
    | some (.next t) => x.run depth budget t
    | some (.stop result) => some result
    | none => none

/-- The token leaves the start node with nothing in its store. -/
def start? (x : Execution) : Option Token :=
  (x.graph.exit? x.graph.start).map fun e => ⟨e, fun _ => none⟩

/-- Within the bounds, the execution of the whole graph ends. -/
def answer? (x : Execution) (depth budget : Nat) : Option (Except RunError Value) :=
  x.start?.bind (x.run depth budget)

/-- The execution reaches the finish node with `v`. -/
def Reaches (x : Execution) (v : Value) : Prop :=
  ∃ depth budget, x.answer? depth budget = some (.ok v)

/-! ## Larger bounds -/

section Bounds

variable {x : Execution} {store : NodeId → Option Value} {d d' : Nat}

theorem mapM_some_of_imp {α β : Type} {f f' : α → Option β} {l : List α} {r : List β}
    (h : l.mapM f = some r) (hf : ∀ a ∈ l, ∀ {b : β}, f a = some b → f' a = some b) :
    l.mapM f' = some r := by
  induction l generalizing r with
  | nil => exact h
  | cons a l ih =>
    rw [List.mapM_cons] at h ⊢
    obtain ⟨b, hb, h⟩ := Option.bind_eq_some_iff.mp h
    obtain ⟨bs, hbs, h⟩ := Option.bind_eq_some_iff.mp h
    have hrest := ih hbs fun a' ha' => hf a' (List.mem_cons_of_mem a ha')
    rw [hf a List.mem_cons_self hb, hrest]
    exact h

theorem value_of_le {n : NodeId} {v : Value} (h : x.value store d n = some v) (hle : d ≤ d') :
    x.value store d' n = some v := by
  induction d generalizing d' n v with
  | zero => cases h
  | succ d ih =>
    obtain ⟨d', rfl⟩ : ∃ k, d' = k + 1 := ⟨d' - 1, by omega⟩
    have hle : d ≤ d' := Nat.le_of_succ_le_succ hle
    unfold value at h ⊢
    split at h
    · exact h
    · exact h
    · exact h
    · split at h
      · obtain ⟨w, hw, rfl⟩ := Option.map_eq_some_iff.mp h
        rw [ih hw hle]
        rfl
      · cases h
    · split at h
      · exact ih h hle
      · cases h
    · exact h
    · exact h
    · cases h

theorem choice_of_le {k : Nat} {p : NodeId} {q : NodeId × Value}
    (h : x.choice store d k p = some q) (hle : d ≤ d') : x.choice store d' k p = some q := by
  obtain ⟨v, hv, rfl⟩ := Option.map_eq_some_iff.mp h
  obtain ⟨m, hm, hv⟩ := Option.bind_eq_some_iff.mp hv
  rw [choice, hm, Option.bind_some, value_of_le hv hle]
  rfl

theorem enter_of_le {k : Nat} {region : NodeId} {store' : NodeId → Option Value}
    (h : x.enter store d k region = some store') (hle : d ≤ d') :
    x.enter store d' k region = some store' := by
  obtain ⟨chosen, hchosen, rfl⟩ := Option.map_eq_some_iff.mp h
  rw [enter, mapM_some_of_imp hchosen fun p _ q hq => choice_of_le hq hle]
  rfl

theorem dispatch_of_le {send : NodeId} {r : Except RunError Value}
    (h : x.dispatch store d send = some r) (hle : d ≤ d') : x.dispatch store d' send = some r := by
  obtain ⟨name, hname, h⟩ := Option.bind_eq_some_iff.mp h
  obtain ⟨v, hv, h⟩ := Option.bind_eq_some_iff.mp h
  obtain ⟨vs, hvs, h⟩ := Option.bind_eq_some_iff.mp h
  obtain ⟨m, hm, hv⟩ := Option.bind_eq_some_iff.mp hv
  have hvs' := mapM_some_of_imp hvs fun a _ b hb => value_of_le hb hle
  simp only [dispatch, hname, hm, Option.bind_some, value_of_le hv hle, hvs']
  exact h

theorem arrive_of_le {t : Token} {id : NodeId} {m : Move} (h : x.arrive d t id = some m)
    (hle : d ≤ d') : x.arrive d' t id = some m := by
  unfold arrive at h ⊢
  split at h
  · obtain ⟨k, hk, h⟩ := Option.bind_eq_some_iff.mp h
    obtain ⟨v, hv, h⟩ := Option.bind_eq_some_iff.mp h
    obtain ⟨n, hn, hv⟩ := Option.bind_eq_some_iff.mp hv
    simp only [Option.bind_eq_bind, hk, Option.bind_some, hn, value_of_le hv hle]
    exact h
  · obtain ⟨k, hk, h⟩ := Option.bind_eq_some_iff.mp h
    obtain ⟨store', hstore, h⟩ := Option.bind_eq_some_iff.mp h
    simp only [Option.bind_eq_bind, hk, Option.bind_some, enter_of_le hstore hle]
    exact h
  · obtain ⟨k, hk, h⟩ := Option.bind_eq_some_iff.mp h
    obtain ⟨store', hstore, h⟩ := Option.bind_eq_some_iff.mp h
    simp only [Option.bind_eq_bind, hk, Option.bind_some, enter_of_le hstore hle]
    exact h
  · obtain ⟨r, hr, h⟩ := Option.bind_eq_some_iff.mp h
    simp only [Option.bind_eq_bind, dispatch_of_le hr hle, Option.bind_some]
    exact h
  · obtain ⟨v, hv, h⟩ := Option.bind_eq_some_iff.mp h
    obtain ⟨n, hn, hv⟩ := Option.bind_eq_some_iff.mp hv
    simp only [Option.bind_eq_bind, hn, Option.bind_some, value_of_le hv hle]
    exact h
  · exact h
  · exact h
  · exact h
  · exact h
  · cases h

theorem step_of_le {t : Token} {m : Move} (h : x.step d t = some m) (hle : d ≤ d') :
    x.step d' t = some m := by
  obtain ⟨e, he, h⟩ := Option.bind_eq_some_iff.mp h
  rw [step, he]
  exact arrive_of_le h hle

/-- Larger bounds keep an answer. -/
theorem run_of_le {budget budget' : Nat} {t : Token} {r : Except RunError Value}
    (h : x.run d budget t = some r) (hle : d ≤ d') (hbudget : budget ≤ budget') :
    x.run d' budget' t = some r := by
  induction budget generalizing budget' t with
  | zero => cases h
  | succ budget ih =>
    obtain ⟨budget', rfl⟩ : ∃ k, budget' = k + 1 := ⟨budget' - 1, by omega⟩
    have hbudget := Nat.le_of_succ_le_succ hbudget
    unfold run at h ⊢
    split at h
    · next t' ht' =>
      rw [step_of_le ht' hle]
      exact ih h hbudget
    · next r' hr' =>
      rw [step_of_le hr' hle]
      exact h
    · cases h

/-- The execution has at most one answer. -/
theorem answer?_unique {budget budget' : Nat} {r r' : Except RunError Value}
    (h : x.answer? d budget = some r) (h' : x.answer? d' budget' = some r') : r = r' := by
  obtain ⟨t, ht, h⟩ := Option.bind_eq_some_iff.mp h
  obtain ⟨t', ht', h'⟩ := Option.bind_eq_some_iff.mp h'
  obtain rfl : t = t' := Option.some.inj (ht.symm.trans ht')
  have h₁ := run_of_le h (Nat.le_max_left d d') (Nat.le_max_left budget budget')
  have h₂ := run_of_le h' (Nat.le_max_right d d') (Nat.le_max_right budget budget')
  exact Option.some.inj (h₁.symm.trans h₂)

end Bounds

/-! ## Single steps -/

section Steps

variable {x : Execution} {d : Nat} {t : Token} {e : Edge} {v : Value}

theorem step_pass {i : EdgeId} {op : Op} (he : x.graph.edge? t.edge = some e)
    (hop : x.graph.op? e.target = some op)
    (hpass : op = .trace ∨ op = .jump ∨ op = .safepoint ∨ op = .guard)
    (hexit : x.graph.exit? e.target = some i) : x.step d t = some (.next ⟨i, t.store⟩) := by
  rw [step, he, Option.bind_some, arrive, hop]
  rcases hpass with rfl | rfl | rfl | rfl <;>
    simp only [hexit, Option.bind_eq_bind, Option.bind_some] <;> rfl

theorem step_finish {k : Nat} {m : NodeId} (he : x.graph.edge? t.edge = some e)
    (hop : x.graph.op? e.target = some .finish) (hk : x.graph.position? e.target t.edge = some k)
    (hm : (x.graph.valueSources e.target)[k]? = some m) (hv : x.value t.store d m = some v) :
    x.step d t = some (.stop (.ok v)) := by
  rw [step, he, Option.bind_some, arrive, hop]
  simp only [hk, Option.bind_eq_bind, Option.bind_some, hm, hv]
  rfl

theorem step_region {k : Nat} {i : EdgeId} {store : NodeId → Option Value}
    (he : x.graph.edge? t.edge = some e) (hop : x.graph.op? e.target = some .region)
    (hk : x.graph.position? e.target t.edge = some k)
    (henter : x.enter t.store d k e.target = some store)
    (hexit : x.graph.exit? e.target = some i) : x.step d t = some (.next ⟨i, store⟩) := by
  rw [step, he, Option.bind_some, arrive, hop]
  simp only [hk, Option.bind_eq_bind, Option.bind_some, henter, hexit]
  rfl

theorem step_send {i : EdgeId} (he : x.graph.edge? t.edge = some e)
    (hop : x.graph.op? e.target = some .send)
    (hdispatch : x.dispatch t.store d e.target = some (.ok v))
    (hexit : x.graph.exit? e.target = some i) :
    x.step d t = some (.next ⟨i, fun n => if n = e.target then some v else t.store n⟩) := by
  rw [step, he, Option.bind_some, arrive, hop]
  simp only [hdispatch, Option.bind_eq_bind, Option.bind_some, hexit]
  rfl

theorem step_branch {i : EdgeId} {m : NodeId} (he : x.graph.edge? t.edge = some e)
    (hop : x.graph.op? e.target = some .branch)
    (hm : x.graph.sourceFor? e.target .condition = some m) (hv : x.value t.store d m = some v)
    (harm : x.graph.arm? e.target (if v.truthy then .whenTrue else .whenFalse) = some i) :
    x.step d t = some (.next ⟨i, t.store⟩) := by
  rw [step, he, Option.bind_some, arrive, hop]
  simp only [hm, Option.bind_eq_bind, Option.bind_some, hv, harm]
  rfl

/-- The execution that has come to the token ends with `v`. -/
def Ends (x : Execution) (t : Token) (v : Value) : Prop :=
  ∃ d budget, x.run d budget t = some (.ok v)

theorem ends_of_stop (h : x.step d t = some (.stop (.ok v))) : x.Ends t v := by
  refine ⟨d, 1, ?_⟩
  rw [run, h]

/-- The token comes from one edge to another. -/
inductive Travels (x : Execution) : Token → Token → Prop where
  | refl (t : Token) : Travels x t t
  | step {d : Nat} {t t' t'' : Token} (hstep : x.step d t = some (.next t'))
      (h : Travels x t' t'') :
      Travels x t t''

variable {t' t'' : Token}

theorem travels_of_next (h : x.step d t = some (.next t')) : x.Travels t t' := .step h (.refl t')

theorem Travels.trans (h : x.Travels t t') (h' : x.Travels t' t'') : x.Travels t t'' := by
  induction h with
  | refl => exact h'
  | step hstep _ ih => exact .step hstep (ih h')

/-- An execution goes on as the one does to which the token has come. -/
theorem Travels.ends (h : x.Travels t t') (hends : x.Ends t' v) : x.Ends t v := by
  induction h with
  | refl => exact hends
  | @step d t t' _ hstep _ ih =>
    obtain ⟨d', budget, hrun⟩ := ih hends
    refine ⟨max d d', budget + 1, ?_⟩
    rw [run, step_of_le hstep (Nat.le_max_left d d')]
    exact run_of_le hrun (Nat.le_max_right d d') (Nat.le_refl budget)

end Steps

/-! ## Entering a region -/

section Enter

variable {x : Execution} {store : NodeId → Option Value} {k : Nat}

theorem choice_eq_some {d : Nat} {p : NodeId} {q : NodeId × Value}
    (h : x.choice store d k p = some q) :
    q.1 = p ∧ ∃ m, (x.graph.valueSources p)[k]? = some m ∧ x.value store d m = some q.2 := by
  obtain ⟨v, hv, rfl⟩ := Option.map_eq_some_iff.mp h
  obtain ⟨m, hm, hv⟩ := Option.bind_eq_some_iff.mp hv
  exact ⟨rfl, m, hm, hv⟩

/-- One depth is enough for all phis of a list. -/
theorem exists_chosen {ps : List NodeId} (h : ∀ p ∈ ps, ∃ d q, x.choice store d k p = some q) :
    ∃ d chosen, ps.mapM (x.choice store d k) = some chosen ∧ chosen.map (·.1) = ps ∧
      ∀ q ∈ chosen, x.choice store d k q.1 = some q := by
  induction ps with
  | nil => exact ⟨0, [], rfl, rfl, by simp⟩
  | cons p ps ih =>
    obtain ⟨d₀, q, hq⟩ := h p List.mem_cons_self
    obtain ⟨d₁, chosen, hmap, hkeys, hchosen⟩ := ih fun p' hp' => h p' (List.mem_cons_of_mem p hp')
    have hq' := choice_of_le hq (Nat.le_max_left d₀ d₁)
    have hmap' := mapM_some_of_imp hmap fun p' _ q' hq' => choice_of_le hq' (Nat.le_max_right d₀ d₁)
    have hp := (choice_eq_some hq).1
    refine ⟨max d₀ d₁, q :: chosen, ?_, by simp [hp, hkeys], fun q' hmem => ?_⟩
    · rw [List.mapM_cons, hq', hmap']
      rfl
    · rcases List.mem_cons.mp hmem with rfl | hmem
      · rw [hp]
        exact hq'
      · exact choice_of_le (hchosen q' hmem) (Nat.le_max_right d₀ d₁)

/-- Entering a region gives its phis their values and changes nothing else. -/
theorem exists_enter {region : NodeId}
    (h : ∀ p ∈ x.graph.phis region, ∃ d q, x.choice store d k p = some q) :
    ∃ d store', x.enter store d k region = some store' ∧
      (∀ n, n ∉ x.graph.phis region → store' n = store n) ∧
      ∀ p ∈ x.graph.phis region, ∀ {m : NodeId} {v : Value} {d : Nat},
        (x.graph.valueSources p)[k]? = some m → x.value store d m = some v → store' p = some v := by
  obtain ⟨d, chosen, hmap, hkeys, hchosen⟩ := exists_chosen h
  refine ⟨d, fun n => (chosen.lookup n).or (store n), by rw [enter, hmap]; rfl, ?_, ?_⟩
  · intro n hn
    have hnone : chosen.lookup n = none := by
      refine List.lookup_eq_none_iff.mpr fun q hq => ?_
      rw [bne_iff_ne]
      rintro rfl
      exact hn (hkeys ▸ List.mem_map_of_mem hq)
    simp [hnone]
  · intro p hp m v d' hm hv
    obtain ⟨w, hw⟩ : ∃ w, chosen.lookup p = some w := by
      refine Option.isSome_iff_exists.mp (List.lookup_isSome_iff.mpr ?_)
      rw [← hkeys] at hp
      obtain ⟨q, hq, rfl⟩ := List.mem_map.mp hp
      exact ⟨q, hq, beq_self_eq_true q.1⟩
    obtain ⟨l₁, l₂, rfl, -⟩ := List.lookup_eq_some_iff.mp hw
    obtain ⟨-, m', hm', hv'⟩ := choice_eq_some (hchosen (p, w) (by simp))
    obtain rfl : m = m' := Option.some.inj (hm.symm.trans hm')
    have h₁ := value_of_le hv (Nat.le_max_left d' d)
    have h₂ := value_of_le hv' (Nat.le_max_right d' d)
    obtain rfl : v = w := Option.some.inj (h₁.symm.trans h₂)
    simp [hw]

end Enter

end Execution

end StackJit
