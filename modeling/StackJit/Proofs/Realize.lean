import Mathlib.Data.List.Nodup
import StackJit.Proofs.Token

/-!
# Graphs that realize another graph

`Graph.Realizes g c σ` says that `c` came from `g` by forwarding values, leading control past nodes
and putting nodes onto control edges: `σ n` is the node of `c` that stands for the value of `n`.
Each node of `g` that is still in `c` has the operands of `g`, in some order, and is left by edges
that lead where those of `g` lead when the removed nodes are passed over (`Graph.Arrives`).

The order of operands matters at phis and at the finish node. `Graph.Pairs g c σ` says that their
values stand in the order of the control edges that choose among them, as they do in `g`.
-/

namespace StackJit

/-- The same edge from the node that stands for the source. -/
def Edge.reroute (σ : NodeId → NodeId) (e : Edge) : Edge := { e with source := σ e.source }

/-- The nodes that are never removed. -/
def Op.isKept : Op → Bool
  | start | finish | send | branch => true
  | _ => false

namespace Graph

/-- Control that leaves `x` in the role `ρ`, and passes only nodes of `P`, comes to an edge. -/
inductive Arrives (g : Graph) (P : NodeId → Prop) (x : NodeId) (ρ : Role) : EdgeId → Prop where
  | exit {i : EdgeId} {e : Edge} (he : (i, e) ∈ g.exits x) (hrole : e.output = ρ) :
      Arrives g P x ρ i
  | pass {i j : EdgeId} {e e' : Edge} (h : Arrives g P x ρ i) (hi : g.edge? i = some e)
      (hP : P e.target) (he : (j, e') ∈ g.exits e.target) : Arrives g P x ρ j

theorem Arrives.exists_exit {g : Graph} {P : NodeId → Prop} {x : NodeId} {ρ : Role} {i : EdgeId}
    (h : g.Arrives P x ρ i) : ∃ j e, (j, e) ∈ g.exits x ∧ e.output = ρ := by
  induction h with
  | exit he hrole => exact ⟨_, _, he, hrole⟩
  | pass _ _ _ _ ih => exact ih

theorem Arrives.mem_exits {g : Graph} (hg : g.Consistent) {P : NodeId → Prop} {x : NodeId}
    {ρ : Role} {i : EdgeId} {e : Edge} (h : g.Arrives P x ρ i) (he : g.edge? i = some e) :
    ∃ y, (i, e) ∈ g.exits y := by
  have hsame : ∀ {y : NodeId} {e' : Edge}, (i, e') ∈ g.exits y → ∃ y, (i, e) ∈ g.exits y := by
    intro y e' hmem
    obtain rfl : e' = e := Option.some.inj ((hg.mem_exits.mp hmem).1.symm.trans he)
    exact ⟨y, hmem⟩
  cases h with
  | exit hmem _ => exact hsame hmem
  | pass _ _ _ hmem => exact hsame hmem

theorem Arrives.isControl {g : Graph} (hg : g.Consistent) {P : NodeId → Prop} {x : NodeId}
    {ρ : Role} {i : EdgeId} {e : Edge} (h : g.Arrives P x ρ i) (he : g.edge? i = some e) :
    e.isControl = true := by
  obtain ⟨y, hy⟩ := h.mem_exits hg he
  exact (hg.mem_exits.mp hy).2.2.1

/-- The value of a node is computed from the stored value of another. -/
inductive Reads (g : Graph) : NodeId → NodeId → Prop where
  | send {n : NodeId} (hop : g.op? n = some .send) : Reads g n n
  | phi {n : NodeId} (hop : g.op? n = some .phi) : Reads g n n
  | not {n m l : NodeId} (hop : g.op? n = some .not) (hsource : m ∈ g.valueSources n)
      (h : Reads g m l) : Reads g n l
  | input {n m l : NodeId} (hop : g.op? n = some .input) (hsource : m ∈ g.valueSources n)
      (h : Reads g m l) : Reads g n l

/-- A node of `g` that is no longer in `c`. -/
abbrev Gone (c : Graph) (n : NodeId) : Prop := c.isRemoved n = true

/-- A node of `c` that is not in `g`. -/
abbrev New (g : Graph) (n : NodeId) : Prop := g.nodes.size ≤ n

structure Realizes (g c : Graph) (σ : NodeId → NodeId) : Prop where
  consistent : c.Consistent
  label : ∀ {n : NodeId} {l : Op × Props}, g.label? n = some l → c.label? n = some l
  start : c.start = g.start
  finish : c.finish = g.finish
  ends : ∀ {i : EdgeId} {e : Edge}, c.edge? i = some e → ¬ c.Gone e.source ∧ ¬ c.Gone e.target
  control : ∀ {i : EdgeId} {e : Edge}, c.edge? i = some e → e.isControl = true → e.input = .control
  kept : ∀ {n : NodeId} {op : Op}, g.op? n = some op → op.isKept = true → ¬ c.Gone n
  /-- Regions where several edges meet stay. -/
  merges : ∀ {n : NodeId}, g.op? n = some .region → c.Gone n → (g.enters n).length ≤ 1
  /-- The finish node apart, which may be given what is no value. -/
  operands : ∀ {n : NodeId} {op : Op}, g.op? n = some op → op ≠ .finish → ¬ c.Gone n →
    ((c.inputs n).filter (·.isValue)).Perm (((g.inputs n).filter (·.isValue)).map (·.reroute σ))
  /-- A node that another stands for had no choice. -/
  moved : ∀ {n : NodeId}, σ n ≠ n → (g.op? n = some .input ∨ g.op? n = some .phi) ∧
    ∀ m ∈ g.valueSources n, σ m = σ n
  phis : ∀ {r p : NodeId}, p ∈ c.phis r ↔ ¬ c.Gone p ∧ p ∈ g.phis r
  exits : ∀ {x : NodeId}, x < g.nodes.size → ¬ c.Gone x →
    ((c.exits x).map (·.2.output)).Perm ((g.exits x).map (·.2.output))
  inserted : ∀ {n : NodeId} {op : Op}, g.New n → c.op? n = some op →
    (op = .safepoint ∨ op = .guard) ∧ ∃ p, c.exits n = [p]
  follows : ∀ {x : NodeId} {ρ : Role} {j : EdgeId} {e : Edge}, ¬ c.Gone x →
    g.Arrives c.Gone x ρ j → g.edge? j = some e → ¬ c.Gone e.target →
      ∃ i e', c.Arrives g.New x ρ i ∧ c.edge? i = some e' ∧ e'.target = e.target

/-- At a node that chooses by the way control came, the value chosen in `c` stands for the value
chosen in `g`. -/
def Pairs (g c : Graph) (σ : NodeId → NodeId) : Prop :=
  ∀ {y x : NodeId} {ρ : Role} {i j : EdgeId} {k l : Nat}, c.Arrives g.New x ρ i →
    g.Arrives c.Gone x ρ j → c.position? y i = some k → g.position? y j = some l →
      ∀ p, p ∈ c.phis y ∨ (p = y ∧ y = g.finish) →
        (c.valueSources p)[k]? = (g.valueSources p)[l]?.map σ

namespace Realizes

variable {g c : Graph} {σ : NodeId → NodeId} {n m : NodeId}

theorem op (h : g.Realizes c σ) {op : Op} (hop : g.op? n = some op) : c.op? n = some op := by
  rw [op?_eq_label?] at hop ⊢
  obtain ⟨l, hl, rfl⟩ := Option.map_eq_some_iff.mp hop
  rw [h.label hl]
  rfl

theorem prop (h : g.Realizes c σ) {key : String} {l : Op × Props} (hl : g.label? n = some l) :
    c.prop? n key = l.2.lookup key := by
  rw [prop?_eq_label?, h.label hl]
  rfl

theorem fixed (h : g.Realizes c σ) {op : Op} (hop : g.op? n = some op) (hinput : op ≠ .input)
    (hphi : op ≠ .phi) : σ n = n := by
  by_contra hne
  rcases (h.moved hne).1 with h' | h' <;> rw [hop] at h'
  · exact hinput (Option.some.inj h')
  · exact hphi (Option.some.inj h')

theorem valueSources_perm (h : g.Realizes c σ) {op : Op} (hop : g.op? n = some op)
    (hfinish : op ≠ .finish) (hlive : ¬ c.Gone n) :
    (c.valueSources n).Perm ((g.valueSources n).map σ) := by
  have hperm := (h.operands hop hfinish hlive).map (·.source)
  rw [List.map_map] at hperm
  rw [valueSources, valueSources, List.map_map]
  exact hperm

theorem valueSources_eq (h : g.Realizes c σ) {op : Op} (hop : g.op? n = some op)
    (hfinish : op ≠ .finish) (hlive : ¬ c.Gone n) (hsource : g.valueSources n = [m]) :
    c.valueSources n = [σ m] := by
  have hperm := h.valueSources_perm hop hfinish hlive
  rw [hsource] at hperm
  exact List.perm_singleton.mp hperm

theorem live_of_source (h : g.Realizes c σ) (hm : m ∈ c.valueSources n) : ¬ c.Gone m := by
  obtain ⟨e, he, rfl⟩ := List.mem_map.mp hm
  obtain ⟨-, i, hi⟩ := h.consistent.mem_inputs.mp (List.mem_filter.mp he).1
  exact (h.ends hi).1

theorem live_of_reads (h : g.Realizes c σ) (hlive : ¬ c.Gone n) (hreads : c.Reads n m) :
    ¬ c.Gone m := by
  induction hreads with
  | send _ => exact hlive
  | phi _ => exact hlive
  | not _ hsource _ ih => exact ih (h.live_of_source hsource)
  | input _ hsource _ ih => exact ih (h.live_of_source hsource)

/-- The edges into a node in a role other than control carry values. -/
theorem filter_role (h : g.Realizes c σ) {role : Role} (hrole : role ≠ .control) :
    (c.inputs n).filter (·.input == role) =
      ((c.inputs n).filter (·.isValue)).filter (·.input == role) := by
  rw [List.filter_filter]
  refine List.filter_congr fun e he => ?_
  obtain ⟨-, i, hi⟩ := h.consistent.mem_inputs.mp he
  cases hctl : e.isControl with
  | false => simp [Edge.isValue, hctl]
  | true => simp [h.control hi hctl, Ne.symm hrole]

theorem filter_role_perm (h : g.Realizes c σ) {op : Op} (hop : g.op? n = some op)
    (hfinish : op ≠ .finish) (hlive : ¬ c.Gone n) {role : Role} (hrole : role ≠ .control) :
    ((c.inputs n).filter (·.input == role)).Perm
      ((((g.inputs n).filter (·.isValue)).filter (·.input == role)).map (·.reroute σ)) := by
  rw [h.filter_role hrole]
  have hperm := (h.operands hop hfinish hlive).filter (·.input == role)
  rw [List.filter_map] at hperm
  exact hperm

theorem sourceFor?_eq (h : g.Realizes c σ) {op : Op} (hop : g.op? n = some op)
    (hfinish : op ≠ .finish) (hlive : ¬ c.Gone n) {role : Role} (hrole : role ≠ .control) {e : Edge}
    (he : ((g.inputs n).filter (·.isValue)).filter (·.input == role) = [e]) :
    c.sourceFor? n role = some (σ e.source) ∧ ¬ c.Gone (σ e.source) := by
  have hperm := h.filter_role_perm hop hfinish hlive hrole
  rw [he] at hperm
  have heq : (c.inputs n).filter (·.input == role) = [e.reroute σ] := List.perm_singleton.mp hperm
  have hmem : e.reroute σ ∈ c.inputs n :=
    (List.mem_filter.mp (heq ▸ List.mem_singleton_self (e.reroute σ))).1
  obtain ⟨-, i, hi⟩ := h.consistent.mem_inputs.mp hmem
  refine ⟨?_, (h.ends hi).1⟩
  rw [sourceFor?, ← List.head?_filter, heq]
  rfl

theorem argSources_perm (h : g.Realizes c σ) {op : Op} (hop : g.op? n = some op)
    (hfinish : op ≠ .finish) (hlive : ¬ c.Gone n) : (c.argSources n).Perm
      ((((g.inputs n).filter (·.isValue)).filter (·.input == .args)).map fun e => σ e.source) := by
  have hargs : Role.args ≠ .control := by simp
  have hperm := (h.filter_role_perm hop hfinish hlive hargs).map (·.source)
  rw [List.map_map] at hperm
  exact hperm

theorem live_of_arg (h : g.Realizes c σ) (hm : m ∈ c.argSources n) : ¬ c.Gone m := by
  obtain ⟨e, he, rfl⟩ := List.mem_map.mp hm
  obtain ⟨-, i, hi⟩ := h.consistent.mem_inputs.mp (List.mem_filter.mp he).1
  exact (h.ends hi).1

/-- A node that passes a value on is read where its source is read. -/
theorem reads_source (h : g.Realizes c σ) {l : NodeId} {op : Op} (hop : g.op? n = some op)
    (hfinish : op ≠ .finish) (hsource : g.valueSources n = [m]) {m' : NodeId}
    (hm' : m' ∈ c.valueSources n) (hreads : c.Reads m' l) : c.Reads (σ m) l := by
  have hlive : ¬ c.Gone n := by
    obtain ⟨e, he, -⟩ := List.mem_map.mp hm'
    obtain ⟨htarget, i, hi⟩ := h.consistent.mem_inputs.mp (List.mem_filter.mp he).1
    exact htarget ▸ (h.ends hi).2
  rw [h.valueSources_eq hop hfinish hlive hsource, List.mem_singleton] at hm'
  rw [← hm']
  exact hreads

theorem reads_not (h : g.Realizes c σ) {l : NodeId} (hop : g.op? n = some .not)
    (hsource : g.valueSources n = [m]) (hreads : c.Reads (σ n) l) : c.Reads (σ m) l := by
  rw [h.fixed hop (by simp) (by simp)] at hreads
  have hop' := h.op hop
  cases hreads with
  | send hop'' => simp [hop'] at hop''
  | phi hop'' => simp [hop'] at hop''
  | not _ hm' hreads => exact h.reads_source hop (by simp) hsource hm' hreads
  | input hop'' => simp [hop'] at hop''

theorem reads_input (h : g.Realizes c σ) {l : NodeId} (hop : g.op? n = some .input)
    (hsource : g.valueSources n = [m]) (hreads : c.Reads (σ n) l) : c.Reads (σ m) l := by
  by_cases hmoved : σ n = n
  · rw [hmoved] at hreads
    have hop' := h.op hop
    cases hreads with
    | send hop'' => simp [hop'] at hop''
    | phi hop'' => simp [hop'] at hop''
    | not hop'' => simp [hop'] at hop''
    | input _ hm' hreads => exact h.reads_source hop (by simp) hsource hm' hreads
  · rw [(h.moved hmoved).2 m (by simp [hsource])]
    exact hreads

/-- A phi is read itself, or it has no choice. -/
theorem reads_phi (h : g.Realizes c σ) {l : NodeId} (hop : g.op? n = some .phi)
    (hreads : c.Reads (σ n) l) :
    (σ n = n ∧ l = n) ∨ ∀ m ∈ g.valueSources n, σ m = σ n := by
  by_cases hmoved : σ n = n
  · refine .inl ⟨hmoved, ?_⟩
    rw [hmoved] at hreads
    have hop' := h.op hop
    cases hreads with
    | send hop'' => rfl
    | phi hop'' => rfl
    | not hop'' => simp [hop'] at hop''
    | input hop'' => simp [hop'] at hop''
  · exact .inr (h.moved hmoved).2

/-- Control leaves a node of `c` by at most one edge in each role. -/
theorem exit_unique (h : g.Realizes c σ) {x : NodeId} (hx : x < g.nodes.size) (hlive : ¬ c.Gone x)
    (hnodup : ((g.exits x).map (·.2.output)).Nodup) {p q : EdgeId × Edge} (hp : p ∈ c.exits x)
    (hq : q ∈ c.exits x) (heq : p.2.output = q.2.output) : p = q :=
  List.inj_on_of_nodup_map ((h.exits hx hlive).nodup_iff.mpr hnodup) hp hq heq

theorem exists_exit? (h : g.Realizes c σ) {x : NodeId} {ρ : Role} (hx : x < g.nodes.size)
    (hlive : ¬ c.Gone x) (hg : (g.exits x).map (·.2.output) = [ρ]) :
    ∃ i e, c.exit? x = some i ∧ (i, e) ∈ c.exits x ∧ e.output = ρ := by
  have hperm := h.exits hx hlive
  rw [hg] at hperm
  obtain ⟨p, hp, hout⟩ := List.map_eq_singleton_iff.mp (List.perm_singleton.mp hperm)
  refine ⟨p.1, p.2, ?_, by simp [hp], hout⟩
  rw [exit?, hp]

theorem exists_arm? (h : g.Realizes c σ) {x : NodeId} {ρ : Role} (hx : x < g.nodes.size)
    (hlive : ¬ c.Gone x) (hnodup : ((g.exits x).map (·.2.output)).Nodup)
    (hρ : ρ ∈ (g.exits x).map (·.2.output)) :
    ∃ i e, c.arm? x ρ = some i ∧ (i, e) ∈ c.exits x ∧ e.output = ρ := by
  have hperm := h.exits hx hlive
  obtain ⟨p, hp, rfl⟩ := List.mem_map.mp (hperm.mem_iff.mpr hρ)
  refine ⟨p.1, p.2, ?_, hp, rfl⟩
  have hfilter : (c.exits x).filter (·.2.output == p.2.output) = [p] := by
    have hlen : ((c.exits x).filter (·.2.output == p.2.output)).length = 1 := by
      have hcount := List.count_eq_one_of_mem (hperm.nodup_iff.mpr hnodup)
        (List.mem_map_of_mem (f := fun q => q.2.output) hp)
      rw [List.count_eq_length_filter, List.filter_map, List.length_map] at hcount
      exact hcount
    obtain ⟨q, hq⟩ := List.length_eq_one_iff.mp hlen
    have hmem : p ∈ (c.exits x).filter (·.2.output == p.2.output) :=
      List.mem_filter.mpr ⟨hp, beq_self_eq_true _⟩
    rw [hq, List.mem_singleton] at hmem
    rw [hq, hmem]
  rw [arm?, hfilter]

end Realizes

end Graph

/-- A value depends on the store only at the nodes that it is read from. -/
theorem Execution.value_congr {x : Execution} {store store' : NodeId → Option Value} {d : Nat}
    {n : NodeId} (h : ∀ l, x.graph.Reads n l → store l = store' l) :
    x.value store d n = x.value store' d n := by
  induction d generalizing n with
  | zero => rfl
  | succ d ih =>
    unfold Execution.value
    split
    · rfl
    · rfl
    · rfl
    · next hop =>
      split
      · next hsource => rw [ih fun l hl => h l (.not hop (by simp [hsource]) hl)]
      · rfl
    · next hop =>
      split
      · next hsource => exact ih fun l hl => h l (.input hop (by simp [hsource]) hl)
      · rfl
    · next hop => exact h n (.send hop)
    · next hop => exact h n (.phi hop)
    · rfl

end StackJit
