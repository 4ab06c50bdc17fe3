import StackJit.Proofs.Simulate

/-!
# The graph of a method answers what the method answers

The graph that a method is built into realizes itself, and each phi has its values in the order of
the edges into its region. So the execution of the graph follows the machine.

Main statement: `Code.reaches_of_graph`. The empty method is apart: it answers nil, and its graph
has no control at all (`Code.graph_empty`).
-/

namespace StackJit

/-- No block that control can reach runs past the end of the body. -/
def Code.Returns (code : Code) : Prop :=
  match code.blocks with
  | .ok blocks => ∀ b ∈ Block.reachable blocks code.size, b.Returns code.size
  | .error _ => True

instance (size : Nat) (b : Block) : Decidable (b.Returns size) :=
  inferInstanceAs (Decidable (_ ∧ _))

instance (code : Code) : Decidable code.Returns :=
  match h : code.blocks with
  | .ok blocks =>
    decidable_of_iff (∀ b ∈ Block.reachable blocks code.size, b.Returns code.size)
      (by simp only [Code.Returns, h])
  | .error _ => isTrue (by simp only [Code.Returns, h])

/-- Control that passes no node leaves by one edge. -/
theorem Graph.Arrives.exit_of_forall {g : Graph} {P : NodeId → Prop} {x : NodeId} {ρ : Role}
    {i : EdgeId} (h : g.Arrives P x ρ i)
    (hP : ∀ {i : EdgeId} {e : Edge}, g.edge? i = some e → ¬ P e.target) :
    ∃ e, (i, e) ∈ g.exits x ∧ e.output = ρ := by
  cases h with
  | exit he hrole => exact ⟨_, he, hrole⟩
  | pass _ hi htarget _ => exact absurd htarget (hP hi)

namespace Translation

variable {code : Code} {g : Graph}

theorem returns (t : Translation code g) (h : code.Returns) :
    ∀ b ∈ t.blocks, b.Returns code.size := by
  obtain ⟨all, hall, hblocks⟩ := t.found
  rw [Code.Returns, hall] at h
  rw [hblocks]
  exact h

theorem exit_of_gone (t : Translation code g) {x : NodeId} {ρ : Role} {i : EdgeId}
    (h : g.Arrives g.Gone x ρ i) : ∃ e, (i, e) ∈ g.exits x ∧ e.output = ρ :=
  h.exit_of_forall fun _ => t.not_gone _

theorem exit_of_new (t : Translation code g) {x : NodeId} {ρ : Role} {i : EdgeId}
    (h : g.Arrives g.New x ρ i) : ∃ e, (i, e) ∈ g.exits x ∧ e.output = ρ :=
  h.exit_of_forall fun hi => Nat.not_le.mpr (t.consistent.ends hi).2

/-- A built graph realizes itself. -/
theorem realizes (t : Translation code g) : g.Realizes g id where
  consistent := t.consistent
  label hl := hl
  start := rfl
  finish := rfl
  ends _ := ⟨t.not_gone _, t.not_gone _⟩
  control he hctl := (t.typed he).control_input hctl
  kept _ _ := t.not_gone _
  merges _ hgone := absurd hgone (t.not_gone _)
  operands _ _ _ := by
    rw [show Edge.reroute id = id from rfl, List.map_id]
  moved hne := absurd rfl hne
  phis := by simp [t.whole]
  exits _ _ := .refl _
  inserted hnew hop := absurd (Graph.op?_lt hop) (Nat.not_lt.mpr hnew)
  follows {x ρ j e} _ h hj _ := by
    obtain ⟨e', he', hrole⟩ := t.exit_of_gone h
    exact ⟨j, e, .exit he' hrole, hj, rfl⟩

theorem pairs (t : Translation code g) : g.Pairs g id := by
  intro y x ρ i j k l hi hj hk hl p _
  obtain ⟨e, he, hrole⟩ := t.exit_of_new hi
  obtain ⟨e', he', hrole'⟩ := t.exit_of_gone hj
  -- a role tells the edge
  have heq := List.inj_on_of_nodup_map (t.exits_nodup x) he he' (hrole.trans hrole'.symm)
  obtain rfl : i = j := congrArg Prod.fst heq
  obtain rfl : k = l := Option.some.inj (hk.symm.trans hl)
  rw [Option.map_id]
  rfl

end Translation

/-- Whenever a method answers a value, the execution of its graph reaches the finish node with that
value. -/
theorem Code.reaches_of_graph {code : Code} {g : Graph} (h : code.graph = .ok g)
    (hpos : 0 < code.size) (hreturns : code.Returns) (receiver : Value) (args : List Value)
    (hargs : args.length ≤ 2 ^ 64) {budget : Nat} {v : Value}
    (hrun : (Activation.mk code receiver args).resume budget .entry = some (.ok v)) :
    (Execution.mk g receiver args).Reaches v := by
  obtain ⟨t⟩ := Code.exists_translation h
  rw [Activation.resume_entry] at hrun
  have hsame : Translation.SameInputs ⟨g, receiver, args⟩ ⟨code, receiver, args⟩ :=
    ⟨rfl, rfl, hargs⟩
  exact t.reaches_of_run t.realizes t.pairs hsame rfl hpos (t.returns hreturns) hrun

/-- Counts a local down to zero and answers it. -/
def Code.drain : Code :=
  #[.arg 0, .store "x", .load "x", .push (.int 1), .send "-" 1, .store "x", .load "x",
    .push (.int 0), .send ">" 1, .branch 2, .load "x", .ret]

theorem Code.exists_graph_drain : ∃ g, Code.drain.graph = .ok g :=
  Code.exists_graph (by decide +kernel)

/-- A loop that answers zero. -/
theorem Code.reaches_of_graph_drain :
    ∃ g, Code.drain.graph = .ok g ∧ Code.drain.Returns ∧
      (Activation.mk Code.drain .nil [.int 2]).resume 20 .entry = some (.ok (.int 0)) ∧
      (Execution.mk g .nil [.int 2]).Reaches (.int 0) := by
  obtain ⟨g, hg⟩ := Code.exists_graph_drain
  have hrun : (Activation.mk Code.drain .nil [.int 2]).resume 20 .entry = some (.ok (.int 0)) := by
    decide +kernel
  have hreturns : Code.drain.Returns := by decide +kernel
  exact ⟨g, hg, hreturns, hrun, Code.reaches_of_graph hg (by decide) hreturns .nil [.int 2]
    (by decide) hrun⟩

/-- The empty method answers nil, and the execution of its graph does not start. -/
theorem Code.graph_empty :
    ∃ g, Code.graph #[] = .ok g ∧ Code.Returns #[] ∧
      (Activation.mk #[] .nil []).resume 1 .entry = some (.ok .nil) ∧
      ∀ v, ¬ (Execution.mk g .nil []).Reaches v := by
  have hstart : (Code.graph #[]).toOption.bind
      (fun g => (Execution.mk g .nil []).start?.map (·.edge)) = none := by decide +kernel
  have hok : (Code.graph #[]).isOk = true := by decide +kernel
  cases hgraph : Code.graph #[] with
  | error e =>
    rw [hgraph] at hok
    cases hok
  | ok g =>
    refine ⟨g, rfl, by decide +kernel, by decide +kernel, ?_⟩
    rintro v ⟨d, budget, hanswer⟩
    rw [hgraph] at hstart
    have hnone : (Execution.mk g .nil []).start? = none := Option.map_eq_none_iff.mp hstart
    rw [Execution.answer?, hnone] at hanswer
    cases hanswer

end StackJit
