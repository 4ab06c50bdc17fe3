import StackJit.Proofs.Converge
import StackJit.Proofs.WellFormed

/-!
# Tidying under a limit

Dead code goes from its last use backward, but a round visits nodes in the order in which a
traversal finds them. Where that order runs the other way, a round drops only the end of a chain of
dead values, and a compilation, which stops after as many rounds as its options allow, leaves the
rest behind (`Code.compile_negations`). It leaves nothing behind iff no more rounds than that change
the graph.

Main statement: `Code.tidied_iff`.
-/

namespace StackJit

open Swept (Shrinks)

namespace Schedule

variable {s : Schedule Id} {g : Graph} {rounds : Nat}

/-- Repeated without a limit, the schedule changes `g` in that many rounds, and not in the
next one. -/
inductive SettlesAfter (s : Schedule Id) : Nat → Graph → Prop
  | zero {g : Graph} (same : (s.run g).run.changed = false) : SettlesAfter s 0 g
  | succ {g : Graph} {rounds : Nat} (changed : (s.run g).run.changed = true)
      (rest : SettlesAfter s rounds (s.run g).run.graph) : SettlesAfter s (rounds + 1) g

theorem exists_settlesAfter (h : ∀ p ∈ s.passes, ∀ c, Shrinks c (p.run c).run) (g : Graph) :
    ∃ rounds ≤ g.remaining.card, s.SettlesAfter rounds g := by
  induction hcard : g.remaining.card using Nat.strong_induction_on generalizing g with
  | _ card ih =>
    subst hcard
    cases hchanged : (s.run g).run.changed with
    | false => exact ⟨0, Nat.zero_le _, .zero hchanged⟩
    | true =>
      have hfewer := Finset.card_lt_card ((shrinks_runPasses h g).fewer hchanged)
      obtain ⟨rounds, hle, hrest⟩ := ih _ hfewer _ rfl
      exact ⟨rounds + 1, Nat.lt_of_le_of_lt hle hfewer, .succ hchanged hrest⟩

/-- The rounds up to a limit leave nothing to do iff no more rounds than that change the graph. -/
theorem SettlesAfter.stable_iff (hsettles : s.SettlesAfter rounds g)
    (h : ∀ p ∈ s.passes, ∀ c, Shrinks c (p.run c).run) (done limit : Nat) :
    (s.run (s.iterateFrom done limit g).run.graph).run.changed = false ↔ rounds ≤ limit := by
  induction hsettles generalizing done limit with
  | @zero g hsame =>
    refine iff_of_true ?_ (Nat.zero_le _)
    cases limit with
    | zero => exact hsame
    | succ limit =>
      have hgraph : (s.run g).run.graph = g := (shrinks_runPasses h g).same hsame
      rw [iterateFrom_of_same hsame, hgraph, hsame]
  | succ hchanged _ ih =>
    cases limit with
    | zero => exact iff_of_false (ne_false_of_eq_true hchanged) (Nat.not_succ_le_zero _)
    | succ limit => rw [iterateFrom_of_changed hchanged, ih, Nat.add_le_add_iff_right]

end Schedule

namespace CompileOptions

variable {c : Graph}

/-- The graph of a method when everything has been placed and only the tidying is left. -/
def instrumented (o : CompileOptions) (profile : Option Profile) (g : Graph) : Graph :=
  ((o.instrumentation profile).run g.dropPlaceholders.graph).run.graph

theorem optimize_eq (o : CompileOptions) (profile : Option Profile) (g : Graph) :
    o.optimize profile g =
      (tidy.iterateFrom 0 o.iterationLimit (o.instrumented profile g)).run.graph :=
  rfl

theorem shrinks_tidy : ∀ p ∈ tidy.passes, ∀ c, Shrinks c (p.run c).run := by
  intro p hp c
  rcases List.mem_pair.mp hp with rfl | rfl
  · exact c.shrinks_dropDeadCode
  · exact c.shrinks_dropPhis

/-- A round leaves a graph alone iff both passes do. -/
theorem changed_tidy_eq_false_iff : (tidy.run c).run.changed = false ↔
    c.dropDeadCode.changed = false ∧ c.dropPhis.changed = false := by
  constructor
  · intro h
    have hpass := Schedule.run_eq_unchanged shrinks_tidy h
    exact ⟨congrArg Swept.changed (hpass .deadCode List.mem_cons_self),
      congrArg Swept.changed (hpass .phis (List.mem_cons_of_mem _ List.mem_cons_self))⟩
  · rintro ⟨hdead, hphis⟩
    have hgraph := c.shrinks_dropDeadCode.same hdead
    change (c.dropDeadCode.changed || (c.dropDeadCode.graph.dropPhis.changed || false)) = false
    rw [hgraph, hdead, hphis]
    rfl

end CompileOptions

namespace Graph

variable {code : Code} {g c : Graph} {moves : Moves} {n : NodeId}

theorem Rewrites.eq_finish (hrewrites : g.Rewrites c moves) (t : Translation code g)
    (hop : c.op? n = some .finish) : n = c.finish := by
  rcases t.ops (hrewrites.op_old hop (by simp) (by simp)) with ⟨-, h⟩ | ⟨hn, -⟩ | h | h | h | h
  · cases h
  · exact hn.trans (t.finish_eq.1.symm.trans (congrArg (·.2.1) hrewrites.descends.marks).symm)
  all_goals cases h

/-- Where dead code has nothing to drop, every node that is found is used, the root and the finish
node apart. -/
theorem Rewrites.outputs_ne_nil_of_same (h : g.Rewrites c moves) (t : Translation code g)
    (hsame : c.dropDeadCode.changed = false) (hn : n ∈ c.reachable) (hroot : n ≠ c.root)
    (hfinish : n ≠ c.finish) : c.outputs n ≠ [] := by
  intro hnil
  have hnone := changed_sweep_eq_false_iff.mp hsame n hn
  have hdead : c.dropDead? n = some (c.eraseNode n) := dropDead?_eq_some_iff.mpr
    ⟨h.not_gone_of_reachable t hn, hroot, fun hop => hfinish (h.eq_finish t hop), .inl ⟨hnil, rfl⟩⟩
  rw [hdead] at hnone
  cases hnone

end Graph

namespace Code

variable {code : Code} {g : Graph}

/-- What has a graph is compiled, and the result is tidy iff no more rounds than the options allow
change the graph; there are never more of these than nodes. In a tidy result neither pass finds
anything to do, and every node that is found is used, the root and the finish node apart. -/
theorem tidied_iff (hg : code.graph = .ok g) (o : CompileOptions) (profile : Option Profile) :
    ∃ c rounds, code.compile o profile = .ok c ∧
      CompileOptions.tidy.SettlesAfter rounds (o.instrumented profile g) ∧
      rounds ≤ (o.instrumented profile g).remaining.card ∧
      (c.dropDeadCode.changed = false ∧ c.dropPhis.changed = false ↔ rounds ≤ o.iterationLimit) ∧
      (rounds ≤ o.iterationLimit → c.dropDeadCode = .unchanged c ∧ c.dropPhis = .unchanged c ∧
        ∀ n ∈ c.reachable, n ≠ c.root → n ≠ c.finish → c.outputs n ≠ []) := by
  obtain ⟨t⟩ := Code.exists_translation hg
  obtain ⟨moves, h⟩ := t.rewritten_optimize o profile
  obtain ⟨rounds, hle, hsettles⟩ :=
    Schedule.exists_settlesAfter CompileOptions.shrinks_tidy (o.instrumented profile g)
  have hstable : (CompileOptions.tidy.run (o.optimize profile g)).run.changed = false ↔
      rounds ≤ o.iterationLimit := by
    rw [o.optimize_eq]
    exact hsettles.stable_iff CompileOptions.shrinks_tidy 0 o.iterationLimit
  refine ⟨o.optimize profile g, rounds, compile_of_graph hg o profile, hsettles, hle,
    CompileOptions.changed_tidy_eq_false_iff.symm.trans hstable, fun hrounds => ?_⟩
  have hpass := Schedule.run_eq_unchanged CompileOptions.shrinks_tidy (hstable.mpr hrounds)
  have hdead : (o.optimize profile g).dropDeadCode = .unchanged _ :=
    hpass .deadCode List.mem_cons_self
  refine ⟨hdead, hpass .phis (List.mem_cons_of_mem _ List.mem_cons_self),
    fun n hn hroot hfinish => ?_⟩
  exact h.outputs_ne_nil_of_same t (congrArg Swept.changed hdead) hn hroot hfinish

/-- Negates the answer of a send that many times, to no use. -/
def negations (count : Nat) : Code :=
  #[.self, .send "f" 0] ++ Array.replicate count .not ++ #[.push (.int 1), .ret]

/-- Three rounds are enough for three negations. -/
theorem tidied_iff_negations : ∃ g c rounds, (negations 3).graph = .ok g ∧
    (negations 3).compile { iterationLimit := 3 } none = .ok c ∧ c.nodesOf .not = [] ∧
    CompileOptions.tidy.SettlesAfter rounds
      (CompileOptions.instrumented { iterationLimit := 3 } none g) ∧
    rounds ≤ 3 ∧ c.dropDeadCode = .unchanged c ∧ c.dropPhis = .unchanged c ∧
    ∀ n ∈ c.reachable, n ≠ c.root → n ≠ c.finish → c.outputs n ≠ [] := by
  have htidy : ((negations 3).compile { iterationLimit := 3 } none).toOption.any (fun c =>
      c.nodesOf .not = [] ∧ c.dropDeadCode.changed = false ∧
      c.dropPhis.changed = false) = true := by
    decide +kernel
  obtain ⟨g, hg⟩ : ∃ g, (negations 3).graph = .ok g := Code.exists_graph (by decide +kernel)
  obtain ⟨c, rounds, hc, hsettles, -, hiff, hstable⟩ := tidied_iff hg { iterationLimit := 3 } none
  rw [hc] at htidy
  obtain ⟨hnots, hsame⟩ := of_decide_eq_true htidy
  have hrounds : rounds ≤ 3 := hiff.mp hsame
  exact ⟨g, c, rounds, hg, hc, hnots, hsettles, hrounds, hstable hrounds⟩

/-- Every round drops the last negation only, and the sixteen rounds of the default leave the
first one. -/
theorem compile_negations : ∃ c, (negations 17).compile {} none = .ok c ∧
    c.dropDeadCode.changed = true ∧
    ∃ n ∈ c.reachable, n ≠ c.root ∧ n ≠ c.finish ∧ c.op? n = some .not ∧ c.outputs n = [] := by
  have hleft : ((negations 17).compile {} none).toOption.any (fun c =>
      c.dropDeadCode.changed = true ∧ ∃ n ∈ c.reachable, n ≠ c.root ∧ n ≠ c.finish ∧
        c.op? n = some .not ∧ c.outputs n = []) = true := by
    decide +kernel
  cases hc : (negations 17).compile {} none with
  | error e =>
    rw [hc] at hleft
    cases hleft
  | ok c =>
    rw [hc] at hleft
    exact ⟨c, rfl, of_decide_eq_true hleft⟩

end Code

end StackJit
