import StackJit.Proofs.Flow
import StackJit.Proofs.Reached
import StackJit.Proofs.WellFormed

/-!
# The arms of a branch

A branch is the last live instruction of its block, so its node is where control ends in the block's
fragment (`Assembly.BranchAt`). Joining gives it one arm for each outcome: to the region of the
target, and to the region of the block at the next index, which is where the machine goes on if the
operand is not truthy. Passes carry the roles of the arms along, whatever they put onto an arm or
take from it.

A branch that ends the body is different. The machine runs past the end if its operand is not
truthy, but the block has no successor there. So the node has a single arm, to the target, and that
arm has no role of its own (`Code.arms_trailing`).

Main statement: `Code.arms_of_branch`.
-/

namespace StackJit

/-- The edges by which control leaves a node, those to phis included. -/
def Graph.arms (g : Graph) (n : NodeId) : List Edge := (g.outputs n).filter (·.isControl)

/-- The roles of the arms of the branch at index `i`. -/
def Code.armRoles (code : Code) (i : Nat) : List Role :=
  if i + 1 < code.size then [.whenTrue, .whenFalse] else [.control]

namespace Assembly

/-- `n` is the node of the branch at index `i`, which goes to `target`. -/
structure BranchAt (a : Assembly) (code : Code) (blocks : List Block) (i target : Nat)
    (n : NodeId) : Prop where
  instr : code[i]? = some (.branch target)
  ends : ∃ b ∈ blocks, i + 1 = b.start + b.live.length ∧
    ∃ f, a.fragments[b.start]? = some f ∧ f.controlEnd = n

/-- The branch at index `i` leads from `n` to the region of its target, and to the region of the
block at the next index if there is an instruction. -/
def Forks (a : Assembly) (code : Code) (g : Graph) (i target : Nat) (n : NodeId) : Prop :=
  ∃ taken, a.region? target = some taken ∧
    (i + 1 < code.size → ∃ following, a.region? (i + 1) = some following ∧
      g.arms n = [⟨n, taken, .whenTrue, .control⟩, ⟨n, following, .whenFalse, .control⟩]) ∧
    (i + 1 = code.size → g.arms n = [.control n taken])

end Assembly

/-- Control leaves a node that decides no phi by its arms. -/
theorem Graph.Consistent.arms_eq {c : Graph} (hc : c.Consistent) {n : NodeId}
    (hphis : ∀ p, p ∉ c.phis n) : c.arms n = (c.exits n).map (·.2) := by
  rw [arms, Graph.outputs, List.filter_map, hc.exits_of_no_phis hphis]
  rfl

namespace Translation

variable {code : Code} {g : Graph} {t : Translation code g} {i target : Nat} {n : NodeId}

/-- Only branches make nodes that branch. -/
theorem branchAt_of_op (t : Translation code g) (hop : g.op? n = some .branch) :
    ∃ i target, t.parts.BranchAt code t.blocks i target n := by
  obtain ⟨b, hb, k, hk, hnew, rfl⟩ := t.exists_instr hop rfl
  obtain ⟨f, hf⟩ := t.exists_has hb
  have hfits := t.layout.fits b hb
  obtain ⟨instr, hinstr, hstep⟩ := step_context hb hk
  obtain ⟨target, rfl⟩ : ∃ target, instr = .branch target := by
    rw [Graph.op?_eq_label?] at hop
    generalize t.context b (k + 1) = after at hstep hop hnew
    cases hstep with
    | branch => exact ⟨_, rfl⟩
    | trace label => simp [label] at hop
    | jump label => simp [label] at hop
    | send _ label => simp [label] at hop
    | _ => exact absurd hnew (Nat.lt_irrefl _)
  have hlast : k + 1 = b.live.length := by
    by_contra hne
    cases hfits.inner (Nat.lt_of_le_of_ne hk hne) hinstr
  refine ⟨b.start + k, target, ?_, b, hb, by omega, f, hf.table, ?_⟩
  · rw [← hfits.live_at k hk]
    exact hinstr
  · rw [hlast, hf.context_end]
    rfl

theorem not_mem_phis_of_branch (t : Translation code g) (hop : g.op? n = some .branch)
    (p : NodeId) : p ∉ g.phis n := by
  intro hp
  cases hop.symm.trans (t.region_of_mem_phis hp)

theorem region?_eq (t : Translation code g) {b : Block} (hb : b ∈ t.blocks) {s : Nat}
    (hs : s ∈ b.succs) : t.parts.region? s = some (t.parts.regionAt s) := by
  obtain ⟨c, hc, rfl⟩ := t.layout.succ b hb s hs
  obtain ⟨f, hf⟩ := t.exists_has hc
  exact Assembly.region?_eq hf.table

/-- A branch has an arm for each of the successors of its block. -/
theorem forks (t : Translation code g) (h : t.parts.BranchAt code t.blocks i target n)
    (hop : g.op? n = some .branch) : t.parts.Forks code g i target n := by
  obtain ⟨b, hb, hi, f, hf, rfl⟩ := h.ends
  have hf : t.Has b f := ⟨hb, hf⟩
  have hfits := t.layout.fits b hb
  have hlast : b.live.getLast? = some (.branch target) := by
    have hpos := List.length_pos_iff.mpr hfits.live_ne_nil
    rw [List.getLast?_eq_getElem?, hfits.live_at _ (by omega), ← h.instr]
    congr 1
    omega
  have hsuccs : b.succs = target :: (code.following (i + 1)).toList := by
    rw [hfits.succs_eq, flowAfter, hlast, hi]
  have harms : g.arms f.controlEnd = (t.parts.leaving b f).filter (·.isControl) := by
    rw [t.consistent.arms_eq (t.not_mem_phis_of_branch hop), hf.exits_end]
  have htaken := t.region?_eq hb (hsuccs ▸ List.mem_cons_self)
  refine ⟨_, htaken, fun hlt => ?_, fun heq => ?_⟩
  · rw [Code.following, if_pos hlt] at hsuccs
    rw [harms, leaving_of_two hsuccs]
    exact ⟨_, t.region?_eq hb (by simp [hsuccs]), rfl⟩
  · rw [Code.following, if_neg (by omega)] at hsuccs
    rw [harms, leaving_of_one hsuccs]
    rfl

end Translation

/-- The roles of the arms that a branch was given. -/
theorem Assembly.Forks.roles {a : Assembly} {code : Code} {g : Graph} {i target : Nat} {n : NodeId}
    (h : a.Forks code g i target n) (hi : i < code.size) :
    (g.arms n).map (·.output) = code.armRoles i := by
  obtain ⟨taken, -, htwo, hone⟩ := h
  by_cases hlt : i + 1 < code.size
  · obtain ⟨following, -, harms⟩ := htwo hlt
    rw [harms, Code.armRoles, if_pos hlt]
    rfl
  · rw [hone (by omega), Code.armRoles, if_neg hlt]
    rfl

/-- Passes keep the roles of the arms of a branch. -/
theorem Graph.Rewrites.arms_perm {code : Code} {g c : Graph} {moves : Moves} {n : NodeId}
    (h : g.Rewrites c moves) (t : Translation code g) (hop : g.op? n = some .branch) :
    ((c.arms n).map (·.output)).Perm ((g.arms n).map (·.output)) := by
  have hphis := h.forwards.not_mem_phis_of_op t hop (by simp)
  rw [h.descends.consistent.arms_eq hphis, t.consistent.arms_eq (t.not_mem_phis_of_branch hop),
    List.map_map, List.map_map]
  exact h.threads.exits (op?_lt hop) (h.threads.kept hop rfl)

/-- Both outcomes of a branch that does not end the body have an arm: to the region of the block at
the target, and to the region of the block at the next index, which is where the machine goes on. A
branch that ends the body has only the arm to its target. Compiling keeps the roles of the arms. -/
theorem Code.arms_of_branch {code : Code} {g : Graph} (hg : code.graph = .ok g) (o : CompileOptions)
    (profile : Option Profile) :
    ∃ all blocks a c, code.blocks = .ok all ∧ blocks = Block.reachable all code.size ∧
      (Assembly.ofBlocks blocks).propagate code.size blocks = .ok a ∧
      a.joinBlocks blocks a.graph = .ok g ∧ code.compile o profile = .ok c ∧
      (∀ n ∈ g.nodesOf .branch, ∃ i target, a.BranchAt code blocks i target n ∧
        a.Forks code g i target n ∧
        ∀ (x : Activation) (f : Frame) (v : Value) (rest : List Value), x.code = code → f.ip = i →
          f.stack = v :: rest →
            x.step f = .next ⟨if v.truthy then target else i + 1, rest, f.locals⟩) ∧
      ∀ n ∈ c.nodesOf .branch, ∃ i target, a.BranchAt code blocks i target n ∧
        ((c.arms n).map (·.output)).Perm (code.armRoles i) := by
  obtain ⟨all, a, hall, hprop, hjoin⟩ := Code.parts_of_graph hg
  obtain ⟨t, hblocks, rfl⟩ := Translation.exists_of_parts hall hprop hjoin
  rw [← hblocks] at hprop hjoin
  obtain ⟨moves, h⟩ := t.rewritten_optimize o profile
  refine ⟨all, t.blocks, t.parts, _, hall, hblocks, hprop, hjoin, compile_of_graph hg o profile,
    fun n hn => ?_, fun n hn => ?_⟩
  · have hop := (Graph.mem_nodesOf.mp hn).2
    obtain ⟨i, target, hat⟩ := t.branchAt_of_op hop
    refine ⟨i, target, hat, t.forks hat hop, ?_⟩
    rintro x f v rest rfl rfl hstack
    have hlt := Code.target_lt (Code.blocks_eq hall).1 hat.instr rfl
    exact Activation.step_branch hat.instr (Nat.le_of_lt hlt) hstack
  · have hop := h.op_old (Graph.mem_nodesOf.mp hn).2 (by simp) (by simp)
    obtain ⟨i, target, hat⟩ := t.branchAt_of_op hop
    refine ⟨i, target, hat, ?_⟩
    rw [← (t.forks hat hop).roles (Array.getElem?_eq_some_iff.mp hat.instr).1]
    exact h.arms_perm t hop

/-- Two loops, the second of which ends the body. -/
def Code.twoLoops : Code := #[.arg 0, .branch 0, .arg 1, .branch 2]

theorem Code.arms_of_branch_twoLoops :
    ∃ (g c : Graph) (all blocks : List Block) (a : Assembly), twoLoops.graph = .ok g ∧
      twoLoops.blocks = .ok all ∧ blocks = Block.reachable all twoLoops.size ∧
      (Assembly.ofBlocks blocks).propagate twoLoops.size blocks = .ok a ∧
      a.joinBlocks blocks a.graph = .ok g ∧ twoLoops.compile {} none = .ok c ∧
      g.nodesOf .branch = [4, 7] ∧
      (∃ i target, a.BranchAt twoLoops blocks i target 4 ∧ a.Forks twoLoops g i target 4) ∧
      (∃ i target, a.BranchAt twoLoops blocks i target 7 ∧ a.Forks twoLoops g i target 7) ∧
      ∀ n ∈ c.nodesOf .branch, ∃ i target, a.BranchAt twoLoops blocks i target n ∧
        ((c.arms n).map (·.output)).Perm (twoLoops.armRoles i) := by
  obtain ⟨g, hg⟩ : ∃ g, twoLoops.graph = .ok g := Code.exists_graph (by decide +kernel)
  have hnodes : twoLoops.graph.toOption.all (fun g => g.nodesOf .branch == [4, 7]) = true := by
    decide +kernel
  rw [hg] at hnodes
  have hnodes : g.nodesOf .branch = [4, 7] := beq_iff_eq.mp hnodes
  obtain ⟨all, blocks, a, c, hall, hblocks, hprop, hjoin, hc, hbuilt, hcompiled⟩ :=
    Code.arms_of_branch hg {} none
  obtain ⟨i, target, hat, hforks, -⟩ := hbuilt 4 (by simp [hnodes])
  obtain ⟨i', target', hat', hforks', -⟩ := hbuilt 7 (by simp [hnodes])
  exact ⟨g, c, all, blocks, a, hg, hall, hblocks, hprop, hjoin, hc, hnodes,
    ⟨i, target, hat, hforks⟩, ⟨i', target', hat', hforks'⟩, hcompiled⟩

/-- Goes back as long as its argument is truthy, and runs past the end otherwise. -/
def Code.trailing : Code := #[.arg 0, .branch 0]

/-- The machine gets past a branch that ends the body; control of the graph does not, as its only
arm leads back. -/
theorem Code.arms_trailing :
    (Activation.mk trailing .nil [.bool false]).resume 3 .entry = some (.ok .nil) ∧
      ∃ g, trailing.graph = .ok g ∧ 4 ∈ g.nodesOf .branch ∧ g.arms 4 = [.control 4 2] ∧
        g.op? 2 = some .region ∧ g.finish ∉ g.reachable := by
  obtain ⟨g, hg⟩ : ∃ g, trailing.graph = .ok g := Code.exists_graph (by decide +kernel)
  have hfacts : trailing.graph.toOption.all (fun g => (g.nodesOf .branch).contains 4 &&
      g.arms 4 == [.control 4 2] && g.op? 2 == some .region &&
      !g.reachable.contains g.finish) = true := by
    decide +kernel
  rw [hg] at hfacts
  simp only [Except.toOption, Option.all_some, Bool.and_eq_true, beq_iff_eq, Bool.not_eq_true',
    List.contains_eq_mem, decide_eq_true_eq, decide_eq_false_iff_not] at hfacts
  obtain ⟨⟨⟨hbranch, harms⟩, hregion⟩, hfinish⟩ := hfacts
  exact ⟨by decide +kernel, g, hg, hbranch, harms, hregion, hfinish⟩

end StackJit
