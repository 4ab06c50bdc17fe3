import StackJit.Proofs.Admission

/-!
# Propagation ends, and joining does not fail after it

Propagation repeats rounds until one of them adds nothing. Nothing in the rounds themselves bounds
their number, and a block may have itself for a predecessor, so that what it inherits makes it
inherit more. `Assembly.Settles` is the repetition without a bound: it has an answer for every
method body whose targets lie within it. An answer that is an error tells of an operand or a local
that a block lacks. Any other answer is one with which the fragments can be joined
(`Assembly.Ready`).

Main statement: `Code.settles_or_refused`.
-/

namespace StackJit

/-- The error tells of an operand or a local that the block `b` lacks. -/
def BuildError.IsShortage (e : BuildError) (b : Block) : Prop :=
  e = .stackUnderflow b.start ∨ ∃ x, e = .undefinedName x b.start

namespace Assembly

variable {limit : Nat} {bs : List Block} {a : Assembly} {b : Block} {e : BuildError}

/-- Rounds end in one way only. -/
theorem Settles.unique {r r' : Except BuildError Assembly} (h : Settles limit bs a r)
    (h' : Settles limit bs a r') : r = r' := by
  induction h with
  | fails round =>
    cases h' with
    | fails round' => exact round.symm.trans round'
    | rests round' _ | again round' _ _ => cases round.symm.trans round'
  | rests round quiet =>
    cases h' with
    | fails round' => cases round.symm.trans round'
    | rests round' _ => exact round.symm.trans round'
    | again round' more _ =>
      cases round.symm.trans round'
      exact absurd quiet more
  | again round more _ ih =>
    cases h' with
    | fails round' => cases round.symm.trans round'
    | rests round' quiet =>
      cases round.symm.trans round'
      exact absurd quiet more
    | again round' _ rest' =>
      cases round.symm.trans round'
      exact ih rest'

theorem isShortage_of_propagateBlock (h : propagateBlock limit a b = .error e) :
    e.IsShortage b := by
  unfold propagateBlock at h
  split at h
  · cases h
  simp only at h
  split at h
  · exact .inl (Except.error.inj h).symm
  split at h
  · split at h
    · exact .inl (Except.error.inj h).symm
    split at h
    · next x _ _ => exact .inr ⟨x, (Except.error.inj h).symm⟩
    · cases h
  · cases h

theorem isShortage_of_propagateRound (h : propagateRound limit bs a = .error e) :
    ∃ b ∈ bs, e.IsShortage b := by
  induction bs generalizing a with
  | nil => cases h
  | cons b bs ih =>
    rw [propagateRound] at h
    cases hblock : propagateBlock limit a b with
    | error e' =>
      rw [hblock] at h
      obtain rfl := Except.error.inj h
      exact ⟨b, List.mem_cons_self, isShortage_of_propagateBlock hblock⟩
    | ok a' =>
      rw [hblock] at h
      obtain ⟨c, hc, hshort⟩ := ih h
      exact ⟨c, List.mem_cons_of_mem b hc, hshort⟩

/-- The only errors of propagation are shortages. -/
theorem Settles.isShortage (h : Settles limit bs a (.error e)) : ∃ b ∈ bs, e.IsShortage b := by
  generalize hr : Except.error e = r at h
  induction h with
  | fails round =>
    obtain rfl := Except.error.inj hr
    exact isShortage_of_propagateRound round
  | rests _ _ => cases hr
  | again _ _ _ ih => exact ih hr

/-- All fragments are there that joining the block `b`, with its fragment `f`, looks up, and its
predecessors have at their ends what it inherits. -/
structure Ready (a : Assembly) (b : Block) (f : Fragment) : Prop where
  fragment : a.fragments[b.start]? = some f
  succs : ∀ s ∈ b.succs, ∃ f', a.fragments[s]? = some f'
  preds : ∀ p ∈ b.preds, ∃ f', a.fragments[p]? = some f' ∧
    (b.start ≠ 0 → (∀ x ∈ f.neededNames, x ∈ f'.finalNames) ∧
      f.neededStack.length ≤ f'.finalStack.length)

/-- Where propagation succeeds, every block is ready. -/
theorem exists_ready {code : Code} (hl : Layout code bs)
    (hok : (ofBlocks bs).propagate code.size bs = .ok a) (hb : b ∈ bs) : ∃ f, a.Ready b f := by
  obtain ⟨hassembled, -, hprovided⟩ := assembled_propagate hl hok
  have hfound : ∀ c ∈ bs, ∃ f, a.fragments[c.start]? = some f := by
    intro c hc
    obtain ⟨f, hf, -⟩ := hassembled.models hc
    exact ⟨f, hf⟩
  obtain ⟨f, hf⟩ := hfound b hb
  refine ⟨f, hf, fun s hs => ?_, fun p hp => ?_⟩
  · obtain ⟨c, hc, rfl⟩ := hl.succ b hb s hs
    exact hfound c hc
  · obtain ⟨c, hc, rfl⟩ := hl.exists_pred b hb p hp
    obtain ⟨f', hf'⟩ := hfound c hc
    refine ⟨f', hf', fun hstart => ?_⟩
    obtain ⟨hnames, hdepth⟩ := hprovided b hb hstart hf c.start hp hf'
    exact ⟨fun x hx => hnames x (Std.TreeMap.mem_keys.mpr hx), hdepth⟩

end Assembly

namespace Code

variable {code : Code} {all : List Block} {e : BuildError}

theorem InRange.exists_blocks (h : code.InRange) : ∃ all, code.blocks = .ok all := by
  cases hblocks : code.blocks with
  | ok all => exact ⟨all, rfl⟩
  | error e =>
    obtain ⟨source, target, i, -, hle, hi, htarget⟩ :=
      exists_of_badTarget (badTarget?_of_blocks hblocks)
    exact absurd (h hi htarget) (Nat.not_lt.mpr hle)

theorem unsupported?_eq_none (hall : code.blocks = .ok all) :
    all.findSome? Block.unsupported? = none :=
  List.findSome?_eq_none_iff.mpr fun _ hb => (fits_of_mem_blocks hall hb).unsupported?_eq_none

/-- The repetition of rounds for the reachable ones of the blocks `all` ends with `r`. -/
def Settles (code : Code) (all : List Block) (r : Except BuildError Assembly) : Prop :=
  Assembly.Settles code.size (Block.reachable all code.size)
    (Assembly.ofBlocks (Block.reachable all code.size)) r

theorem graph_of_settles (hall : code.blocks = .ok all) {a : Assembly}
    (h : code.Settles all (.ok a)) :
    (∀ b ∈ Block.reachable all code.size, ∃ f, a.Ready b f) ∧
      ∃ g, a.joinBlocks (Block.reachable all code.size) a.graph = .ok g ∧ code.graph = .ok g := by
  have hl := layout_reachable hall
  have hok := (Assembly.settles_ofBlocks hl).unique h
  obtain ⟨hassembled, -, hprovided⟩ := Assembly.assembled_propagate hl hok
  obtain ⟨g, hg⟩ := Assembly.exists_joinBlocks hassembled hl hprovided
  refine ⟨fun b hb => Assembly.exists_ready hl hok hb, g, hg, ?_⟩
  simp only [graph, hall, unsupported?_eq_none hall, hok, hg]

theorem settles_of_error (h : code.graph = .error e) :
    (∃ source target, e = .invalidTarget source target code.size) ∨
      ∃ all, code.blocks = .ok all ∧ code.Settles all (.error e) := by
  cases hall : code.blocks with
  | error e' =>
    obtain ⟨source, target, i, rfl, -⟩ := exists_of_badTarget (badTarget?_of_blocks hall)
    simp only [graph, hall, Except.error.injEq] at h
    exact .inl ⟨source, target, h.symm⟩
  | ok all =>
    refine .inr ⟨all, rfl, ?_⟩
    have hsettles := Assembly.settles_ofBlocks (layout_reachable hall)
    cases hprop : (Assembly.ofBlocks (Block.reachable all code.size)).propagate code.size
        (Block.reachable all code.size) with
    | error e' =>
      simp only [graph, hall, unsupported?_eq_none hall, hprop, Except.error.injEq] at h
      rw [hprop, h] at hsettles
      exact hsettles
    | ok a =>
      rw [hprop] at hsettles
      obtain ⟨-, g, -, hg⟩ := graph_of_settles hall hsettles
      cases h.symm.trans hg

/-- Propagation ends for every method body whose targets lie within it. If it succeeds, joining does
too: all fragments are there that it looks up, and the predecessors of each block have what the
block inherits. So a method body is refused for a target outside it, or because propagation finds a
block that lacks an operand or a local, and for no other reason. -/
theorem settles_or_refused (code : Code) :
    (code.InRange → ∃ all, code.blocks = .ok all ∧ (∃ r, code.Settles all r) ∧
      ∀ a, code.Settles all (.ok a) →
        (∀ b ∈ Block.reachable all code.size, ∃ f, a.Ready b f) ∧
          ∃ g, a.joinBlocks (Block.reachable all code.size) a.graph = .ok g ∧
            code.graph = .ok g) ∧
      ∀ e, code.graph = .error e →
        (∃ source target, e = .invalidTarget source target code.size) ∨
          ∃ all, code.blocks = .ok all ∧ code.Settles all (.error e) ∧
            ∃ b ∈ Block.reachable all code.size, e.IsShortage b := by
  refine ⟨fun hrange => ?_, fun e he => ?_⟩
  · obtain ⟨all, hall⟩ := hrange.exists_blocks
    exact ⟨all, hall, ⟨_, Assembly.settles_ofBlocks (layout_reachable hall)⟩,
      fun a ha => graph_of_settles hall ha⟩
  · rcases settles_of_error he with htarget | ⟨all, hall, hsettles⟩
    · exact .inl htarget
    · exact .inr ⟨all, hall, hsettles, hsettles.isShortage⟩

/-- A loop that takes two operands and leaves one on each way round. -/
def eatUp : Code := #[.push (.int 1), .push (.int 2), .send "+" 1, .jump 2]

/-- A loop that hands an operand and a local on to itself. -/
def handRound : Code := #[.push (.int 1), .arg 0, .store "x", .load "x", .branch 3, .ret]

theorem settles_or_refused_eatUp :
    (eatUp.InRange ∧ ∃ all, eatUp.blocks = .ok all ∧
      eatUp.Settles all (.error (.stackUnderflow 0))) ∧
    handRound.InRange ∧ ∃ all a, handRound.blocks = .ok all ∧ handRound.Settles all (.ok a) ∧
      ∀ b ∈ Block.reachable all handRound.size, ∃ f, a.Ready b f := by
  have hrange : handRound.InRange := target_lt (by decide)
  refine ⟨⟨target_lt (by decide), ?_⟩, hrange, ?_⟩
  · have hgraph : eatUp.graph = .error (.stackUnderflow 0) := by decide +kernel
    rcases (settles_or_refused eatUp).2 _ hgraph with ⟨_, _, h⟩ | ⟨all, hall, hsettles, -⟩
    · cases h
    · exact ⟨all, hall, hsettles⟩
  · have hgraph : handRound.graph.isOk = true := by decide +kernel
    obtain ⟨g, hg⟩ := exists_graph hgraph
    obtain ⟨all, a, hall, hprop, -⟩ := parts_of_graph hg
    have hsettles : handRound.Settles all (.ok a) :=
      hprop ▸ Assembly.settles_ofBlocks (layout_reachable hall)
    obtain ⟨all', hall', -, hok⟩ := (settles_or_refused handRound).1 hrange
    cases hall.symm.trans hall'
    exact ⟨all, a, hall, hsettles, (hok a hsettles).1⟩

end Code

end StackJit
