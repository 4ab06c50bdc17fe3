import StackJit.Proofs.Build.Joinable
import StackJit.Proofs.Build.Method
import StackJit.Proofs.Trails

/-!
# Methods are refused for a cause

What a block inherits is something that the body requires at the start of the block
(`Fragment.Justified`): this holds when the block has been lowered, and propagation keeps it,
because a block comes to inherit only what a successor inherits and the block itself does not
provide. So where propagation stops with an error, a trail through the body is at fault. For the
bound on the depth this is so since no index requires more operands than the body has instructions.

Main statement: every error reports what is so (`Code.warrants_of_graph`).
-/

namespace StackJit

/-! ## Counting operands -/

namespace Lowering

theorem length_pop (s : Lowering) :
    s.pop.2.stack.length = s.stack.length - 1 ∧
      s.pop.2.neededStack.length = s.neededStack.length + (1 - s.stack.length) := by
  cases h : s.stack with
  | nil => simp [pop_of_nil h, h]
  | cons n rest => simp [pop_of_cons h]

theorem length_popMany (k : Nat) (taken : List NodeId) (s : Lowering) :
    (popMany k taken s).2.stack.length = s.stack.length - k ∧
      (popMany k taken s).2.neededStack.length = s.neededStack.length + (k - s.stack.length) := by
  induction k generalizing taken s with
  | zero => simp [popMany]
  | succ k ih =>
    obtain ⟨hstack, hneeded⟩ := ih (s.pop.1 :: taken) s.pop.2
    obtain ⟨hstack', hneeded'⟩ := s.length_pop
    rw [popMany_succ]
    omega

/-- The operands that an instruction takes come from the stack as far as they are there; the others
are inherited. -/
theorem length_instr (s : Lowering) (ip : Nat) (i : Instr) :
    (s.instr ip i).stack.length = s.stack.length - i.takes + i.gives ∧
      (s.instr ip i).neededStack.length = s.neededStack.length + (i.takes - s.stack.length) := by
  obtain ⟨hstack, hneeded⟩ := s.length_pop
  cases i with
  | trace _ | self | arg _ | push _ | jump _ => exact ⟨by rfl, by simp [Instr.takes]; rfl⟩
  | load x =>
    change (s.read x).2.stack.length + 1 = _ ∧ (s.read x).2.neededStack.length = _
    cases h : s.names[x]? with
    | none => simp [read_of_none h, Instr.takes, Instr.gives]
    | some n => simp [read_of_some h, Instr.takes, Instr.gives]
  | store _ => exact ⟨hstack, hneeded⟩
  | branch _ =>
    simp only [instr_branch, chain, addEdges, addNode]
    exact ⟨hstack, hneeded⟩
  | not | ret => exact ⟨congrArg (· + 1) hstack, hneeded⟩
  | send name argc =>
    let s₀ := s.addNode .send [("name", .symbol name), ("argc", .ofNat argc), ("ip", .ofNat ip)]
    obtain ⟨hmany, hmanyNeeded⟩ := length_popMany argc [] s₀
    obtain ⟨hlast, hlastNeeded⟩ := (popMany argc [] s₀).2.length_pop
    have hs₀ : s₀.stack = s.stack ∧ s₀.neededStack = s.neededStack := ⟨rfl, rfl⟩
    rw [hs₀.1] at hmany hmanyNeeded
    rw [hs₀.2] at hmanyNeeded
    change (popMany argc [] s₀).2.pop.2.stack.length + 1 = s.stack.length - (argc + 1) + 1 ∧
      (popMany argc [] s₀).2.pop.2.neededStack.length =
        s.neededStack.length + (argc + 1 - s.stack.length)
    omega

/-- What a run leaves short of `d` operands, and what it has inherited, is what it demands. -/
theorem demand_instrs (s : Lowering) (ip : Nat) (body : List Instr) (d : Nat) :
    (s.instrs ip body).neededStack.length + (d - (s.instrs ip body).stack.length) =
      s.neededStack.length + (demand body d - s.stack.length) := by
  induction body generalizing s ip with
  | nil => rfl
  | cons i rest ih =>
    obtain ⟨hstack, hneeded⟩ := s.length_instr ip i
    have hrest := ih (s.instr ip i) (ip + 1)
    have hdemand : demand (i :: rest) d = demand rest d - i.gives + i.takes := rfl
    rw [instrs, hdemand]
    omega

end Lowering

/-! ## What blocks inherit, the body requires -/

/-- The body requires what a block inherits, at the start of the block; and what is required after
the block and not known at its end, too. -/
structure Fragment.Justified (code : Code) (b : Block) (f : Fragment) : Prop where
  depth : code.Requires b.start f.neededStack.length
  names : ∀ x ∈ f.neededNames, code.RequiresName b.start x
  below : ∀ e ∈ b.succs, ∀ {d : Nat}, code.Requires e d →
    code.Requires b.start (f.neededStack.length + (d - f.finalStack.length))
  past : ∀ e ∈ b.succs, ∀ {x : String}, code.RequiresName e x → x ∉ f.finalNames →
    code.RequiresName b.start x

theorem Block.Fits.justified_lower {code : Code} {b : Block} (h : b.Fits code) (g : Graph) :
    (g.lower b.start b.live).1.Justified code b := by
  obtain ⟨v, m, i, hv, hi, hlive, hnext⟩ := h.exists_last
  set s₀ := Lowering.atRegion (g.addNode .region []) g.freshNode with hs₀
  have hneeds : ∀ {d : Nat}, code.Requires m (demand [i] d) →
      code.Requires b.start ((s₀.instrs b.start b.live).neededStack.length +
        (d - (s₀.instrs b.start b.live).stack.length)) := by
    intro d hm
    rw [Lowering.demand_instrs, hlive, demand, List.foldr_append]
    have := hm.along hv
    simpa [hs₀, Lowering.atRegion, demand] using this
  refine ⟨?_, fun x hx => ?_, fun e he d hd => ?_, fun e he x hx hnot => ?_⟩
  · have := hneeds (d := 0) (by simpa [demand] using Code.requires_takes hi)
    simpa [Graph.lower, Lowering.fragment] using this
  · rcases Lowering.mem_neededNames_instrs.mp hx with hx | ⟨-, before, after, hload, hstore⟩
    · simp [Lowering.atRegion] at hx
    · obtain ⟨w, hw, rfl, hat⟩ := h.trail_to hload
      exact (Code.requiresName_load hat).along hw hstore
  · have := hneeds (hd.back hi (hnext e he))
    simpa [Graph.lower, Lowering.fragment] using this
  · have hstore : .store x ∉ b.live := fun h => hnot (Lowering.mem_names_instrs.mpr (.inr (.inr h)))
    rw [hlive, List.mem_append, List.mem_singleton, not_or] at hstore
    exact (hx.back hi (hnext e he) hstore.2).along hv hstore.1

namespace Fragment.Justified

variable {code : Code} {b : Block} {e d : Nat} {s : Fragment × Graph} {xs : List String}

theorem inheritName (h : s.1.Justified code b) {x : String}
    (hx : x ∉ s.1.finalNames → code.RequiresName b.start x) :
    (Fragment.inheritName s x).1.Justified code b := by
  obtain ⟨f, g⟩ := s
  by_cases hknown : f.finalNames.contains x = true
  · simpa only [Fragment.inheritName, if_pos hknown] using h
  · simp only [Fragment.inheritName, if_neg hknown]
    refine ⟨h.depth, fun y hy => ?_, h.below, fun e he y hy hnot => ?_⟩
    · rcases Std.TreeMap.mem_insert.mp hy with heq | hy
      · obtain rfl := Std.LawfulEqOrd.eq_of_compare heq
        exact hx hknown
      · exact h.names y hy
    · exact h.past e he hy fun hmem => hnot (Std.TreeMap.mem_insert.mpr (.inr hmem))

theorem inheritOperand (h : s.1.Justified code b)
    (hdepth : code.Requires b.start (s.1.neededStack.length + 1)) :
    (Fragment.inheritOperand s).1.Justified code b := by
  refine ⟨hdepth, h.names, fun e he d hd => ?_, h.past⟩
  change code.Requires b.start (s.1.neededStack.length + 1 + (d - (s.1.finalStack.length + 1)))
  by_cases hle : d ≤ s.1.finalStack.length
  · exact hdepth.mono (by omega)
  · exact (h.below e he hd).mono (by omega)

theorem inheritNames (h : s.1.Justified code b) (he : e ∈ b.succs)
    (hxs : ∀ x ∈ xs, code.RequiresName e x) :
    (xs.foldl Fragment.inheritName s).1.Justified code b := by
  induction xs generalizing s with
  | nil => exact h
  | cons x xs ih =>
    refine ih (h.inheritName fun hnot => ?_) fun y hy => hxs y (List.mem_cons_of_mem x hy)
    exact h.past e he (hxs x List.mem_cons_self) hnot

theorem inheritOperands {n : Nat} (h : s.1.Justified code b)
    (hdepth : code.Requires b.start (s.1.neededStack.length + n)) :
    (Fragment.inheritOperands n s).1.Justified code b := by
  induction n generalizing s with
  | zero => exact h
  | succ n ih =>
    refine ih (h.inheritOperand (hdepth.mono (by omega))) ?_
    change code.Requires b.start (s.1.neededStack.length + 1 + n)
    exact hdepth.mono (by omega)

/-- A block may inherit what one of its successors requires. -/
theorem inherit (h : s.1.Justified code b) (he : e ∈ b.succs)
    (hxs : ∀ x ∈ xs, code.RequiresName e x) (hd : code.Requires e d) :
    (Fragment.inherit xs d s).1.Justified code b := by
  have hnames := h.inheritNames he hxs
  exact hnames.inheritOperands (hnames.below e he hd)

end Fragment.Justified

/-! ## Propagation -/

/-- What an error reports is so. -/
def Code.Warrants (code : Code) : BuildError → Prop
  | .invalidTarget source target len =>
    len = code.size ∧ len ≤ target ∧ ∃ i, code[source]? = some i ∧ i.target? = some target
  | .unsupportedControlFlow _ _ => False
  | .stackUnderflow _ => code.Underflows
  | .undefinedName x _ => code.ReadsUnassigned x

namespace Assembly

variable {code : Code} {bs : List Block} {a : Assembly} {b : Block}

/-- What the blocks inherit, the body requires. -/
def Justified (code : Code) (bs : List Block) (a : Assembly) : Prop :=
  ∀ b ∈ bs, ∀ {f : Fragment}, a.table b.start = some f → f.Justified code b

theorem justified_ofBlocks (hl : Layout code bs) : (ofBlocks bs).Justified code bs := by
  intro b hb f hf
  rcases lower_of_table hf with hnone | ⟨c, hc, g, rfl, hstart⟩
  · simp [table] at hnone
  · obtain rfl := hl.eq_of_start hb hc hstart
    exact (hl.fits b hb).justified_lower g

theorem Justified.supply (h : a.Justified code bs) (hl : Layout code bs) {c : Block} (hc : c ∈ bs)
    (hsucc : b.start ∈ c.succs) {xs : List String}
    (hxs : ∀ x ∈ xs, code.RequiresName b.start x) {d : Nat} (hd : code.Requires b.start d) :
    (supply xs d a c.start).Justified code bs := by
  unfold Assembly.supply
  split
  · exact h
  · next f hf =>
    intro c' hc' f' hf'
    rw [table_insert] at hf'
    rcases withFragment_cases hf' with ⟨heq, rfl⟩ | ⟨-, hf'⟩
    · obtain rfl := hl.eq_of_start hc' hc heq
      exact Fragment.Justified.inherit (s := (f, a.graph)) (h c' hc' hf) hsucc hxs hd
    · exact h c' hc' hf'

theorem Justified.supplies (h : a.Justified code bs) (hl : Layout code bs) (hb : b ∈ bs)
    {xs : List String} (hxs : ∀ x ∈ xs, code.RequiresName b.start x) {d : Nat}
    (hd : code.Requires b.start d) {preds : List Nat} (hpreds : ∀ p ∈ preds, p ∈ b.preds) :
    (preds.foldl (Assembly.supply xs d) a).Justified code bs := by
  induction preds generalizing a with
  | nil => exact h
  | cons p preds ih =>
    obtain ⟨c, hc, rfl, hsucc⟩ := (hl.mem_preds hb).mp (hpreds p List.mem_cons_self)
    exact ih (h.supply hl hc hsucc hxs hd) fun q hq => hpreds q (List.mem_cons_of_mem _ hq)

/-- Propagation keeps the blocks justified, or stops with an error that reports what is so. -/
def Accounted (code : Code) (bs : List Block) : Except BuildError Assembly → Prop
  | .ok a => a.Justified code bs
  | .error e => code.Warrants e

/-- Where a block stops propagation, a trail to the block is at fault. -/
theorem Justified.propagateBlock (h : a.Justified code bs) (hl : Layout code bs) (hb : b ∈ bs) :
    Accounted code bs (Assembly.propagateBlock code.size a b) := by
  unfold Assembly.propagateBlock
  split
  · exact h
  next f hf =>
  have hjust := h b hb hf
  simp only
  split
  · next hdepth =>
    obtain ⟨v, hv⟩ := hl.exists_trail hb
    exact hjust.depth.underflows hv hdepth
  split
  · next hstart =>
    -- nothing comes before the first block, so the empty trail shows the fault
    have hnil : code.Trail 0 [] b.start := hstart ▸ .nil
    split
    · next hpos => exact hjust.depth [] 0 hnil rfl hpos
    split
    · next x _ hkeys =>
      have hx : x ∈ f.neededNames := Std.TreeMap.mem_keys.mp (hkeys ▸ List.mem_cons_self)
      exact hjust.names x hx [] hnil List.not_mem_nil
    · exact h
  · exact h.supplies hl hb (fun x hx => hjust.names x (Std.TreeMap.mem_keys.mp hx)) hjust.depth
      fun _ hp => hp

theorem Justified.propagateRound (hl : Layout code bs) {rest : List Block}
    (hrest : ∀ b ∈ rest, b ∈ bs) (h : a.Justified code bs) :
    Accounted code bs (Assembly.propagateRound code.size rest a) := by
  induction rest generalizing a with
  | nil => exact h
  | cons b rest ih =>
    have hfirst := h.propagateBlock hl (hrest b List.mem_cons_self)
    unfold Assembly.propagateRound
    split
    · next hblock =>
      rw [hblock] at hfirst
      exact hfirst
    · next hblock =>
      rw [hblock] at hfirst
      exact ih (fun c hc => hrest c (List.mem_cons_of_mem b hc)) hfirst

theorem Justified.propagateRounds (hl : Layout code bs) (rounds : Nat) (h : a.Justified code bs) :
    Accounted code bs (Assembly.propagateRounds code.size bs rounds a) := by
  induction rounds generalizing a with
  | zero => exact h
  | succ rounds ih =>
    have hfirst := h.propagateRound hl fun _ hb => hb
    unfold Assembly.propagateRounds
    split
    · next hround =>
      rw [hround] at hfirst
      exact hfirst
    · next hround =>
      rw [hround] at hfirst
      split
      · exact hfirst
      · exact ih hfirst

end Assembly

/-! ## Refused methods -/

theorem Code.exists_of_badTarget {code : Code} {e : BuildError} (h : code.badTarget? = some e) :
    ∃ source target i, e = .invalidTarget source target code.size ∧ code.size ≤ target ∧
      code[source]? = some i ∧ i.target? = some target := by
  obtain ⟨⟨i, source⟩, hmem, hbad⟩ := List.exists_of_findSome?_eq_some h
  have hi : code[source]? = some i := by
    simpa using List.mem_zipIdx_iff_getElem?.mp hmem
  simp only at hbad
  split at hbad
  · next target htarget =>
    split at hbad
    · cases hbad
    · next hlt =>
      cases hbad
      exact ⟨source, target, i, rfl, Nat.not_lt.mp hlt, hi, htarget⟩
  · cases hbad

theorem Code.badTarget?_of_blocks {code : Code} {e : BuildError} (h : code.blocks = .error e) :
    code.badTarget? = some e := by
  unfold Code.blocks Code.leaders at h
  cases hbad : code.badTarget? with
  | none =>
    rw [hbad] at h
    cases h
  | some e' =>
    rw [hbad] at h
    cases h
    rfl

theorem Code.warrants_blocks {code : Code} {e : BuildError} (h : code.blocks = .error e) :
    code.Warrants e := by
  obtain ⟨source, target, i, rfl, hle, hi, htarget⟩ :=
    Code.exists_of_badTarget (Code.badTarget?_of_blocks h)
  exact ⟨rfl, hle, i, hi, htarget⟩

/-- Control never leaves a block in more ways than the block's last instruction allows. -/
theorem Block.Fits.unsupported?_eq_none {code : Code} {b : Block} (h : b.Fits code) :
    b.unsupported? = none := by
  unfold Block.unsupported? Block.endsInBranch Block.terminator?
  rcases h.succs_cases with hs | ⟨s, hs⟩ | ⟨s, u, t, hs, hlast⟩
  · simp [hs]
  · simp [hs]
  · simp [hs, hlast]

/-- Every error reports what is so. -/
theorem Code.warrants_of_graph {code : Code} {e : BuildError} (h : code.graph = .error e) :
    code.Warrants e := by
  unfold Code.graph at h
  split at h
  · next e' hblocks => exact Except.error.inj h ▸ Code.warrants_blocks hblocks
  next blocks hblocks =>
  split at h
  · next e' hunsupported =>
    obtain ⟨b, hb, hsome⟩ := List.exists_of_findSome?_eq_some hunsupported
    rw [(fits_of_mem_blocks hblocks hb).unsupported?_eq_none] at hsome
    cases hsome
  have hl := layout_reachable hblocks
  simp only at h
  split at h
  · next e' hprop =>
    have haccounted := (Assembly.justified_ofBlocks hl).propagateRounds hl
      (2 * code.size * (Block.reachable blocks code.size).length + 1)
    rw [← Assembly.propagate, hprop] at haccounted
    exact Except.error.inj h ▸ haccounted
  · next a hprop =>
    obtain ⟨hassembled, -, hprovided⟩ := Assembly.assembled_propagate hl hprop
    obtain ⟨g, hg⟩ := Assembly.exists_joinBlocks hassembled hl hprovided
    rw [hg] at h
    cases h

end StackJit
