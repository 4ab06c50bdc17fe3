import StackJit.Proofs.Build.Inherit
import StackJit.Proofs.Build.Join

/-!
# The graph of a method

A `Translation` of a method body into a graph is the evidence that the graph is what `Code.graph`
makes of the body: its blocks, their fragments, and at each instruction of a block the context in
which it was lowered. Every graph that `Code.graph` answers has one (`Code.exists_translation`).

Main statements: a block inherits what all its predecessors have (`Translation.supply`), and the
first block inherits nothing (`Translation.slot_entry`).
-/

namespace StackJit

/-- How the graph `g` of a method body came about. -/
structure Translation (code : Code) (g : Graph) where
  blocks : List Block
  parts : Assembly
  /-- What is known before each live instruction of a block, and at its end. -/
  context : Block → Nat → Context
  found : ∃ all, code.blocks = .ok all ∧ blocks = Block.reachable all code.size
  layout : Layout code blocks
  assembled : Assembled parts.graph parts.table blocks
  entry : ∀ b ∈ blocks, b.start = 0 → ∀ {f : Fragment}, parts.table b.start = some f →
    f.neededStack = [] ∧ ∀ x, x ∉ f.neededNames
  joined : parts.Joined blocks blocks g
  trace : ∀ b ∈ blocks, ∀ {f : Fragment}, parts.table b.start = some f →
    Context.Trace g b.start b.live f.entry f.exit (context b) ∧
      f.latest = Context.latest b.live (context b)

/-- The names of the locals that a body reads. -/
def Code.loads (code : Code) : List String :=
  code.toList.filterMap fun
    | .load x => some x
    | _ => none

theorem Code.length_loads_le (code : Code) : code.loads.length ≤ code.size := by
  rw [← Array.length_toList]
  exact List.length_filterMap_le _ _

theorem Code.mem_loads {code : Code} {k : Nat} {x : String} (h : code[k]? = some (.load x)) :
    x ∈ code.loads :=
  List.mem_filterMap.mpr ⟨.load x, Array.mem_toList_iff.mpr (Array.mem_of_getElem? h), rfl⟩

theorem Layout.mem_loads {code : Code} {bs : List Block} (h : Layout code bs) {b : Block}
    (hb : b ∈ bs) {x : String} (hx : .load x ∈ b.live) : x ∈ code.loads := by
  obtain ⟨k, hk⟩ := List.mem_iff_getElem?.mp hx
  have hlt : k < b.live.length := (List.getElem?_eq_some_iff.mp hk).1
  rw [(h.fits b hb).live_at k hlt] at hk
  exact Code.mem_loads hk

theorem Layout.start_lt {code : Code} {bs : List Block} (h : Layout code bs) {b : Block}
    (hb : b ∈ bs) : b.start < code.size := by
  have hfits := h.fits b hb
  have hpos := List.length_pos_iff.mpr hfits.live_ne_nil
  have hat := hfits.live_at 0 hpos
  rw [List.getElem?_eq_getElem hpos] at hat
  exact (Array.getElem?_eq_some_iff.mp hat.symm).1

/-- The contexts of all blocks, in the graph whose fragments are joined. -/
theorem Assembly.Joined.exists_context {bs : List Block} {a : Assembly} {g : Graph}
    (hj : a.Joined bs bs g) (h : Assembled a.graph a.table bs) :
    ∃ context : Block → Nat → Context, ∀ b ∈ bs, ∀ {f : Fragment}, a.table b.start = some f →
      Context.Trace g b.start b.live f.entry f.exit (context b) ∧
        f.latest = Context.latest b.live (context b) := by
  have hone : ∀ b : Block, ∃ ctx : Nat → Context, b ∈ bs → ∀ {f : Fragment},
      a.table b.start = some f → Context.Trace g b.start b.live f.entry f.exit ctx ∧
        f.latest = Context.latest b.live ctx := by
    intro b
    by_cases hb : b ∈ bs
    · obtain ⟨f, hf, hm⟩ := h.models hb
      obtain ⟨ctx, htrace, hlatest⟩ := hm.trace_entry
      refine ⟨ctx, fun _ f' hf' => ?_⟩
      obtain rfl : f = f' := Option.some.inj (hf.symm.trans hf')
      exact ⟨htrace.extend hj.extends h.consistent, hlatest⟩
    · exact ⟨fun _ => ⟨[], fun _ => none, 0⟩, fun hb' => absurd hb' hb⟩
  choose context hcontext using hone
  exact ⟨context, fun b hb => hcontext b hb⟩

theorem Layout.exists_pred {code : Code} {bs : List Block} (h : Layout code bs) :
    ∀ b ∈ bs, ∀ p ∈ b.preds, ∃ c ∈ bs, c.start = p := by
  intro b hb p hp
  obtain ⟨c, hc, hcp, -⟩ := (h.mem_preds hb).mp hp
  exact ⟨c, hc, hcp⟩

theorem Layout.eq_nil {code : Code} {bs : List Block} (h : Layout code bs)
    (hsize : ¬ 0 < code.size) : bs = [] :=
  List.eq_nil_iff_forall_not_mem.mpr fun _ hb => hsize (Nat.zero_lt_of_lt (h.start_lt hb))

namespace Assembly

variable {code : Code} {bs : List Block}

theorem propagateRounds_nil (a : Assembly) (limit rounds : Nat) :
    propagateRounds limit [] (rounds + 1) a = .ok a := by
  simp [propagateRounds, propagateRound]

theorem threaded_ofBlocks (hl : Layout code bs) :
    Threaded code.loads (totalWeight (ofBlocks bs).table bs) (ofBlocks bs).graph.nodes.size bs
      (ofBlocks bs).graph (ofBlocks bs).table where
  assembled := assembled_ofBlocks hl.nodup
  named _ hf x hx := by
    obtain ⟨c, hc, hload⟩ := mem_neededNames_ofBlocks hf hx
    exact hl.mem_loads hc hload
  weight := Nat.add_comm _ _

/-- The rounds over the blocks of a method end by themselves, also where there are no blocks. -/
theorem settles_ofBlocks (hl : Layout code bs) :
    Settles code.size bs (ofBlocks bs) ((ofBlocks bs).propagate code.size bs) := by
  by_cases hpos : 0 < code.size
  · exact settles_propagate hl.nodup hl.exists_pred code.length_loads_le (hl.entry hpos) hpos
      (threaded_ofBlocks hl)
  · obtain rfl := hl.eq_nil hpos
    rw [propagate, propagateRounds_nil]
    exact .rests rfl rfl

/-- What propagation makes of the blocks of a method, of none too. -/
theorem assembled_propagate {a : Assembly} (hl : Layout code bs)
    (hok : (ofBlocks bs).propagate code.size bs = .ok a) :
    Assembled a.graph a.table bs ∧
      (∀ b ∈ bs, b.start = 0 → ∀ {f : Fragment}, a.table b.start = some f →
        f.neededStack = [] ∧ ∀ x, x ∉ f.neededNames) ∧ ∀ b ∈ bs, Provided a.table b := by
  by_cases hpos : 0 < code.size
  · exact propagate_spec hl.nodup hl.exists_pred code.length_loads_le (hl.entry hpos) hpos
      (threaded_ofBlocks hl) hok
  · obtain rfl := hl.eq_nil hpos
    rw [propagate, propagateRounds_nil] at hok
    obtain rfl := Except.ok.inj hok
    exact ⟨assembled_ofBlocks hl.nodup, by simp, by simp⟩

end Assembly

theorem Code.exists_graph {code : Code} (h : code.graph.isOk = true) : ∃ g, code.graph = .ok g := by
  cases hg : code.graph with
  | error e =>
    rw [hg] at h
    cases h
  | ok g => exact ⟨g, rfl⟩

/-- What `Code.graph` makes its answer from. -/
theorem Code.parts_of_graph {code : Code} {g : Graph} (h : code.graph = .ok g) :
    ∃ all a, code.blocks = .ok all ∧
      (Assembly.ofBlocks (Block.reachable all code.size)).propagate code.size
        (Block.reachable all code.size) = .ok a ∧
      a.joinBlocks (Block.reachable all code.size) a.graph = .ok g := by
  unfold Code.graph at h
  split at h
  · cases h
  next all hall =>
  split at h
  · cases h
  simp only at h
  split at h
  · cases h
  next a hprop => exact ⟨all, a, hall, hprop, h⟩

theorem Translation.exists_of_parts {code : Code} {g : Graph} {all : List Block} {a : Assembly}
    (hall : code.blocks = .ok all)
    (hprop : (Assembly.ofBlocks (Block.reachable all code.size)).propagate code.size
      (Block.reachable all code.size) = .ok a)
    (hjoin : a.joinBlocks (Block.reachable all code.size) a.graph = .ok g) :
    ∃ t : Translation code g, t.blocks = Block.reachable all code.size ∧ t.parts = a := by
  have hl := layout_reachable hall
  obtain ⟨hassembled, hentry, -⟩ := Assembly.assembled_propagate hl hprop
  have hj := Assembly.joined_joinBlocks hassembled hl hjoin
  obtain ⟨context, hcontext⟩ := hj.exists_context hassembled
  exact ⟨⟨_, a, context, ⟨all, hall, rfl⟩, hl, hassembled, hentry, hj, hcontext⟩, rfl, rfl⟩

theorem Code.exists_translation {code : Code} {g : Graph} (h : code.graph = .ok g) :
    Nonempty (Translation code g) := by
  obtain ⟨all, a, hall, hprop, hjoin⟩ := Code.parts_of_graph h
  obtain ⟨t, -, -⟩ := Translation.exists_of_parts hall hprop hjoin
  exact ⟨t⟩

namespace Translation

variable {code : Code} {g : Graph} {t : Translation code g} {b c : Block} {f : Fragment}

/-- `f` is what the block `b` was lowered to. -/
structure Has (t : Translation code g) (b : Block) (f : Fragment) : Prop where
  mem : b ∈ t.blocks
  table : t.parts.table b.start = some f

theorem exists_has (t : Translation code g) (hb : b ∈ t.blocks) : ∃ f, t.Has b f := by
  obtain ⟨f, hf, -⟩ := t.assembled.models hb
  exact ⟨f, hb, hf⟩

theorem Has.unique {f' : Fragment} (h : t.Has b f) (h' : t.Has b f') : f = f' :=
  Option.some.inj (h.table.symm.trans h'.table)

theorem Has.models (h : t.Has b f) : f.Models t.parts.graph b :=
  t.assembled.fragment_of_mem h.mem h.table

theorem Has.trace (h : t.Has b f) :
    Context.Trace g b.start b.live f.entry f.exit (t.context b) :=
  (t.trace b h.mem h.table).1

theorem Has.latest (h : t.Has b f) : f.latest = Context.latest b.live (t.context b) :=
  (t.trace b h.mem h.table).2

theorem Has.context_zero (h : t.Has b f) : t.context b 0 = f.entry := h.trace.first

theorem Has.context_end (h : t.Has b f) : t.context b b.live.length = f.exit := h.trace.last

/-- The first block inherits nothing. -/
theorem Has.slot_entry (h : t.Has b f) (hstart : b.start = 0) (s : Slot) :
    f.entry.slot s = none := by
  obtain ⟨hstack, hnames⟩ := t.entry b h.mem hstart h.table
  cases s with
  | operand i => simp [Context.slot, Fragment.entry, hstack]
  | name x => exact Std.TreeMap.getElem?_eq_none (hnames x)

/-- What a block inherits, its predecessors have, and its placeholder gets. -/
theorem Has.supply (h : t.Has b f) {s : Slot} {n : NodeId} (hs : f.entry.slot s = some n) :
    b.start ≠ 0 ∧ ∃ sources, Assembly.Feeds t.parts.table b f s n sources ∧
      g.Supplied f.region n sources := by
  have hstart : b.start ≠ 0 := fun hstart => by simp [h.slot_entry hstart] at hs
  exact ⟨hstart, t.joined.supplied h.mem hstart h.table hs⟩

/-- The source that stands for the predecessor of a given position. -/
theorem Has.source_at {s : Slot} {n : NodeId} {sources : List NodeId} {j : Nat}
    {f' : Fragment} (hb : t.Has b f') (hfeeds : Assembly.Feeds t.parts.table c f s n sources)
    (hj : c.preds[j]? = some b.start) :
    ∃ m, sources[j]? = some m ∧ f'.exit.slot s = some m := by
  have hlen := hfeeds.sources.length_eq
  have hlt : j < sources.length := by
    rw [← hlen]
    exact (List.getElem?_eq_some_iff.mp hj).1
  have hget := List.forall₂_iff_get.mp hfeeds.sources
  obtain ⟨hj', heq⟩ := List.getElem?_eq_some_iff.mp hj
  obtain ⟨f'', hf'', hm⟩ := hget.2 j hj' hlt
  rw [List.get_eq_getElem, heq, hb.table] at hf''
  cases hf''
  exact ⟨sources.get ⟨j, hlt⟩, by simp, hm⟩

/-- Which predecessor a block is, seen from one of its successors. -/
theorem exists_pred (t : Translation code g) (hb : b ∈ t.blocks) (hc : c ∈ t.blocks)
    (hsucc : c.start ∈ b.succs) : ∃ j : Nat, c.preds[j]? = some b.start :=
  List.mem_iff_getElem?.mp ((t.layout.mem_preds hc).mpr ⟨b, hb, rfl, hsucc⟩)

end Translation

end StackJit
