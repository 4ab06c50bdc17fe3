import StackJit.Proofs.Build.Method

/-!
# Placeholders and slots

A placeholder is made for a slot of a block and for nothing else. Lowering makes one when an
instruction takes an operand or reads a local that the block does not know yet (`Lowering.Lists`),
propagation makes one where a block comes to inherit one more value, and joining makes none.
`Placed` is what all of this keeps.

Main statement: `Code.exists_slot`, every placeholder in the graph of a method is the one of a slot
of some block.
-/

namespace StackJit

/-! ## Lowering -/

namespace Lowering

variable {s t : Lowering} {lo : NodeId}

/-- The placeholders from `lo` on are those of the slots of the block. -/
def Lists (lo : NodeId) (s : Lowering) : Prop :=
  ∀ n : NodeId, lo ≤ n → s.graph.op? n = some .input → ∃ a, s.needs a = some n

theorem Lists.demand (h : s.Lists lo) {a : Slot} (hd : s.Demand t a) : t.Lists lo := by
  intro n hn hop
  rw [hd.graph, Graph.op?_addNode] at hop
  split at hop
  · next heq => exact ⟨a, heq ▸ hd.new⟩
  · obtain ⟨b, hb⟩ := h n hn hop
    exact ⟨b, hd.demands.needs hb⟩

theorem Lists.pop (h : s.Lists lo) : s.pop.2.Lists lo := by
  cases hs : s.stack with
  | cons n rest =>
    rw [pop_of_cons hs]
    exact h
  | nil => exact h.demand (demand_pop hs)

theorem Lists.popMany (h : s.Lists lo) (k : Nat) (taken : List NodeId) :
    (Lowering.popMany k taken s).2.Lists lo := by
  induction k generalizing taken s with
  | zero => exact h
  | succ k ih => exact ih h.pop (s.pop.1 :: taken)

theorem Lists.read (h : s.Lists lo) (hs : s.Sound lo) (x : String) : (s.read x).2.Lists lo := by
  cases hx : s.names[x]? with
  | some n =>
    rw [read_of_some hx]
    exact h
  | none => exact h.demand (demand_read hx (hs.needs_none hx))

theorem Lists.addNode (h : s.Lists lo) {op : Op} (hop : op ≠ .input) (props : Props) :
    (s.addNode op props).Lists lo := by
  intro n hn hn'
  rw [Lowering.addNode, Graph.op?_addNode] at hn'
  split at hn'
  · exact absurd (Option.some.inj hn') hop
  · exact h n hn hn'

theorem Lists.addEdges (h : s.Lists lo) (es : List Edge) : (s.addEdges es).Lists lo := by
  intro n hn hop
  rw [Lowering.addEdges, Graph.op?_eq_label?, Graph.label?_addEdges, ← Graph.op?_eq_label?] at hop
  exact h n hn hop

theorem Lists.chain (h : s.Lists lo) (m : NodeId) : (s.chain m).Lists lo := by
  intro n hn hop
  rw [Lowering.chain, Graph.op?_eq_label?, Graph.label?_addEdge, ← Graph.op?_eq_label?] at hop
  exact h n hn hop

theorem Lists.instr (h : s.Lists lo) (hs : s.Sound lo) (ip : Nat) (i : Instr) :
    (s.instr ip i).Lists lo := by
  cases i with
  | trace line => exact (h.addNode (by simp) _).chain _
  | self => exact h.addNode (by simp) _
  | arg k => exact h.addNode (by simp) _
  | load x => exact h.read hs x
  | store x => exact h.pop
  | push v => exact h.addNode (by simp) _
  | send name argc =>
    have hsend : Op.send ≠ .input := by simp
    exact ((((h.addNode hsend _).popMany argc []).pop).addEdges _).chain _
  | not => exact (h.pop.addNode (by simp) _).addEdges _
  | jump target => exact (h.addNode (by simp) _).chain _
  | branch target => exact ((h.pop.addNode (by simp) _).addEdges _).chain _
  | ret => exact h.pop

theorem Lists.instrs (h : s.Lists lo) (hs : s.Sound lo) (ip : Nat) (body : List Instr) :
    (Lowering.instrs ip body s).Lists lo := by
  induction body generalizing s ip with
  | nil => exact h
  | cons i rest ih => exact ih (h.instr hs ip i) (lowers_instr hs ip i).sound (ip + 1)

end Lowering

theorem Graph.exists_slot_lower {g : Graph} (hg : g.Consistent) (start : Nat) (body : List Instr)
    {n : NodeId} (hn : g.nodes.size ≤ n) (hop : (g.lower start body).2.op? n = some .input) :
    ∃ a, (g.lower start body).1.entry.slot a = some n := by
  have hlists : (Lowering.atRegion (g.addNode .region []) g.nodes.size).Lists g.nodes.size := by
    intro m hm hop
    rw [Lowering.atRegion, Graph.op?_addNode] at hop
    split at hop
    · cases hop
    · exact absurd (Graph.op?_lt hop) (Nat.not_lt.mpr hm)
  obtain ⟨a, ha⟩ := hlists.instrs (sound_atRegion hg) start body n hn hop
  refine ⟨a, ?_⟩
  rw [← Fragment.needs_state _ (g.lower start body).2]
  exact ha

/-! ## Blocks that inherit values -/

/-- The fragments are assembled, and every placeholder of the graph is that of a slot of a block. -/
structure Placed (bs : List Block) (g : Graph) (F : Nat → Option Fragment) : Prop where
  assembled : Assembled g F bs
  slot : ∀ {n : NodeId}, g.op? n = some .input →
    ∃ b ∈ bs, ∃ f a, F b.start = some f ∧ f.entry.slot a = some n

namespace Placed

variable {bs : List Block} {g : Graph} {F : Nat → Option Fragment} {b : Block}

theorem addBlock (h : Placed bs g F) (hb : ∀ c ∈ bs, c.start ≠ b.start) :
    Placed (bs ++ [b]) (g.lower b.start b.live).2
      (withFragment F b.start (g.lower b.start b.live).1) where
  assembled := h.assembled.addBlock hb
  slot {n} hop := by
    by_cases hn : n < g.nodes.size
    · rw [(loweredInto_lower h.assembled.consistent b).adds.op_of_lt hn] at hop
      obtain ⟨c, hc, f, a, hf, ha⟩ := h.slot hop
      exact ⟨c, List.mem_append_left _ hc, f, a, Assembled.fragment_of_old _ hb hc hf, ha⟩
    · obtain ⟨a, ha⟩ := Graph.exists_slot_lower h.assembled.consistent b.start b.live
        (Nat.not_lt.mp hn) hop
      exact ⟨b, List.mem_append_right _ List.mem_cons_self, _, a, withFragment_self _ _ _, ha⟩

/-- The placeholder of one more value is that of its slot. -/
theorem demand (h : Placed bs g F) (hbs : (bs.map (·.start)).Nodup) {f f' : Fragment} {a : Slot}
    (hb : b ∈ bs) (hf : F b.start = some f) (hd : f.Demand f' g a) :
    Placed bs (g.addNode .input []) (withFragment F b.start f') where
  assembled := h.assembled.demand hbs hb hf hd
  slot {n} hop := by
    have hslot : ∀ {a' : Slot} {m : NodeId},
        (f'.state (g.addNode .input [])).needs a' = some m → f'.entry.slot a' = some m :=
      fun ha' => (f'.needs_state _ _).symm.trans ha'
    rw [Graph.op?_addNode] at hop
    split at hop
    · next heq =>
      exact ⟨b, hb, f', a, withFragment_self _ _ _, hslot (heq ▸ hd.demand.new)⟩
    · obtain ⟨c, hc, f₁, a₁, hf₁, ha₁⟩ := h.slot hop
      by_cases hcb : c.start = b.start
      · rw [hcb, hf] at hf₁
        obtain rfl := Option.some.inj hf₁
        rw [← f.needs_state g] at ha₁
        exact ⟨b, hb, f', a₁, withFragment_self _ _ _, hslot (hd.demand.demands.needs ha₁)⟩
      · exact ⟨c, hc, f₁, a₁, (withFragment_of_ne _ hcb).trans hf₁, ha₁⟩

variable {s : Fragment × Graph}

theorem inheritName (h : Placed bs s.2 (withFragment F b.start s.1))
    (hbs : (bs.map (·.start)).Nodup) (hb : b ∈ bs) (x : String) :
    Placed bs (Fragment.inheritName s x).2
      (withFragment F b.start (Fragment.inheritName s x).1) := by
  obtain ⟨f, g⟩ := s
  by_cases hknown : f.finalNames.contains x = true
  · simp only [Fragment.inheritName, if_pos hknown]
    exact h
  · have hm := h.assembled.fragment_of_mem hb (withFragment_self _ _ _)
    have h' := h.demand hbs hb (withFragment_self _ _ _) (hm.demand_withName hknown)
    simp only [Fragment.inheritName, if_neg hknown]
    rwa [withFragment_withFragment] at h'

theorem inheritOperands (h : Placed bs s.2 (withFragment F b.start s.1))
    (hbs : (bs.map (·.start)).Nodup) (hb : b ∈ bs) (n : Nat) :
    Placed bs (Fragment.inheritOperands n s).2
      (withFragment F b.start (Fragment.inheritOperands n s).1) := by
  induction n generalizing s with
  | zero => exact h
  | succ n ih =>
    have h' := h.demand hbs hb (withFragment_self _ _ _) s.1.demand_withOperand
    rw [withFragment_withFragment] at h'
    exact ih h'

end Placed

namespace Assembly

variable {bs : List Block} {a a' : Assembly} {limit : Nat}

theorem placed_supply (hbs : (bs.map (·.start)).Nodup) (h : Placed bs a.graph a.table) {b : Block}
    (hb : b ∈ bs) (xs : List String) (depth : Nat) :
    Placed bs (supply xs depth a b.start).graph (supply xs depth a b.start).table := by
  obtain ⟨f, hf, -⟩ := h.assembled.models hb
  have hf' : a.fragments[b.start]? = some f := hf
  have h₀ : Placed bs (f, a.graph).2 (withFragment a.table b.start (f, a.graph).1) := by
    rwa [withFragment_eq_self hf]
  have hnames : Placed bs (xs.foldl Fragment.inheritName (f, a.graph)).2
      (withFragment a.table b.start (xs.foldl Fragment.inheritName (f, a.graph)).1) :=
    List.foldlRecOn (motive := fun s : Fragment × Graph =>
      Placed bs s.2 (withFragment a.table b.start s.1)) xs _ h₀
      fun _ h x _ => h.inheritName hbs hb x
  rw [supply, hf']
  simp only [table_insert]
  exact hnames.inheritOperands hbs hb _

section Induct

/-! What supplying a predecessor keeps, propagation keeps. -/

variable {P : Assembly → Prop}
  (hsupply : ∀ {a : Assembly} {b : Block} {p : Nat} (xs : List String) (depth : Nat), b ∈ bs →
    p ∈ b.preds → P a → P (supply xs depth a p))

include hsupply

theorem propagateBlock_induct {b : Block} (hb : b ∈ bs) (h : P a)
    (hok : propagateBlock limit a b = .ok a') : P a' := by
  unfold propagateBlock at hok
  split at hok
  · exact Except.ok.inj hok ▸ h
  simp only at hok
  split at hok
  · cases hok
  split at hok
  · split at hok
    · cases hok
    split at hok
    · cases hok
    · exact Except.ok.inj hok ▸ h
  · exact Except.ok.inj hok ▸ List.foldlRecOn (motive := P) _ _ h fun _ h p hp =>
      hsupply _ _ hb hp h

theorem propagateRound_induct {rest : List Block} (hrest : ∀ b ∈ rest, b ∈ bs) (h : P a)
    (hok : propagateRound limit rest a = .ok a') : P a' := by
  induction rest generalizing a with
  | nil => exact Except.ok.inj hok ▸ h
  | cons b rest ih =>
    rw [propagateRound] at hok
    split at hok
    · cases hok
    · next hblock =>
      have h' := propagateBlock_induct hsupply (hrest b List.mem_cons_self) h hblock
      exact ih (fun c hc => hrest c (List.mem_cons_of_mem b hc)) h' hok

theorem propagateRounds_induct {rounds : Nat} (h : P a)
    (hok : propagateRounds limit bs rounds a = .ok a') : P a' := by
  induction rounds generalizing a with
  | zero => exact Except.ok.inj hok ▸ h
  | succ rounds ih =>
    rw [propagateRounds] at hok
    split at hok
    · cases hok
    · next hround =>
      have h' := propagateRound_induct hsupply (fun _ hb => hb) h hround
      split at hok
      · exact Except.ok.inj hok ▸ h'
      · exact ih h' hok

end Induct

theorem placed_ofBlocks (hbs : (bs.map (·.start)).Nodup) :
    Placed bs (ofBlocks bs).graph (ofBlocks bs).table := by
  refine ofBlocks_induct (P := fun bs a => Placed bs a.graph a.table) ?_ (fun hb h => ?_) hbs
  · rw [table_empty]
    refine ⟨assembled_initial, fun hop => ?_⟩
    rcases op?_initial hop with ⟨-, h⟩ | ⟨-, h⟩ <;> cases h
  · rw [Assembly.addBlock, table_insert]
    exact h.addBlock hb

theorem placed_propagate {code : Code} (hl : Layout code bs)
    (hok : (ofBlocks bs).propagate code.size bs = .ok a) : Placed bs a.graph a.table := by
  refine propagateRounds_induct (P := fun a => Placed bs a.graph a.table)
    (fun xs depth hb hp h => ?_) (placed_ofBlocks hl.nodup) hok
  obtain ⟨c, hc, rfl⟩ := hl.exists_pred _ hb _ hp
  exact placed_supply hl.nodup h hc xs depth

end Assembly

/-- Every placeholder in the graph of a method is that of a slot of some block. -/
theorem Code.exists_slot {code : Code} {g : Graph} (h : code.graph = .ok g) :
    ∃ t : Translation code g, ∀ {n : NodeId}, g.op? n = some .input →
      ∃ b f a, t.Has b f ∧ f.entry.slot a = some n := by
  obtain ⟨all, a, hall, hprop, hjoin⟩ := Code.parts_of_graph h
  obtain ⟨t, hblocks, rfl⟩ := Translation.exists_of_parts hall hprop hjoin
  refine ⟨t, fun {n} hop => ?_⟩
  have hn : n < t.parts.graph.nodes.size := by
    by_contra hge
    obtain ⟨hphi, -⟩ := t.joined.phis (Nat.not_lt.mp hge) hop
    cases hphi
  rw [t.joined.extends.op_of_lt hn] at hop
  obtain ⟨b, hb, f, s, hf, hs⟩ :=
    (Assembly.placed_propagate (layout_reachable hall) hprop).slot hop
  exact ⟨b, f, s, ⟨hblocks ▸ hb, hf⟩, hs⟩

end StackJit
