import StackJit.Proofs.Build.Supply
import StackJit.Proofs.Layout

/-!
# Joining the fragments

Joining a block supplies its placeholders and adds its edges to regions and to the finish node, its
`spine`: control from the start node if the block is the first one, and the edges by which it is
left. `Joined a done g` describes the graph when the blocks `done` have been joined: all new edges
outside placeholders and phis are the spines of these blocks, in order.

Main statement: `Assembly.joined_joinBlocks`.
-/

namespace StackJit

theorem Graph.Typed.control_input {g : Graph} {e : Edge} (h : g.Typed e)
    (hctl : e.isControl = true) : e.input = .control := by
  obtain ⟨s, t, -, -, hallow⟩ := h
  obtain ⟨source, target, output, input⟩ := e
  cases input <;> cases output <;> simp_all [Op.allows, Edge.isControl]

theorem Graph.Typed.not_input {g : Graph} {e : Edge} (h : g.Typed e) (hctl : e.isControl = true) :
    g.op? e.target ≠ some .input := by
  have hin := h.control_input hctl
  obtain ⟨s, t, -, ht, hallow⟩ := h
  intro h'
  obtain rfl : t = .input := Option.some.inj (ht.symm.trans h')
  rw [hin] at hallow
  cases hout : e.output <;> simp [Op.allows, Op.isEntered, hout] at hallow

/-- An edge into a node that is neither a placeholder nor a phi. -/
def Graph.isSpine (g : Graph) (e : Edge) : Bool :=
  !g.hasOp e.target .phi && !g.hasOp e.target .input

theorem Graph.isSpine_of_op {g : Graph} {e : Edge} {op : Op} (h : g.op? e.target = some op)
    (hphi : op ≠ .phi) (hinput : op ≠ .input) : g.isSpine e = true := by
  simp [isSpine, hasOp, h, hphi, hinput]

theorem Graph.not_isSpine {g : Graph} {e : Edge}
    (h : g.op? e.target = some .phi ∨ g.op? e.target = some .input) : g.isSpine e = false := by
  rcases h with h | h <;> simp [isSpine, hasOp, h]

namespace Assembly

/-- The region of the block at an index. -/
def regionAt (a : Assembly) (start : Nat) : NodeId := ((a.table start).map (·.region)).getD 0

/-- Control enters the first block from the start node. -/
def arriving (a : Assembly) (b : Block) (f : Fragment) : List Edge :=
  if b.start = 0 then [.control a.graph.start f.region] else []

/-- The edges by which a block is left. -/
def leaving (a : Assembly) (b : Block) (f : Fragment) : List Edge :=
  match b.succs with
  | [] =>
    .control f.controlEnd a.graph.finish ::
      f.latest.toList.map fun n => .value n a.graph.finish .value
  | [t] => [.control f.controlEnd (a.regionAt t)]
  | [t, u] =>
    [⟨f.controlEnd, a.regionAt t, .whenTrue, .control⟩,
      ⟨f.controlEnd, a.regionAt u, .whenFalse, .control⟩]
  | _ => []

def spine (a : Assembly) (b : Block) : List Edge :=
  match a.table b.start with
  | some f => a.arriving b f ++ a.leaving b f
  | none => []

theorem region?_eq {a : Assembly} {t : Nat} {f : Fragment} (h : a.table t = some f) :
    a.region? t = some (a.regionAt t) := by
  have h' : a.fragments[t]? = some f := h
  simp [region?, regionAt, h, h']

/-- Where all successors have fragments, the edges out of a block are those of `leaving`. -/
theorem leaving_of_exits {a : Assembly} {g : Graph} {b : Block} {f : Fragment} {es : List Edge}
    (hfinish : g.finish = a.graph.finish) (hsucc : ∀ t ∈ b.succs, ∃ f', a.table t = some f')
    (h : a.exits g b f = .ok es) :
    es = a.leaving b f ∧ (2 ≤ b.succs.length → g.op? f.controlEnd = some .branch) := by
  unfold exits at h
  unfold leaving
  split at h
  · next hs =>
    rw [hs, ← hfinish]
    exact ⟨(Except.ok.inj h).symm, by simp⟩
  · next t hs =>
    rw [hs] at hsucc ⊢
    obtain ⟨f', hf'⟩ := hsucc t List.mem_cons_self
    rw [region?_eq hf'] at h
    exact ⟨(Except.ok.inj h).symm, by simp⟩
  · next t u hs =>
    rw [hs] at hsucc ⊢
    obtain ⟨f', hf'⟩ := hsucc t List.mem_cons_self
    obtain ⟨f'', hf''⟩ := hsucc u (List.mem_cons_of_mem _ List.mem_cons_self)
    rw [region?_eq hf', region?_eq hf''] at h
    split at h
    · next hbranch => exact ⟨(Except.ok.inj h).symm, fun _ => Graph.hasOp_iff.mp hbranch⟩
    · cases h
  · cases h

section Blocks

variable {code : Code} {bs : List Block} {a : Assembly} {b : Block} {f : Fragment} {g g' : Graph}

/-- What supplying a block and leading control into it adds to the graph. -/
structure Enters (a : Assembly) (b : Block) (f : Fragment) (g g' : Graph) (es : List Edge) :
    Prop where
  grows : g.Grows g' es
  typed : ∀ e ∈ es, g'.Typed e
  targets : ∀ e ∈ es, e.target = f.region ∨ (∃ s, f.entry.slot s = some e.target) ∨
    g.nodes.size ≤ e.target
  spine : es.filter g'.isSpine = a.arriving b f
  supplied : b.start ≠ 0 → ∀ {s : Slot} {n : NodeId}, f.entry.slot s = some n →
    ∃ sources, Feeds a.table b f s n sources ∧ g'.Supplied f.region n sources
  fresh : ∀ {p : NodeId} {op : Op}, g.nodes.size ≤ p → g'.op? p = some op →
    op = .phi ∧ b.start ≠ 0 ∧
      ∃ s n sources, Feeds a.table b f s n sources ∧ g'.Decides f.region n sources p

/-- What a predecessor has in a slot stands for a value. -/
theorem operand_of_exit (h : Assembled a.graph a.table bs) {c : Block} (hc : c ∈ bs)
    {f' : Fragment} (hf' : a.table c.start = some f') {s : Slot} {m : NodeId}
    (hm : f'.exit.slot s = some m) :
    ∃ op, a.graph.op? m = some op ∧ op.makesValue = true := by
  have hsound := (h.fragment_of_mem hc hf').sound
  cases s with
  | operand i => exact (hsound.stack (List.mem_of_getElem? hm)).operand
  | name x => exact (hsound.names hm).operand

/-- Control enters the first block from the start node. -/
theorem enters_first (h : Assembled a.graph a.table bs) (hext : a.graph.Extends Op.isOpen g)
    (hstart : g.start = a.graph.start) (hb : b ∈ bs) (hf : a.table b.start = some f)
    (hzero : b.start = 0) :
    Enters a b f g (g.addEdge (.control g.start f.region)) [.control g.start f.region] := by
  have hregion := hext.op_some (h.fragment_of_mem hb hf).region
  have hlt : g.start < g.nodes.size := by
    rw [hstart]
    exact Nat.lt_of_lt_of_le h.start_lt hext.size_le
  have hgrow := Graph.Grows.addEdge g (e := .control g.start f.region) hlt (Graph.op?_lt hregion)
  have hstartop : g.op? g.start = some .start := by
    rw [hstart, h.start.1]
    exact hext.op_some h.start.2
  have hspine : (g.addEdge (.control g.start f.region)).isSpine (.control g.start f.region) =
      true :=
    Graph.isSpine_of_op (hgrow.op_some hregion) (by simp) (by simp)
  refine ⟨hgrow, ?_, ?_, ?_, fun hne => absurd hzero hne, fun {p op} hp hop => ?_⟩
  · intro e he
    rw [List.mem_singleton.mp he]
    exact ⟨.start, .region, hgrow.op_some hstartop, hgrow.op_some hregion, rfl⟩
  · intro e he
    rw [List.mem_singleton.mp he]
    exact .inl rfl
  · rw [List.filter_cons_of_pos hspine, arriving, if_pos hzero, ← hstart, List.filter_nil]
  · have hplt := Graph.op?_lt hop
    rw [Graph.numNodes_addEdge] at hplt
    exact absurd hplt (Nat.not_lt.mpr hp)

/-- What is supplied are placeholders that wait for their sources, which are values. -/
theorem sources_of_feeds (h : Assembled a.graph a.table bs) (hl : Layout code bs)
    (hext : a.graph.Extends Op.isOpen g) (hb : b ∈ bs) (hf : a.table b.start = some f)
    (hne : b.start ≠ 0)
    (hwait : ∀ {s : Slot} {n : NodeId}, f.entry.slot s = some n → g.inputs n = [])
    {s : Slot} {n : NodeId} {sources : List NodeId} (hs : Feeds a.table b f s n sources) :
    (g.op? n = some .input ∧ g.inputs n = []) ∧ sources ≠ [] ∧
      ∀ k ∈ sources, ∃ op, g.op? k = some op ∧ op.makesValue = true := by
  have hop := (h.fragment_of_mem hb hf).op_of_slot hs.needs
  refine ⟨⟨hext.op_some hop, hwait hs.needs⟩, fun hnil => ?_, fun k hk => ?_⟩
  · have hlen := hs.sources.length_eq
    rw [hnil, List.length_nil, List.length_eq_zero_iff] at hlen
    exact hl.preds_ne_nil hb hne hlen
  · obtain ⟨p, hp, f', hf', hslot⟩ := exists_left_of_forall₂ hs.sources hk
    obtain ⟨c, hc, rfl, -⟩ := (hl.mem_preds hb).mp hp
    obtain ⟨op, hop, hval⟩ := operand_of_exit h hc hf' hslot
    exact ⟨op, hext.op_some hop, hval⟩

/-- The placeholders of another block are supplied. -/
theorem enters_supplied (h : Assembled a.graph a.table bs) (hl : Layout code bs)
    (hext : a.graph.Extends Op.isOpen g) (hb : b ∈ bs) (hf : a.table b.start = some f)
    (hne : b.start ≠ 0)
    (hwait : ∀ {s : Slot} {n : NodeId}, f.entry.slot s = some n → g.inputs n = [])
    {supplied : List (NodeId × List NodeId)} (hsupplied : a.suppliers b f = .ok supplied) :
    ∃ es, Enters a b f g
      (supplied.foldl (fun g (input, sources) => g.supplyPlaceholder f.region input sources) g)
        es := by
  have hm := h.fragment_of_mem hb hf
  have hfeeds := feeds_suppliers hsupplied
  have hnodup : (supplied.map (·.1)).Nodup :=
    nodup_map_of_forall₂ hfeeds f.nodup_slots fun {s s' q q'} hq hq' heq =>
      hm.sound.distinct (by rw [f.needs_state]; exact hq.needs)
        (by rw [f.needs_state, heq]; exact hq'.needs)
  have hsources : ∀ q ∈ supplied, (g.op? q.1 = some .input ∧ g.inputs q.1 = []) ∧ q.2 ≠ [] ∧
      ∀ k ∈ q.2, ∃ op, g.op? k = some op ∧ op.makesValue = true := by
    intro q hq
    obtain ⟨s, -, hs⟩ := exists_left_of_forall₂ hfeeds hq
    exact sources_of_feeds h hl hext hb hf hne hwait hs
  obtain ⟨es, hall⟩ := Graph.suppliesAll_foldl (hext.consistent h.consistent)
    (hext.op_some hm.region) hnodup hsources
  refine ⟨es, hall.grows, hall.typed, fun e he => ?_, ?_, fun _ s n hs => ?_,
    fun hp hop => ?_⟩
  · rcases hall.targets e he with ⟨q, hq, heq⟩ | hge
    · obtain ⟨s, -, hs⟩ := exists_left_of_forall₂ hfeeds hq
      exact .inr (.inl ⟨s, heq ▸ hs.needs⟩)
    · exact .inr (.inr hge)
  · rw [arriving, if_neg hne, List.filter_eq_nil_iff]
    intro e he
    rw [Bool.not_eq_true]
    refine Graph.not_isSpine ?_
    rcases hall.targets e he with ⟨q, hq, heq⟩ | hge
    · rw [heq]
      exact .inr (hall.grows.op_some (hsources q hq).1.1)
    · obtain ⟨-, t, -, ht, -⟩ := hall.typed e he
      exact .inl ((hall.fresh hge ht).1 ▸ ht)
  · obtain ⟨q, hq, hs'⟩ := exists_right_of_forall₂ hfeeds (Fragment.mem_slots hs)
    obtain rfl : n = q.1 := Option.some.inj (hs.symm.trans hs'.needs)
    exact ⟨q.2, hs', hall.supplied q hq⟩
  · obtain ⟨hphi, q, hq, hd⟩ := hall.fresh hp hop
    obtain ⟨s, -, hs⟩ := exists_left_of_forall₂ hfeeds hq
    exact ⟨hphi, hne, s, q.1, q.2, hs, hd⟩

theorem enters_joinEntry (h : Assembled a.graph a.table bs) (hl : Layout code bs)
    (hext : a.graph.Extends Op.isOpen g) (hstart : g.start = a.graph.start) (hb : b ∈ bs)
    (hf : a.table b.start = some f)
    (hwait : ∀ {s : Slot} {n : NodeId}, f.entry.slot s = some n → g.inputs n = [])
    (hok : a.joinEntry g b f = .ok g') : ∃ es, Enters a b f g g' es := by
  unfold joinEntry at hok
  split at hok
  · next hzero =>
    cases hok
    exact ⟨_, enters_first h hext hstart hb hf hzero⟩
  · next hne =>
    split at hok
    · cases hok
    · next supplied hsupplied =>
      cases hok
      exact enters_supplied h hl hext hb hf hne hwait hsupplied

theorem regionAt_of_mem (h : Assembled a.graph a.table bs) {c : Block} (hc : c ∈ bs) :
    a.graph.op? (a.regionAt c.start) = some .region := by
  obtain ⟨f', hf', hm⟩ := h.models hc
  rw [regionAt, hf']
  exact hm.region

/-- The edges out of a block may be there, and lead to regions or to the finish node. -/
theorem typed_leaving (h : Assembled a.graph a.table bs) (hl : Layout code bs)
    (hext : a.graph.Extends Op.isOpen g) (hb : b ∈ bs) (hf : a.table b.start = some f)
    (hbranch : 2 ≤ b.succs.length → g.op? f.controlEnd = some .branch) {e : Edge}
    (he : e ∈ a.leaving b f) :
    g.Typed e ∧ (a.graph.op? e.target = some .region ∨ a.graph.op? e.target = some .finish) := by
  have hm := h.fragment_of_mem hb hf
  obtain ⟨-, op, hop, hleft⟩ := hm.sound.control
  have hend : g.op? f.controlEnd = some op := hext.op_some hop
  have hfinish : a.graph.op? a.graph.finish = some .finish := by
    rw [h.finish.1]
    exact h.finish.2.1
  have hregion : ∀ t ∈ b.succs, a.graph.op? (a.regionAt t) = some .region := by
    intro t ht
    obtain ⟨c, hc, rfl⟩ := hl.succ b hb t ht
    exact regionAt_of_mem h hc
  unfold leaving at he
  split at he
  · rcases List.mem_cons.mp he with rfl | he
    · exact ⟨⟨op, .finish, hend, hext.op_some hfinish, by
        simp [Op.allows, Edge.control, hleft, Op.isEntered]⟩, .inr hfinish⟩
    · obtain ⟨n, hn, rfl⟩ := List.mem_map.mp he
      obtain ⟨hle, hlt⟩ := hm.latest n (by simpa using hn)
      obtain ⟨o, ho⟩ := Graph.op?_of_lt hlt
      have ho' : o ≠ .finish := by
        rintro rfl
        exact h.not_finish_of_le hb hf hle ho
      exact ⟨⟨o, .finish, hext.op_some ho, hext.op_some hfinish, by
        simp [Op.allows, Edge.value, ho']⟩, .inr hfinish⟩
  · next t hs =>
    have hr := hregion t (by simp [hs])
    rw [List.mem_singleton.mp he]
    exact ⟨⟨op, .region, hend, hext.op_some hr, by
      simp [Op.allows, Edge.control, hleft, Op.isEntered]⟩, .inl hr⟩
  · next t u hs =>
    have hb' := hbranch (by simp [hs])
    rcases List.mem_cons.mp he with rfl | he
    · have hr := hregion t (by simp [hs])
      exact ⟨⟨.branch, .region, hb', hext.op_some hr, rfl⟩, .inl hr⟩
    · have hr := hregion u (by simp [hs])
      rw [List.mem_singleton.mp he]
      exact ⟨⟨.branch, .region, hb', hext.op_some hr, rfl⟩, .inl hr⟩
  · cases he

/-- The graph `g` when the blocks `done` have been joined. -/
structure Joined (a : Assembly) (bs done : List Block) (g : Graph) : Prop where
  edges : ∃ es, a.graph.Grows g es ∧
    (∀ e ∈ es, g.Typed e ∧ ∀ {op : Op}, a.graph.op? e.target = some op → op.isOpen = true) ∧
    es.filter g.isSpine = done.flatMap a.spine
  supplied : ∀ {b : Block} {f : Fragment}, b ∈ done → b.start ≠ 0 → a.table b.start = some f →
    ∀ {s : Slot} {n : NodeId}, f.entry.slot s = some n →
      ∃ sources, Feeds a.table b f s n sources ∧ g.Supplied f.region n sources
  waiting : ∀ {b : Block} {f : Fragment}, b ∈ bs → b ∉ done → a.table b.start = some f →
    ∀ {s : Slot} {n : NodeId}, f.entry.slot s = some n → g.inputs n = []
  phis : ∀ {p : NodeId} {op : Op}, a.graph.nodes.size ≤ p → g.op? p = some op →
    op = .phi ∧ ∃ b ∈ done, b.start ≠ 0 ∧ ∃ f, a.table b.start = some f ∧
      ∃ s n sources, Feeds a.table b f s n sources ∧ g.Decides f.region n sources p
  fed : ∀ {n : NodeId}, g.op? n = some .input → g.inputs n ≠ [] →
    ∃ b ∈ done, ∃ f s, a.table b.start = some f ∧ f.entry.slot s = some n

theorem joined_nil (h : Assembled a.graph a.table bs) : Joined a bs [] a.graph where
  edges := ⟨[], .refl _, by simp, rfl⟩
  supplied h := by cases h
  waiting {b f} hb _ hf s n hs :=
    ((h.fragment_of_mem hb hf).sound.placeholder (by rw [f.needs_state]; exact hs)).2.2
  phis hp hop := absurd (Graph.op?_lt hop) (Nat.not_lt.mpr hp)
  fed hop hfed := absurd (h.vacant _ hop) hfed

theorem Joined.extends {done : List Block} (hj : Joined a bs done g) :
    a.graph.Extends Op.isOpen g := by
  obtain ⟨es, hgrow, hes, -⟩ := hj.edges
  exact ⟨es, hgrow, fun e he => (hes e he).2⟩

theorem isSpine_grow {h : Graph} {es : List Edge} {e : Edge} (hgrow : g.Grows h es)
    (he : e.target < g.nodes.size) : h.isSpine e = g.isSpine e := by
  simp only [Graph.isSpine, Graph.hasOp, hgrow.op he]

theorem filter_isSpine_grow {h : Graph} {es fs : List Edge} (hgrow : g.Grows h fs)
    (hes : ∀ e ∈ es, g.Typed e) : es.filter h.isSpine = es.filter g.isSpine :=
  List.filter_congr fun e he => by
    obtain ⟨-, t, -, ht, -⟩ := hes e he
    exact isSpine_grow hgrow (Graph.op?_lt ht)

/-- What joining one block adds to the graph. -/
structure JoinsBlock (a : Assembly) (b : Block) (f : Fragment) (g g' : Graph) (es : List Edge) :
    Prop where
  grows : g.Grows g' es
  typed : ∀ e ∈ es, g'.Typed e
  targets : ∀ e ∈ es, ((∃ s, f.entry.slot s = some e.target) ∨
    a.graph.op? e.target = some .region ∨ a.graph.op? e.target = some .finish) ∨
      g.nodes.size ≤ e.target
  spine : es.filter g'.isSpine = a.spine b
  supplied : b.start ≠ 0 → ∀ {s : Slot} {n : NodeId}, f.entry.slot s = some n →
    ∃ sources, Feeds a.table b f s n sources ∧ g'.Supplied f.region n sources
  fresh : ∀ {p : NodeId} {op : Op}, g.nodes.size ≤ p → g'.op? p = some op →
    op = .phi ∧ b.start ≠ 0 ∧
      ∃ s n sources, Feeds a.table b f s n sources ∧ g'.Decides f.region n sources p

theorem Enters.extends {es : List Edge} (hin : Enters a b f g g' es)
    (hext : a.graph.Extends Op.isOpen g) (hm : f.Models a.graph b) :
    a.graph.Extends Op.isOpen g' := by
  refine hext.trans ⟨es, hin.grows, fun e he op hop => ?_⟩
  rcases hin.targets e he with heq | ⟨s, hs⟩ | hge
  · rw [heq, hext.op_some hm.region] at hop
    exact Option.some.inj hop ▸ rfl
  · rw [hext.op_some (hm.op_of_slot hs)] at hop
    exact Option.some.inj hop ▸ rfl
  · exact absurd (Graph.op?_lt hop) (Nat.not_lt.mpr hge)

/-- The edges out of a block touch neither placeholders nor phis. -/
theorem Enters.leave {es : List Edge} (hin : Enters a b f g g' es)
    (h : Assembled a.graph a.table bs) (hext : a.graph.Extends Op.isOpen g') (hb : b ∈ bs)
    (hf : a.table b.start = some f)
    (htyped : ∀ e ∈ a.leaving b f, g'.Typed e ∧
      (a.graph.op? e.target = some .region ∨ a.graph.op? e.target = some .finish)) :
    JoinsBlock a b f g (g'.addEdges (a.leaving b f)) (es ++ a.leaving b f) := by
  have hm := h.fragment_of_mem hb hf
  have hg' := hext.consistent h.consistent
  have hgrow : g'.Grows (g'.addEdges (a.leaving b f)) (a.leaving b f) := by
    refine .addEdges g' fun e he => ?_
    obtain ⟨⟨s, t, hs, ht, -⟩, -⟩ := htyped e he
    exact ⟨Graph.op?_lt hs, Graph.op?_lt ht⟩
  have hinto : Graph.GrowsInto
      (fun t => a.graph.op? t = some .region ∨ a.graph.op? t = some .finish) g' _ :=
    ⟨_, hgrow, fun e he => .inl (htyped e he).2⟩
  have hnot : ∀ {n : NodeId}, a.graph.op? n = some .input →
      ¬ (a.graph.op? n = some .region ∨ a.graph.op? n = some .finish) := by
    intro n hn
    simp [hn]
  have hphi : ∀ {p : NodeId}, g'.op? p = some .phi →
      ¬ (a.graph.op? p = some .region ∨ a.graph.op? p = some .finish) := by
    rintro p hp (hr | hr) <;> rw [hext.op_some hr] at hp <;> cases hp
  have hlt : ∀ {s : Slot} {n : NodeId}, f.entry.slot s = some n → n < g'.nodes.size := fun hs =>
    Graph.op?_lt (hext.op_some (hm.op_of_slot hs))
  refine ⟨hin.grows.trans hgrow, fun e he => ?_, fun e he => ?_, ?_, ?_, ?_⟩
  · rcases List.mem_append.mp he with he | he
    · exact (hin.typed e he).grow hgrow
    · exact (htyped e he).1.grow hgrow
  · rcases List.mem_append.mp he with he | he
    · rcases hin.targets e he with heq | hs | hge
      · exact .inl (.inr (.inl (heq ▸ hm.region)))
      · exact .inl (.inl hs)
      · exact .inr hge
    · exact .inl (.inr (htyped e he).2)
  · have hall : (a.leaving b f).filter (g'.addEdges (a.leaving b f)).isSpine = a.leaving b f := by
      refine List.filter_eq_self.mpr fun e he => ?_
      rcases (htyped e he).2 with hr | hr
      · exact Graph.isSpine_of_op (hgrow.op_some (hext.op_some hr)) (by simp) (by simp)
      · exact Graph.isSpine_of_op (hgrow.op_some (hext.op_some hr)) (by simp) (by simp)
    rw [List.filter_append, filter_isSpine_grow hgrow hin.typed, hin.spine, hall, Assembly.spine,
      hf]
  · intro hne s n hs
    obtain ⟨sources, hfeeds, hsup⟩ := hin.supplied hne hs
    exact ⟨sources, hfeeds, hsup.grow hinto hg' (hlt hs) (hnot (hm.op_of_slot hs)) hphi⟩
  · intro p op hp hop
    have hop' : g'.op? p = some op := by
      rw [← hop]
      exact (Graph.op?_congr (Graph.label?_addEdges _ _ _)).symm
    obtain ⟨hphi', hne, s, n, sources, hfeeds, hd⟩ := hin.fresh hp hop'
    have hs := hfeeds.needs
    exact ⟨hphi', hne, s, n, sources, hfeeds,
      hd.grow hinto hg' (hlt hs) (hnot (hm.op_of_slot hs)) hphi⟩

theorem joinsBlock_joinBlock (h : Assembled a.graph a.table bs) (hl : Layout code bs)
    (hext : a.graph.Extends Op.isOpen g) (hstart : g.start = a.graph.start)
    (hfinish : g.finish = a.graph.finish) (hb : b ∈ bs) (hf : a.table b.start = some f)
    (hwait : ∀ {s : Slot} {n : NodeId}, f.entry.slot s = some n → g.inputs n = [])
    (hok : a.joinBlock g b = .ok g') : ∃ es, JoinsBlock a b f g g' es := by
  have hf' : a.fragments[b.start]? = some f := hf
  unfold joinBlock at hok
  rw [hf'] at hok
  simp only at hok
  split at hok
  · cases hok
  next g₁ hentry =>
  split at hok
  · cases hok
  next xs hexits =>
  cases hok
  obtain ⟨es, hin⟩ := enters_joinEntry h hl hext hstart hb hf hwait hentry
  have hext₁ := hin.extends hext (h.fragment_of_mem hb hf)
  have hsucc : ∀ t ∈ b.succs, ∃ f', a.table t = some f' := by
    intro t ht
    obtain ⟨c, hc, rfl⟩ := hl.succ b hb t ht
    obtain ⟨f', hf', -⟩ := h.models hc
    exact ⟨f', hf'⟩
  obtain ⟨rfl, hbranch⟩ := leaving_of_exits (hin.grows.finish.trans hfinish) hsucc hexits
  exact ⟨_, hin.leave h hext₁ hb hf fun e he => typed_leaving h hl hext₁ hb hf hbranch he⟩

/-- The old nodes that may get edges when a block is joined. -/
def Touched (a : Assembly) (f : Fragment) (t : NodeId) : Prop :=
  (∃ s, f.entry.slot s = some t) ∨ a.graph.op? t = some .region ∨ a.graph.op? t = some .finish

theorem Touched.op {t : NodeId} (ht : Touched a f t) (hm : f.Models a.graph b) :
    ∃ op, a.graph.op? t = some op ∧ op.isOpen = true := by
  rcases ht with ⟨s, hs⟩ | hr | hr
  · exact ⟨_, hm.op_of_slot hs, rfl⟩
  · exact ⟨_, hr, rfl⟩
  · exact ⟨_, hr, rfl⟩

theorem Touched.not_phi {t : NodeId} (ht : Touched a f t) (hm : f.Models a.graph b)
    (hext : a.graph.Extends Op.isOpen g) : g.op? t ≠ some .phi := by
  obtain ⟨op, hop, hopen⟩ := ht.op hm
  rw [hext.op_some hop]
  rintro heq
  rw [Option.some.inj heq] at hopen
  cases hopen

/-- A placeholder that gets an edge when a block is joined is one of the block. -/
theorem Touched.exists_slot {t : NodeId} (ht : Touched a f t)
    (hop : a.graph.op? t = some .input) : ∃ s, f.entry.slot s = some t := by
  rcases ht with hs | hr | hr
  · exact hs
  · rw [hop] at hr
    cases hr
  · rw [hop] at hr
    cases hr

/-- Joining a block touches no placeholder of another. -/
theorem not_touched (h : Assembled a.graph a.table bs) (hb : b ∈ bs) (hf : a.table b.start = some f)
    {c : Block} {f' : Fragment} (hc : c ∈ bs) (hne : c ≠ b) (hf' : a.table c.start = some f')
    {s : Slot} {n : NodeId} (hs : f'.entry.slot s = some n) : ¬ Touched a f n := by
  intro ht
  obtain ⟨s', hs'⟩ := ht.exists_slot ((h.fragment_of_mem hc hf').op_of_slot hs)
  rw [← Fragment.needs_state] at hs hs'
  exact (h.apart hc hb hf' hf hne).2.2 hs hs'

/-- Joining one more block leaves what the earlier ones were given as it is. -/
theorem Joined.append {done : List Block} {es' : List Edge} (hj : Joined a bs done g)
    (h : Assembled a.graph a.table bs) (hb : b ∈ bs) (hf : a.table b.start = some f)
    (hdone : ∀ c ∈ done, c ∈ bs) (hnew : b ∉ done) (hjoin : JoinsBlock a b f g g' es') :
    Joined a bs (done ++ [b]) g' := by
  have hm := h.fragment_of_mem hb hf
  have hext := hj.extends
  obtain ⟨es, hgrow, hes, hspine⟩ := hj.edges
  have hg := hgrow.consistent h.consistent
  have hinto : Graph.GrowsInto (Touched a f) g g' := ⟨es', hjoin.grows, hjoin.targets⟩
  have hphi : ∀ {p : NodeId}, g.op? p = some .phi → ¬ Touched a f p := fun hp ht =>
    ht.not_phi hm hext hp
  have hlt : ∀ {c : Block} {f' : Fragment}, c ∈ bs → a.table c.start = some f' →
      ∀ {s : Slot} {n : NodeId}, f'.entry.slot s = some n → n < g.nodes.size := fun hc hf' _ _ hs =>
    Graph.op?_lt (hext.op_some ((h.fragment_of_mem hc hf').op_of_slot hs))
  have hne : ∀ {c : Block}, c ∈ done → c ≠ b := fun hc heq => hnew (heq ▸ hc)
  refine ⟨⟨es ++ es', hgrow.trans hjoin.grows, fun e he => ?_, ?_⟩, ?_, ?_, ?_, ?_⟩
  · rcases List.mem_append.mp he with he | he
    · exact ⟨(hes e he).1.grow hjoin.grows, (hes e he).2⟩
    · refine ⟨hjoin.typed e he, fun {op} hop => ?_⟩
      rcases hjoin.targets e he with ht | hge
      · obtain ⟨op', hop', hopen⟩ := Touched.op ht hm
        exact Option.some.inj (hop.symm.trans hop') ▸ hopen
      · exact absurd (Graph.op?_lt (hext.op_some hop)) (Nat.not_lt.mpr hge)
  · rw [List.filter_append, filter_isSpine_grow hjoin.grows fun e he => (hes e he).1, hspine,
      hjoin.spine]
    simp
  · intro c f' hc hstart hf' s n hs
    rcases List.mem_append.mp hc with hc | hc
    · obtain ⟨sources, hfeeds, hsup⟩ := hj.supplied hc hstart hf' hs
      have hout := not_touched h hb hf (hdone c hc) (hne hc) hf' hs
      exact ⟨sources, hfeeds, hsup.grow hinto hg (hlt (hdone c hc) hf' hs) hout hphi⟩
    · obtain rfl := List.mem_singleton.mp hc
      obtain rfl : f = f' := Option.some.inj (hf.symm.trans hf')
      exact hjoin.supplied hstart hs
  · intro c f' hc hnot hf' s n hs
    rw [List.mem_append, List.mem_singleton, not_or] at hnot
    have hout := not_touched h hb hf hc hnot.2 hf' hs
    exact (hinto.inputs hg (hlt hc hf' hs) hout).trans (hj.waiting hc hnot.1 hf' hs)
  · intro p op hp hop
    by_cases hold : p < g.nodes.size
    · rw [hjoin.grows.op hold] at hop
      obtain ⟨hop', c, hc, hstart, f', hf', s, n, sources, hfeeds, hd⟩ := hj.phis hp hop
      have hout := not_touched h hb hf (hdone c hc) (hne hc) hf' hfeeds.needs
      exact ⟨hop', c, List.mem_append_left _ hc, hstart, f', hf', s, n, sources, hfeeds,
        hd.grow hinto hg (hlt (hdone c hc) hf' hfeeds.needs) hout hphi⟩
    · obtain ⟨hop', hstart, s, n, sources, hfeeds, hd⟩ := hjoin.fresh (Nat.not_lt.mp hold) hop
      exact ⟨hop', b, by simp, hstart, f, hf, s, n, sources, hfeeds, hd⟩
  · -- an edge into an old placeholder is there already, or it is one of this block
    intro n hop hfed
    have hold : n < g.nodes.size := by
      by_contra hge
      cases (hjoin.fresh (Nat.not_lt.mp hge) hop).1
    rw [hjoin.grows.op hold] at hop
    by_cases hnone : g.inputs n = []
    · rw [hjoin.grows.inputs hg, hnone, List.nil_append] at hfed
      obtain ⟨e, he⟩ := List.exists_mem_of_ne_nil _ hfed
      obtain ⟨he, htarget⟩ := List.mem_filter.mp he
      rw [beq_iff_eq] at htarget
      rcases hjoin.targets e he with ht | hge
      · rw [htarget] at ht
        obtain ⟨op, hop', -⟩ := Touched.op ht hm
        rw [hext.op_some hop'] at hop
        obtain ⟨s, hs⟩ := Touched.exists_slot ht (hop'.trans hop)
        exact ⟨b, by simp, f, s, hf, hs⟩
      · exact absurd hold (Nat.not_lt.mpr (htarget ▸ hge))
    · obtain ⟨c, hc, f', s, hf', hs⟩ := hj.fed hop hnone
      exact ⟨c, List.mem_append_left _ hc, f', s, hf', hs⟩

theorem Joined.joinBlocks (h : Assembled a.graph a.table bs) (hl : Layout code bs)
    {rest done : List Block} (hj : Joined a bs done g) (hbs : bs = done ++ rest)
    (hok : a.joinBlocks rest g = .ok g') : Joined a bs bs g' := by
  induction rest generalizing done g with
  | nil =>
    cases hok
    rw [List.append_nil] at hbs
    exact hbs ▸ hj
  | cons b rest ih =>
    unfold Assembly.joinBlocks at hok
    split at hok
    · cases hok
    next g₁ hblock =>
    have hb : b ∈ bs := by simp [hbs]
    have hdone : ∀ c ∈ done, c ∈ bs := fun c hc => by simp [hbs, hc]
    have hnodup : (done ++ b :: rest).Nodup := hbs ▸ hl.nodup.of_map
    have hnew : b ∉ done := fun hc => by
      rw [List.nodup_append] at hnodup
      exact hnodup.2.2 b hc b List.mem_cons_self rfl
    obtain ⟨f, hf, -⟩ := h.models hb
    obtain ⟨es, hgrow, -, -⟩ := hj.edges
    obtain ⟨es', hjoin⟩ := joinsBlock_joinBlock h hl hj.extends hgrow.start hgrow.finish hb hf
      (hj.waiting hb hnew hf) hblock
    exact ih (hj.append h hb hf hdone hnew hjoin) (by simp [hbs]) hok

/-- All blocks of a method joined. -/
theorem joined_joinBlocks (h : Assembled a.graph a.table bs) (hl : Layout code bs)
    (hok : a.joinBlocks bs a.graph = .ok g) : Joined a bs bs g :=
  (joined_nil h).joinBlocks h hl rfl hok

end Blocks

end Assembly

end StackJit
