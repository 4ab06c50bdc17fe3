import Mathlib.Data.List.Forall2
import Mathlib.Data.List.Nodup
import StackJit.Build.Method
import StackJit.Proofs.Build.Assembled

/-!
# Supplying placeholders

`Assembly.suppliers` finds, for each slot that a block inherits, what its predecessors have there,
one node for each predecessor (`Assembly.Feeds`). `Graph.supplyPlaceholder` connects the placeholder
to the only one of these nodes or to a phi of them (`Graph.Supplied`).
-/

namespace StackJit

theorem forall₂_of_mapM {ε α β : Type} {f : α → Except ε β} {R : α → β → Prop} {xs : List α}
    {ys : List β} (h : xs.mapM f = .ok ys) (hR : ∀ x ∈ xs, ∀ {y : β}, f x = .ok y → R x y) :
    List.Forall₂ R xs ys := by
  induction xs generalizing ys with
  | nil =>
    obtain rfl : [] = ys := Except.ok.inj h
    exact .nil
  | cons x xs ih =>
    rw [List.mapM_cons] at h
    cases hx : f x with
    | error e =>
      rw [hx] at h
      cases h
    | ok y =>
      cases hxs : xs.mapM f with
      | error e =>
        rw [hx, hxs] at h
        cases h
      | ok ys' =>
        rw [hx, hxs] at h
        obtain rfl : y :: ys' = ys := Except.ok.inj h
        exact .cons (hR x List.mem_cons_self hx)
          (ih hxs fun x' hx' => hR x' (List.mem_cons_of_mem x hx'))

theorem exists_mapM {ε α β : Type} {f : α → Except ε β} {xs : List α}
    (h : ∀ x ∈ xs, ∃ y, f x = .ok y) : ∃ ys, xs.mapM f = .ok ys := by
  induction xs with
  | nil => exact ⟨[], rfl⟩
  | cons x xs ih =>
    obtain ⟨y, hy⟩ := h x List.mem_cons_self
    obtain ⟨ys, hys⟩ := ih fun x' hx' => h x' (List.mem_cons_of_mem x hx')
    exact ⟨y :: ys, by rw [List.mapM_cons, hy, hys]; rfl⟩

section Forall₂

variable {α β : Type} {R : α → β → Prop} {xs : List α} {ys : List β}

theorem exists_left_of_forall₂ (h : List.Forall₂ R xs ys) {y : β} (hy : y ∈ ys) :
    ∃ x ∈ xs, R x y := by
  induction h with
  | nil => cases hy
  | @cons x y' xs ys hxy _ ih =>
    rcases List.mem_cons.mp hy with rfl | hy
    · exact ⟨x, List.mem_cons_self, hxy⟩
    · obtain ⟨x', hx', hR⟩ := ih hy
      exact ⟨x', List.mem_cons_of_mem x hx', hR⟩

theorem exists_right_of_forall₂ (h : List.Forall₂ R xs ys) {x : α} (hx : x ∈ xs) :
    ∃ y ∈ ys, R x y := by
  obtain ⟨y, hy, hR⟩ := exists_left_of_forall₂ h.flip hx
  exact ⟨y, hy, hR⟩

/-- If related values have related keys, keys that differ belong to values that differ. -/
theorem nodup_map_of_forall₂ {γ : Type} {u : β → γ} (h : List.Forall₂ R xs ys) (hxs : xs.Nodup)
    (hR : ∀ {x x' : α} {y y' : β}, R x y → R x' y' → u y = u y' → x = x') :
    (ys.map u).Nodup := by
  induction h with
  | nil => exact List.nodup_nil
  | @cons x y xs ys hxy hrest ih =>
    obtain ⟨hx, hxs⟩ := List.nodup_cons.mp hxs
    refine List.nodup_cons.mpr ⟨fun hmem => ?_, ih hxs⟩
    obtain ⟨y', hy', heq⟩ := List.mem_map.mp hmem
    obtain ⟨x', hx', hxy'⟩ := exists_left_of_forall₂ hrest hy'
    exact hx (hR hxy hxy' heq.symm ▸ hx')

end Forall₂

namespace Fragment

/-- What is known where the block is entered, if it inherits just what it needs. -/
def entry (f : Fragment) : Context := ⟨f.neededStack.reverse, fun x => f.neededNames[x]?, f.region⟩

/-- What is known where the block is left. -/
def exit (f : Fragment) : Context := ⟨f.finalStack.reverse, fun x => f.finalNames[x]?, f.controlEnd⟩

theorem needs_state (f : Fragment) (g : Graph) (a : Slot) :
    (f.state g).needs a = f.entry.slot a := by
  cases a <;> rfl

theorem within_entry (f : Fragment) (g : Graph) :
    (f.state g).Within f.entry.stack f.entry.names :=
  ⟨List.prefix_refl _, id⟩

theorem Models.op_of_slot {f : Fragment} {g : Graph} {b : Block} (hm : f.Models g b) {s : Slot}
    {n : NodeId} (hs : f.entry.slot s = some n) : g.op? n = some .input :=
  (hm.sound.placeholder ((f.needs_state g s).trans hs)).2.1

theorem Models.context_exit {f : Fragment} {g : Graph} {b : Block} (hm : f.Models g b) :
    (f.state g).context f.entry.stack f.entry.names = f.exit := by
  simp only [Lowering.context, exit, Context.mk.injEq]
  refine ⟨by simp [state, entry], ?_, rfl⟩
  funext x
  cases hx : f.finalNames[x]? with
  | some n => simp [state, hx]
  | none =>
    have hneeds := hm.sound.needs_none (x := x) hx
    simp only [state, hx, Option.none_or]
    exact hneeds

/-- The contexts of the block's instructions, from its entry to its exit. -/
theorem Models.trace_entry {f : Fragment} {g : Graph} {b : Block} (hm : f.Models g b) :
    ∃ ctx, Context.Trace g b.start b.live f.entry f.exit ctx ∧
      f.latest = Context.latest b.live ctx := by
  rw [← hm.context_exit]
  exact hm.trace (f.within_entry g)

end Fragment

/-- The slots that a block inherits, in the order in which they are supplied. -/
def Fragment.slots (f : Fragment) : List Slot :=
  f.neededNames.toList.map (fun q => .name q.1) ++
    f.neededStack.zipIdx.map fun q => .operand (f.neededStack.length - 1 - q.2)

theorem Fragment.nodup_slots (f : Fragment) : f.slots.Nodup := by
  have hnames : f.neededNames.toList.map (fun q => Slot.name q.1) =
      f.neededNames.keys.map Slot.name := by
    rw [← Std.TreeMap.map_fst_toList_eq_keys, List.map_map]
    rfl
  have hstack : (f.neededStack.zipIdx.map fun q => Slot.operand (f.neededStack.length - 1 - q.2)) =
      (List.range f.neededStack.length).map
        fun i => Slot.operand (f.neededStack.length - 1 - i) := by
    rw [List.range_eq_range', ← List.zipIdx_map_snd, List.map_map]
    rfl
  rw [slots, hnames, hstack, List.nodup_append]
  refine ⟨f.neededNames.nodup_keys.map fun _ _ h => Slot.name.inj h, ?_, ?_⟩
  · refine List.nodup_range.map_on fun i hi j hj hij => ?_
    have := Slot.operand.inj hij
    rw [List.mem_range] at hi hj
    omega
  · intro a ha b hb hab
    obtain ⟨x, -, rfl⟩ := List.mem_map.mp ha
    obtain ⟨i, -, rfl⟩ := List.mem_map.mp hb
    cases hab

theorem Fragment.mem_slots {f : Fragment} {s : Slot} {n : NodeId} (h : f.entry.slot s = some n) :
    s ∈ f.slots := by
  rw [slots, List.mem_append]
  cases s with
  | name x =>
    have hmem := Std.TreeMap.mem_toList_iff_getElem?_eq_some.mpr h
    exact .inl (List.mem_map.mpr ⟨(x, n), hmem, rfl⟩)
  | operand i =>
    have h' : f.neededStack.reverse[i]? = some n := h
    have hi : i < f.neededStack.length := by
      simpa using (List.getElem?_eq_some_iff.mp h').1
    rw [List.getElem?_reverse hi] at h'
    refine .inr (List.mem_map.mpr ⟨(n, f.neededStack.length - 1 - i),
      List.mem_zipIdx_iff_getElem?.mpr h', ?_⟩)
    simp only [Slot.operand.injEq]
    omega

namespace Assembly

/-- The block `b` inherits the slot `s` as `n`, and its predecessors have `sources` there. -/
structure Feeds (F : Nat → Option Fragment) (b : Block) (f : Fragment) (s : Slot) (n : NodeId)
    (sources : List NodeId) : Prop where
  needs : f.entry.slot s = some n
  sources : List.Forall₂ (fun p m => ∃ f', F p = some f' ∧ f'.exit.slot s = some m) b.preds sources

theorem slot_of_localFrom {a : Assembly} {b : Block} {x : String} {p : Nat} {m : NodeId}
    (h : a.localFrom b x p = .ok m) :
    ∃ f', a.table p = some f' ∧ f'.exit.slot (.name x) = some m := by
  unfold localFrom at h
  split at h
  · next node hnode =>
    cases h
    exact Option.bind_eq_some_iff.mp hnode
  · cases h

/-- Operands are matched from the top of the stack. -/
theorem slot_of_operandFrom {a : Assembly} {b : Block} {depth index p : Nat} {m : NodeId}
    (hindex : index < depth) (h : a.operandFrom b depth index p = .ok m) :
    ∃ f', a.table p = some f' ∧ f'.exit.slot (.operand (depth - 1 - index)) = some m := by
  unfold operandFrom at h
  split at h
  · next node hnode =>
    cases h
    obtain ⟨f', hf', hm⟩ := Option.bind_eq_some_iff.mp hnode
    refine ⟨f', hf', ?_⟩
    split at hm
    · next hdepth =>
      change f'.finalStack.reverse[depth - 1 - index]? = some m
      rw [List.getElem?_reverse (by omega), ← hm]
      congr 1
      omega
    · cases hm
  · cases h

theorem ok_of_bind {ε α β : Type} {x : Except ε α} {k : α → Except ε β} {z : β}
    (h : (x >>= k) = .ok z) : ∃ y, x = .ok y ∧ k y = .ok z := by
  cases x with
  | error e => cases h
  | ok y => exact ⟨y, rfl, h⟩

theorem feeds_suppliers {a : Assembly} {b : Block} {f : Fragment} {l : List (NodeId × List NodeId)}
    (h : a.suppliers b f = .ok l) :
    List.Forall₂ (fun s q => Feeds a.table b f s q.1 q.2) f.slots l := by
  unfold suppliers at h
  obtain ⟨names, hnames, h⟩ := ok_of_bind h
  obtain ⟨operands, hoperands, h⟩ := ok_of_bind h
  obtain rfl : names ++ operands = l := Except.ok.inj h
  refine List.rel_append (List.forall₂_map_left_iff.mpr ?_) (List.forall₂_map_left_iff.mpr ?_)
  · refine forall₂_of_mapM hnames fun q hq y hy => ?_
    obtain ⟨sources, hsources, hy⟩ := ok_of_bind hy
    obtain rfl : (q.2, sources) = y := Except.ok.inj hy
    exact ⟨Std.TreeMap.mem_toList_iff_getElem?_eq_some.mp hq,
      forall₂_of_mapM hsources fun p _ m hm => slot_of_localFrom hm⟩
  · refine forall₂_of_mapM hoperands fun q hq y hy => ?_
    obtain ⟨sources, hsources, hy⟩ := ok_of_bind hy
    obtain rfl : (q.1, sources) = y := Except.ok.inj hy
    have hnode := List.mem_zipIdx_iff_getElem?.mp hq
    have hindex : q.2 < f.neededStack.length := (List.getElem?_eq_some_iff.mp hnode).1
    refine ⟨?_, forall₂_of_mapM hsources fun p _ m hm => slot_of_operandFrom hindex hm⟩
    change f.neededStack.reverse[f.neededStack.length - 1 - q.2]? = some q.1
    rw [List.getElem?_reverse (by omega), ← hnode]
    congr 1
    omega

end Assembly

namespace Graph

/-- The phi `p` chooses among `sources` for the placeholder `n`, by the way control entered
`region`. -/
structure Decides (g : Graph) (region n : NodeId) (sources : List NodeId) (p : NodeId) : Prop where
  several : 2 ≤ sources.length
  op : g.op? p = some .phi
  choices : g.inputs p = .control region p :: sources.map fun m => .value m p .value
  inputs : g.inputs n = [.value p n .value]

/-- The placeholder `n` stands for the only one of `sources`, or for a phi of them. -/
inductive Supplied (g : Graph) (region n : NodeId) (sources : List NodeId) : Prop where
  | direct {m : NodeId} (only : sources = [m]) (inputs : g.inputs n = [.value m n .value])
  | phi {p : NodeId} (decides : g.Decides region n sources p)

/-- `h` is `g` with new nodes and with new edges into them and into the nodes of `T`. -/
def GrowsInto (T : NodeId → Prop) (g h : Graph) : Prop :=
  ∃ es, g.Grows h es ∧ ∀ e ∈ es, T e.target ∨ g.nodes.size ≤ e.target

theorem GrowsInto.inputs {T : NodeId → Prop} {g h : Graph} (hgrow : GrowsInto T g h)
    (hg : g.Consistent) {n : NodeId} (hn : n < g.nodes.size) (hT : ¬ T n) :
    h.inputs n = g.inputs n := by
  obtain ⟨es, hgrow, hes⟩ := hgrow
  refine hgrow.inputs_of_not_target hg n fun e he hen => ?_
  rcases hes e he with ht | hge
  · exact hT (hen ▸ ht)
  · exact absurd hn (Nat.not_lt.mpr (hen ▸ hge))

section Grow

variable {T : NodeId → Prop} {g h : Graph} {region n : NodeId} {sources : List NodeId}

theorem Decides.grow {p : NodeId} (hd : g.Decides region n sources p) (hgrow : GrowsInto T g h)
    (hg : g.Consistent) (hn : n < g.nodes.size) (hT : ¬ T n)
    (hphi : ∀ {p : NodeId}, g.op? p = some .phi → ¬ T p) : h.Decides region n sources p := by
  have hp := hgrow.inputs hg (op?_lt hd.op) (hphi hd.op)
  have hin := hgrow.inputs hg hn hT
  obtain ⟨es, hes, -⟩ := hgrow
  exact ⟨hd.several, hes.op_some hd.op, hp.trans hd.choices, hin.trans hd.inputs⟩

theorem Supplied.grow (hs : g.Supplied region n sources) (hgrow : GrowsInto T g h)
    (hg : g.Consistent) (hn : n < g.nodes.size) (hT : ¬ T n)
    (hphi : ∀ {p : NodeId}, g.op? p = some .phi → ¬ T p) : h.Supplied region n sources := by
  cases hs with
  | direct only inputs => exact .direct only ((hgrow.inputs hg hn hT).trans inputs)
  | phi decides => exact .phi (decides.grow hgrow hg hn hT hphi)

end Grow

/-- What connecting a placeholder adds to the graph. -/
structure Supplies (g h : Graph) (region n : NodeId) (sources : List NodeId) (es : List Edge) :
    Prop where
  grows : g.Grows h es
  targets : ∀ e ∈ es, e.target = n ∨ g.nodes.size ≤ e.target
  typed : ∀ e ∈ es, h.Typed e
  control : ∀ e ∈ es, e.isControl = true → h.op? e.target = some .phi
  supplied : h.Supplied region n sources
  fresh : ∀ {p : NodeId} {op : Op}, g.nodes.size ≤ p → h.op? p = some op →
    op = .phi ∧ h.Decides region n sources p

/-- The edges of a phi `p` for `n`. -/
def phiEdges (region n p : NodeId) (sources : List NodeId) : List Edge :=
  .control region p :: (sources.map (fun m => .value m p .value) ++ [.value p n .value])

theorem supplyPlaceholder_of_two (g : Graph) (region n m m' : NodeId) (rest : List NodeId) :
    g.supplyPlaceholder region n (m :: m' :: rest) =
      (g.addNode .phi []).addEdges (phiEdges region n g.nodes.size (m :: m' :: rest)) := by
  simp only [supplyPlaceholder, phiEdges, addEdges, List.foldl_cons, List.foldl_append,
    List.foldl_nil, freshNode]

theorem mem_phiEdges {region n p : NodeId} {sources : List NodeId} {e : Edge} :
    e ∈ phiEdges region n p sources ↔ e = .control region p ∨
      (∃ k ∈ sources, e = .value k p .value) ∨ e = .value p n .value := by
  simp only [phiEdges, List.mem_cons, List.mem_append, List.mem_map, List.not_mem_nil, or_false,
    eq_comm]

/-- A phi and its edges are put in between nodes that are there. -/
theorem grows_phi (g : Graph) {region n : NodeId} {sources : List NodeId}
    (hregion : region < g.nodes.size) (hn : n < g.nodes.size)
    (hsources : ∀ k ∈ sources, k < g.nodes.size) :
    g.Grows ((g.addNode .phi []).addEdges (phiEdges region n g.nodes.size sources))
      (phiEdges region n g.nodes.size sources) := by
  refine (Grows.addNode g .phi []).trans (.addEdges _ fun e he => ?_)
  rw [numNodes_addNode]
  rcases mem_phiEdges.mp he with rfl | ⟨k, hk, rfl⟩ | rfl
  · exact ⟨Nat.lt_succ_of_lt hregion, Nat.lt_succ_self _⟩
  · exact ⟨Nat.lt_succ_of_lt (hsources k hk), Nat.lt_succ_self _⟩
  · exact ⟨Nat.lt_succ_self _, Nat.lt_succ_of_lt hn⟩

theorem supplies_direct {g : Graph} (hg : g.Consistent) {region n m : NodeId} {op : Op}
    (hn : g.op? n = some .input) (hin : g.inputs n = []) (hm : g.op? m = some op)
    (hval : op.makesValue = true) :
    Supplies g (g.supplyPlaceholder region n [m]) region n [m] [.value m n .value] := by
  have hgrow : g.Grows (g.supplyPlaceholder region n [m]) [.value m n .value] :=
    .addEdge g (op?_lt hm) (op?_lt hn)
  refine ⟨hgrow, ?_, ?_, ?_, ?_, ?_⟩
  · intro e he
    rw [List.mem_singleton.mp he]
    exact .inl rfl
  · intro e he
    rw [List.mem_singleton.mp he]
    exact ⟨op, .input, hgrow.op_some hm, hgrow.op_some hn, by simp [Op.allows, Edge.value, hval]⟩
  · intro e he hctl
    rw [List.mem_singleton.mp he] at hctl
    cases hctl
  · refine .direct rfl ?_
    rw [hgrow.inputs hg, hin]
    simp [Edge.value]
  · intro p o hp ho
    have hlt : p < g.nodes.size := by
      have := op?_lt ho
      rwa [supplyPlaceholder, numNodes_addEdge] at this
    exact absurd hlt (Nat.not_lt.mpr hp)

theorem supplies_phi {g : Graph} (hg : g.Consistent) {region n m m' : NodeId} {rest : List NodeId}
    (hregion : g.op? region = some .region) (hn : g.op? n = some .input) (hin : g.inputs n = [])
    (hsources : ∀ k ∈ m :: m' :: rest, ∃ op, g.op? k = some op ∧ op.makesValue = true) :
    Supplies g (g.supplyPlaceholder region n (m :: m' :: rest)) region n (m :: m' :: rest)
      (phiEdges region n g.nodes.size (m :: m' :: rest)) := by
  rw [supplyPlaceholder_of_two]
  generalize hs : m :: m' :: rest = sources at hsources ⊢
  have hnlt := op?_lt hn
  have hgrow := grows_phi g (op?_lt hregion) hnlt fun k hk =>
    (hsources k hk).elim fun _ hop => op?_lt hop.1
  have hphi : ((g.addNode .phi []).addEdges (phiEdges region n g.nodes.size sources)).op?
      g.nodes.size = some .phi :=
    (op?_congr (label?_addEdges _ _ _)).trans (Lowering.op?_addNode_fresh g .phi [])
  have hne : n ≠ g.nodes.size := Nat.ne_of_lt hnlt
  have hdecides : ((g.addNode .phi []).addEdges (phiEdges region n g.nodes.size sources)).Decides
      region n sources g.nodes.size := by
    refine ⟨by simp [← hs], hphi, ?_, ?_⟩
    · rw [hgrow.inputs hg, hg.inputs_of_ge (Nat.le_refl _), List.nil_append]
      have hall : (sources.map fun k => Edge.value k g.nodes.size .value).filter
          (·.target == g.nodes.size) = sources.map fun k => Edge.value k g.nodes.size .value := by
        refine List.filter_eq_self.mpr fun e he => ?_
        obtain ⟨k, -, rfl⟩ := List.mem_map.mp he
        simp [Edge.value]
      rw [phiEdges, List.filter_cons_of_pos (by simp [Edge.control]), List.filter_append, hall,
        List.filter_cons_of_neg (by simpa [Edge.value] using hne), List.filter_nil, List.append_nil]
    · have hnone : (sources.map fun k => Edge.value k g.nodes.size .value).filter
          (·.target == n) = [] := by
        refine List.filter_eq_nil_iff.mpr fun e he => ?_
        obtain ⟨k, -, rfl⟩ := List.mem_map.mp he
        simpa [Edge.value] using Ne.symm hne
      rw [hgrow.inputs hg, hin, phiEdges,
        List.filter_cons_of_neg (by simpa [Edge.control] using Ne.symm hne), List.filter_append,
        hnone]
      simp [Edge.value]
  refine ⟨hgrow, fun e he => ?_, fun e he => ?_, fun e he hctl => ?_, .phi hdecides, ?_⟩
  · rcases mem_phiEdges.mp he with rfl | ⟨k, hk, rfl⟩ | rfl
    · exact .inr (Nat.le_refl _)
    · exact .inr (Nat.le_refl _)
    · exact .inl rfl
  · rcases mem_phiEdges.mp he with rfl | ⟨k, hk, rfl⟩ | rfl
    · exact ⟨.region, .phi, hgrow.op_some hregion, hphi, rfl⟩
    · obtain ⟨op, hop, hval⟩ := hsources k hk
      exact ⟨op, .phi, hgrow.op_some hop, hphi, by simp [Op.allows, Edge.value, hval]⟩
    · exact ⟨.phi, .input, hphi, hgrow.op_some hn, rfl⟩
  · rcases mem_phiEdges.mp he with rfl | ⟨k, hk, rfl⟩ | rfl
    · exact hphi
    · cases hctl
    · cases hctl
  · intro p op hp hop
    have hlt := op?_lt hop
    rw [numNodes_addEdges, numNodes_addNode] at hlt
    obtain rfl : p = g.nodes.size := Nat.le_antisymm (Nat.le_of_lt_succ hlt) hp
    rw [hphi] at hop
    exact ⟨(Option.some.inj hop).symm, hdecides⟩

theorem supplies_supplyPlaceholder {g : Graph} (hg : g.Consistent) {region n : NodeId}
    {sources : List NodeId} (hregion : g.op? region = some .region) (hn : g.op? n = some .input)
    (hin : g.inputs n = []) (hne : sources ≠ [])
    (hsources : ∀ k ∈ sources, ∃ op, g.op? k = some op ∧ op.makesValue = true) :
    ∃ es, Supplies g (g.supplyPlaceholder region n sources) region n sources es := by
  match sources, hne with
  | [m], _ =>
    obtain ⟨op, hop, hval⟩ := hsources m List.mem_cons_self
    exact ⟨_, supplies_direct hg hn hin hop hval⟩
  | m :: m' :: rest, _ => exact ⟨_, supplies_phi hg hregion hn hin hsources⟩

/-- What connecting several placeholders adds to the graph. -/
structure SuppliesAll (g h : Graph) (region : NodeId) (l : List (NodeId × List NodeId))
    (es : List Edge) : Prop where
  grows : g.Grows h es
  targets : ∀ e ∈ es, (∃ q ∈ l, e.target = q.1) ∨ g.nodes.size ≤ e.target
  typed : ∀ e ∈ es, h.Typed e
  control : ∀ e ∈ es, e.isControl = true → h.op? e.target = some .phi
  supplied : ∀ q ∈ l, h.Supplied region q.1 q.2
  fresh : ∀ {p : NodeId} {op : Op}, g.nodes.size ≤ p → h.op? p = some op →
    op = .phi ∧ ∃ q ∈ l, h.Decides region q.1 q.2 p

theorem suppliesAll_foldl {g : Graph} (hg : g.Consistent) {region : NodeId}
    (hregion : g.op? region = some .region) {l : List (NodeId × List NodeId)}
    (hnodup : (l.map (·.1)).Nodup)
    (hl : ∀ q ∈ l, (g.op? q.1 = some .input ∧ g.inputs q.1 = []) ∧ q.2 ≠ [] ∧
      ∀ k ∈ q.2, ∃ op, g.op? k = some op ∧ op.makesValue = true) :
    ∃ es, SuppliesAll g (l.foldl (fun g q => g.supplyPlaceholder region q.1 q.2) g)
      region l es := by
  induction l generalizing g with
  | nil =>
    refine ⟨[], .refl g, by simp, by simp, by simp, by simp, fun hp hop => ?_⟩
    exact absurd (op?_lt hop) (Nat.not_lt.mpr hp)
  | cons q l ih =>
    obtain ⟨hq, hnodup⟩ := List.nodup_cons.mp hnodup
    obtain ⟨⟨hop, hin⟩, hne, hsources⟩ := hl q List.mem_cons_self
    obtain ⟨es₁, h₁⟩ := supplies_supplyPlaceholder hg hregion hop hin hne hsources
    have hg₁ := h₁.grows.consistent hg
    have hout : ∀ q' ∈ l, q'.1 ≠ q.1 := fun q' hq' heq => hq (by
      change q.1 ∈ l.map (·.1)
      rw [← heq]
      exact List.mem_map_of_mem hq')
    obtain ⟨es₂, h₂⟩ := ih hg₁ (h₁.grows.op_some hregion) hnodup fun q' hq' => by
      obtain ⟨⟨hop', hin'⟩, hne', hsources'⟩ := hl q' (List.mem_cons_of_mem q hq')
      refine ⟨⟨h₁.grows.op_some hop', ?_⟩, hne', fun k hk => ?_⟩
      · have hinto : GrowsInto (· = q.1) g _ := ⟨es₁, h₁.grows, h₁.targets⟩
        exact (hinto.inputs hg (op?_lt hop') (hout q' hq')).trans hin'
      · obtain ⟨op, hk, hval⟩ := hsources' k hk
        exact ⟨op, h₁.grows.op_some hk, hval⟩
    -- what is supplied first stays as it is
    have hinto : GrowsInto (fun t => ∃ q' ∈ l, t = q'.1) _ _ := ⟨es₂, h₂.grows, h₂.targets⟩
    have hlt : q.1 < (g.supplyPlaceholder region q.1 q.2).nodes.size :=
      op?_lt (h₁.grows.op_some hop)
    have hT : ¬ ∃ q' ∈ l, q.1 = q'.1 := fun ⟨q', hq', heq⟩ => hout q' hq' heq.symm
    have hphi : ∀ {p : NodeId}, (g.supplyPlaceholder region q.1 q.2).op? p = some .phi →
        ¬ ∃ q' ∈ l, p = q'.1 := by
      rintro p hp ⟨q', hq', rfl⟩
      have hop' := h₁.grows.op_some (hl q' (List.mem_cons_of_mem q hq')).1.1
      rw [hop'] at hp
      cases hp
    refine ⟨es₁ ++ es₂, h₁.grows.trans h₂.grows, fun e he => ?_, fun e he => ?_,
      fun e he hctl => ?_, fun q' hq' => ?_, fun {p op} hp hop => ?_⟩
    · rcases List.mem_append.mp he with he | he
      · exact (h₁.targets e he).imp (fun h => ⟨q, List.mem_cons_self, h⟩) id
      · rcases h₂.targets e he with ⟨q', hq', h⟩ | h
        · exact .inl ⟨q', List.mem_cons_of_mem q hq', h⟩
        · exact .inr (Nat.le_trans h₁.grows.size_le h)
    · rcases List.mem_append.mp he with he | he
      · exact (h₁.typed e he).grow h₂.grows
      · exact h₂.typed e he
    · rcases List.mem_append.mp he with he | he
      · exact h₂.grows.op_some (h₁.control e he hctl)
      · exact h₂.control e he hctl
    · rcases List.mem_cons.mp hq' with rfl | hq'
      · exact h₁.supplied.grow hinto hg₁ hlt hT hphi
      · exact h₂.supplied q' hq'
    · by_cases hp' : p < (g.supplyPlaceholder region q.1 q.2).nodes.size
      · have hop₁ : (g.supplyPlaceholder region q.1 q.2).op? p = some op := by
          rw [← h₂.grows.op hp']
          exact hop
        obtain ⟨hphi', hd⟩ := h₁.fresh hp hop₁
        exact ⟨hphi', q, List.mem_cons_self, hd.grow hinto hg₁ hlt hT hphi⟩
      · obtain ⟨hphi', q', hq', hd⟩ := h₂.fresh (Nat.not_lt.mp hp') hop
        exact ⟨hphi', q', List.mem_cons_of_mem q hq', hd⟩

end Graph

end StackJit
