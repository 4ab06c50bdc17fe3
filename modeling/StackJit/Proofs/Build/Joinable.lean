import StackJit.Proofs.Build.Join
import StackJit.Proofs.Build.Rounds

/-!
# Joining does not fail

Where the predecessors of each block have what the block inherits, the fragments can be joined:
every placeholder finds its sources, and what leads two ways is a branch.

Main statement: `Assembly.exists_joinBlocks`.
-/

namespace StackJit

/-- A block that ends in a branch leaves control at it. -/
theorem Fragment.Models.op_controlEnd {f : Fragment} {g : Graph} {b : Block} (hm : f.Models g b)
    {t : Nat} (hlast : b.live.getLast? = some (.branch t)) :
    g.op? f.controlEnd = some .branch := by
  obtain ⟨ctx, htrace, -⟩ := hm.trace_entry
  rw [List.getLast?_eq_getElem?] at hlast
  have hpos : b.live.length - 1 + 1 = b.live.length := by
    have := (List.getElem?_eq_some_iff.mp hlast).1
    omega
  have hstep := htrace.step hlast
  rw [hpos, htrace.last] at hstep
  generalize hexit : f.exit = s at hstep
  have hcontrol : f.controlEnd = s.control := by rw [← hexit]; rfl
  rw [hcontrol]
  cases hstep with
  | branch top label inputs after => exact Graph.op?_of_label? label

namespace Assembly

variable {code : Code} {bs : List Block} {a : Assembly} {b : Block} {f f' : Fragment} {g : Graph}
  {p : Nat}

theorem exists_localFrom {x : String} (hf' : a.table p = some f') (hx : x ∈ f'.finalNames) :
    ∃ m, a.localFrom b x p = .ok m := by
  have hf : a.fragments[p]? = some f' := hf'
  rw [Std.TreeMap.mem_iff_isSome_getElem?, Option.isSome_iff_exists] at hx
  obtain ⟨m, hm⟩ := hx
  refine ⟨m, ?_⟩
  simp only [localFrom, hf, Option.bind_some, hm]

theorem exists_operandFrom {depth index : Nat} (hf' : a.table p = some f')
    (hdepth : depth ≤ f'.finalStack.length) (hindex : index < depth) :
    ∃ m, a.operandFrom b depth index p = .ok m := by
  have hf : a.fragments[p]? = some f' := hf'
  have hlt : f'.finalStack.length - depth + index < f'.finalStack.length := by omega
  refine ⟨f'.finalStack[f'.finalStack.length - depth + index], ?_⟩
  simp only [operandFrom, hf, Option.bind_some, if_pos hdepth, List.getElem?_eq_getElem hlt]

/-- The suppliers of a block, with projections in place of patterns. -/
theorem suppliers_eq (a : Assembly) (b : Block) (f : Fragment) : a.suppliers b f = (do
    let names ← f.neededNames.toList.mapM fun p => do
      return (p.2, ← b.preds.mapM (a.localFrom b p.1))
    let operands ← f.neededStack.zipIdx.mapM fun p => do
      return (p.1, ← b.preds.mapM (a.operandFrom b f.neededStack.length p.2))
    return names ++ operands) :=
  rfl

theorem exists_suppliers (h : Assembled a.graph a.table bs) (hl : Layout code bs) (hb : b ∈ bs)
    (hstart : b.start ≠ 0) (hprovided : Provided a.table b) (hf : a.table b.start = some f) :
    ∃ l, a.suppliers b f = .ok l := by
  have hpred : ∀ p ∈ b.preds, ∃ f', a.table p = some f' ∧
      (∀ x ∈ f.neededNames.keys, x ∈ f'.finalNames) ∧
        f.neededStack.length ≤ f'.finalStack.length := by
    intro p hp
    obtain ⟨c, hc, rfl, -⟩ := (hl.mem_preds hb).mp hp
    obtain ⟨f', hf', -⟩ := h.models hc
    exact ⟨f', hf', hprovided hstart hf c.start hp hf'⟩
  obtain ⟨names, hnames⟩ : ∃ names, f.neededNames.toList.mapM (fun p => do
      return (p.2, ← b.preds.mapM (a.localFrom b p.1))) = .ok names := by
    apply exists_mapM
    rintro ⟨x, input⟩ hx
    have hkey : x ∈ f.neededNames.keys :=
      Std.TreeMap.mem_keys.mpr (Std.TreeMap.mem_iff_isSome_getElem?.mpr
        (by rw [Std.TreeMap.mem_toList_iff_getElem?_eq_some.mp hx]; rfl))
    obtain ⟨sources, hsources⟩ : ∃ sources, b.preds.mapM (a.localFrom b x) = .ok sources := by
      apply exists_mapM
      intro p hp
      obtain ⟨f', hf', hknown, -⟩ := hpred p hp
      exact exists_localFrom hf' (hknown x hkey)
    exact ⟨(input, sources), by simp only [hsources]; rfl⟩
  obtain ⟨operands, hoperands⟩ : ∃ operands, f.neededStack.zipIdx.mapM (fun p => do
      return (p.1, ← b.preds.mapM (a.operandFrom b f.neededStack.length p.2))) =
        .ok operands := by
    apply exists_mapM
    rintro ⟨input, index⟩ hx
    have hindex : index < f.neededStack.length :=
      (List.getElem?_eq_some_iff.mp (List.mem_zipIdx_iff_getElem?.mp hx)).1
    obtain ⟨sources, hsources⟩ : ∃ sources,
        b.preds.mapM (a.operandFrom b f.neededStack.length index) = .ok sources := by
      apply exists_mapM
      intro p hp
      obtain ⟨f', hf', -, hdepth⟩ := hpred p hp
      exact exists_operandFrom hf' hdepth hindex
    exact ⟨(input, sources), by simp only [hsources]; rfl⟩
  refine ⟨names ++ operands, ?_⟩
  rw [suppliers_eq, hnames, hoperands]
  rfl

theorem exists_joinEntry (h : Assembled a.graph a.table bs) (hl : Layout code bs) (hb : b ∈ bs)
    (hprovided : Provided a.table b) (hf : a.table b.start = some f) :
    ∃ g', a.joinEntry g b f = .ok g' := by
  unfold joinEntry
  split
  · exact ⟨_, rfl⟩
  · next hstart =>
    obtain ⟨l, hl⟩ := exists_suppliers h hl hb hstart hprovided hf
    rw [hl]
    exact ⟨_, rfl⟩

theorem exists_exits (hl : Layout code bs) (hb : b ∈ bs) (hm : f.Models a.graph b)
    (hop : ∀ {n : NodeId} {op : Op}, a.graph.op? n = some op → g.op? n = some op) :
    ∃ es, a.exits g b f = .ok es := by
  unfold exits
  rcases (hl.fits b hb).succs_cases with hs | ⟨s, hs⟩ | ⟨s, u, t, hs, hlast⟩
  · rw [hs]
    exact ⟨_, rfl⟩
  · rw [hs]
    exact ⟨_, rfl⟩
  · have hbranch := Graph.hasOp_iff.mpr (hop (hm.op_controlEnd hlast))
    rw [hs]
    exact ⟨_, if_pos hbranch⟩

theorem exists_joinBlock (h : Assembled a.graph a.table bs) (hl : Layout code bs)
    (hext : a.graph.Extends Op.isOpen g) (hstart : g.start = a.graph.start) (hb : b ∈ bs)
    (hf : a.table b.start = some f) (hprovided : Provided a.table b)
    (hwait : ∀ {s : Slot} {n : NodeId}, f.entry.slot s = some n → g.inputs n = []) :
    ∃ g', a.joinBlock g b = .ok g' := by
  have hf' : a.fragments[b.start]? = some f := hf
  obtain ⟨g₁, hentry⟩ := exists_joinEntry (g := g) h hl hb hprovided hf
  obtain ⟨es, hin⟩ := enters_joinEntry h hl hext hstart hb hf hwait hentry
  obtain ⟨edges, hedges⟩ := exists_exits hl hb (h.fragment_of_mem hb hf)
    fun hop => hin.grows.op_some (hext.op_some hop)
  exact ⟨g₁.addEdges edges, by simp only [joinBlock, hf', hentry, hedges]⟩

theorem Joined.exists_joinBlocks (h : Assembled a.graph a.table bs) (hl : Layout code bs)
    (hprovided : ∀ b ∈ bs, Provided a.table b) {rest done : List Block} (hj : Joined a bs done g)
    (hbs : bs = done ++ rest) : ∃ g', a.joinBlocks rest g = .ok g' := by
  induction rest generalizing done g with
  | nil => exact ⟨g, rfl⟩
  | cons b rest ih =>
    have hb : b ∈ bs := by simp [hbs]
    have hdone : ∀ c ∈ done, c ∈ bs := fun c hc => by simp [hbs, hc]
    have hnew : b ∉ done := by
      have hnodup : (done ++ b :: rest).Nodup := hbs ▸ hl.nodup.of_map
      rw [List.nodup_append] at hnodup
      exact fun hc => hnodup.2.2 b hc b List.mem_cons_self rfl
    obtain ⟨f, hf, -⟩ := h.models hb
    obtain ⟨es, hgrow, -, -⟩ := hj.edges
    obtain ⟨g₁, hblock⟩ := exists_joinBlock h hl hj.extends hgrow.start hb hf (hprovided b hb)
      (hj.waiting hb hnew hf)
    obtain ⟨es', hjoin⟩ := joinsBlock_joinBlock h hl hj.extends hgrow.start hgrow.finish hb hf
      (hj.waiting hb hnew hf) hblock
    obtain ⟨g', hg'⟩ := ih (hj.append h hb hf hdone hnew hjoin) (by simp [hbs])
    exact ⟨g', by simp only [Assembly.joinBlocks, hblock, hg']⟩

/-- Fragments that inherit what their predecessors have can be joined. -/
theorem exists_joinBlocks (h : Assembled a.graph a.table bs) (hl : Layout code bs)
    (hprovided : ∀ b ∈ bs, Provided a.table b) : ∃ g, a.joinBlocks bs a.graph = .ok g :=
  (joined_nil h).exists_joinBlocks h hl hprovided rfl

end Assembly

end StackJit
