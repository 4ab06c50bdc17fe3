import StackJit.Proofs.Dominance

/-!
# Control leads everywhere

From the start node of the graph of a method control leads to every node that it passes, since every
block is reached from the first one (`Translation.leads_entered`). So it does in a rewritten graph,
for the nodes that are left (`Graph.Rewrites.leads_old`), and a traversal of that graph finds them
all.
-/

namespace StackJit

namespace Graph

variable {g : Graph} {n : NodeId}

theorem Leads.exists_path (hg : g.Consistent) (h : g.Leads g.start n) {i : EdgeId} {e : Edge}
    (he : (i, e) ∈ g.exits n) : ∃ l, g.Path l i := by
  induction h generalizing i e with
  | refl => exact ⟨_, .start he⟩
  | step _ hj ih =>
    obtain ⟨l, hl⟩ := ih hj
    exact ⟨_, hl.step (hg.mem_exits.mp hj).1 he⟩

theorem Path.leads (hg : g.Consistent) {l : List (NodeId × Role)} {i : EdgeId} {e : Edge}
    (h : g.Path l i) (hi : g.edge? i = some e) : g.Leads g.start e.target := by
  induction h generalizing e with
  | start he =>
    obtain ⟨hi', -⟩ := hg.mem_exits.mp he
    obtain rfl := Option.some.inj (hi'.symm.trans hi)
    exact .step .refl he
  | step _ hj he ih =>
    obtain ⟨hi', -⟩ := hg.mem_exits.mp he
    obtain rfl := Option.some.inj (hi'.symm.trans hi)
    exact .step (ih hj) he

/-- A traversal finds the nodes that control leads to. -/
theorem Leads.mem_reachable (hg : g.Consistent) (hroot : g.root < g.nodes.size)
    (h : g.Leads g.root n) : n ∈ g.reachable := by
  rw [reachable, Search.mem_order]
  induction h with
  | refl => exact .root hroot
  | @step y i e _ he ih =>
    obtain ⟨hi, hsource, -⟩ := hg.mem_exits.mp he
    refine ih.step ?_ (hg.ends hi).2
    refine List.mem_flatMap.mpr ⟨e, List.mem_append_right _ ?_, by simp⟩
    exact hg.mem_outputs.mpr ⟨hsource, i, hi⟩

end Graph

namespace Translation

variable {code : Code} {g : Graph} {t : Translation code g} {b d : Block} {f fd : Fragment}

/-- Control leaves a block for each of its successors. -/
theorem Has.leads_succ (hf : t.Has b f) (hfd : t.Has d fd) (hsucc : d.start ∈ b.succs) :
    g.Leads f.controlEnd fd.region := by
  rw [← hfd.regionAt]
  have hexit : ∀ {e : Edge}, e ∈ t.parts.leaving b f → e.isControl = true →
      g.Leads f.controlEnd e.target := by
    intro e he hctl
    obtain ⟨i, hi⟩ := hf.exists_exit he hctl
    exact .step .refl hi
  match hs : b.succs, length_succs_le hf.mem with
  | [], _ => simp [hs] at hsucc
  | [s], _ =>
    rw [hs, List.mem_singleton] at hsucc
    rw [hsucc]
    exact hexit (leaving_of_one hs ▸ List.mem_cons_self) rfl
  | [s, u], _ =>
    rw [hs, List.mem_cons, List.mem_singleton] at hsucc
    rcases hsucc with hsucc | hsucc
    · rw [hsucc]
      exact hexit (leaving_of_two hs ▸ List.mem_cons_self) rfl
    · rw [hsucc]
      exact hexit (leaving_of_two hs ▸ List.mem_cons_of_mem _ List.mem_cons_self) rfl

/-- Joining the fragments keeps where control leads. -/
theorem leads_of_parts (t : Translation code g) {x y : NodeId} (h : t.parts.graph.Leads x y) :
    g.Leads x y := by
  obtain ⟨es, hgrow, -⟩ := t.joined.edges
  exact h.grow hgrow t.assembled.consistent

theorem leads_region (t : Translation code g) (hf : t.Has b f) : g.Leads g.start f.region := by
  have hall := t.layout.reach (fun b => ∀ f, t.Has b f → g.Leads g.start f.region)
    (fun b _ hstart f hf => ?_) (fun a ha iha b _ hsucc f hf => ?_) b hf.mem
  · exact hall f hf
  · have hmem : Edge.control 0 f.region ∈ (g.exits 0).map (·.2) := by
      rw [hf.exits_start hstart]
      exact List.mem_cons_self
    obtain ⟨⟨i, e⟩, he, heq⟩ := List.mem_map.mp hmem
    obtain rfl : e = .control 0 f.region := heq
    rw [t.start_eq.1]
    exact .step .refl he
  · obtain ⟨fa, hfa⟩ := t.exists_has ha
    have hinner := t.leads_of_parts hfa.models.leads
    exact ((iha fa hfa).trans hinner).trans (hfa.leads_succ hf hsucc)

theorem leads_entered (t : Translation code g) {n : NodeId} {op : Op} (hop : g.op? n = some op)
    (hcase : op = .region ∨ op.isChained = true) : g.Leads g.start n := by
  rcases hcase with rfl | hchained
  · obtain ⟨b, f, hf, rfl⟩ := t.has_of_region hop
    exact t.leads_region hf
  · have hlt : n < t.parts.graph.nodes.size := by
      by_contra hge
      rw [(t.joined.phis (Nat.le_of_not_lt hge) hop).1] at hchained
      cases hchained
    rw [t.extends_parts.op_of_lt hlt] at hop
    obtain ⟨b, hb, f, hf, hleads⟩ := t.assembled.led hop hchained
    exact (t.leads_region ⟨hb, hf⟩).trans (t.leads_of_parts hleads)

/-- A node that control passes within a block is the node of an instruction. -/
theorem exists_instr (t : Translation code g) {n : NodeId} {op : Op} (hop : g.op? n = some op)
    (hchained : op.isChained = true) :
    ∃ b ∈ t.blocks, ∃ k < b.live.length, (t.context b k).control < (t.context b (k + 1)).control ∧
      n = (t.context b (k + 1)).control := by
  have hregion : ∀ {d : Block} {fd : Fragment}, t.Has d fd → n ≠ fd.region := by
    rintro d fd hfd rfl
    rw [hfd.region_op] at hop
    cases hop
    cases hchained
  cases t.leads_entered hop (.inr hchained) with
  | refl =>
    rw [t.start_eq.1, t.start_eq.2] at hop
    cases hop
    cases hchained
  | @step y i e hy he =>
    obtain ⟨l, hpath⟩ := hy.exists_path t.consistent he
    cases t.arrival_of_path hpath (t.consistent.mem_exits.mp he).1 with
    | first hf _ heq => exact absurd heq (hregion hf)
    | inner hcovers hk hnew heq => exact ⟨_, hcovers.mem, _, hk, hnew, heq⟩
    | enter _ hf _ heq => exact absurd heq (hregion hf)
    | finish heq =>
      rw [heq, t.finish_eq.1, t.finish_eq.2] at hop
      cases hop
      cases hchained

end Translation

namespace Graph.Rewrites

variable {code : Code} {g c : Graph} {moves : Moves} {n : NodeId}

/-- Control leads to every node that is left of those that it passed. -/
theorem leads_old (h : g.Rewrites c moves) (t : Translation code g) {op : Op}
    (hop : g.op? n = some op) (hcase : op = .region ∨ op.isChained = true) (hlive : ¬ c.Gone n) :
    c.Leads c.start n := by
  obtain ⟨hstart, hstartlive⟩ := h.start_live t
  -- the last node of both graphs that control has left on its way to `n`
  obtain ⟨l, x, ρ, hvisits, hcomes⟩ : ∃ l x ρ, g.Visits c.Gone l x ρ ∧ g.Comes c.Gone x ρ n := by
    cases t.leads_entered hop hcase with
    | refl =>
      rw [t.start_eq.1, t.start_eq.2] at hop
      obtain rfl := Option.some.inj hop
      simp [Op.isChained] at hcase
    | @step y i e hy he =>
      obtain ⟨l, hpath⟩ := hy.exists_path t.consistent he
      obtain ⟨x, ρ, hvisits, harrives⟩ := hpath.visits hstartlive
      exact ⟨_, x, ρ, hvisits, i, e, harrives, (t.consistent.mem_exits.mp he).1, rfl, hlive⟩
  obtain ⟨hx, hxlive⟩ := h.visits_live t hvisits
  obtain ⟨i, e, harrives, hi, rfl, -⟩ := (h.comes_iff t hx hxlive).mpr hcomes
  have hvisits' := (h.visits_iff t).mpr hvisits
  obtain ⟨l', hpath, -⟩ := hvisits'.exists_path (h.start_eq ▸ Nat.not_le.mpr hstart) harrives
  exact hpath.leads h.descends.consistent hi

theorem root_eq_start (h : g.Rewrites c moves) (t : Translation code g) : c.root = c.start := by
  rw [h.root_eq t, h.start_eq, t.start_eq.1]

theorem mem_reachable_of_leads (h : g.Rewrites c moves) (t : Translation code g)
    (hn : c.Leads c.start n) : n ∈ c.reachable := by
  refine Leads.mem_reachable h.descends.consistent ?_ (h.root_eq_start t ▸ hn)
  rw [h.root_eq t]
  exact Nat.lt_of_lt_of_le (op?_lt t.start_eq.2) h.descends.size

end Graph.Rewrites

end StackJit
