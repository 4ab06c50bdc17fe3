import StackJit.Pass.Guards
import StackJit.Proofs.Rewrite.Values

/-!
# Graphs that passes make

`Graph.Rewrites g c moves` says that passes made `c` from the graph `g` of a method and forwarded
`moves` on the way: control runs as in `g`, operands are those of `g` after the forwardings, and the
rest is as `Graph.Tidy` says. Each change that a pass makes keeps that: forwarding a node
(`Rewrites.forward`), removing a node without uses (`Rewrites.erase`), leading control past a node
(`Rewrites.bypass`), and putting a safepoint or a guard onto a control edge (`Rewrites.safepoint`,
`Rewrites.guard`). None of them moves a guard away from its send, or lets the two have different
receivers (`KeepsGuards`), and only the last puts in a guard (`SameGuards`).
-/

namespace StackJit

namespace Graph

/-! ## What the edits leave alone -/

/-- The guard `w` stands right before the send `s` and checks its receiver. -/
structure Watches (c : Graph) (w s : NodeId) : Prop where
  op : c.op? s = some .send
  next : ∀ p ∈ c.exits w, p.2.target = s
  receiver : ∃ r ∈ c.valueSources s, c.operands w = [.value r w .receiver]

/-- Phis are decided by what decides them in `g`, nothing leaves the finish node, and guards stand
before sends. -/
structure Tidy (g c : Graph) : Prop where
  decided : ∀ {p : NodeId}, g.op? p = some .phi → ¬ c.Gone p → c.enters p = g.enters p
  final : ∀ {i : EdgeId} {e : Edge}, c.edge? i = some e → e.source ≠ g.finish
  watching : ∀ {w : NodeId}, c.op? w = some .guard → ∃ s, c.Watches w s

/-- In `c'` the guards of `c` still lead to their sends, and the operands of both are those of `c`
after the same forwardings. -/
structure KeepsGuards (c c' : Graph) : Prop where
  size : c.nodes.size ≤ c'.nodes.size
  label : ∀ {n : NodeId}, n < c.nodes.size → c'.label? n = c.label? n
  next : ∀ {w s : NodeId}, c.op? w = some .guard → c.op? s = some .send →
    (∀ p ∈ c.exits w, p.2.target = s) → ∀ p ∈ c'.exits w, p.2.target = s
  operands : ∃ moves, ∀ {n : NodeId} {op : Op}, c.op? n = some op → op = .guard ∨ op = .send →
    c'.operands n = requeueAll moves (c.operands n)

/-- The guards of `c` are in place in `c'`, and there are no others. -/
structure SameGuards (c c' : Graph) : Prop extends KeepsGuards c c' where
  guards : ∀ {w : NodeId}, c'.op? w = some .guard → c.op? w = some .guard

/-- The nodes and edges of `c` came from those of `g` by the passes, which forwarded `moves`. -/
structure Rewrites (g c : Graph) (moves : Moves) : Prop where
  descends : g.Descends c
  threads : g.Threads c
  forwards : g.Forwards c moves
  tidy : g.Tidy c

end Graph

namespace Translation

variable {code : Code} {g : Graph}

theorem descends (t : Translation code g) : g.Descends g where
  consistent := t.consistent
  size := Nat.le_refl _
  label _ := rfl
  marks := rfl
  ends _ := ⟨t.whole _, t.whole _⟩

theorem threads (t : Translation code g) : g.Threads g where
  control he hctl := (t.typed he).control_input hctl
  exits _ _ := .refl _
  enters _ _ _ := rfl
  inserted hnew hn := absurd hn (Nat.not_lt.mpr hnew)
  kept _ _ := t.not_gone _
  merges _ hgone := absurd hgone (t.not_gone _)
  follows {x ρ j e} _ _ h hj _ := by
    cases h with
    | exit he hrole => exact ⟨j, e, .exit he hrole, hj, rfl⟩
    | pass _ _ hgone _ => exact absurd hgone (t.not_gone _)

theorem tidy (t : Translation code g) : g.Tidy g where
  decided _ _ := rfl
  final {i e} he hsource := by
    obtain ⟨o, u, ho, -, hallow⟩ := t.typed he
    obtain rfl : o = .finish := by
      rw [hsource, t.finish_eq.1, t.finish_eq.2] at ho
      exact (Option.some.inj ho).symm
    cases hin : e.input <;> cases hout : e.output <;> rw [hin, hout] at hallow <;>
      simp [Op.allows, Op.isLeft, Op.makesValue] at hallow
  watching {w} hop := by
    rcases t.ops hop with ⟨-, h⟩ | ⟨-, h⟩ | h | h | h | h <;> cases h

/-- The graph of a method before any pass. -/
theorem rewrites (t : Translation code g) : g.Rewrites g [] :=
  ⟨t.descends, t.threads, .refl t, t.tidy⟩

/-- Control leaves every node that it can leave. -/
theorem exits_ne_nil (t : Translation code g) {n : NodeId} {op : Op} (hop : g.op? n = some op)
    (hleft : op.isLeft = true) (hstart : op ≠ .start) : g.exits n ≠ [] := by
  by_cases hbranch : op = .branch
  · subst hbranch
    rcases t.exits_cases hop rfl with rfl | ⟨b, f, hb, rfl⟩ | ⟨e, he, -⟩
    · cases t.start_eq.2.symm.trans hop
    · match hs : b.succs, length_succs_le hb.mem with
      | [], _ =>
        obtain ⟨i, hi⟩ := hb.exists_exit
          (show Edge.control f.controlEnd t.parts.graph.finish ∈ t.parts.leaving b f by
            simp [Assembly.leaving, hs]) rfl
        exact List.ne_nil_of_mem hi
      | [s], _ =>
        obtain ⟨i, hi⟩ := hb.exists_exit (leaving_of_one hs ▸ List.mem_cons_self) rfl
        exact List.ne_nil_of_mem hi
      | [s, u], _ =>
        obtain ⟨i, hi⟩ := hb.exists_exit (leaving_of_two hs ▸ List.mem_cons_self) rfl
        exact List.ne_nil_of_mem hi
    · intro hnil
      rw [hnil] at he
      cases he
  · obtain ⟨e, he, -⟩ := t.exits_single hop hleft hstart hbranch
    intro hnil
    rw [hnil] at he
    cases he

/-- Control enters every region. -/
theorem enters_ne_nil (t : Translation code g) {n : NodeId} (hop : g.op? n = some .region) :
    g.enters n ≠ [] := by
  obtain ⟨b, f, hf, rfl⟩ := t.has_of_region hop
  by_cases hstart : b.start = 0
  · have hmem : Edge.control 0 f.region ∈ (g.exits 0).map (·.2) := by
      rw [hf.exits_start hstart]
      exact List.mem_singleton_self _
    obtain ⟨p, hp, heq⟩ := List.mem_map.mp hmem
    obtain ⟨hi, -, hctl, -⟩ := t.consistent.mem_exits.mp hp
    exact List.ne_nil_of_mem (t.consistent.mem_enters.mpr ⟨hi, congrArg Edge.target heq, hctl⟩)
  · intro hnil
    have hlen := (hf.inputs_region hstart).length_eq
    rw [← hf.enters_region hstart, hnil] at hlen
    exact t.layout.preds_ne_nil hf.mem hstart (List.length_eq_zero_iff.mp hlen)

end Translation

namespace Graph

/-! ## Guards and their sends -/

theorem requeue_singleton (old new r n : NodeId) (role : Role) :
    requeue old new [.value r n role] = [.value (substitute old new r) n role] := by
  by_cases h : r = old
  · simp [requeue, substitute, h, Edge.value]
  · simp [requeue, substitute, h, Edge.value]

theorem requeueAll_singleton (moves : Moves) (r n : NodeId) (role : Role) :
    requeueAll moves [.value r n role] = [.value (follow moves r) n role] := by
  induction moves using List.reverseRecOn with
  | nil => rfl
  | append_singleton moves mv ih => rw [requeueAll_concat, follow_concat, ih, requeue_singleton]

namespace KeepsGuards

variable {c d e : Graph} {w s : NodeId}

theorem refl (c : Graph) : c.KeepsGuards c where
  size := Nat.le_refl _
  label _ := rfl
  next _ _ h := h
  operands := ⟨[], fun _ _ => rfl⟩

theorem op (h : c.KeepsGuards d) {n : NodeId} {op : Op} (hop : c.op? n = some op) :
    d.op? n = some op :=
  (op?_congr (h.label (op?_lt hop))).trans hop

theorem trans (h : c.KeepsGuards d) (h' : d.KeepsGuards e) : c.KeepsGuards e where
  size := Nat.le_trans h.size h'.size
  label hn := (h'.label (Nat.lt_of_lt_of_le hn h.size)).trans (h.label hn)
  next hw hs hnext := h'.next (h.op hw) (h.op hs) (h.next hw hs hnext)
  operands := by
    obtain ⟨moves, hmoves⟩ := h.operands
    obtain ⟨moves', hmoves'⟩ := h'.operands
    refine ⟨moves ++ moves', fun hop hkind => ?_⟩
    rw [hmoves' (h.op hop) hkind, hmoves hop hkind]
    exact (List.foldl_append ..).symm

theorem watches (h : c.KeepsGuards d) (hw : c.op? w = some .guard) (hs : c.Watches w s) :
    d.Watches w s := by
  obtain ⟨moves, hmoves⟩ := h.operands
  obtain ⟨r, hr, hoperands⟩ := hs.receiver
  refine ⟨h.op hs.op, h.next hw hs.op hs.next, follow moves r, ?_, ?_⟩
  · obtain ⟨u, hu, rfl⟩ := List.mem_map.mp hr
    rw [valueSources_eq_operands, hmoves hs.op (.inr rfl)]
    have hmem := (perm_requeueAll moves (c.operands s)).mem_iff.mpr (List.mem_map_of_mem hu)
    exact List.mem_map_of_mem hmem
  · rw [hmoves hw (.inl rfl), hoperands, requeueAll_singleton]

end KeepsGuards

theorem SameGuards.refl (c : Graph) : c.SameGuards c :=
  ⟨.refl c, id⟩

theorem SameGuards.trans {c d e : Graph} (h : c.SameGuards d) (h' : d.SameGuards e) :
    c.SameGuards e :=
  ⟨h.toKeepsGuards.trans h'.toKeepsGuards, fun hw => h.guards (h'.guards hw)⟩

/-! ## Removing a node -/

section Remove

variable {g c c' : Graph} {n : NodeId} {new : List (EdgeId × Edge)} (hd : g.Descends c)
  (hd' : g.Descends c') (hr : Removes c c' n)
  (hctl : c'.controlEdges = (c.controlEdges.filter fun p => avoids n p.2) ++ new)
  (hnew : ∀ p ∈ new, c.op? p.2.target ≠ some .phi)

include hd hd' hctl hnew in
/-- What decides a phi stays if that is not the node removed. -/
theorem enters_phi_remove {p : NodeId} (hp : c.op? p = some .phi) (hne : p ≠ n)
    (hphis : p ∉ c.phis n) : c'.enters p = c.enters p := by
  rw [hd'.consistent.enters_eq_controlEdges, hd.consistent.enters_eq_controlEdges, hctl,
    List.filter_append, List.filter_filter]
  have hnone : new.filter (·.2.target == p) = [] := by
    refine List.filter_eq_nil_iff.mpr fun q hq htarget => hnew q hq ?_
    rw [beq_iff_eq.mp htarget]
    exact hp
  rw [hnone, List.append_nil]
  apply List.filter_congr
  intro q hq
  cases htarget : q.2.target == p with
  | false => rfl
  | true =>
    rw [beq_iff_eq] at htarget
    rw [Bool.true_and, avoids_iff, htarget]
    refine ⟨fun hsource => hphis ?_, hne⟩
    exact hd.consistent.mem_phis_iff.mpr ⟨hp, q, hq, hsource, htarget⟩

include hd hd' hr hctl hnew in
/-- The removal of a node that decides no phi and checks no receiver. -/
theorem Tidy.remove (h : g.Tidy c) (hphis : ∀ p, p ∉ c.phis n)
    (hedges : ∀ {i : EdgeId} {e : Edge}, c'.edge? i = some e →
      ∃ i' e', c.edge? i' = some e' ∧ e.source = e'.source)
    (hkeeps : c.KeepsGuards c') : g.Tidy c' where
  decided {p} hop hlive := by
    obtain ⟨hlive, hne⟩ := hr.live.mp hlive
    rw [enters_phi_remove hd hd' hctl hnew (hd.op_some hop) hne (hphis p)]
    exact h.decided hop hlive
  final he := by
    obtain ⟨i', e', he', hsource⟩ := hedges he
    rw [hsource]
    exact h.final he'
  watching {w} hop := by
    rw [hr.op] at hop
    obtain ⟨s, hs⟩ := h.watching hop
    exact ⟨s, hkeeps.watches hop hs⟩

end Remove

/-! ## Putting a node onto a control edge -/

section Mount

variable {g c c' : Graph} {op : Op} {i₀ : EdgeId} {e₀ : Edge} (hd : g.Descends c)
  (hd' : g.Descends c') (he₀ : c.edge? i₀ = some e₀) (hphi : c.op? e₀.target ≠ some .phi)
  (hctl : c'.controlEdges = c.controlEdges.filter (·.1 != i₀) ++
    [(c.edges.size, ⟨e₀.source, c.nodes.size, e₀.output, .control⟩),
      (c.edges.size + 1, ⟨c.nodes.size, e₀.target, .control, e₀.input⟩)])

include hd hd' he₀ hphi hctl in
theorem enters_phi_mount {p : NodeId} (hp : c.op? p = some .phi) : c'.enters p = c.enters p := by
  have htarget : e₀.target ≠ p := fun heq => hphi (heq ▸ hp)
  exact Threads.enters_mount_of_ne hd.consistent hd'.consistent he₀ hctl (op?_lt hp) htarget

include hd hd' he₀ hphi hctl in
theorem Tidy.mount (h : g.Tidy c)
    (hlabel : ∀ {m : NodeId}, m ≠ c.nodes.size → c'.label? m = c.label? m)
    (hop : c'.op? c.nodes.size = some op) (hremoved : ∀ m, c'.isRemoved m = c.isRemoved m)
    (hfinish : g.finish < g.nodes.size)
    (hedges : ∀ {i : EdgeId} {e : Edge}, c'.edge? i = some e →
      e.source = c.nodes.size ∨ ∃ i' e', c.edge? i' = some e' ∧ e.source = e'.source)
    (hkeeps : c.KeepsGuards c') (hwatches : op = .guard → ∃ s, c'.Watches c.nodes.size s) :
    g.Tidy c' where
  decided {p} hop' hlive := by
    rw [Gone, hremoved] at hlive
    rw [enters_phi_mount hd hd' he₀ hphi hctl (hd.op_some hop')]
    exact h.decided hop' hlive
  final he := by
    rcases hedges he with hsource | ⟨i', e', he', hsource⟩
    · rw [hsource]
      exact Ne.symm (Nat.ne_of_lt (Nat.lt_of_lt_of_le hfinish hd.size))
    · rw [hsource]
      exact h.final he'
  watching {w} hw := by
    by_cases heq : w = c.nodes.size
    · subst heq
      obtain rfl : op = .guard := Option.some.inj (hop.symm.trans hw)
      exact hwatches rfl
    · rw [op?_congr (hlabel heq)] at hw
      obtain ⟨s, hs⟩ := h.watching hw
      exact ⟨s, hkeeps.watches hw hs⟩

end Mount

/-! ## The changes of the passes -/

namespace Rewrites

variable {code : Code} {g c c' : Graph} {moves : Moves} {n m : NodeId} {op : Op}

/-- Only safepoints and guards are put in. -/
theorem op_old (h : g.Rewrites c moves) (hop : c.op? n = some op) (hsafepoint : op ≠ .safepoint)
    (hguard : op ≠ .guard) : g.op? n = some op := by
  have hn : n < g.nodes.size := by
    by_contra hge
    rcases (h.threads.inserted (Nat.le_of_not_lt hge) (op?_lt hop)).2.1 with h' | h' <;>
      rw [hop] at h' <;> cases h'
    · exact hsafepoint rfl
    · exact hguard rfl
  rw [← h.descends.op hn]
  exact hop

theorem not_guard (h : g.Rewrites c moves) (t : Translation code g) (hop : g.op? n = some op) :
    c.op? n ≠ some .guard := by
  rw [h.descends.op_some hop]
  rintro heq
  cases heq
  rcases t.ops hop with ⟨-, h⟩ | ⟨-, h⟩ | h | h | h | h <;> cases h

/-- Guards are put in, and control leaves them by one edge. -/
theorem new_of_guard (h : g.Rewrites c moves) (t : Translation code g) {w : NodeId}
    (hw : c.op? w = some .guard) : g.New w ∧ ∃ i e, c.exits w = [(i, e)] := by
  have hnew : g.New w := by
    by_contra hold
    obtain ⟨op, hop⟩ := op?_of_lt (Nat.lt_of_not_le hold)
    exact h.not_guard t hop hw
  obtain ⟨-, -, ⟨p, hp⟩, -⟩ := h.threads.inserted hnew (op?_lt hw)
  exact ⟨hnew, p.1, p.2, hp⟩

/-- The nodes that passes put in decide no phi. -/
theorem not_mem_phis_of_new (h : g.Rewrites c moves) (t : Translation code g) (hnew : g.New n)
    (p : NodeId) : p ∉ c.phis n := by
  intro hp
  obtain ⟨-, q, hq, rfl, -⟩ := t.consistent.mem_phis_iff.mp (h.forwards.phis.mp hp).2
  have hlt := (t.consistent.ends (mem_controlEdges.mp (show (q.1, q.2) ∈ _ from hq)).1).1
  exact Nat.not_lt.mpr hnew hlt

/-- The operands of all nodes but the finish node are values. -/
theorem makesValue (h : g.Rewrites c moves) (t : Translation code g) (hop : g.op? n = some op)
    (hfinish : op ≠ .finish) (hm : m ∈ c.valueSources n) : g.MakesValue m := by
  obtain ⟨e, he, rfl⟩ := List.mem_map.mp hm
  obtain ⟨rfl, i, hi⟩ := h.descends.consistent.mem_inputs.mp (List.mem_filter.mp he).1
  exact h.forwards.makesValue_of_source (op?_lt hop) (h.descends.not_gone hi).2
    (t.valued hop hfinish)
    hm

/-- A guard checks what its send uses. -/
theorem source_of_watches (h : g.Rewrites c moves) {w s : NodeId} (hs : c.Watches w s) {e : Edge}
    (he : e ∈ c.operands w) : g.op? s = some .send ∧ e.source ∈ c.valueSources s := by
  obtain ⟨r, hr, hw⟩ := hs.receiver
  rw [hw, List.mem_singleton] at he
  rw [he]
  exact ⟨h.op_old hs.op (by simp) (by simp), hr⟩

/-- A node that is neither a guard nor a send. -/
theorem ne_of_guard_or_send (h : g.Rewrites c moves) (t : Translation code g)
    (hop : g.op? n = some op) (hsend : op ≠ .send) {x : NodeId} {o : Op} (hx : c.op? x = some o)
    (hkind : o = .guard ∨ o = .send) : x ≠ n := by
  rintro rfl
  rcases hkind with rfl | rfl
  · exact h.not_guard t hop hx
  · exact hsend (Option.some.inj ((h.descends.op_some hop).symm.trans hx))

/-- Operands have not been removed. -/
theorem source_of_mem (h : g.Rewrites c moves) (hm : m ∈ c.valueSources n) :
    m < c.nodes.size ∧ c.isRemoved m = false ∧ ∃ i e, c.edge? i = some e ∧ e.source = m := by
  obtain ⟨e, he, rfl⟩ := List.mem_map.mp hm
  obtain ⟨-, i, hi⟩ := h.descends.consistent.mem_inputs.mp (List.mem_filter.mp he).1
  exact ⟨(h.descends.consistent.ends hi).1, (h.descends.ends hi).1, i, e, hi, rfl⟩

theorem sameGuards_forward (h : g.Rewrites c moves) (t : Translation code g)
    (hop : g.op? n = some .input ∨ g.op? n = some .phi) (hm : m ∈ c.valueSources n) (hne : m ≠ n) :
    c.SameGuards (c.forward n m) := by
  obtain ⟨op, hop, hidle, hsend⟩ : ∃ op, g.op? n = some op ∧ op.isIdle = true ∧ op ≠ .send :=
    hop.elim (fun h => ⟨_, h, rfl, by simp⟩) fun h => ⟨_, h, rfl, by simp⟩
  have hc := h.descends.consistent
  obtain ⟨hm, hlive, -⟩ := h.source_of_mem hm
  have hd' : g.Descends (c.forward n m) := h.descends.forward hm hlive
  have hr := removes_forward (Nat.lt_of_lt_of_le (op?_lt hop) h.descends.size) m
  refine ⟨⟨Nat.le_of_eq hr.size.symm, fun _ => hr.label _, fun {w s} _ _ hnext p hp => ?_,
    [(n, m)], fun hx hkind => ?_⟩, fun hw => (hr.op _).symm.trans hw⟩
  · rw [h.threads.exits_erase h.descends hd' t hop hidle hr (controlEdges_forward hc hm)] at hp
    exact hnext p hp
  · exact operands_forward hc hm hne (h.ne_of_guard_or_send t hop hsend hx hkind)

theorem forward (h : g.Rewrites c moves) (t : Translation code g)
    (hop : g.op? n = some .input ∨ g.op? n = some .phi) (hm : m ∈ c.valueSources n) (hne : m ≠ n)
    (hall : ∀ s ∈ c.valueSources n, s = n ∨ s = m) :
    g.Rewrites (c.forward n m) (moves ++ [(n, m)]) := by
  obtain ⟨op, hop', hidle, hregion⟩ : ∃ op, g.op? n = some op ∧ op.isIdle = true ∧ op ≠ .region :=
    hop.elim (fun h => ⟨_, h, rfl, by simp⟩) fun h => ⟨_, h, rfl, by simp⟩
  have hc := h.descends.consistent
  obtain ⟨hm', hlive, i, e, hi, hsource⟩ := h.source_of_mem hm
  have hd' : g.Descends (c.forward n m) := h.descends.forward hm' hlive
  have hr := removes_forward (Nat.lt_of_lt_of_le (op?_lt hop') h.descends.size) m
  have hctl : (c.forward n m).controlEdges = _ := controlEdges_forward hc hm'
  have hthreads := h.threads.erase h.descends hd' t hop' hidle hr hctl
  rw [← List.append_nil (c.controlEdges.filter _)] at hctl
  refine ⟨hd', hthreads, h.forwards.forward h.descends t hop hm hne hall,
    h.tidy.remove h.descends hd' hr hctl (by simp) (h.forwards.not_mem_phis_of_op t hop' hregion)
      ?_ (h.sameGuards_forward t hop hm hne).toKeepsGuards⟩
  intro j e' he'
  rcases edge?_forward hc hm' he' with he' | he'
  · exact ⟨j, e', he', rfl⟩
  · exact ⟨i, e, hi, he'.trans hsource.symm⟩

/-- A node without outputs is the source of no edge. -/
theorem source_ne_of_unused (h : g.Rewrites c moves) (hout : c.outputs n = [])
    {i : EdgeId} {e : Edge} (he : c.edge? i = some e) : e.source ≠ n := by
  intro hsource
  have hmem : e ∈ c.outputs n := h.descends.consistent.mem_outputs.mpr ⟨hsource, i, he⟩
  rw [hout] at hmem
  cases hmem

theorem sameGuards_erase (h : g.Rewrites c moves) (t : Translation code g) (hop : g.op? n = some op)
    (hidle : op.isIdle = true) (hout : c.outputs n = []) : c.SameGuards (c.eraseNode n) := by
  have hc := h.descends.consistent
  have hr := removes_eraseNode (Nat.lt_of_lt_of_le (op?_lt hop) h.descends.size)
  have hsend : op ≠ .send := by
    rintro rfl
    cases hidle
  refine ⟨⟨Nat.le_of_eq hr.size.symm, fun _ => hr.label _, fun {w s} _ _ hnext p hp => ?_,
    [], fun hx hkind => ?_⟩, fun hw => (hr.op _).symm.trans hw⟩
  · rw [h.threads.exits_erase h.descends (h.descends.eraseNode n) t hop hidle hr
      (controlEdges_eraseNode hc n)] at hp
    exact hnext p hp
  · refine operands_eraseNode hc (h.ne_of_guard_or_send t hop hsend hx hkind) fun e he => ?_
    obtain ⟨-, i, hi⟩ := hc.mem_inputs.mp (List.mem_filter.mp he).1
    exact h.source_ne_of_unused hout hi

theorem erase (h : g.Rewrites c moves) (t : Translation code g) (hop : g.op? n = some op)
    (hidle : op.isIdle = true) (hout : c.outputs n = []) : g.Rewrites (c.eraseNode n) moves := by
  have hc := h.descends.consistent
  have hd' := h.descends.eraseNode n
  have hr := removes_eraseNode (Nat.lt_of_lt_of_le (op?_lt hop) h.descends.size)
  have hctl := controlEdges_eraseNode hc n
  have hthreads := h.threads.erase h.descends hd' t hop hidle hr hctl
  rw [← List.append_nil (c.controlEdges.filter _)] at hctl
  have hphis : ∀ p, p ∉ c.phis n := by
    intro p hp
    obtain ⟨-, q, hq, hsource, -⟩ := hc.mem_phis_iff.mp hp
    exact h.source_ne_of_unused hout (mem_controlEdges.mp (show (q.1, q.2) ∈ _ from hq)).1 hsource
  have hforwards := h.forwards.remove h.descends hd' hr hctl (by simp) hphis
    (valueEdges_eraseNode hc n)
    fun hi _ hsource _ => absurd hsource (h.source_ne_of_unused hout hi)
  refine ⟨hd', hthreads, hforwards, h.tidy.remove h.descends hd' hr hctl (by simp) hphis ?_
    (h.sameGuards_erase t hop hidle hout).toKeepsGuards⟩
  intro j e he
  exact ⟨j, e, ((edge?_eraseNode hc).mp he).1, rfl⟩

/-- Control leaves a node by at most one edge in each role. -/
theorem exits_nodup (h : g.Rewrites c moves) (t : Translation code g) (x : NodeId) :
    ((c.exits x).map (·.2.output)).Nodup := by
  by_cases hx : x < g.nodes.size
  · by_cases hlive : c.Gone x
    · rw [h.descends.exits_of_gone hlive]
      exact .nil
    · exact (h.threads.exits hx hlive).nodup_iff.mpr (t.exits_nodup x)
  · by_cases hx' : x < c.nodes.size
    · obtain ⟨p, hp⟩ := (h.threads.inserted (Nat.le_of_not_lt hx) hx').2.2.1
      simp [hp]
    · rw [h.descends.consistent.exits_of_ge (Nat.le_of_not_lt hx')]
      exact .nil

/-- Control leaves every node but a branch by one edge. -/
theorem exits_single (h : g.Rewrites c moves) (t : Translation code g) (hop : g.op? n = some op)
    (hleft : op.isLeft = true) (hstart : op ≠ .start) (hbranch : op ≠ .branch)
    (hlive : ¬ c.Gone n) : ∃ j e, c.exits n = [(j, e)] ∧ e.output = .control := by
  have hperm := h.threads.exits (op?_lt hop) hlive
  rw [t.exits_roles hop hleft hstart hbranch, List.perm_singleton] at hperm
  obtain ⟨p, hp, hcontrol⟩ := List.map_eq_singleton_iff.mp hperm
  exact ⟨p.1, p.2, hp, hcontrol⟩

end Rewrites

/-- Control leaves a node that decides no phi by all its control edges. -/
theorem Consistent.exits_of_no_phis {c : Graph} (hc : c.Consistent) {n : NodeId}
    (hphis : ∀ p, p ∉ c.phis n) : c.exits n = (c.edgesOutOf n).filter (·.2.isControl) := by
  apply List.filter_congr
  intro p hp
  cases hctl : p.2.isControl with
  | false => rfl
  | true =>
    obtain ⟨hi, hsource⟩ := hc.mem_edgesOutOf.mp (show (p.1, p.2) ∈ c.edgesOutOf n from hp)
    have hne : c.op? p.2.target ≠ some .phi := fun hop => hphis p.2.target
      (hc.mem_phis_iff.mpr ⟨hop, p, mem_controlEdges.mpr ⟨hi, hctl⟩, hsource, rfl⟩)
    simp [hasOp, hne]

/-- `d` is `c` with control led past a node, by the edge of `new` if that is one. -/
structure LedPast (g c d : Graph) (new : List (EdgeId × Edge)) : Prop where
  descends : g.Descends d
  control : d.controlEdges = c.controlEdges ++ new
  value : d.valueEdges = c.valueEdges
  label : ∀ m, d.label? m = c.label? m
  removed : ∀ m, d.isRemoved m = c.isRemoved m
  size : d.nodes.size = c.nodes.size

theorem LedPast.refl {g c : Graph} (hd : g.Descends c) : LedPast g c c [] :=
  ⟨hd, (List.append_nil _).symm, rfl, fun _ => rfl, fun _ => rfl, rfl⟩

theorem LedPast.addEdge {g c : Graph} (hd : g.Descends c) {i j : EdgeId} {e e' : Edge}
    (he : c.edge? i = some e) (he' : c.edge? j = some e') (role : Role) :
    LedPast g c (c.addEdge ⟨e.source, e'.target, role, .control⟩)
      [(c.edges.size, ⟨e.source, e'.target, role, .control⟩)] where
  descends := hd.addEdge (hd.consistent.ends he).1 (hd.consistent.ends he').2 (hd.ends he).1
    (hd.ends he').2
  control := controlEdges_addEdge c (by simp [Edge.isControl])
  value := valueEdges_addEdge c (by simp [Edge.isControl])
  label m := label?_addEdge c _ m
  removed m := isRemoved_addEdge c _ m
  size := numNodes_addEdge c _

namespace LedPast

variable {g c d : Graph} {n : NodeId} {new : List (EdgeId × Edge)}

theorem controlEdges (h : LedPast g c d new) (hnew : ∀ p ∈ new, avoids n p.2 = true) :
    (d.eraseNode n).controlEdges = (c.controlEdges.filter fun p => avoids n p.2) ++ new := by
  rw [controlEdges_eraseNode h.descends.consistent, h.control, List.filter_append,
    List.filter_eq_self.mpr hnew]

theorem valueEdges (h : LedPast g c d new) :
    (d.eraseNode n).valueEdges = c.valueEdges.filter fun p => avoids n p.2 := by
  rw [valueEdges_eraseNode h.descends.consistent, h.value]

theorem operands (h : LedPast g c d new) (hc : c.Consistent) {x : NodeId} (hx : x ≠ n)
    (hsource : ∀ e ∈ c.operands x, e.source ≠ n) : (d.eraseNode n).operands x = c.operands x := by
  have hd : d.operands x = c.operands x := by
    rw [h.descends.consistent.operands_eq, h.value, hc.operands_eq]
  rw [operands_eraseNode h.descends.consistent hx (hd ▸ hsource), hd]

/-- Every edge starts where an edge started. -/
theorem edge? (h : LedPast g c d new)
    (hnew : ∀ p ∈ new, ∃ i e, c.edge? i = some e ∧ p.2.source = e.source) {i : EdgeId} {e : Edge}
    (he : (d.eraseNode n).edge? i = some e) :
    ∃ i' e', c.edge? i' = some e' ∧ e.source = e'.source := by
  have hi := ((edge?_eraseNode h.descends.consistent).mp he).1
  cases hctl : e.isControl with
  | true =>
    have hmem : (i, e) ∈ d.controlEdges := mem_controlEdges.mpr ⟨hi, hctl⟩
    rw [h.control] at hmem
    rcases List.mem_append.mp hmem with hmem | hmem
    · exact ⟨i, e, (mem_controlEdges.mp hmem).1, rfl⟩
    · exact hnew _ hmem
  | false =>
    have hmem : (i, e) ∈ d.valueEdges := mem_valueEdges.mpr ⟨hi, by rw [Edge.isValue, hctl]; rfl⟩
    rw [h.value] at hmem
    exact ⟨i, e, (mem_valueEdges.mp hmem).1, rfl⟩

end LedPast

namespace Rewrites

variable {code : Code} {g c c' : Graph} {moves : Moves} {n m : NodeId} {op : Op}

/-- What `bypass` does at a node that control enters by one edge and leaves by one edge. -/
theorem ledPast_bypass (h : g.Rewrites c moves) (t : Translation code g) {i₀ j₀ : EdgeId}
    {e₀ e₁ : Edge} (henter : c.enters n = [(i₀, e₀)]) (hexit : c.exits n = [(j₀, e₁)])
    (hphi : c.op? n ≠ some .phi) (hphis : ∀ p, p ∉ c.phis n) :
    ∃ new, LedPast g c (c.bypass n) new ∧ (e₀.source = n → new = []) ∧
      (e₀.source ≠ n → new = [(c.edges.size, ⟨e₀.source, e₁.target, e₀.output, .control⟩)]) := by
  have hc := h.descends.consistent
  obtain ⟨hi₀, htarget₀, hctl₀⟩ := Threads.enter_bypass h.descends henter
  obtain ⟨hj₀, hsource₁, hctl₁, hphi₁⟩ := Threads.exit_bypass h.descends hexit
  by_cases hloop : e₀.source = n
  · refine ⟨[], ?_, fun _ => rfl, fun hne => absurd hloop hne⟩
    rw [bypass_of_unentered fun p hp => ?_]
    · exact .refl h.descends
    · rw [henter, List.mem_singleton] at hp
      rw [hp]
      exact hloop
  · refine ⟨_, ?_, fun heq => absurd heq hloop, fun _ => rfl⟩
    have hleave := (hc.exits_of_no_phis hphis).symm.trans hexit
    have htarget₁ : e₁.target ≠ n := fun heq =>
      hloop (Threads.source_of_self h.descends henter hexit heq)
    have hinput : e₁.input = .control := h.threads.control hj₀ hctl₁
    rw [bypass_of_single henter hleave hloop htarget₁ fun e he hctl hout htarget => ?_, hinput]
    · exact .addEdge h.descends hi₀ hj₀ _
    · -- a role tells the edge, so control would have gone past the node already
      obtain ⟨hsource, i, hi⟩ := hc.mem_outputs.mp he
      have hmem : (i, e) ∈ c.exits e₀.source :=
        hc.mem_exits.mpr ⟨hi, hsource, hctl, htarget ▸ hphi₁⟩
      have hmem₀ : (i₀, e₀) ∈ c.exits e₀.source :=
        hc.mem_exits.mpr ⟨hi₀, rfl, hctl₀, htarget₀ ▸ hphi⟩
      have heq := List.inj_on_of_nodup_map (h.exits_nodup t e₀.source) hmem hmem₀ hout
      rw [(Prod.mk.inj heq).2] at htarget
      exact htarget₁ (htarget.symm.trans htarget₀)

/-- Control enters a node that it only passes by one edge. -/
theorem enters_single (h : g.Rewrites c moves) (t : Translation code g) (hop : g.op? n = some op)
    (hpass : op = .region ∨ op = .jump ∨ op = .trace) (hone : (g.enters n).length ≤ 1)
    (hlive : ¬ c.Gone n) : ∃ i e, c.enters n = [(i, e)] := by
  have hne : g.enters n ≠ [] := by
    rcases hpass with rfl | rfl | rfl
    · exact t.enters_ne_nil hop
    · obtain ⟨p, hp⟩ := t.enters_of_chained hop rfl
      simp [hp]
    · obtain ⟨p, hp⟩ := t.enters_of_chained hop rfl
      simp [hp]
  have hpos := List.length_pos_iff.mpr hne
  have hphi : g.op? n ≠ some .phi := by
    rw [hop]
    rcases hpass with rfl | rfl | rfl <;> simp
  have hlen := h.threads.enters (op?_lt hop) hlive hphi
  obtain ⟨⟨i, e⟩, heq⟩ := List.length_eq_one_iff.mp (show (c.enters n).length = 1 by omega)
  exact ⟨i, e, heq⟩

/-- A node that makes no value is an operand of no node but the last. -/
theorem ne_of_source (h : g.Rewrites c moves) (t : Translation code g) (hop : g.op? n = some op)
    (hvalue : op.makesValue = false) {x s : NodeId} {o : Op} (hx : g.op? x = some o)
    (hfinish : o ≠ .finish) (hs : s ∈ c.valueSources x) : s ≠ n := by
  rintro rfl
  obtain ⟨o', ho', hval⟩ := h.makesValue t hx hfinish hs
  obtain rfl : op = o' := Option.some.inj (hop.symm.trans ho')
  rw [hvalue] at hval
  cases hval

/-- Control that only passed a node goes past it on one new edge, if any. -/
theorem exists_ledPast (h : g.Rewrites c moves) (t : Translation code g) (hop : g.op? n = some op)
    (hpass : op = .region ∨ op = .jump ∨ op = .trace) (hone : (g.enters n).length ≤ 1)
    (hlive : ¬ c.Gone n) (hphis : ∀ p, p ∉ c.phis n) :
    ∃ i₀ j₀ e₀ e₁ new, c.enters n = [(i₀, e₀)] ∧ c.exits n = [(j₀, e₁)] ∧
      LedPast g c (c.bypass n) new ∧ (e₀.source = n → new = []) ∧
      (e₀.source ≠ n → new = [(c.edges.size, ⟨e₀.source, e₁.target, e₀.output, .control⟩)]) ∧
      (∀ p ∈ new, p = (c.edges.size, ⟨e₀.source, e₁.target, e₀.output, .control⟩)) ∧
      ((c.bypass n).eraseNode n).controlEdges =
        (c.controlEdges.filter fun p => avoids n p.2) ++ new := by
  obtain ⟨hleft, hstart, hbranch, hnphi⟩ : op.isLeft = true ∧ op ≠ .start ∧ op ≠ .branch ∧
      op ≠ .phi := by
    rcases hpass with rfl | rfl | rfl <;> simp [Op.isLeft]
  have hphi : c.op? n ≠ some .phi := by
    rw [h.descends.op_some hop]
    simpa using hnphi
  obtain ⟨j₀, e₁, hexit, -⟩ := h.exits_single t hop hleft hstart hbranch hlive
  obtain ⟨i₀, e₀, henter⟩ := h.enters_single t hop hpass hone hlive
  obtain ⟨new, hled, hself, hnew⟩ := h.ledPast_bypass t henter hexit hphi hphis
  have hcases : ∀ p ∈ new, e₀.source ≠ n ∧
      p = (c.edges.size, ⟨e₀.source, e₁.target, e₀.output, .control⟩) := by
    intro p hp
    have hne : e₀.source ≠ n := fun heq => by
      rw [hself heq] at hp
      cases hp
    rw [hnew hne] at hp
    exact ⟨hne, List.mem_singleton.mp hp⟩
  refine ⟨i₀, j₀, e₀, e₁, new, henter, hexit, hled, hself, hnew, fun p hp => (hcases p hp).2,
    hled.controlEdges fun p hp => ?_⟩
  obtain ⟨hne, rfl⟩ := hcases p hp
  exact avoids_iff.mpr ⟨hne, fun heq => hne (Threads.source_of_self h.descends henter hexit heq)⟩

theorem sameGuards_bypass (h : g.Rewrites c moves) (t : Translation code g)
    (hop : g.op? n = some op) (hpass : op = .region ∨ op = .jump ∨ op = .trace)
    (hone : (g.enters n).length ≤ 1) (hlive : ¬ c.Gone n) (hphis : ∀ p, p ∉ c.phis n) :
    c.SameGuards ((c.bypass n).eraseNode n) := by
  have hc := h.descends.consistent
  obtain ⟨hsend, hnphi, hvalue⟩ : op ≠ .send ∧ op ≠ .phi ∧ op.makesValue = false := by
    rcases hpass with rfl | rfl | rfl <;> simp [Op.makesValue]
  obtain ⟨i₀, j₀, e₀, e₁, new, henter, hexit, hled, hself, hnew, hcases, hctl⟩ :=
    h.exists_ledPast t hop hpass hone hlive hphis
  obtain ⟨hi₀, htarget₀, hctl₀⟩ := Threads.enter_bypass h.descends henter
  have hr := removes_bypass (Nat.lt_of_lt_of_le (op?_lt hop) h.descends.size)
  refine ⟨⟨Nat.le_of_eq hr.size.symm, fun _ => hr.label _, fun {w s} hw hs hnext p hp => ?_,
    [], fun {x o} hx hkind => ?_⟩, fun hw => (hr.op _).symm.trans hw⟩
  · rw [Threads.exits_bypass h.descends (hled.descends.eraseNode n) hr hexit hself hnew hctl
      (h.ne_of_guard_or_send t hop hsend hw (.inl rfl))] at hp
    rcases List.mem_append.mp hp with hp | hp
    · exact hnext p (List.mem_filter.mp hp).1
    · -- the guard would have led to the node
      exfalso
      obtain ⟨hp, hsource⟩ := List.mem_filter.mp hp
      obtain rfl := hcases p hp
      have hphi : c.op? e₀.target ≠ some .phi := by
        rw [htarget₀, h.descends.op_some hop]
        simpa using hnphi
      have hmem : (i₀, e₀) ∈ c.exits w := hc.mem_exits.mpr ⟨hi₀, beq_iff_eq.mp hsource, hctl₀, hphi⟩
      exact h.ne_of_guard_or_send t hop hsend hs (.inr rfl) ((hnext _ hmem).symm.trans htarget₀)
  · refine hled.operands hc (h.ne_of_guard_or_send t hop hsend hx hkind) fun e he => ?_
    rcases hkind with rfl | rfl
    · obtain ⟨s, hs⟩ := h.tidy.watching hx
      obtain ⟨hs', hsource⟩ := h.source_of_watches hs he
      exact h.ne_of_source t hop hvalue hs' (by simp) hsource
    · exact h.ne_of_source t hop hvalue (h.op_old hx (by simp) (by simp)) (by simp)
        (List.mem_map_of_mem he)

theorem bypass (h : g.Rewrites c moves) (t : Translation code g) (hop : g.op? n = some op)
    (hpass : op = .region ∨ op = .jump ∨ op = .trace) (hone : (g.enters n).length ≤ 1)
    (hlive : ¬ c.Gone n) (hphis : ∀ p, p ∉ c.phis n) :
    g.Rewrites ((c.bypass n).eraseNode n) moves := by
  have hc := h.descends.consistent
  have hn := op?_lt hop
  obtain ⟨hleft, hstart, hbranch, hnphi, hkept, hvalue⟩ : op.isLeft = true ∧ op ≠ .start ∧
      op ≠ .branch ∧ op ≠ .phi ∧ op.isKept = false ∧ op.makesValue = false := by
    rcases hpass with rfl | rfl | rfl <;> simp [Op.isLeft, Op.isKept, Op.makesValue]
  have hphi : c.op? n ≠ some .phi := by
    rw [h.descends.op_some hop]
    simpa using hnphi
  obtain ⟨i₀, j₀, e₀, e₁, new, henter, hexit, hled, hself, hnew, hcases, hctl⟩ :=
    h.exists_ledPast t hop hpass hone hlive hphis
  obtain ⟨hi₀, -, -⟩ := Threads.enter_bypass h.descends henter
  obtain ⟨-, -, -, hphi₁⟩ := Threads.exit_bypass h.descends hexit
  have hnewphi : ∀ p ∈ new, c.op? p.2.target ≠ some .phi := fun p hp => by
    obtain rfl := hcases p hp
    exact hphi₁
  have hd' := hled.descends.eraseNode n
  have hr := removes_bypass (Nat.lt_of_lt_of_le hn h.descends.size)
  refine ⟨hd', ?_, ?_, ?_⟩
  · refine h.threads.bypass h.descends hd' hr henter hexit hphi hself hnew hctl hop hkept
      hone hlive ?_
    obtain ⟨e, he, hout⟩ := t.exits_single hop hleft hstart hbranch
    intro p hp
    have hmem := List.mem_map_of_mem (f := (·.2)) hp
    rw [he, List.mem_singleton] at hmem
    rw [hmem]
    exact hout
  · refine h.forwards.remove h.descends hd' hr hctl hnewphi hphis hled.valueEdges ?_
    rintro i e hi hval rfl htarget hvalued
    obtain ⟨o, ho, hval'⟩ := h.forwards.makesValue_of_source htarget (h.descends.not_gone hi).2
      hvalued (List.mem_map_of_mem (f := (·.source))
        (List.mem_filter.mpr ⟨hc.mem_inputs.mpr ⟨rfl, i, hi⟩, hval⟩))
    obtain rfl : op = o := Option.some.inj (hop.symm.trans ho)
    rw [hvalue] at hval'
    cases hval'
  · refine h.tidy.remove h.descends hd' hr hctl hnewphi hphis (hled.edge? fun p hp => ?_)
      (h.sameGuards_bypass t hop hpass hone hlive hphis).toKeepsGuards
    obtain rfl := hcases p hp
    exact ⟨i₀, e₀, hi₀, rfl⟩

end Rewrites

/-- What a guard carries. -/
def guardProps (kind : Kind) (ip : Nat) : Props := [("kind", .symbol kind.name), ("ip", .ofNat ip)]

/-- What holds of `c` with a node put onto a control edge, apart from the operands of that node. -/
structure Mounted (c c' : Graph) (op : Op) (e : Edge) (i : EdgeId) : Prop where
  size : c'.nodes.size = c.nodes.size + 1
  label : ∀ {m : NodeId}, m ≠ c.nodes.size → c'.label? m = c.label? m
  op : c'.op? c.nodes.size = some op
  removed : ∀ m, c'.isRemoved m = c.isRemoved m
  control : c'.controlEdges = c.controlEdges.filter (·.1 != i) ++
    [(c.edges.size, ⟨e.source, c.nodes.size, e.output, .control⟩),
      (c.edges.size + 1, ⟨c.nodes.size, e.target, .control, e.input⟩)]
  operands : ∀ {x : NodeId}, x ≠ c.nodes.size → c'.operands x = c.operands x

theorem mounted_mount {c : Graph} (hc : c.Consistent) {i : EdgeId} {e : Edge}
    (he : c.edge? i = some e) (hctl : e.isControl = true) (op : Op) (props : Props) :
    Mounted c (c.mount op props i) op e i where
  size := numNodes_mount op props he
  label hm := by rw [label?_mount op props he, if_neg hm]
  op := by
    rw [op?_eq_label?, label?_mount op props he, if_pos rfl]
    rfl
  removed := isRemoved_mount op props he
  control := controlEdges_mount op props he
  operands _ := by
    rw [(consistent_mount op props hc he).operands_eq, valueEdges_mount op props he hctl,
      hc.operands_eq]

/-- The node may be given an operand. -/
theorem Mounted.addEdge {c d : Graph} {op : Op} {e u : Edge} {i : EdgeId} (hm : Mounted c d op e i)
    (hd : d.Consistent) (hvalue : u.isValue = true) (hsource : u.source < d.nodes.size)
    (htarget : u.target = c.nodes.size) : Mounted c (d.addEdge u) op e i where
  size := (numNodes_addEdge _ _).trans hm.size
  label hne := (label?_addEdge _ _ _).trans (hm.label hne)
  op := (op?_congr (label?_addEdge _ _ _)).trans hm.op
  removed m := (isRemoved_addEdge _ _ m).trans (hm.removed m)
  control := (controlEdges_addEdge_value _ hvalue).trans hm.control
  operands {x} hx := by
    have hlt : u.target < d.nodes.size := by
      rw [htarget, hm.size]
      exact Nat.lt_succ_self _
    rw [operands_addEdge hd hvalue hsource hlt, if_neg (htarget ▸ hx), List.append_nil,
      hm.operands hx]

theorem operands_mount_new {c : Graph} (hc : c.Consistent) {i : EdgeId} {e : Edge}
    (he : c.edge? i = some e) (hctl : e.isControl = true) (op : Op) (props : Props) :
    (c.mount op props i).operands c.nodes.size = [] := by
  rw [(consistent_mount op props hc he).operands_eq, valueEdges_mount op props he hctl,
    ← hc.operands_eq, operands, hc.inputs_of_ge (Nat.le_refl _)]
  rfl

/-- A guard is put onto a control edge, and what it checks is its only operand. -/
theorem mounted_addGuard {c : Graph} (hc : c.Consistent) {i : EdgeId} {e : Edge} {r : NodeId}
    (he : c.edge? i = some e) (hctl : e.isControl = true) (hr : r < c.nodes.size) (kind : Kind)
    (ip : Nat) : Mounted c (c.addGuard i r kind ip) .guard e i ∧
      (c.addGuard i r kind ip).label? c.nodes.size = some (.guard, guardProps kind ip) ∧
      (c.addGuard i r kind ip).operands c.nodes.size = [.value r c.nodes.size .receiver] := by
  let new : Edge := .value r c.nodes.size .receiver
  have hm := mounted_mount hc he hctl .guard (guardProps kind ip)
  have hmount := consistent_mount .guard (guardProps kind ip) hc he
  have hs : new.source < (c.mount .guard (guardProps kind ip) i).nodes.size := by
    rw [hm.size]
    exact Nat.lt_succ_of_lt hr
  have ht : new.target < (c.mount .guard (guardProps kind ip) i).nodes.size := by
    rw [hm.size]
    exact Nat.lt_succ_self _
  refine ⟨hm.addEdge hmount (u := new) rfl hs rfl, ?_, ?_⟩
  · have hlabel := label?_mount .guard (guardProps kind ip) he c.nodes.size
    rw [if_pos rfl] at hlabel
    exact (label?_addEdge _ new _).trans hlabel
  · refine (operands_addEdge hmount (e := new) rfl hs ht _).trans ?_
    rw [operands_mount_new hc he hctl]
    exact if_pos rfl

namespace Rewrites

variable {code : Code} {g c c' : Graph} {moves : Moves} {n m : NodeId} {op : Op}

/-- The node is put onto an edge that does not leave a guard. -/
theorem keepsGuards_mount (hd : g.Descends c) (hd' : g.Descends c') {i : EdgeId} {e : Edge}
    (hm : Mounted c c' op e i) (hkind : op = .safepoint ∨ op = .guard) (he : c.edge? i = some e)
    (hphi : c.op? e.target ≠ some .phi) (hfree : c.op? e.source ≠ some .guard) :
    c.KeepsGuards c' := by
  refine ⟨Nat.le_of_lt (hm.size ▸ Nat.lt_succ_self _), fun hn => hm.label (Nat.ne_of_lt hn),
    fun {w s} hw _ hnext p hp => ?_, [], fun hx _ => hm.operands (Nat.ne_of_lt (op?_lt hx))⟩
  rw [Threads.exits_mount hd hd' hm.label hm.op hkind he hphi hm.control] at hp
  rcases List.mem_append.mp hp with hp | hp
  · exact hnext p (List.mem_filter.mp hp).1
  · -- neither new edge leaves an older guard
    exfalso
    obtain ⟨hp, hsource⟩ := List.mem_filter.mp hp
    rw [beq_iff_eq] at hsource
    rcases List.mem_cons.mp hp with rfl | hp
    · exact hfree (hsource ▸ hw)
    · rw [List.mem_singleton.mp hp] at hsource
      exact Nat.ne_of_lt (op?_lt hw) hsource.symm

/-- A node is put onto a control edge that does not leave a guard. -/
theorem mount (h : g.Rewrites c moves) (t : Translation code g) {i : EdgeId} {e : Edge}
    (hd' : g.Descends c') (hm : Mounted c c' op e i) (hkind : op = .safepoint ∨ op = .guard)
    (he : c.edge? i = some e) (hctl : e.isControl = true) (hphi : c.op? e.target ≠ some .phi)
    (hfree : c.op? e.source ≠ some .guard)
    (hedges : ∀ {i : EdgeId} {e : Edge}, c'.edge? i = some e → e.isValue = true →
      ∃ i' e', c.edge? i' = some e' ∧ e.source = e'.source)
    (hwatches : op = .guard → ∃ s, c'.Watches c.nodes.size s) : g.Rewrites c' moves where
  descends := hd'
  threads := h.threads.mount h.descends hd' hm.size hm.label hm.op hkind hm.removed he hctl hphi
    hm.control
  forwards := h.forwards.mount h.descends hd' hm.label hm.op hkind he hphi hm.control hm.removed
    fun hx => hm.operands (Nat.ne_of_lt (Nat.lt_of_lt_of_le hx h.descends.size))
  tidy := by
    refine h.tidy.mount h.descends hd' he hphi hm.control hm.label hm.op hm.removed ?_ ?_
      (keepsGuards_mount h.descends hd' hm hkind he hphi hfree) hwatches
    · rw [t.finish_eq.1]
      exact op?_lt t.finish_eq.2
    · intro j e' he'
      cases hctl' : e'.isControl with
      | false => exact .inr (hedges he' (by rw [Edge.isValue, hctl']; rfl))
      | true =>
        have hmem : (j, e') ∈ c'.controlEdges := mem_controlEdges.mpr ⟨he', hctl'⟩
        rw [hm.control] at hmem
        rcases List.mem_append.mp hmem with hmem | hmem
        · exact .inr ⟨j, e', (mem_controlEdges.mp (List.mem_filter.mp hmem).1).1, rfl⟩
        · rcases List.mem_cons.mp hmem with heq | hmem
          · exact .inr ⟨i, e, he, congrArg (·.2.source) heq⟩
          · exact .inl (congrArg (·.2.source) (List.mem_singleton.mp hmem))

/-- Guards lead to sends. -/
theorem source_not_guard (h : g.Rewrites c moves) {i : EdgeId} {e : Edge} (he : c.edge? i = some e)
    (hctl : e.isControl = true)
    (htarget : c.op? e.target = some .finish ∨ c.op? e.target = some .region) :
    c.op? e.source ≠ some .guard := by
  intro hw
  obtain ⟨s, hs⟩ := h.tidy.watching hw
  have hphi : c.op? e.target ≠ some .phi := by
    rcases htarget with h | h <;> simp [h]
  have heq := hs.next _ (h.descends.consistent.mem_exits.mpr ⟨he, rfl, hctl, hphi⟩)
  rw [heq, hs.op] at htarget
  rcases htarget with h | h <;> cases h

theorem sameGuards_safepoint (h : g.Rewrites c moves) {i : EdgeId} {e : Edge}
    (he : c.edge? i = some e) (hctl : e.isControl = true)
    (htarget : c.op? e.target = some .finish ∨ c.op? e.target = some .region) :
    c.SameGuards (c.addSafepoint i) := by
  have hm := mounted_mount h.descends.consistent he hctl .safepoint []
  refine ⟨keepsGuards_mount h.descends (h.descends.mount he .safepoint []) hm (.inl rfl) he ?_
    (h.source_not_guard he hctl htarget), fun {w} hw => ?_⟩
  · rcases htarget with h | h <;> simp [h]
  · by_cases heq : w = c.nodes.size
    · rw [heq] at hw
      cases hm.op.symm.trans hw
    · exact (op?_congr (hm.label heq)).symm.trans hw

theorem safepoint (h : g.Rewrites c moves) (t : Translation code g) {i : EdgeId} {e : Edge}
    (he : c.edge? i = some e) (hctl : e.isControl = true)
    (htarget : c.op? e.target = some .finish ∨ c.op? e.target = some .region) :
    g.Rewrites (c.addSafepoint i) moves := by
  refine h.mount t (h.descends.mount he .safepoint [])
    (mounted_mount h.descends.consistent he hctl .safepoint []) (.inl rfl) he hctl ?_
    (h.source_not_guard he hctl htarget) ?_ fun hop => by cases hop
  · rcases htarget with h | h <;> simp [h]
  · intro j e' he' hval
    have hmem : (j, e') ∈ (c.mount .safepoint [] i).valueEdges := mem_valueEdges.mpr ⟨he', hval⟩
    rw [valueEdges_mount .safepoint [] he hctl] at hmem
    exact ⟨j, e', (mem_valueEdges.mp hmem).1, rfl⟩

/-- The receiver of a send is one of its operands. -/
theorem edge_of_receiver (h : g.Rewrites c moves) {s r : NodeId}
    (hr : c.sourceFor? s .receiver = some r) :
    ∃ j e, c.edge? j = some e ∧ e ∈ c.operands s ∧ e.source = r := by
  obtain ⟨e, he, rfl⟩ := Option.map_eq_some_iff.mp hr
  have hmem := List.mem_of_find?_eq_some he
  have hrole : e.input = .receiver := by simpa using List.find?_some he
  obtain ⟨-, j, hj⟩ := h.descends.consistent.mem_inputs.mp hmem
  have hctl : e.isControl = false := by
    by_contra hctl
    have hinput := h.threads.control hj (Bool.not_eq_false _ ▸ hctl)
    rw [hrole] at hinput
    cases hinput
  have hval : e.isValue = true := by rw [Edge.isValue, hctl, Bool.not_false]
  exact ⟨j, e, hj, List.mem_filter.mpr ⟨hmem, hval⟩, rfl⟩

section Guard

variable {s r : NodeId} (h : g.Rewrites c moves) (hop : g.op? s = some .send)
  {i : EdgeId} {e : Edge} (henter : c.enters s = [(i, e)]) (hguard : c.op? e.source ≠ some .guard)
  (hr : c.sourceFor? s .receiver = some r) (kind : Kind) (ip : Nat)

include h hop henter in
theorem enter_send : c.edge? i = some e ∧ e.target = s ∧ e.isControl = true ∧
    c.op? e.target ≠ some .phi := by
  obtain ⟨he, htarget, hctl⟩ :=
    h.descends.consistent.mem_enters.mp (henter ▸ List.mem_singleton_self (i, e))
  refine ⟨he, htarget, hctl, ?_⟩
  rw [htarget, h.descends.op_some hop]
  simp

include h hop henter hr in
/-- The guard is put onto the control edge of the send, and the receiver is its only operand. -/
theorem mounted_guard : g.Descends (c.addGuard i r kind ip) ∧
    Mounted c (c.addGuard i r kind ip) .guard e i ∧
    (c.addGuard i r kind ip).label? c.nodes.size = some (.guard, guardProps kind ip) ∧
    (c.addGuard i r kind ip).operands c.nodes.size = [.value r c.nodes.size .receiver] := by
  have hc := h.descends.consistent
  obtain ⟨he, -, hctl, -⟩ := h.enter_send hop henter
  obtain ⟨j, er, hj, -, rfl⟩ := h.edge_of_receiver hr
  have hm := mounted_mount hc he hctl .guard (guardProps kind ip)
  have hd := h.descends.mount he .guard (guardProps kind ip)
  refine ⟨hd.addEdge ?_ ?_ ?_ ?_, mounted_addGuard hc he hctl (hc.ends hj).1 kind ip⟩
  · rw [hm.size]
    exact Nat.lt_succ_of_lt (hc.ends hj).1
  · rw [hm.size]
    exact Nat.lt_succ_self _
  · rw [hm.removed]
    exact (h.descends.ends hj).1
  · rw [hm.removed]
    change c.isRemoved c.nodes.size = false
    simp [isRemoved, node?]

include h hop henter hguard hr in
theorem keepsGuards_guard : c.KeepsGuards (c.addGuard i r kind ip) := by
  obtain ⟨he, -, -, hphi⟩ := h.enter_send hop henter
  obtain ⟨hd', hm, -, -⟩ := h.mounted_guard hop henter hr kind ip
  exact keepsGuards_mount h.descends hd' hm (.inr rfl) he hphi hguard

include h hop henter hr in
/-- The new guard stands before the send. -/
theorem watches_guard : (c.addGuard i r kind ip).Watches c.nodes.size s := by
  have hc := h.descends.consistent
  obtain ⟨he, htarget, -, hphi⟩ := h.enter_send hop henter
  obtain ⟨hd', hm, -, hoperands⟩ := h.mounted_guard hop henter hr kind ip
  obtain ⟨-, er, -, her, rfl⟩ := h.edge_of_receiver hr
  have hop' := h.descends.op_some hop
  have hs : s ≠ c.nodes.size := Nat.ne_of_lt (op?_lt hop')
  refine ⟨(op?_congr (hm.label hs)).trans hop', fun p hp => ?_, er.source, ?_, hoperands⟩
  · rw [Threads.exits_mount h.descends hd' hm.label hm.op (.inr rfl) he hphi hm.control,
      hc.exits_of_ge (Nat.le_refl _)] at hp
    obtain ⟨hp, hsource⟩ := List.mem_filter.mp hp
    rcases List.mem_cons.mp hp with rfl | hp
    · exact absurd (beq_iff_eq.mp hsource) (Nat.ne_of_lt (hc.ends he).1)
    · rw [List.mem_singleton.mp hp]
      exact htarget
  · rw [valueSources_eq_operands, hm.operands hs]
    exact List.mem_map_of_mem her

include h hop henter hguard hr in
theorem guard (t : Translation code g) : g.Rewrites (c.addGuard i r kind ip) moves := by
  have hwatches := h.watches_guard hop henter hr kind ip
  obtain ⟨he, -, hctl, hphi⟩ := h.enter_send hop henter
  obtain ⟨hd', hm, -, -⟩ := h.mounted_guard hop henter hr kind ip
  refine h.mount t hd' hm (.inr rfl) he hctl hphi hguard ?_ fun _ => ⟨s, hwatches⟩
  intro k e' he' hval'
  obtain ⟨j, er, hj, -, rfl⟩ := h.edge_of_receiver hr
  change ((c.mount .guard (guardProps kind ip) i).addEdge _).edge? k = some e' at he'
  rw [edge?_addEdge] at he'
  split at he'
  · cases he'
    exact ⟨j, er, hj, rfl⟩
  · have hmem : (k, e') ∈ (c.mount .guard (guardProps kind ip) i).valueEdges :=
      mem_valueEdges.mpr ⟨he', hval'⟩
    rw [valueEdges_mount .guard _ he hctl] at hmem
    exact ⟨k, e', (mem_valueEdges.mp hmem).1, rfl⟩

end Guard

end Rewrites

end Graph

end StackJit
