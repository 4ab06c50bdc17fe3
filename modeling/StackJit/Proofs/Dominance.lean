import StackJit.Proofs.Skeleton

/-!
# Values are defined before they are used

On a path of the graph of a method, control passes the blocks in the order of their instructions
(`Translation.arrival_of_path`), so what the node that it arrives at uses has been computed from
sends and phis that the path has settled: sends that it has passed, and phis of regions that it has
passed (`Graph.Settled`).

A rewritten graph has other paths and other operands. Its paths pass the remaining nodes in the
order of the paths of the method's graph, and what an operand is computed from has been settled
whichever node stands for the operand (`Translation.Covers.available`).

Main statement: `Code.defined_before_use`.
-/

namespace StackJit

namespace Graph

/-- The value of `d` is an operand of `u`, directly or through negations. -/
inductive Uses (g : Graph) (u : NodeId) : NodeId → Prop where
  | operand {d : NodeId} (h : d ∈ g.valueSources u) : Uses g u d
  | not {n d : NodeId} (h : Uses g u n) (hop : g.op? n = some .not) (hd : d ∈ g.valueSources n) :
      Uses g u d

/-- What is used is computed from what an operand is computed from. -/
theorem Uses.reads {g : Graph} {u d l : NodeId} (h : g.Uses u d) (hreads : g.Reads d l) :
    ∃ m ∈ g.valueSources u, g.Reads m l := by
  induction h with
  | operand h => exact ⟨_, h, hreads⟩
  | not _ hop hd ih => exact ih (.not hop hd hreads)

/-- A path past the nodes of `l` has passed `n`, or the region that decides it. -/
def Settled (g : Graph) (l : List (NodeId × Role)) (n : NodeId) : Prop :=
  n ∈ l.map (·.1) ∨ ∃ r ∈ l.map (·.1), n ∈ g.phis r

theorem Settled.append {g : Graph} {l : List (NodeId × Role)} {n : NodeId} (h : g.Settled l n)
    (l' : List (NodeId × Role)) : g.Settled (l ++ l') n := by
  rw [Settled, List.map_append]
  rcases h with h | ⟨r, hr, hn⟩
  · exact .inl (List.mem_append_left _ h)
  · exact .inr ⟨r, List.mem_append_left _ hr, hn⟩

/-- A path past the nodes of `l` has passed the send `d`, or the region that decides the phi `d`. -/
def Defined (g : Graph) (l : List (NodeId × Role)) (d : NodeId) : Prop :=
  (g.op? d = some .send → d ∈ l.map (·.1)) ∧
    (g.op? d = some .phi → ∃ r ∈ l.map (·.1), g.controlSources d = [r])

theorem mem_outside {P : NodeId → Prop} [DecidablePred P] {l : List (NodeId × Role)} {n : NodeId} :
    n ∈ (outside P l).map (·.1) ↔ n ∈ l.map (·.1) ∧ ¬ P n := by
  simp only [outside, List.mem_map, List.mem_filter, Bool.not_eq_true', decide_eq_false_iff_not]
  constructor
  · rintro ⟨q, ⟨hq, hP⟩, rfl⟩
    exact ⟨⟨q, hq, rfl⟩, hP⟩
  · rintro ⟨⟨q, hq, rfl⟩, hP⟩
    exact ⟨q, ⟨hq, hP⟩, rfl⟩

/-- Control has left every node of a path. -/
theorem Path.exits_ne_nil {g : Graph} {l : List (NodeId × Role)} {i : EdgeId} {n : NodeId}
    (h : g.Path l i) (hn : n ∈ l.map (·.1)) : g.exits n ≠ [] := by
  induction h with
  | start he =>
    rw [List.map_singleton, List.mem_singleton] at hn
    rw [hn]
    exact List.ne_nil_of_mem he
  | step _ _ he ih =>
    rw [List.map_append, List.mem_append, List.map_singleton, List.mem_singleton] at hn
    rcases hn with hn | rfl
    · exact ih hn
    · exact List.ne_nil_of_mem he

end Graph

/-- What a node uses is known before control comes to the node. -/
theorem Context.Step.knows_source {g : Graph} {ip : Nat} {i : Instr} {s t : Context}
    (h : Context.Step g ip i s t) (hnew : s.control < t.control) {m : NodeId}
    (hm : m ∈ g.valueSources t.control) : s.Knows m := by
  rw [Context.knows_iff]
  left
  obtain ⟨e, he, rfl⟩ := List.mem_map.mp hm
  obtain ⟨he, hvalue⟩ := List.mem_filter.mp he
  cases h with
  | trace label inputs after =>
    rw [inputs, List.mem_singleton] at he
    rw [he] at hvalue
    cases hvalue
  | send top label inputs after =>
    rw [top]
    rw [inputs] at he
    simp only [List.cons_append, List.mem_cons, List.mem_append, List.mem_map, List.not_mem_nil,
      or_false] at he
    rcases he with rfl | ⟨arg, harg, rfl⟩ | rfl
    · simp [Edge.value]
    · simp [Edge.value, harg]
    · cases hvalue
  | jump label inputs after =>
    rw [inputs, List.mem_singleton] at he
    rw [he] at hvalue
    cases hvalue
  | branch top label inputs after =>
    rw [top]
    rw [inputs, List.mem_cons, List.mem_singleton] at he
    rcases he with rfl | rfl
    · exact List.mem_cons_self
    · cases hvalue
  | _ => exact absurd hnew (Nat.lt_irrefl _)

namespace Translation

variable {code : Code} {g : Graph} {t : Translation code g} {b d : Block} {f : Fragment} {k : Nat}
  {i : EdgeId} {e : Edge} {l : List (NodeId × Role)} {y : NodeId}

/-! ## Where control goes -/

theorem exit_of_start (t : Translation code g) (hi : (i, e) ∈ g.exits g.start) :
    ∃ b f, t.Has b f ∧ b.start = 0 ∧ e.target = f.region := by
  have hmem : e ∈ (g.exits 0).map (·.2) := by
    rw [← t.start_eq.1]
    exact List.mem_map_of_mem hi
  have hpending : t.parts.graph.exits 0 = [] :=
    t.assembled.chained.pending (.inl t.assembled.start.1.symm)
  rw [t.exits_of_spine, hpending, List.map_nil, List.nil_append, List.mem_filter] at hmem
  obtain ⟨hspine, hsource⟩ := hmem
  rw [Bool.and_eq_true, beq_iff_eq] at hsource
  obtain ⟨b, hb, he⟩ := List.mem_flatMap.mp hspine
  obtain ⟨f, hf⟩ := t.exists_has hb
  rw [hf.spine] at he
  rcases List.mem_append.mp he with he | he
  · unfold Assembly.arriving at he
    split at he
    · next hstart =>
      rw [List.mem_singleton] at he
      exact ⟨b, f, hf, hstart, congrArg Edge.target he⟩
    · cases he
  · exact absurd ((source_leaving he hsource.2).symm.trans hsource.1) hf.controlEnd_ne_start

/-- Control leaves a block for one of its successors, or for the finish node. -/
theorem Has.exit_of_end (hf : t.Has b f) (hi : (i, e) ∈ g.exits f.controlEnd) :
    e.target = g.finish ∨ ∃ d fd, t.Has d fd ∧ d.start ∈ b.succs ∧ e.target = fd.region := by
  have hmem : e ∈ (g.exits f.controlEnd).map (·.2) := List.mem_map_of_mem hi
  rw [hf.exits_end, List.mem_filter] at hmem
  obtain ⟨he, hctl⟩ := hmem
  have hregion : ∀ s ∈ b.succs, ∃ d fd, t.Has d fd ∧ d.start ∈ b.succs ∧
      t.parts.regionAt s = fd.region := by
    intro s hs
    obtain ⟨d, hd, rfl⟩ := t.layout.succ b hf.mem s hs
    obtain ⟨fd, hfd⟩ := t.exists_has hd
    exact ⟨d, fd, hfd, hs, hfd.regionAt⟩
  match hs : b.succs, length_succs_le hf.mem with
  | [], _ =>
    left
    simp only [Assembly.leaving, hs] at he
    rw [t.finish_eq.1, ← t.assembled.finish.1]
    rcases List.mem_cons.mp he with rfl | he
    · rfl
    · obtain ⟨n, -, rfl⟩ := List.mem_map.mp he
      cases hctl
  | [s], _ =>
    rw [leaving_of_one hs, List.mem_singleton] at he
    rw [← hs, he]
    exact .inr (hregion s (by simp [hs]))
  | [s, u], _ =>
    rw [leaving_of_two hs, List.mem_cons, List.mem_singleton] at he
    rw [← hs]
    right
    rcases he with rfl | rfl
    · exact hregion s (by simp [hs])
    · exact hregion u (by simp [hs])

/-- Within a block, control goes on to the next node of the block. -/
theorem exit_inner (hb : b ∈ t.blocks) (hk : k < b.live.length)
    (hnew : (t.context b k).control < (t.context b (k + 1)).control)
    (hi : (i, e) ∈ g.exits (t.context b k).control) :
    e.target = (t.context b (k + 1)).control := by
  obtain ⟨f, hf⟩ := t.exists_has hb
  obtain ⟨instr, -, hstep⟩ := step_context hb hk
  rcases hstep.control_cases with heq | ⟨-, hin, op, hop, hchained⟩
  · exact absurd hnew (Nat.not_lt.mpr (Nat.le_of_eq heq))
  obtain ⟨-, j, hj⟩ := t.consistent.mem_inputs.mp hin
  have hexit : (j, Edge.control (t.context b k).control (t.context b (k + 1)).control) ∈
      g.exits (t.context b k).control := by
    refine t.consistent.mem_exits.mpr ⟨hj, rfl, rfl, ?_⟩
    exact control_ne_phi hb hk
  -- the node before is neither the start node nor the end of a block, so it has one exit
  obtain ⟨o, ho⟩ : ∃ o, g.op? (t.context b k).control = some o :=
    Graph.op?_of_lt (t.consistent.ends hj).1
  have hleft : o.isLeft = true := by
    by_contra hnot
    rw [t.exits_of_not_left ho (Bool.eq_false_iff.mpr hnot)] at hi
    cases hi
  rcases t.exits_cases ho hleft with hzero | ⟨b', f', hf', hend⟩ | ⟨e', he', -⟩
  · exfalso
    rcases control_origin hf (Nat.le_of_lt hk) with hr | ⟨k', -, hlt, -⟩
    · have hregion := hf.region_op
      rw [← hr, hzero, t.start_eq.2] at hregion
      cases hregion
    · rw [hzero] at hlt
      exact Nat.not_lt_zero _ hlt
  · exfalso
    have hend' : (t.context b' b'.live.length).control = (t.context b k).control := by
      rw [hf'.context_end]
      exact hend
    obtain rfl := block_of_control hf'.mem hb (Nat.le_refl _) (Nat.le_of_lt hk) hend'
    have hle := control_le hb (Nat.succ_le_of_lt hk) (Nat.le_refl _)
    rw [hend'] at hle
    exact absurd hnew (Nat.not_lt.mpr hle)
  · have h₁ : e ∈ (g.exits (t.context b k).control).map (·.2) := List.mem_map_of_mem hi
    have h₂ := List.mem_map_of_mem (f := fun p : EdgeId × Edge => p.2) hexit
    rw [he', List.mem_singleton] at h₁ h₂
    rw [h₁, ← h₂]
    rfl

/-! ## Paths through blocks -/

/-- Where control arrives after it has passed the nodes of `l`. -/
inductive Arrival (t : Translation code g) (l : List (NodeId × Role)) (y : NodeId) : Prop where
  | first {b : Block} {f : Fragment} (hf : t.Has b f) (hstart : b.start = 0) (hy : y = f.region) :
      Arrival t l y
  | inner {b : Block} {k : Nat} (h : t.Covers (g.Settled l) b k) (hk : k < b.live.length)
      (hnew : (t.context b k).control < (t.context b (k + 1)).control)
      (hy : y = (t.context b (k + 1)).control) : Arrival t l y
  | enter {b d : Block} {f : Fragment} (h : t.Covers (g.Settled l) b b.live.length) (hf : t.Has d f)
      (hsucc : d.start ∈ b.succs) (hy : y = f.region) : Arrival t l y
  | finish (hy : y = g.finish) : Arrival t l y

/-- Control that has passed a node of a block goes on past the instructions that have no node. -/
theorem Covers.arrival (h : t.Covers (g.Settled l) b k) (hk : k ≤ b.live.length)
    (hpassed : (t.context b k).control ∈ l.map (·.1))
    (hi : (i, e) ∈ g.exits (t.context b k).control) : t.Arrival l e.target := by
  induction hn : b.live.length - k generalizing k with
  | zero =>
    obtain rfl : k = b.live.length := by omega
    obtain ⟨f, hf⟩ := t.exists_has h.mem
    rw [hf.context_end] at hi
    rcases hf.exit_of_end hi with hfinish | ⟨d, fd, hfd, hsucc, htarget⟩
    · exact .finish hfinish
    · exact .enter h hfd hsucc htarget
  | succ n ih =>
    have hlt : k < b.live.length := by omega
    obtain ⟨instr, -, hstep⟩ := step_context h.mem hlt
    rcases hstep.control_cases with heq | ⟨hnew, -⟩
    · rw [← heq] at hpassed hi
      exact ih (h.next hlt (fun _ hl => hl) (.inl hpassed)) hlt hpassed hi (by omega)
    · exact .inner h hlt hnew (exit_inner h.mem hlt hnew hi)

theorem arrival_of_path (t : Translation code g) (h : g.Path l i) (hi : g.edge? i = some e) :
    t.Arrival l e.target := by
  induction h generalizing e with
  | @start i e' he =>
    obtain rfl : e' = e := Option.some.inj ((t.consistent.mem_exits.mp he).1.symm.trans hi)
    obtain ⟨b, f, hf, hstart, htarget⟩ := t.exit_of_start he
    exact .first hf hstart htarget
  | @step l i j e₀ e' _ hi₀ he ih =>
    obtain rfl : e' = e := Option.some.inj ((t.consistent.mem_exits.mp he).1.symm.trans hi)
    have hpassed : e₀.target ∈ (l ++ [(e₀.target, e'.output)]).map (·.1) := by simp
    have hkeep : ∀ n, g.Settled l n → g.Settled (l ++ [(e₀.target, e'.output)]) n :=
      fun n hn => hn.append _
    have hphis : ∀ p ∈ g.phis e₀.target, g.Settled (l ++ [(e₀.target, e'.output)]) p :=
      fun p hp => .inr ⟨e₀.target, hpassed, hp⟩
    generalize l ++ [(e₀.target, e'.output)] = l' at hpassed hkeep hphis ⊢
    cases ih hi₀ with
    | @first b f hf hstart hy =>
      have hzero : (t.context b 0).control = e₀.target := by
        rw [hf.context_zero, hy]
        rfl
      rw [← hzero] at hpassed he
      exact Covers.arrival (.start hf.mem hstart) (Nat.zero_le _) hpassed he
    | @inner b k hcovers hk hnew hy =>
      rw [hy] at hpassed he
      exact (hcovers.next hk hkeep (.inl hpassed)).arrival hk hpassed he
    | @enter b d f hcovers hf hsucc hy =>
      rw [hy] at hphis
      have hzero : (t.context d 0).control = e₀.target := by
        rw [hf.context_zero, hy]
        rfl
      rw [← hzero] at hpassed he
      exact (hcovers.enter hf hsucc hkeep hphis).arrival (Nat.zero_le _) hpassed he
    | finish hy =>
      rw [hy, t.finish_eq.1, t.exits_of_not_left t.finish_eq.2 rfl] at he
      cases he

/-- On each path to a send or a branch, what its operands stand for has been settled. -/
theorem settled_of_path {c : Graph} {σ : NodeId → NodeId} (t : Translation code g)
    (hr : g.Realizes c σ) (h : g.Path l i) (hi : g.edge? i = some e)
    (hop : g.op? e.target = some .send ∨ g.op? e.target = some .branch) {m n : NodeId}
    (hm : m ∈ g.valueSources e.target) (hreads : c.Reads (σ m) n) : g.Settled l n := by
  have hregion : ∀ {d : Block} {fd : Fragment}, t.Has d fd → e.target ≠ fd.region := by
    intro d fd hfd heq
    rw [heq, hfd.region_op] at hop
    rcases hop with hop | hop <;> cases hop
  cases t.arrival_of_path h hi with
  | first hf _ hy => exact absurd hy (hregion hf)
  | inner hcovers hk hnew hy =>
    obtain ⟨instr, -, hstep⟩ := step_context hcovers.mem hk
    rw [hy] at hm
    exact hcovers.available hr (hstep.knows_source hnew hm) hreads
  | enter _ hf _ hy => exact absurd hy (hregion hf)
  | finish hy =>
    rw [hy, t.finish_eq.1, t.finish_eq.2] at hop
    rcases hop with hop | hop <;> cases hop

end Translation

namespace Graph.Rewrites

variable {code : Code} {g c : Graph} {moves : Moves} {l : List (NodeId × Role)} {i : EdgeId}
  {e : Edge} {d : NodeId}

/-- Each path to a node of both graphs is one of `g`, as far as its nodes are in both. -/
theorem exists_path (h : g.Rewrites c moves) (t : Translation code g) (hpath : c.Path l i)
    (hi : c.edge? i = some e) (hold : e.target < g.nodes.size) :
    ∃ l' i' e', g.Path l' i' ∧ g.edge? i' = some e' ∧ e'.target = e.target ∧
      outside c.Gone l' = outside g.New l := by
  obtain ⟨hstart, hlive⟩ := h.start_live t
  have hstart' : ¬ g.New c.start := h.start_eq ▸ Nat.not_le.mpr hstart
  obtain ⟨x, ρ, hvisits, harrives⟩ := hpath.visits hstart'
  have hcomes : c.Comes g.New x ρ e.target := ⟨i, e, harrives, hi, rfl, Nat.not_le.mpr hold⟩
  rw [h.visits_iff t] at hvisits
  obtain ⟨hx, hxlive⟩ := h.visits_live t hvisits
  rw [h.comes_iff t hx hxlive] at hcomes
  obtain ⟨i', e', harrives', hi', htarget, -⟩ := hcomes
  obtain ⟨l', hpath', houtside⟩ := hvisits.exists_path hlive harrives'
  exact ⟨l', i', e', hpath', hi', htarget, houtside⟩

/-- The region that decides a phi is the same in both graphs. -/
theorem controlSources_of_mem_phis (h : g.Rewrites c moves) (t : Translation code g) {p r : NodeId}
    (hlive : ¬ c.Gone p) (hp : p ∈ g.phis r) : c.controlSources p = [r] ∧ ¬ c.Gone r := by
  obtain ⟨hop, e, he, hctl, rfl⟩ := t.mem_phis.mp hp
  obtain ⟨r', hsources, -, hr', -⟩ := h.controlSources_phi t hop hlive
  have hmem : e.source ∈ c.controlSources p := by
    rw [controlSources_eq_enters, h.tidy.decided hop hlive, ← controlSources_eq_enters]
    exact List.mem_map_of_mem (List.mem_filter.mpr ⟨he, hctl⟩)
  rw [hsources, List.mem_singleton] at hmem
  rw [hmem]
  exact ⟨hsources, hr'⟩

/-- What a path of `g` has settled is defined on the paths of `c` past the same nodes. -/
theorem defined_of_settled (h : g.Rewrites c moves) (t : Translation code g)
    {l' : List (NodeId × Role)} {i' : EdgeId} (hpath : g.Path l' i')
    (houtside : outside c.Gone l' = outside g.New l) (hlive : ¬ c.Gone d) (hd : g.Settled l' d) :
    c.Defined l d := by
  have hpassed : ∀ {x : NodeId}, ¬ c.Gone x → x ∈ l'.map (·.1) → x ∈ l.map (·.1) := fun hx hmem =>
    (mem_outside.mp (houtside ▸ mem_outside.mpr ⟨hmem, hx⟩)).1
  rcases hd with hd | ⟨r, hr, hd⟩
  · refine ⟨fun _ => hpassed hlive hd, fun hphi => ?_⟩
    -- control does not pass phis
    have hop := h.op_old hphi (by simp) (by simp)
    exact absurd (t.exits_of_not_left hop rfl) (hpath.exits_ne_nil hd)
  · refine ⟨fun hsend => ?_, fun _ => ?_⟩
    · have hop := h.op_old hsend (by simp) (by simp)
      cases hop.symm.trans (t.mem_phis.mp hd).1
    · obtain ⟨hsources, hrlive⟩ := h.controlSources_of_mem_phis t hlive hd
      exact ⟨r, hpassed hrlive hr, hsources⟩

/-- On each path to a send or a branch, what its operands are computed from is defined. -/
theorem defined_of_reads (h : g.Rewrites c moves) (t : Translation code g)
    {l₁ : List (NodeId × Role)} (hpath : c.Path l₁ i) (hi : c.edge? i = some e)
    (hop : c.op? e.target = some .send ∨ c.op? e.target = some .branch)
    (houtside : outside g.New l₁ = outside g.New l) {m : NodeId} (hm : m ∈ c.valueSources e.target)
    (hreads : c.Reads m d) : c.Defined l d := by
  have hr := h.realizes t
  obtain ⟨op, hop', hfinish⟩ : ∃ op, g.op? e.target = some op ∧ op ≠ .finish :=
    hop.elim (fun hop => ⟨_, h.op_old hop (by simp) (by simp), by simp⟩)
      fun hop => ⟨_, h.op_old hop (by simp) (by simp), by simp⟩
  obtain ⟨l', i', e', hpath', hi', htarget, houtside'⟩ := h.exists_path t hpath hi (op?_lt hop')
  have hlive : ¬ c.Gone e.target := (h.descends.not_gone hi).2
  obtain ⟨m₀, hm₀, rfl⟩ := List.mem_map.mp
    ((hr.valueSources_perm hop' hfinish hlive).mem_iff.mp hm)
  refine h.defined_of_settled t hpath' (houtside'.trans houtside)
    (hr.live_of_reads (hr.live_of_source hm) hreads) ?_
  refine t.settled_of_path hr hpath' hi' ?_ (htarget ▸ hm₀) hreads
  rw [htarget, ← h.descends.op (op?_lt hop')]
  exact hop

/-- What a guard checks is defined, as it stands right before the send that uses it. -/
theorem defined_of_guard (h : g.Rewrites c moves) (t : Translation code g) (hpath : c.Path l i)
    (hi : c.edge? i = some e) (hop : c.op? e.target = some .guard) {m : NodeId}
    (hm : m ∈ c.valueSources e.target) (hreads : c.Reads m d) : c.Defined l d := by
  obtain ⟨s, hs⟩ := h.tidy.watching hop
  obtain ⟨hnew, i', e', hexits⟩ := h.new_of_guard t hop
  have hexit : (i', e') ∈ c.exits e.target := hexits ▸ List.mem_singleton_self _
  have hnext : e'.target = s := hs.next _ hexit
  have hedge := (h.descends.consistent.mem_exits.mp hexit).1
  obtain ⟨e₀, he₀, rfl⟩ := List.mem_map.mp hm
  obtain ⟨-, hsource⟩ := h.source_of_watches hs he₀
  rw [← hnext] at hsource
  refine h.defined_of_reads t (hpath.step hi hexit) hedge (.inl ?_)
    (outside_concat_of_mem l hnew) hsource hreads
  rw [hnext]
  exact hs.op

theorem defined (h : g.Rewrites c moves) (t : Translation code g) (hpath : c.Path l i)
    (hi : c.edge? i = some e) (hop : c.op? e.target = some .send ∨ c.op? e.target = some .guard ∨
      c.op? e.target = some .branch) (huses : c.Uses e.target d) : c.Defined l d := by
  have hdefined : c.Reads d d → c.Defined l d := by
    intro hreads
    obtain ⟨m, hm, hreads⟩ := huses.reads hreads
    rcases hop with hop | hop | hop
    · exact h.defined_of_reads t hpath hi (.inl hop) rfl hm hreads
    · exact h.defined_of_guard t hpath hi hop hm hreads
    · exact h.defined_of_reads t hpath hi (.inr hop) rfl hm hreads
  exact ⟨fun hsend => (hdefined (.send hsend)).1 hsend, fun hphi => (hdefined (.phi hphi)).2 hphi⟩

end Graph.Rewrites

/-- Compiled code uses no value before it is defined. Each path to a send, guard or branch has
passed the sends, and the regions of the phis, whose values it uses. -/
theorem Code.defined_before_use {code : Code} {g : Graph} (hg : code.graph = .ok g)
    (o : CompileOptions) (profile : Option Profile) :
    ∃ c, code.compile o profile = .ok c ∧ ∀ {u d : NodeId} {l : List (NodeId × Role)} {i : EdgeId}
      {e : Edge}, c.op? u = some .send ∨ c.op? u = some .guard ∨ c.op? u = some .branch →
        c.Uses u d → c.Path l i → c.edge? i = some e → e.target = u → c.Defined l d := by
  obtain ⟨t⟩ := Code.exists_translation hg
  obtain ⟨moves, h⟩ := t.rewritten_optimize o profile
  refine ⟨_, compile_of_graph hg o profile, fun hop huses hpath hi htarget => ?_⟩
  subst htarget
  exact h.defined t hpath hi hop huses

/-- The loop counter is a phi, and control passes its region before the first send. -/
theorem Code.defined_before_use_drain :
    ∃ c, Code.drain.compile { safepoints := false } none = .ok c ∧ c.op? 7 = some .send ∧
      c.op? 13 = some .phi ∧ c.Uses 7 13 ∧ c.Path [(0, .control), (4, .control)] 2 ∧
      c.Defined [(0, .control), (4, .control)] 13 := by
  obtain ⟨g, hg⟩ := Code.exists_graph_drain
  obtain ⟨c, hc, hall⟩ := Code.defined_before_use hg { safepoints := false } none
  have hfacts : (Code.drain.compile { safepoints := false } none).toOption.all (fun c =>
      c.start == 0 && c.exits 0 == [(21, .control 0 4)] && c.exits 4 == [(2, .control 4 7)] &&
        c.edge? 21 == some (.control 0 4) && c.edge? 2 == some (.control 4 7) &&
        c.op? 7 == some .send && c.op? 13 == some .phi && c.valueSources 7 == [6, 13]) = true := by
    decide +kernel
  rw [hc] at hfacts
  simp only [Except.toOption, Option.all_some, Bool.and_eq_true, beq_iff_eq] at hfacts
  obtain ⟨⟨⟨⟨⟨⟨⟨hstart, hexit⟩, hexit'⟩, hedge⟩, hedge'⟩, hsend⟩, hphi⟩, hsources⟩ := hfacts
  have hfirst : (21, Edge.control 0 4) ∈ c.exits c.start := by simp [hstart, hexit]
  have hsecond : (2, Edge.control 4 7) ∈ c.exits (Edge.control 0 4).target := by
    simp [Edge.control, hexit']
  have hpath : c.Path [(0, .control), (4, .control)] 2 := by
    have hpath := (Graph.Path.start hfirst).step hedge hsecond
    rwa [hstart] at hpath
  have huses : c.Uses 7 13 := .operand (by simp [hsources])
  exact ⟨c, hc, hsend, hphi, huses, hpath, hall (.inl hsend) huses hpath hedge' rfl⟩

end StackJit
