import StackJit.Proofs.WellFormed

/-!
# The order of operands

A forwarding takes the operands that it touches to the end of their list. So the passes keep the
operands of a node, and not their order: those that were not forwarded come first, as they stood in
the graph of the method, and the forwarded ones follow (`Code.argSources_compile`). A send may get
its arguments in another order than that of the call (`Code.argSources_handOver`).

Phis and the finish node choose by position among their values, and the entries of a region change
their order too when control is led past a node. Compiled code answers what the method answers where
values and entries stay in step (`Code.reaches_of_compile`), as they do if neither changes its order
(`Graph.pairs_of_order`). Where they do not it may answer something else (`Code.compile_override`).
-/

namespace StackJit

namespace Graph

/-- `σ` leads what was forwarded to what took its place: a placeholder to its source, a phi to its
only choice, and what is still there to itself. -/
structure Resolves (g c : Graph) (σ : NodeId → NodeId) : Prop where
  live : ∀ {n : NodeId}, ¬ c.Gone n → σ n = n
  forwarded : ∀ {n : NodeId}, σ n ≠ n → (g.op? n = some .input ∨ g.op? n = some .phi) ∧
    ∀ m ∈ g.valueSources n, σ m = σ n

/-! ## Operands that were not forwarded -/

theorem filter_requeueAll {q : Edge → Bool}
    (hq : ∀ (e : Edge) (m : NodeId), q { e with source := m } = q e) (moves : Moves)
    (es : List Edge) : (requeueAll moves es).filter q = requeueAll moves (es.filter q) := by
  induction moves using List.reverseRecOn with
  | nil => rfl
  | append_singleton moves mv ih => rw [requeueAll_concat, requeueAll_concat, filter_requeue hq, ih]

/-- The operands that no forwarding touches stay in front. -/
theorem requeueAll_eq_append (moves : Moves) (es : List Edge) :
    ∃ rest, requeueAll moves es = es.filter (fun e => moves.all (·.1 != e.source)) ++ rest := by
  induction moves using List.reverseRecOn with
  | nil => exact ⟨[], by simp [requeueAll]⟩
  | append_singleton moves mv ih =>
    obtain ⟨rest, hrest⟩ := ih
    rw [requeueAll_concat, hrest, requeue, List.filter_append, List.filter_filter,
      List.append_assoc]
    refine ⟨_, congrArg (· ++ _) ?_⟩
    apply List.filter_congr
    intro e _
    rw [List.all_append, List.all_cons, List.all_nil, Bool.and_true, Bool.and_comm, bne_comm]

namespace Rewrites

variable {code : Code} {g c : Graph} {moves : Moves} {s : NodeId}

theorem resolves (h : g.Rewrites c moves) : g.Resolves c (follow moves) where
  live := h.forwards.follow_of_live
  forwarded hne := ⟨h.forwards.op_of_moved hne, h.forwards.moved hne⟩

/-- The operands of a send in a role are those of the method's graph, moved as the forwardings move
them. -/
theorem filter_role_eq (h : g.Rewrites c moves) (t : Translation code g)
    (hop : g.op? s = some .send) {role : Role} (hrole : role ≠ .control) :
    (c.inputs s).filter (·.input == role) =
      requeueAll moves ((g.inputs s).filter (·.input == role)) := by
  have hlive : ¬ c.Gone s := h.threads.kept hop rfl
  have hoperands := h.forwards.operands (op?_lt hop) hlive (t.valued hop (by simp))
  rw [(h.realizes t).filter_role hrole, t.realizes.filter_role hrole]
  change (c.operands s).filter _ = requeueAll moves ((g.operands s).filter _)
  rw [hoperands, filter_requeueAll fun _ _ => rfl]

theorem args_eq (h : g.Rewrites c moves) (t : Translation code g) (hop : g.op? s = some .send) :
    (c.inputs s).filter (·.input == .args) =
      requeueAll moves ((g.inputs s).filter (·.input == .args)) :=
  h.filter_role_eq t hop (by simp)

theorem argSources_perm (h : g.Rewrites c moves) (t : Translation code g)
    (hop : g.op? s = some .send) :
    (c.argSources s).Perm ((g.argSources s).map (follow moves)) := by
  have hperm := (perm_requeueAll moves ((g.inputs s).filter (·.input == .args))).map (·.source)
  rw [argSources, h.args_eq t hop, argSources, List.map_map]
  rw [List.map_map] at hperm
  exact hperm

/-- First come the arguments that were not forwarded, in the order of the call. -/
theorem argSources_eq_append (h : g.Rewrites c moves) (t : Translation code g)
    (hop : g.op? s = some .send) :
    ∃ rest, c.argSources s = (g.argSources s).filter (fun n => !c.isRemoved n) ++ rest := by
  obtain ⟨rest, hrest⟩ := requeueAll_eq_append moves ((g.inputs s).filter (·.input == .args))
  have hargs := (h.args_eq t hop).trans hrest
  have hkept : ((g.inputs s).filter (·.input == .args)).filter
      (fun e => moves.all (·.1 != e.source)) =
        ((g.inputs s).filter (·.input == .args)).filter fun e => !c.isRemoved e.source := by
    apply List.filter_congr
    intro e he
    rw [Bool.eq_iff_iff, List.all_eq_true, Bool.not_eq_true']
    constructor
    · intro hfree
      -- an argument in front is one of the compiled send, and those are not removed
      have hmem : e ∈ (c.inputs s).filter (·.input == .args) := by
        rw [hargs]
        exact List.mem_append_left _ (List.mem_filter.mpr ⟨he, List.all_eq_true.mpr hfree⟩)
      obtain ⟨-, i, hi⟩ := h.descends.consistent.mem_inputs.mp (List.mem_filter.mp hmem).1
      exact (h.descends.ends hi).1
    · intro hlive mv hmv
      rw [bne_iff_ne]
      intro heq
      have hgone := (h.forwards.sources mv hmv).2.1
      rw [heq, Gone, hlive] at hgone
      cases hgone
  refine ⟨rest.map (·.source), ?_⟩
  rw [argSources, hargs, hkept, List.map_append, argSources, List.filter_map]
  rfl

/-- After them come the nodes that took the place of the others. -/
theorem perm_rest (h : g.Rewrites c moves) (t : Translation code g) (hop : g.op? s = some .send)
    {rest : List NodeId}
    (hrest : c.argSources s = (g.argSources s).filter (fun n => !c.isRemoved n) ++ rest) :
    rest.Perm (((g.argSources s).filter c.isRemoved).map (follow moves)) := by
  have hfront : ((g.argSources s).filter fun n => !c.isRemoved n).map (follow moves) =
      (g.argSources s).filter fun n => !c.isRemoved n := by
    refine (List.map_congr_left fun n hn => ?_).trans (List.map_id _)
    exact h.resolves.live (by simpa using (List.mem_filter.mp hn).2)
  have hsplit := (List.filter_append_perm (fun n => !c.isRemoved n) (g.argSources s)).map
    (follow moves)
  rw [List.map_append, hfront] at hsplit
  have hperm := (h.argSources_perm t hop).trans hsplit.symm
  rw [hrest, List.perm_append_left_iff] at hperm
  simpa using hperm

end Rewrites

end Graph

/-- Where every way out of a method returns, the finish node too is given values. -/
theorem Translation.valued_of_returns {code : Code} {g : Graph} (t : Translation code g)
    (hreturns : code.Returns) {n : NodeId} {op : Op} (hop : g.op? n = some op) : g.Valued n := by
  by_cases hfinish : op = .finish
  · obtain rfl : n = 1 := by
      subst hfinish
      rcases t.ops hop with ⟨-, h⟩ | ⟨h, -⟩ | h | h | h | h
      · cases h
      · exact h
      all_goals cases h
    intro m hm
    have hinputs := t.inputs_finish fun b hb => (t.returns hreturns b hb).1
    obtain ⟨-, -, b, fb, hb, -, rest, hstack⟩ := exists_left_of_forall₂ hinputs hm
    have hslot : fb.exit.slot (.operand 0) = some m := by
      rw [Context.slot, hstack]
      rfl
    obtain ⟨op, hop, hvalue⟩ := Assembly.operand_of_exit t.assembled hb.mem hb.table hslot
    exact ⟨op, t.extends_parts.op_some hop, hvalue⟩
  · exact t.valued hop hfinish

namespace Code

variable {code : Code} {g : Graph}

/-! ## The arguments of a send -/

/-- Compiling keeps the arguments of each send: in front, in the order of the call, those that are
still there, and after them what took the place of the others. -/
theorem argSources_compile (hg : code.graph = .ok g) (o : CompileOptions)
    (profile : Option Profile) :
    ∃ c σ, code.compile o profile = .ok c ∧ g.Resolves c σ ∧ ∀ s, c.op? s = some .send →
      (∀ n ∈ g.argSources s, ¬ c.Gone (σ n)) ∧
        ∃ rest, c.argSources s = (g.argSources s).filter (fun n => !c.isRemoved n) ++ rest ∧
          rest.Perm (((g.argSources s).filter c.isRemoved).map σ) := by
  obtain ⟨t⟩ := exists_translation hg
  obtain ⟨moves, h⟩ := t.rewritten_optimize o profile
  refine ⟨_, _, compile_of_graph hg o profile, h.resolves, fun s hop => ?_⟩
  have hop' := h.op_old hop (by simp) (by simp)
  refine ⟨fun n hn => ?_, ?_⟩
  · have hmem := (h.argSources_perm t hop').mem_iff.mpr (List.mem_map_of_mem hn)
    exact (h.realizes t).live_of_arg hmem
  · obtain ⟨rest, hrest⟩ := h.argSources_eq_append t hop'
    exact ⟨rest, hrest, h.perm_rest t hop' hrest⟩

/-- Pushes the receiver and an argument in one block, and sends with one more in the next. -/
def handOver : Code :=
  #[.self, .push (.int 1), .jump 3, .push (.int 2), .send "f" 2, .ret]

/-- The arguments of the only send of `handOver`, before and after the passes. -/
theorem exists_handOver :
    ∃ g c, handOver.graph = .ok g ∧ handOver.compile {} none = .ok c ∧ c.op? 8 = some .send ∧
      g.argSources 8 = [9, 7] ∧ g.valueSources 9 = [4] ∧ c.argSources 8 = [7, 4] ∧
      c.isRemoved 4 = false ∧ c.isRemoved 7 = false := by
  have hbefore : handOver.graph.toOption.any (fun g =>
      g.argSources 8 == [9, 7] && g.valueSources 9 == [4]) = true := by decide +kernel
  have hafter : (handOver.compile {} none).toOption.any (fun c => c.op? 8 == some .send &&
      c.argSources 8 == [7, 4] && !c.isRemoved 4 && !c.isRemoved 7) = true := by decide +kernel
  cases hg : handOver.graph with
  | error e =>
    rw [hg] at hbefore
    cases hbefore
  | ok g =>
    rw [hg] at hbefore
    rw [compile_of_graph hg] at hafter
    simp only [Except.toOption, Option.any_some, Bool.and_eq_true, beq_iff_eq,
      Bool.not_eq_true'] at hbefore hafter
    obtain ⟨hargs, hsource⟩ := hbefore
    obtain ⟨⟨⟨hop, hargs'⟩, h4⟩, h7⟩ := hafter
    exact ⟨g, _, rfl, compile_of_graph hg {} none, hop, hargs, hsource, hargs', h4, h7⟩

theorem argSources_compile_handOver :
    ∃ g c σ, handOver.graph = .ok g ∧ handOver.compile {} none = .ok c ∧ g.Resolves c σ ∧
      c.op? 8 = some .send ∧
      ∃ rest, c.argSources 8 = (g.argSources 8).filter (fun n => !c.isRemoved n) ++ rest ∧
        rest.Perm (((g.argSources 8).filter c.isRemoved).map σ) := by
  obtain ⟨g, c, hg, hc, hop, -⟩ := exists_handOver
  obtain ⟨c', σ, hc', hresolves, hargs⟩ := argSources_compile hg {} none
  obtain rfl : c = c' := Except.ok.inj (hc.symm.trans hc')
  exact ⟨g, c, σ, hg, hc, hresolves, hop, (hargs 8 hop).2⟩

/-- The first argument of the call comes last: it was a placeholder. -/
theorem argSources_handOver :
    ∃ g c, handOver.graph = .ok g ∧ handOver.compile {} none = .ok c ∧ c.op? 8 = some .send ∧
      ∀ σ, g.Resolves c σ → c.argSources 8 ≠ (g.argSources 8).map σ := by
  obtain ⟨g, c, hg, hc, hop, hargs, hsource, hargs', h4, -⟩ := exists_handOver
  refine ⟨g, c, hg, hc, hop, fun σ hσ heq => ?_⟩
  rw [hargs, hargs'] at heq
  have h9 : 7 = σ 9 := (List.cons.inj heq).1
  have hmoved := (hσ.forwarded (n := 9) (by rw [← h9]; decide)).2 4 (by simp [hsource])
  rw [hσ.live (by simp [h4]), ← h9] at hmoved
  cases hmoved

/-! ## The values of a phi -/

/-- The order of values is all that can go wrong. A node that is still there has the values that it
had in the method's graph, in some order; and where the values that phis and the finish node choose
among are in step with control, compiled code answers what the method answers. -/
theorem reaches_of_compile (hg : code.graph = .ok g) (hpos : 0 < code.size)
    (hreturns : code.Returns) (o : CompileOptions) (profile : Option Profile) :
    ∃ c σ, code.compile o profile = .ok c ∧ g.Resolves c σ ∧
      (∀ {n : NodeId} {op : Op}, g.op? n = some op → ¬ c.Gone n →
        (c.valueSources n).Perm ((g.valueSources n).map σ)) ∧
      (g.Pairs c σ → ∀ (receiver : Value) (args : List Value), args.length ≤ 2 ^ 64 →
        ∀ {budget : Nat} {v : Value},
          (Activation.mk code receiver args).resume budget .entry = some (.ok v) →
            (Execution.mk c receiver args).Reaches v) := by
  obtain ⟨t⟩ := exists_translation hg
  obtain ⟨moves, h⟩ := t.rewritten_optimize o profile
  refine ⟨_, _, compile_of_graph hg o profile, h.resolves, fun hop hlive => ?_, ?_⟩
  · exact h.forwards.valueSources_perm (Graph.op?_lt hop) hlive (t.valued_of_returns hreturns hop)
  intro hpairs receiver args hargs budget v hrun
  rw [Activation.resume_entry] at hrun
  have hsame : Translation.SameInputs ⟨o.optimize profile g, receiver, args⟩
      ⟨code, receiver, args⟩ :=
    ⟨rfl, rfl, hargs⟩
  exact t.reaches_of_run (h.realizes t) hpairs hsame rfl hpos (t.returns hreturns) hrun

end Code

namespace Graph

/-- Control that has left a node in a role has come to an edge. -/
abbrev Arrival := NodeId × Role × EdgeId

/-- The edges by which control leaves the nodes. -/
def departures (g : Graph) : List Arrival :=
  (List.range g.nodes.size).flatMap fun x => (g.exits x).map fun p => (x, p.2.output, p.1)

/-- Where control goes on that has come to a node of `P`. -/
def onward (g : Graph) (P : NodeId → Bool) (a : Arrival) : List Arrival :=
  match g.edge? a.2.2 with
  | some e => if P e.target then (g.exits e.target).map fun p => (a.1, a.2.1, p.1) else []
  | none => []

/-- Where control comes to, found by going on from everything known as often as there are nodes. -/
def arrivals (g : Graph) (P : NodeId → Bool) : List Arrival :=
  Nat.repeat (fun known : List Arrival => known ∪ known.flatMap (g.onward P)) g.nodes.size
    g.departures

/-- Nothing that control can come to is missing. -/
def Covers (g : Graph) (P : NodeId → Bool) (known : List Arrival) : Prop :=
  (∀ a ∈ g.departures, a ∈ known) ∧ ∀ a ∈ known, ∀ a' ∈ g.onward P a, a' ∈ known

/-- Control enters every node of `c` in the place in which it enters the node in `g`. -/
def EntersInOrder (g c : Graph) (before after : List Arrival) : Prop :=
  g.Covers c.isRemoved before ∧ c.Covers (fun n => decide (g.nodes.size ≤ n)) after ∧
    ∀ a ∈ after, ∀ b ∈ before, a.1 = b.1 → a.2.1 = b.2.1 → ∀ y < c.nodes.size,
      ∀ k ∈ c.position? y a.2.2, ∀ l ∈ g.position? y b.2.2, k = l

instance (g : Graph) (P : NodeId → Bool) (known : List Arrival) : Decidable (g.Covers P known) :=
  inferInstanceAs (Decidable (_ ∧ _))

instance (g c : Graph) (before after : List Arrival) :
    Decidable (g.EntersInOrder c before after) :=
  inferInstanceAs (Decidable (_ ∧ _ ∧ _))

theorem lt_of_mem_exits {g : Graph} {x : NodeId} {p : EdgeId × Edge} (h : p ∈ g.exits x) :
    x < g.nodes.size := by
  by_contra hge
  have hnone : g.node? x = none := Array.getElem?_eq_none (Nat.le_of_not_lt hge)
  simp [exits, edgesOutOf, hnone] at h

theorem lt_of_position {g : Graph} {y : NodeId} {i : EdgeId} {k : Nat}
    (h : g.position? y i = some k) : y < g.nodes.size := by
  by_contra hge
  have hnone : g.node? y = none := Array.getElem?_eq_none (Nat.le_of_not_lt hge)
  simp [position?, enters, edgesInto, hnone] at h

theorem Arrives.mem_of_covers {g : Graph} {Q : NodeId → Prop} {P : NodeId → Bool}
    {known : List Arrival} {x : NodeId} {ρ : Role} {i : EdgeId} (h : g.Arrives Q x ρ i)
    (hknown : g.Covers P known) (hP : ∀ {n : NodeId}, Q n → P n = true) : (x, ρ, i) ∈ known := by
  induction h with
  | @exit i e he hrole =>
    refine hknown.1 _ (List.mem_flatMap.mpr ⟨x, List.mem_range.mpr (lt_of_mem_exits he), ?_⟩)
    exact List.mem_map.mpr ⟨(i, e), he, by rw [hrole]⟩
  | @pass i j e e' _ hi hQ he ih =>
    refine hknown.2 _ ih _ ?_
    simp only [onward, hi, hP hQ, if_true]
    exact List.mem_map.mpr ⟨(j, e'), he, rfl⟩

/-- Values and control stay in step if neither changes its order. -/
theorem pairs_of_order {g c : Graph} {σ : NodeId → NodeId} {before after : List Arrival}
    (horder : g.EntersInOrder c before after)
    (hvalues : ∀ p, c.op? p = some .phi ∨ p = g.finish →
      c.valueSources p = (g.valueSources p).map σ) : g.Pairs c σ := by
  intro y x ρ i j k l hafter hbefore hk hl p hp
  obtain ⟨hcovers, hcovers', hplace⟩ := horder
  have hi := hafter.mem_of_covers hcovers' fun hnew => decide_eq_true hnew
  have hj := hbefore.mem_of_covers hcovers fun hgone => hgone
  obtain rfl : k = l := hplace _ hi _ hj rfl rfl y (lt_of_position hk) k hk l hl
  have hchoice : c.op? p = some .phi ∨ p = g.finish := by
    rcases hp with hp | ⟨rfl, rfl⟩
    · obtain ⟨e, he, rfl⟩ := List.mem_map.mp hp
      obtain ⟨-, htrue⟩ := List.mem_filter.mp he
      rw [Bool.and_eq_true, Graph.hasOp_iff] at htrue
      exact .inl htrue.2
    · exact .inr rfl
  rw [hvalues p hchoice, List.getElem?_map]

end Graph

namespace Code

/-- Answers two where the argument is true, and one otherwise. -/
def twoWay : Code :=
  #[.arg 0, .branch 5, .push (.int 1), .store "x", .jump 7, .push (.int 2), .store "x", .load "x",
    .ret]

/-- The graph of `twoWay` has one phi. Neither its values nor the entries of its region change their
order. -/
theorem exists_twoWay :
    ∃ g c, twoWay.graph = .ok g ∧ twoWay.compile {} none = .ok c ∧
      g.EntersInOrder c (g.arrivals c.isRemoved) (c.arrivals fun n => decide (g.nodes.size ≤ n)) ∧
      c.phis 10 = [12] ∧ (∀ n < c.nodes.size, c.op? n = some .phi → n = 12) ∧
      g.valueSources 12 = [6, 9] ∧ c.valueSources 12 = [6, 9] ∧ ¬ c.Gone 6 ∧ ¬ c.Gone 9 ∧
      g.finish = 1 ∧ g.op? 1 = some .finish ∧ ¬ c.Gone 1 ∧
      g.valueSources 1 = [11] ∧ c.valueSources 1 = [12] := by
  have hcheck : twoWay.graph.toOption.any (fun g => (twoWay.compile {} none).toOption.any fun c =>
      decide (g.EntersInOrder c (g.arrivals c.isRemoved)
        (c.arrivals fun n => decide (g.nodes.size ≤ n)) ∧
      c.phis 10 = [12] ∧ (∀ n < c.nodes.size, c.op? n = some .phi → n = 12) ∧
      g.valueSources 12 = [6, 9] ∧ c.valueSources 12 = [6, 9] ∧ ¬ c.Gone 6 ∧ ¬ c.Gone 9 ∧
      g.finish = 1 ∧ g.op? 1 = some .finish ∧ ¬ c.Gone 1 ∧
      g.valueSources 1 = [11] ∧ c.valueSources 1 = [12])) = true := by decide +kernel
  cases hg : twoWay.graph with
  | error e =>
    rw [hg] at hcheck
    cases hcheck
  | ok g =>
    rw [hg, compile_of_graph hg] at hcheck
    exact ⟨g, _, rfl, compile_of_graph hg {} none, of_decide_eq_true hcheck⟩

theorem reaches_of_compile_twoWay :
    ∃ g c σ, twoWay.graph = .ok g ∧ twoWay.compile {} none = .ok c ∧ c.phis 10 = [12] ∧
      g.Pairs c σ ∧
      (Activation.mk twoWay .nil [.bool true]).resume 7 .entry = some (.ok (.int 2)) ∧
      (Execution.mk c .nil [.bool true]).Reaches (.int 2) ∧
      (Activation.mk twoWay .nil [.bool false]).resume 8 .entry = some (.ok (.int 1)) ∧
      (Execution.mk c .nil [.bool false]).Reaches (.int 1) := by
  have hrun : (Activation.mk twoWay .nil [.bool true]).resume 7 .entry = some (.ok (.int 2)) := by
    decide +kernel
  have hrun' : (Activation.mk twoWay .nil [.bool false]).resume 8 .entry = some (.ok (.int 1)) := by
    decide +kernel
  obtain ⟨g, c, hg, hc, horder, hregion, hphi, hchoices, hchoices', h6, h9, hfinish, hop,
    h1, hvalue, hvalue'⟩ := exists_twoWay
  obtain ⟨c', σ, hc', hresolves, hperm, hreaches⟩ :=
    reaches_of_compile hg (by decide) (by decide +kernel) {} none
  obtain rfl : c = c' := Except.ok.inj (hc.symm.trans hc')
  have hpairs : g.Pairs c σ := by
    refine Graph.pairs_of_order horder fun p hp => ?_
    rcases hp with hp | rfl
    · rw [hphi p (Graph.op?_lt hp) hp, hchoices, hchoices']
      simp [hresolves.live h6, hresolves.live h9]
    · have hperm := hperm hop h1
      rw [hvalue, hvalue', List.map_singleton] at hperm
      rw [hfinish, hvalue, hvalue', List.map_singleton]
      exact List.perm_singleton.mp hperm
  exact ⟨g, c, σ, hg, hc, hregion, hpairs, hrun, hreaches hpairs .nil _ (by decide) hrun, hrun',
    hreaches hpairs .nil _ (by decide) hrun'⟩

/-- Answers one, or two where the argument is true. -/
def override : Code :=
  #[.push (.int 1), .store "x", .arg 0, .branch 5, .jump 7, .push (.int 2), .store "x", .load "x",
    .ret]

/-- The compiled code of `override` answers one where the argument is true: the value that the first
block passes on became the second choice of the phi. -/
theorem compile_override :
    ∃ c, override.compile {} none = .ok c ∧ override.Returns ∧
      (Activation.mk override .nil [.bool true]).resume 8 .entry = some (.ok (.int 2)) ∧
      (Execution.mk c .nil [.bool true]).Reaches (.int 1) ∧
      ¬ (Execution.mk c .nil [.bool true]).Reaches (.int 2) := by
  have hafter : (override.compile {} none).toOption.any (fun c =>
      decide ((Execution.mk c .nil [.bool true]).answer? 5 10 = some (.ok (.int 1)))) = true := by
    decide +kernel
  cases hc : override.compile {} none with
  | error e =>
    rw [hc] at hafter
    cases hafter
  | ok c =>
    rw [hc] at hafter
    have hanswer := of_decide_eq_true hafter
    refine ⟨c, rfl, by decide +kernel, by decide +kernel, ⟨5, 10, hanswer⟩, ?_⟩
    rintro ⟨d, budget, hanswer'⟩
    cases Execution.answer?_unique hanswer hanswer'

end Code

end StackJit
