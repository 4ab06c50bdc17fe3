import Mathlib.Data.Set.Function
import StackJit.Proofs.Acceptance
import StackJit.Proofs.Reached
import StackJit.Proofs.Runs

/-!
# Send sites

A send site is the index of a send in the live part of a block that control can reach
(`Code.sendSites`). Each site has one node in the graph of the method, which carries the name, the
number of arguments and the index of its instruction (`Translation.SendNode`); there are no other
sends in the graph, and passes keep them all. The machine dispatches sends at these sites only,
since it always stands at a live instruction (`Translation.Covered`).

Main statement: `Code.bijOn_sends`.
-/

namespace StackJit

/-- The index is that of a live instruction of a block that control can reach. -/
def Code.IsLive (code : Code) (i : Nat) : Prop :=
  ∃ all, code.blocks = .ok all ∧ ∃ b ∈ Block.reachable all code.size,
    b.start ≤ i ∧ i < b.start + b.live.length

/-- The indices of the live sends. -/
def Code.sendSites (code : Code) : Set Nat :=
  {i | code.IsLive i ∧ ∃ name argc, code[i]? = some (.send name argc)}

namespace Translation

variable {code : Code} {g : Graph} {t : Translation code g} {i j : Nat} {n m : NodeId}

theorem isLive_iff (t : Translation code g) :
    code.IsLive i ↔ ∃ b ∈ t.blocks, ∃ k < b.live.length, i = b.start + k := by
  obtain ⟨all, hall, hblocks⟩ := t.found
  rw [hblocks]
  constructor
  · rintro ⟨all', hall', b, hb, hle, hlt⟩
    obtain rfl : all' = all := Except.ok.inj (hall'.symm.trans hall)
    exact ⟨b, hb, i - b.start, by omega, by omega⟩
  · rintro ⟨b, hb, k, hk, rfl⟩
    exact ⟨all, hall, b, hb, by omega, by omega⟩

/-- `n` is the node of the send at the index `i`. -/
def SendNode (t : Translation code g) (i : Nat) (n : NodeId) : Prop :=
  ∃ b ∈ t.blocks, ∃ k < b.live.length, i = b.start + k ∧ n = (t.context b (k + 1)).control ∧
    ∃ name argc, b.live[k]? = some (.send name argc)

theorem exists_sendNode (t : Translation code g) (hi : i ∈ code.sendSites) :
    ∃ n, t.SendNode i n := by
  obtain ⟨hlive, name, argc, hsend⟩ := hi
  obtain ⟨b, hb, k, hk, rfl⟩ := t.isLive_iff.mp hlive
  refine ⟨_, b, hb, k, hk, rfl, rfl, name, argc, ?_⟩
  rw [(t.layout.fits b hb).live_at k hk]
  exact hsend

/-- What a send makes of control, and what its node carries. -/
theorem send_context {b : Block} {k : Nat} (hb : b ∈ t.blocks) (hk : k < b.live.length)
    {name : String} {argc : Nat} (hsend : b.live[k]? = some (.send name argc)) :
    ∃ (receiver : NodeId) (args : List NodeId), args.length = argc ∧
      (t.context b k).control < (t.context b (k + 1)).control ∧
      g.label? (t.context b (k + 1)).control = some (.send,
        [("name", .symbol name), ("argc", .ofNat argc), ("ip", .ofNat (b.start + k))]) ∧
      g.inputs (t.context b (k + 1)).control =
        .value receiver (t.context b (k + 1)).control .receiver ::
          args.map (fun arg => .value arg (t.context b (k + 1)).control .args) ++
            [.control (t.context b k).control (t.context b (k + 1)).control] := by
  obtain ⟨instr, hinstr, hstep⟩ := step_context hb hk
  obtain rfl : instr = .send name argc := Option.some.inj (hinstr.symm.trans hsend)
  generalize t.context b (k + 1) = s at hstep ⊢
  cases hstep with
  | send top label inputs after => exact ⟨_, _, rfl, after, label, inputs⟩

/-- What the node of a send carries. -/
theorem SendNode.exists_label (h : t.SendNode i n) :
    ∃ (name : String) (receiver : NodeId) (args : List NodeId) (control : NodeId),
      code[i]? = some (.send name args.length) ∧ g.label? n =
        some (.send, [("name", .symbol name), ("argc", .ofNat args.length), ("ip", .ofNat i)]) ∧
      g.inputs n = .value receiver n .receiver :: args.map (fun arg => .value arg n .args) ++
        [.control control n] := by
  obtain ⟨b, hb, k, hk, rfl, rfl, name, argc, hsend⟩ := h
  obtain ⟨receiver, args, rfl, -, hlabel, hinputs⟩ := send_context hb hk hsend
  rw [(t.layout.fits b hb).live_at k hk] at hsend
  exact ⟨name, receiver, args, _, hsend, hlabel, hinputs⟩

theorem SendNode.site (h : t.SendNode i n) : i ∈ code.sendSites := by
  obtain ⟨name, -, args, -, hsend, -⟩ := h.exists_label
  obtain ⟨b, hb, k, hk, rfl, -⟩ := h
  exact ⟨t.isLive_iff.mpr ⟨b, hb, k, hk, rfl⟩, name, args.length, hsend⟩

theorem SendNode.op (h : t.SendNode i n) : g.op? n = some .send := by
  obtain ⟨name, -, args, -, -, hlabel, -⟩ := h.exists_label
  exact Graph.op?_of_label? hlabel

/-- A site has one node. -/
theorem SendNode.unique (h : t.SendNode i n) (h' : t.SendNode i m) : n = m := by
  obtain ⟨b, hb, k, hk, rfl, rfl, -⟩ := h
  obtain ⟨b', hb', k', hk', heq, rfl, -⟩ := h'
  obtain ⟨all, hall, hblocks⟩ := t.found
  obtain ⟨hstart, rfl⟩ := eq_of_live_index hall (hblocks ▸ hb) (hblocks ▸ hb') hk hk' heq
  rw [t.layout.eq_of_start hb hb' hstart]

/-- A node belongs to one site. -/
theorem SendNode.injective (h : t.SendNode i n) (h' : t.SendNode j n) : i = j := by
  obtain ⟨b, hb, k, hk, rfl, rfl, name, argc, hsend⟩ := h
  obtain ⟨b', hb', k', hk', rfl, heq, name', argc', hsend'⟩ := h'
  obtain rfl := block_of_control hb hb' hk hk' heq
  -- of two sends of a block, the later one has the later node
  have hne : ∀ {k k' : Nat}, k < k' → k' < b.live.length → ∀ {name : String} {argc : Nat},
      b.live[k']? = some (.send name argc) →
      (t.context b (k + 1)).control ≠ (t.context b (k' + 1)).control := by
    intro k k' hlt hk' name argc hsend
    have hle := control_le hb (Nat.succ_le_of_lt hlt) (Nat.le_of_lt hk')
    obtain ⟨-, -, -, hnew, -⟩ := send_context hb hk' hsend
    exact Nat.ne_of_lt (Nat.lt_of_le_of_lt hle hnew)
  rcases Nat.lt_trichotomy k k' with hlt | rfl | hlt
  · exact absurd heq (hne hlt hk' hsend')
  · rfl
  · exact absurd heq.symm (hne hlt hk hsend)

/-- Only sends make nodes that send. -/
theorem sendNode_of_op (t : Translation code g) (hop : g.op? n = some .send) :
    ∃ i, t.SendNode i n := by
  obtain ⟨b, hb, k, hk, hnew, rfl⟩ := t.exists_instr hop rfl
  refine ⟨_, b, hb, k, hk, rfl, rfl, ?_⟩
  obtain ⟨instr, hinstr, hstep⟩ := step_context hb hk
  rw [hinstr]
  rw [Graph.op?_eq_label?] at hop
  generalize t.context b (k + 1) = after at hstep hop hnew
  cases hstep with
  | send => exact ⟨_, _, rfl⟩
  | trace label => simp [label] at hop
  | jump label => simp [label] at hop
  | branch _ label => simp [label] at hop
  | _ => exact absurd hnew (Nat.lt_irrefl _)

/-! ## The machine -/

/-- The machine dispatches live sends only. -/
theorem site_of_dispatch (t : Translation code g) {a : Activation} (hcode : a.code = code) {n : Nat}
    {f : Frame} (hafter : a.after n .entry = some f) {kind : Kind}
    (hdispatch : a.dispatch? f = some (i, kind)) : i ∈ code.sendSites := by
  have hcovered : t.Covered f := by
    refine Activation.after_induct (P := t.Covered) ?_ t.covered_entry hafter
    intro f f' hf hstep
    rcases hf.step hcode with ⟨f₁, heq, hf₁⟩ | ⟨v, heq⟩ | ⟨_, e, -, -, heq⟩
    · rw [hstep] at heq
      cases heq
      exact hf₁
    · rw [hstep] at heq
      cases heq
    · rw [hstep] at heq
      cases heq
  unfold Activation.dispatch? at hdispatch
  split at hdispatch
  · next name argc hsend =>
    obtain ⟨v, -, heq⟩ := Option.map_eq_some_iff.mp hdispatch
    obtain rfl : f.ip = i := congrArg Prod.fst heq
    rw [hcode] at hsend
    refine ⟨?_, name, argc, hsend⟩
    rcases hcovered with ⟨b, k, hat, -⟩ | hend
    · exact t.isLive_iff.mpr ⟨b, hat.mem, k, hat.lt, hat.ip⟩
    · rw [hend, Array.getElem?_eq_none (Nat.le_refl _)] at hsend
      cases hsend
  · cases hdispatch

end Translation

namespace Graph.Rewrites

variable {code : Code} {g c : Graph} {moves : Moves} {t : Translation code g} {i : Nat} {n : NodeId}

/-- Passes keep all sends, and make none. -/
theorem mem_sends_iff (h : g.Rewrites c moves) (t : Translation code g) :
    n ∈ c.nodesOf .send ↔ ∃ i, t.SendNode i n := by
  rw [mem_nodesOf]
  constructor
  · rintro ⟨-, hop⟩
    exact t.sendNode_of_op (h.op_old hop (by simp) (by simp))
  · rintro ⟨i, hi⟩
    refine ⟨h.mem_reachable_of_leads t (h.leads_old t hi.op (.inr rfl) ?_),
      h.descends.op_some hi.op⟩
    exact h.threads.kept hi.op rfl

/-- Passes keep the labels of sends and the number of their operands. -/
theorem send_label (h : g.Rewrites c moves) (hn : t.SendNode i n) {name : String} {argc : Nat}
    (hsend : code[i]? = some (.send name argc)) :
    c.prop? n "name" = some (.symbol name) ∧ c.prop? n "argc" = some (.ofNat argc) ∧
      c.prop? n "ip" = some (.ofNat i) ∧
      ((c.inputs n).filter (·.input == .receiver)).length = 1 ∧
      ((c.inputs n).filter (·.input == .args)).length = argc := by
  obtain ⟨name', receiver, args, control, hsend', hlabel, hinputs⟩ := hn.exists_label
  rw [hsend', Option.some.injEq, Instr.send.injEq] at hsend
  obtain ⟨rfl, rfl⟩ := hsend
  have hlabel' := (h.descends.label (label?_lt hlabel)).trans hlabel
  have hrole : ∀ {role : Role}, role ≠ .control → ((c.inputs n).filter (·.input == role)).length =
      (((g.inputs n).filter (·.isValue)).filter (·.input == role)).length := by
    intro role hrole
    rw [((h.realizes t).filter_role_perm hn.op (by simp)
      (h.threads.kept hn.op rfl) hrole).length_eq, List.length_map]
  refine ⟨?_, ?_, ?_, ?_, ?_⟩
  · rw [prop?_eq_label?, hlabel']
    rfl
  · rw [prop?_eq_label?, hlabel']
    rfl
  · rw [prop?_eq_label?, hlabel']
    rfl
  · rw [hrole (by simp), hinputs]
    simp [Edge.value, Edge.control, Edge.isValue, Edge.isControl, List.filter_map,
      Function.comp_def]
  · rw [hrole (by simp), hinputs]
    simp [Edge.value, Edge.control, Edge.isValue, Edge.isControl, List.filter_map,
      Function.comp_def]

end Graph.Rewrites

/-- The sends of compiled code are those of the method's send sites, each with the name, the number
of arguments and the index of its instruction, and with that many operands. A run of the method from
its first instruction dispatches sends, and lets a profile record them, at these sites only. -/
theorem Code.bijOn_sends {code : Code} {g : Graph} (hg : code.graph = .ok g) (o : CompileOptions)
    (profile : Option Profile) :
    ∃ c, code.compile o profile = .ok c ∧
      (∃ node : Nat → NodeId, Set.BijOn node code.sendSites {n | n ∈ c.nodesOf .send} ∧
        ∀ {i : Nat} {name : String} {argc : Nat}, i ∈ code.sendSites →
          code[i]? = some (.send name argc) →
            c.prop? (node i) "name" = some (.symbol name) ∧
            c.prop? (node i) "argc" = some (.ofNat argc) ∧
            c.prop? (node i) "ip" = some (.ofNat i) ∧
            ((c.inputs (node i)).filter (·.input == .receiver)).length = 1 ∧
            ((c.inputs (node i)).filter (·.input == .args)).length = argc) ∧
      ∀ (receiver : Value) (args : List Value),
        (∀ {n ip : Nat} {f : Frame} {kind : Kind},
          (Activation.mk code receiver args).after n .entry = some f →
            (Activation.mk code receiver args).dispatch? f = some (ip, kind) →
              ip ∈ code.sendSites) ∧
        ∀ {budget ip : Nat} {p : Profile} {kind : Kind},
          (ip, kind) ∈
            ((Activation.mk code receiver args).resumeProfiled budget .entry p).2.observed →
              (ip, kind) ∈ p.observed ∨ ip ∈ code.sendSites := by
  obtain ⟨t⟩ := Code.exists_translation hg
  obtain ⟨moves, h⟩ := t.rewritten_optimize o profile
  have hcompile := compile_of_graph hg o profile
  generalize o.optimize profile g = c at h hcompile
  refine ⟨c, hcompile, ?_, fun receiver args => ⟨fun hafter hdispatch =>
    t.site_of_dispatch rfl hafter hdispatch, fun {budget ip p kind} hmem => ?_⟩⟩
  · have hnode : ∀ i, ∃ n, i ∈ code.sendSites → t.SendNode i n := by
      intro i
      by_cases hi : i ∈ code.sendSites
      · obtain ⟨n, hn⟩ := t.exists_sendNode hi
        exact ⟨n, fun _ => hn⟩
      · exact ⟨0, fun h => absurd h hi⟩
    choose node hnode using hnode
    refine ⟨node, ⟨?_, ?_, ?_⟩, fun hi hsend => h.send_label (hnode _ hi) hsend⟩
    · intro i hi
      exact (h.mem_sends_iff t).mpr ⟨i, hnode i hi⟩
    · intro i hi j hj heq
      exact (hnode i hi).injective (heq ▸ hnode j hj)
    · intro n hn
      obtain ⟨i, hi⟩ := (h.mem_sends_iff t).mp hn
      exact ⟨i, hi.site, (hnode i hi.site).unique hi⟩
  · rw [Activation.resumeProfiled_entry] at hmem
    rcases Activation.dispatched_of_observed hmem with hp | ⟨n, f, hafter, hdispatch⟩
    · exact .inl hp
    · exact .inr (t.site_of_dispatch rfl hafter hdispatch)

/-- Adds one to its argument. What follows the answer is not live. -/
def Code.successor : Code := #[.arg 0, .push (.int 1), .send "+" 1, .ret, .self, .send "-" 0]

/-- The send that runs has a node, and a run records it. The other send has none. -/
theorem Code.bijOn_sends_successor :
    ∃ c node, Code.successor.compile {} none = .ok c ∧
      Set.BijOn node Code.successor.sendSites {n | n ∈ c.nodesOf .send} ∧
      2 ∈ Code.successor.sendSites ∧ 5 ∉ Code.successor.sendSites ∧
      c.prop? (node 2) "name" = some (.symbol "+") ∧ c.prop? (node 2) "ip" = some (.ofNat 2) ∧
      ((c.inputs (node 2)).filter (·.input == .args)).length = 1 ∧
      ((Activation.mk Code.successor .nil [.int 41]).resumeProfiled 4 .entry .empty).2.observed =
        [(2, .int)] := by
  obtain ⟨g, hg⟩ : ∃ g, Code.successor.graph = .ok g := Code.exists_graph (by decide +kernel)
  obtain ⟨c, hc, ⟨node, hbij, hlabel⟩, hruns⟩ := Code.bijOn_sends hg {} none
  have hobserved : ((Activation.mk Code.successor .nil [.int 41]).resumeProfiled 4 .entry
      .empty).2.observed = [(2, .int)] := by
    decide +kernel
  have hmem : (2, Kind.int) ∈ ((Activation.mk Code.successor .nil [.int 41]).resumeProfiled 4 .entry
      .empty).2.observed := by
    rw [hobserved]
    exact List.mem_singleton_self _
  have hsite := ((hruns .nil [.int 41]).2 hmem).resolve_left List.not_mem_nil
  have hdead : 5 ∉ Code.successor.sendSites := by
    rintro ⟨⟨all, hall, b, hb, hle, hlt⟩, -⟩
    have hfacts : Code.successor.blocks.toOption.all (fun all =>
        (Block.reachable all 6).all fun b => b.start + b.live.length ≤ 5) = true := by
      decide +kernel
    rw [hall] at hfacts
    simp only [Except.toOption, Option.all_some, List.all_eq_true, decide_eq_true_eq] at hfacts
    exact absurd (hfacts b hb) (Nat.not_le.mpr hlt)
  obtain ⟨hname, -, hip, -, hargs⟩ := hlabel hsite rfl
  exact ⟨c, node, hc, hbij, hsite, hdead, hname, hip, hargs, hobserved⟩

end StackJit
