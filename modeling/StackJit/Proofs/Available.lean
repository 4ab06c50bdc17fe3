import Mathlib.Data.Nat.Find
import StackJit.Proofs.Build.Edges
import StackJit.Proofs.Realize

/-!
# Values are available where they are known

`Translation.Route t m b k` is a path of `m` steps through the blocks of a method to instruction `k`
of the block `b`. What a context knows is computed from sends and phis that every such path has
passed (`Translation.Covers.available`). On a shortest path none of them can be the next to get a
value, so a send does not change what is known before it (`Translation.not_reads_send`), and
entering a block does not change what its phis without a choice stand for
(`Translation.not_reads_phi`).
-/

namespace StackJit

/-- The context has the node in some slot. -/
def Context.Knows (s : Context) (n : NodeId) : Prop := ∃ a, s.slot a = some n

theorem Context.knows_iff {s : Context} {n : NodeId} :
    s.Knows n ↔ n ∈ s.stack ∨ ∃ x, s.names x = some n := by
  constructor
  · rintro ⟨i | x, h⟩
    · exact .inl (List.mem_of_getElem? h)
    · exact .inr ⟨x, h⟩
  · rintro (h | ⟨x, h⟩)
    · obtain ⟨i, hi⟩ := List.mem_iff_getElem?.mp h
      exact ⟨.operand i, hi⟩
    · exact ⟨.name x, h⟩

namespace Context.Step

variable {g : Graph} {ip : Nat} {i : Instr} {s t : Context}

/-- Control stays where it is or goes on to a new node. -/
theorem control_cases (h : Context.Step g ip i s t) :
    t.control = s.control ∨ s.control < t.control ∧
      .control s.control t.control ∈ g.inputs t.control ∧
        ∃ op, g.op? t.control = some op ∧ op.isChained = true := by
  cases h with
  | trace label inputs after =>
    exact .inr ⟨after, by simp [inputs], _, Graph.op?_of_label? label, rfl⟩
  | send top label inputs after =>
    exact .inr ⟨after, by simp [inputs], _, Graph.op?_of_label? label, rfl⟩
  | jump label inputs after =>
    exact .inr ⟨after, by simp [inputs], _, Graph.op?_of_label? label, rfl⟩
  | branch top label inputs after =>
    exact .inr ⟨after, by simp [inputs], _, Graph.op?_of_label? label, rfl⟩
  | _ => exact .inl rfl

/-- Where the nodes known after an instruction come from. -/
inductive Source (g : Graph) (s t : Context) (n : NodeId) : Prop where
  | known (h : s.Knows n) : Source g s t n
  | leaf {op : Op} (hop : g.op? n = some op) (h : op = .constant ∨ op = .self ∨ op = .arg) :
      Source g s t n
  | not {m : NodeId} (hop : g.op? n = some .not) (h : s.Knows m)
      (hsource : g.valueSources n = [m]) : Source g s t n
  | send (hop : g.op? n = some .send) (h : t.control = n) : Source g s t n

theorem source (h : Context.Step g ip i s t) {n : NodeId} (hn : t.Knows n) : Source g s t n := by
  rw [knows_iff] at hn
  -- the names are those of before, but for `store`, and the stack is part of the one before
  have hname : (∃ x, s.names x = some n) → Source g s t n :=
    fun h => .known (knows_iff.mpr (.inr h))
  have hstack : n ∈ s.stack → Source g s t n := fun h => .known (knows_iff.mpr (.inl h))
  cases h with
  | trace label inputs after => exact hn.elim hstack hname
  | self label inputs =>
    rcases hn with hn | hn
    · rcases List.mem_cons.mp hn with rfl | hn
      · exact .leaf (Graph.op?_of_label? label) (by simp)
      · exact hstack hn
    · exact hname hn
  | arg label inputs =>
    rcases hn with hn | hn
    · rcases List.mem_cons.mp hn with rfl | hn
      · exact .leaf (Graph.op?_of_label? label) (by simp)
      · exact hstack hn
    · exact hname hn
  | @load _ x m known =>
    rcases hn with hn | hn
    · rcases List.mem_cons.mp hn with rfl | hn
      · exact hname ⟨x, known⟩
      · exact hstack hn
    · exact hname hn
  | @store _ x m rest top =>
    rcases hn with hn | ⟨y, hy⟩
    · exact hstack (top ▸ List.mem_cons_of_mem m hn)
    · have hy' : (if y = x then some m else s.names y) = some n := hy
      split at hy'
      · obtain rfl := Option.some.inj hy'
        exact hstack (top ▸ List.mem_cons_self)
      · exact hname ⟨y, hy'⟩
  | push label inputs =>
    rcases hn with hn | hn
    · rcases List.mem_cons.mp hn with rfl | hn
      · exact .leaf (Graph.op?_of_label? label) (by simp)
      · exact hstack hn
    · exact hname hn
  | @send _ name m receiver args rest top label inputs after =>
    rcases hn with hn | hn
    · rcases List.mem_cons.mp hn with rfl | hn
      · exact .send (Graph.op?_of_label? label) rfl
      · exact hstack (top ▸ List.mem_append_right _ (List.mem_cons_of_mem receiver hn))
    · exact hname hn
  | @not _ m operand rest top label inputs =>
    rcases hn with hn | hn
    · rcases List.mem_cons.mp hn with rfl | hn
      · refine .not (Graph.op?_of_label? label) (knows_iff.mpr (.inl (top ▸ List.mem_cons_self))) ?_
        rw [Graph.valueSources, inputs]
        rfl
      · exact hstack (top ▸ List.mem_cons_of_mem operand hn)
    · exact hname hn
  | jump label inputs after => exact hn.elim hstack hname
  | @branch _ _ m operand rest top label inputs after =>
    exact hn.elim (fun hn => hstack (top ▸ List.mem_cons_of_mem operand hn)) hname
  | ret top => exact hn.elim hstack hname

end Context.Step

namespace Translation

variable {code : Code} {g : Graph} {t : Translation code g} {b b' : Block} {f : Fragment}
  {m k k' : Nat}

/-- Nothing has been removed from the graph of a method. -/
theorem not_gone (t : Translation code g) (n : NodeId) : ¬ g.Gone n := by
  rw [Graph.Gone, t.whole n]
  exact Bool.false_ne_true

/-! ## Routes -/

/-- A path of `m` steps from the start of a method to instruction `k` of the block `b`. -/
inductive Route (t : Translation code g) : Nat → Block → Nat → Prop where
  | start {b : Block} (hb : b ∈ t.blocks) (hstart : b.start = 0) : Route t 0 b 0
  | next {m : Nat} {b : Block} {k : Nat} (h : Route t m b k) (hk : k < b.live.length) :
      Route t (m + 1) b (k + 1)
  | enter {m : Nat} {b c : Block} (h : Route t m b b.live.length) (hc : c ∈ t.blocks)
      (hsucc : c.start ∈ b.succs) : Route t (m + 1) c 0

theorem Route.mem (h : t.Route m b k) : b ∈ t.blocks := by
  induction h with
  | start hb _ => exact hb
  | next _ _ ih => exact ih
  | enter _ hc _ _ => exact hc

theorem Route.le (h : t.Route m b k) : k ≤ b.live.length := by
  cases h with
  | start => exact Nat.zero_le _
  | next _ hk => exact hk
  | enter => exact Nat.zero_le _

/-- A path to an instruction has passed those before it in the block. -/
theorem Route.back (h : t.Route m b k) (hk : k' < k) : ∃ m' < m, t.Route m' b k' := by
  induction h with
  | start => exact absurd hk (Nat.not_lt_zero _)
  | @next m b k h _ ih =>
    rcases Nat.lt_succ_iff_lt_or_eq.mp hk with hk | rfl
    · obtain ⟨m', hm', h'⟩ := ih hk
      exact ⟨m', Nat.lt_succ_of_lt hm', h'⟩
    · exact ⟨m, Nat.lt_succ_self m, h⟩
  | enter => exact absurd hk (Nat.not_lt_zero _)

/-- Every path can be replaced by a shortest one. -/
theorem Route.exists_shortest (h : t.Route m b k) :
    ∃ m', t.Route m' b k ∧ ∀ m'' < m', ¬ t.Route m'' b k := by
  classical
  have hex : ∃ m, t.Route m b k := ⟨m, h⟩
  exact ⟨Nat.find hex, Nat.find_spec hex, fun m'' hm'' => Nat.find_min hex hm''⟩

/-! ## Where control is -/

theorem step_context (hb : b ∈ t.blocks) (hk : k < b.live.length) :
    ∃ i, b.live[k]? = some i ∧
      Context.Step g (b.start + k) i (t.context b k) (t.context b (k + 1)) := by
  obtain ⟨f, hf⟩ := t.exists_has hb
  exact ⟨b.live[k], List.getElem?_eq_getElem hk, hf.trace.step (List.getElem?_eq_getElem hk)⟩

/-- Later instructions have later nodes. -/
theorem control_le (hb : b ∈ t.blocks) (hk : k ≤ k') (hk' : k' ≤ b.live.length) :
    (t.context b k).control ≤ (t.context b k').control := by
  induction hk with
  | refl => exact Nat.le_refl _
  | @step k' hk ih =>
    obtain ⟨i, -, hstep⟩ := step_context hb hk'
    refine Nat.le_trans (ih (Nat.le_of_succ_le hk')) ?_
    rcases hstep.control_cases with heq | ⟨hlt, -⟩
    · exact Nat.le_of_eq heq.symm
    · exact Nat.le_of_lt hlt

/-- Control is at the region of its block, or at a node that it came to within the block. -/
theorem control_origin (hf : t.Has b f) (hk : k ≤ b.live.length) :
    (t.context b k).control = f.region ∨
      ∃ k' < k, (t.context b k').control < (t.context b k).control ∧
        .control (t.context b k').control (t.context b k).control ∈
          g.inputs (t.context b k).control ∧
        ∃ op, g.op? (t.context b k).control = some op ∧ op.isChained = true := by
  induction k with
  | zero =>
    rw [hf.context_zero]
    exact .inl rfl
  | succ k ih =>
    obtain ⟨i, -, hstep⟩ := step_context hf.mem hk
    rcases hstep.control_cases with heq | hnew
    · rw [heq]
      rcases ih (Nat.le_of_succ_le hk) with h | ⟨k', hk', h⟩
      · exact .inl h
      · exact .inr ⟨k', Nat.lt_succ_of_lt hk', h⟩
    · exact .inr ⟨k, Nat.lt_succ_self k, hnew⟩

theorem control_ne_phi (hb : b ∈ t.blocks) (hk : k ≤ b.live.length) :
    g.op? (t.context b k).control ≠ some .phi := by
  intro hphi
  obtain ⟨f, hf⟩ := t.exists_has hb
  rcases control_origin hf hk with heq | ⟨-, -, -, -, op, hop, hchained⟩
  · rw [heq, hf.region_op] at hphi
    cases hphi
  · rw [hop] at hphi
    cases hphi
    cases hchained

theorem enters_of_chained (t : Translation code g) {n : NodeId} {op : Op}
    (hop : g.op? n = some op) (hchained : op.isChained = true) : ∃ p, g.enters n = [p] := by
  have hlt : n < t.parts.graph.nodes.size := by
    by_contra hge
    rw [(t.joined.phis (Nat.le_of_not_lt hge) hop).1] at hchained
    cases hchained
  have hop' := hop
  rw [t.extends_parts.op_of_lt hlt] at hop'
  obtain ⟨p, hp⟩ := t.assembled.chained.entered hop' hchained
  have hopen : op.isOpen = false := by
    cases op <;> first | rfl | cases hchained
  have hinputs := t.extends_parts.inputs t.assembled.consistent hop' hopen
  have hmap : (g.enters n).map (·.2) = [p.2] := by
    rw [map_enters, hinputs, ← map_enters, hp]
    rfl
  obtain ⟨q, hq, -⟩ := List.map_eq_singleton_iff.mp hmap
  exact ⟨q, hq⟩

/-- Control is at a node in one block only. -/
theorem block_of_control (hb : b ∈ t.blocks) (hb' : b' ∈ t.blocks) (hk : k ≤ b.live.length)
    (hk' : k' ≤ b'.live.length) (h : (t.context b k).control = (t.context b' k').control) :
    b = b' := by
  obtain ⟨f, hf⟩ := t.exists_has hb
  obtain ⟨f', hf'⟩ := t.exists_has hb'
  generalize hy : (t.context b k).control = y at h
  induction y using Nat.strongRecOn generalizing k k' with
  | ind y ih =>
    rcases control_origin hf hk with hr | ⟨k₁, hk₁, hlt, hin, op, hop, hchained⟩
    · rcases control_origin hf' hk' with hr' | ⟨k₂, -, -, -, op, hop, hchained⟩
      · exact hf.eq_of_region hf' (hr.symm.trans (hy.trans (h.trans hr')))
      · rw [← h, ← hy, hr, hf.region_op] at hop
        cases hop
        cases hchained
    · rcases control_origin hf' hk' with hr' | ⟨k₂, hk₂, hlt₂, hin₂, -⟩
      · rw [hy, h, hr', hf'.region_op] at hop
        cases hop
        cases hchained
      · -- the node has one control input, which comes from both of the earlier nodes
        rw [hy] at hlt hin hop
        rw [← h] at hlt₂ hin₂
        obtain ⟨p, hp⟩ := t.enters_of_chained hop hchained
        have hmem : ∀ {z : NodeId}, .control z y ∈ g.inputs y → p.2.source = z := by
          intro z hz
          obtain ⟨-, i, hi⟩ := t.consistent.mem_inputs.mp hz
          have : (i, Edge.control z y) ∈ g.enters y := t.consistent.mem_enters.mpr ⟨hi, rfl, rfl⟩
          rw [hp, List.mem_singleton] at this
          rw [← this]
          rfl
        have heq := (hmem hin).symm.trans (hmem hin₂)
        exact ih _ hlt (Nat.le_trans (Nat.le_of_lt hk₁) hk)
          (Nat.le_trans (Nat.le_of_lt hk₂) hk') rfl
          heq

/-! ## What routes have passed -/

/-- A path of `m` steps leads to where a send or a phi has just got its value. -/
inductive Executed (t : Translation code g) (m : Nat) (l : NodeId) : Prop where
  | send {b : Block} {k : Nat} (h : t.Route m b k) (hl : (t.context b k).control = l) :
      Executed t m l
  | phi {b : Block} {f : Fragment} (h : t.Route m b 0) (hf : t.Has b f) (hl : l ∈ g.phis f.region) :
      Executed t m l

theorem mem_phis (t : Translation code g) {r p : NodeId} :
    p ∈ g.phis r ↔ g.op? p = some .phi ∧ ∃ e ∈ g.inputs p, e.isControl = true ∧ e.source = r :=
  t.consistent.mem_phis

theorem mem_phis_of_decides (t : Translation code g) {r n p : NodeId} {sources : List NodeId}
    (h : g.Decides r n sources p) : p ∈ g.phis r :=
  t.mem_phis.mpr ⟨h.op, .control r p, by simp [h.choices], rfl, rfl⟩

theorem region_of_decides (t : Translation code g) {r r' n p : NodeId} {sources : List NodeId}
    (h : g.Decides r n sources p) (hr' : p ∈ g.phis r') : r' = r := by
  obtain ⟨-, e, he, hctl, rfl⟩ := t.mem_phis.mp hr'
  rw [h.choices] at he
  rcases List.mem_cons.mp he with rfl | he
  · rfl
  · obtain ⟨m, -, rfl⟩ := List.mem_map.mp he
    cases hctl

theorem valueSources_of_decides {r n p : NodeId} {sources : List NodeId}
    (h : g.Decides r n sources p) : g.valueSources p = sources ∧ g.valueSources n = [p] := by
  constructor
  · rw [Graph.valueSources, h.choices,
      List.filter_cons_of_neg (by simp [Edge.isValue, Edge.isControl, Edge.control]),
      List.filter_eq_self.mpr, List.map_map]
    · exact List.map_id _
    · intro e he
      obtain ⟨m, -, rfl⟩ := List.mem_map.mp he
      rfl
  · rw [Graph.valueSources, h.inputs]
    rfl

section Available

variable {c : Graph} {σ : NodeId → NodeId}

/-- Some path leads to instruction `k` of the block `b`, and the sends and phis that have got their
values on it are all in `A`. -/
inductive Covers (t : Translation code g) : (NodeId → Prop) → Block → Nat → Prop where
  | start {A : NodeId → Prop} {b : Block} (hb : b ∈ t.blocks) (hstart : b.start = 0) :
      Covers t A b 0
  | next {A A' : NodeId → Prop} {b : Block} {k : Nat} (h : Covers t A b k) (hk : k < b.live.length)
      (hkeep : ∀ l, A l → A' l) (hsend : A' (t.context b (k + 1)).control) : Covers t A' b (k + 1)
  | enter {A A' : NodeId → Prop} {b d : Block} {f : Fragment} (h : Covers t A b b.live.length)
      (hd : t.Has d f) (hsucc : d.start ∈ b.succs) (hkeep : ∀ l, A l → A' l)
      (hphis : ∀ p ∈ g.phis f.region, A' p) : Covers t A' d 0

theorem Covers.mem {A : NodeId → Prop} (h : t.Covers A b k) : b ∈ t.blocks := by
  induction h with
  | start hb _ => exact hb
  | next _ _ _ _ ih => exact ih
  | enter _ hd _ _ _ _ => exact hd.mem

/-- Whatever a context knows is computed from sends and phis that have got their values on the way
there. -/
theorem Covers.available {A : NodeId → Prop} (hr : g.Realizes c σ) (h : t.Covers A b k)
    {n l : NodeId} (hn : (t.context b k).Knows n) (hreads : c.Reads (σ n) l) : A l := by
  induction h generalizing n with
  | @start A b hb hstart =>
    obtain ⟨f, hf⟩ := t.exists_has hb
    obtain ⟨a, ha⟩ := hn
    rw [hf.context_zero, hf.slot_entry hstart] at ha
    cases ha
  | @next A A' b k h hk hkeep hsend ih =>
    obtain ⟨i, -, hstep⟩ := step_context h.mem hk
    cases hstep.source hn with
    | known hn => exact hkeep l (ih hn hreads)
    | leaf hop hcase =>
      have hop' := hr.op hop
      rw [hr.fixed hop (by rcases hcase with rfl | rfl | rfl <;> simp)
        (by rcases hcase with rfl | rfl | rfl <;> simp)] at hreads
      rcases hcase with rfl | rfl | rfl <;> cases hreads <;> simp_all
    | not hop hm hsource => exact hkeep l (ih hm (hr.reads_not hop hsource hreads))
    | send hop hcontrol =>
      have hop' := hr.op hop
      rw [hr.fixed hop (by simp) (by simp)] at hreads
      have hl : n = l := by
        cases hreads with
        | send _ => rfl
        | phi _ => rfl
        | not hop'' => simp [hop'] at hop''
        | input hop'' => simp [hop'] at hop''
      rw [← hl, ← hcontrol]
      exact hsend
  | @enter A A' b d fd h hfd hsucc hkeep hphis ih =>
    obtain ⟨f, hf⟩ := t.exists_has h.mem
    obtain ⟨a, ha⟩ := hn
    rw [hfd.context_zero] at ha
    obtain ⟨-, sources, hfeeds, hsupplied⟩ := hfd.supply ha
    obtain ⟨j, hj⟩ := t.exists_pred h.mem hfd.mem hsucc
    obtain ⟨m₀, hm₀, hslot⟩ := hf.source_at hfeeds hj
    have hknows : (t.context b b.live.length).Knows m₀ := ⟨a, by rw [hf.context_end]; exact hslot⟩
    have hinput : g.op? n = some .input := by
      have hplace := hfd.models.sound.placeholder (by rw [fd.needs_state]; exact ha)
      exact t.extends_parts.op_some hplace.2.1
    cases hsupplied with
    | @direct m₁ only inputs =>
      obtain rfl : m₁ = m₀ := by
        have hmem := List.mem_of_getElem? hm₀
        rw [only, List.mem_singleton] at hmem
        exact hmem.symm
      refine hkeep l (ih hknows (hr.reads_input hinput ?_ hreads))
      rw [Graph.valueSources, inputs]
      rfl
    | @phi p decides =>
      obtain ⟨hsources, hnp⟩ := valueSources_of_decides decides
      have hreads' := hr.reads_input hinput hnp hreads
      rcases hr.reads_phi decides.op hreads' with ⟨-, rfl⟩ | hall
      · exact hphis l (t.mem_phis_of_decides decides)
      · refine hkeep l (ih hknows ?_)
        rw [hall m₀ (hsources ▸ List.mem_of_getElem? hm₀)]
        exact hreads'

theorem Route.covers (h : t.Route m b k) : t.Covers (fun l => ∃ m' ≤ m, t.Executed m' l) b k := by
  induction h with
  | start hb hstart => exact .start hb hstart
  | @next m b k h hk ih =>
    exact ih.next hk (fun l ⟨m', hm', hl⟩ => ⟨m', Nat.le_succ_of_le hm', hl⟩)
      ⟨m + 1, Nat.le_refl _, .send (h.next hk) rfl⟩
  | @enter m b d h hd hsucc ih =>
    obtain ⟨f, hf⟩ := t.exists_has hd
    exact ih.enter hf hsucc (fun l ⟨m', hm', hl⟩ => ⟨m', Nat.le_succ_of_le hm', hl⟩)
      fun p hp => ⟨m + 1, Nat.le_refl _, .phi (h.enter hd hsucc) hf hp⟩

/-- What is known before a send does not depend on its answer. -/
theorem not_reads_send (hr : g.Realizes c σ) (h : t.Route m b k) (hk : k < b.live.length)
    {s n : NodeId} (hop : g.op? s = some .send) (hcontrol : (t.context b (k + 1)).control = s)
    (hnew : (t.context b k).control < s) (hn : (t.context b k).Knows n) : ¬ c.Reads (σ n) s := by
  intro hreads
  obtain ⟨m₀, h₀, hshortest⟩ := h.exists_shortest
  obtain ⟨m', hm', hexec⟩ := h₀.covers.available hr hn hreads
  cases hexec with
  | @send b' k' hroute hl =>
    obtain rfl := block_of_control hroute.mem h.mem hroute.le hk (hl.trans hcontrol.symm)
    -- control is at the send after instruction `k` and not before
    have hk' : k < k' := by
      by_contra hle
      have hle' := control_le h.mem (Nat.le_of_not_lt hle) (Nat.le_of_lt hk)
      rw [hl] at hle'
      exact absurd hnew (Nat.not_lt.mpr hle')
    obtain ⟨m'', hm'', h''⟩ := hroute.back hk'
    exact hshortest m'' (Nat.lt_of_lt_of_le hm'' hm') h''
  | phi _ _ hl =>
    rw [(t.mem_phis.mp hl).1] at hop
    cases hop

/-- What a phi without a choice stands for does not depend on the phis of its block. -/
theorem not_reads_phi (hr : g.Realizes c σ) (h : t.Route m b 0) (hf : t.Has b f) {a : Slot}
    {n p p' : NodeId} {sources : List NodeId}
    (hfeeds : Assembly.Feeds t.parts.table b f a n sources) (hd : g.Decides f.region n sources p)
    (hmoved : σ p ≠ p) (hp' : p' ∈ g.phis f.region) : ¬ c.Reads (σ p) p' := by
  intro hreads
  have hall := (hr.moved hmoved).2
  rw [(valueSources_of_decides hd).1] at hall
  obtain ⟨m₀, h₀, hshortest⟩ := h.exists_shortest
  cases h₀ with
  | start _ hstart =>
    have hneeds := hfeeds.needs
    rw [hf.slot_entry hstart] at hneeds
    cases hneeds
  | @enter m₁ b₁ _ h₁ hb hsucc =>
    obtain ⟨f₁, hf₁⟩ := t.exists_has h₁.mem
    obtain ⟨j, hj⟩ := t.exists_pred h₁.mem hb hsucc
    obtain ⟨x, hx, hslot⟩ := hf₁.source_at hfeeds hj
    have hknows : (t.context b₁ b₁.live.length).Knows x := ⟨a, by rw [hf₁.context_end]; exact hslot⟩
    obtain ⟨m', hm', hexec⟩ := h₁.covers.available hr hknows (by
      rw [hall x (List.mem_of_getElem? hx)]
      exact hreads)
    cases hexec with
    | send hroute hl => exact control_ne_phi hroute.mem hroute.le (hl ▸ (t.mem_phis.mp hp').1)
    | @phi b' f' hroute hf' hl =>
      obtain ⟨b₂, f₂, a₂, n₂, sources₂, hf₂, -, hd₂⟩ := t.decides_of_phi (t.mem_phis.mp hp').1
      have hregion : f'.region = f.region :=
        (t.region_of_decides hd₂ hl).trans (t.region_of_decides hd₂ hp').symm
      obtain rfl := hf'.eq_of_region hf hregion
      exact hshortest m' (Nat.lt_succ_of_le hm') hroute

end Available

/-! ## Placeholders lead to values -/

theorem Route.ahead (h : t.Route m b k) (hk : k ≤ k') (hk' : k' ≤ b.live.length) :
    ∃ m', t.Route m' b k' := by
  induction hk with
  | refl => exact ⟨m, h⟩
  | step _ ih =>
    obtain ⟨m', h'⟩ := ih (Nat.le_of_succ_le hk')
    exact ⟨m' + 1, h'.next hk'⟩

theorem exists_route (t : Translation code g) (hb : b ∈ t.blocks) : ∃ m, t.Route m b 0 := by
  refine t.layout.reach (fun b => ∃ m, t.Route m b 0) ?_ ?_ b hb
  · exact fun b hb hstart => ⟨0, .start hb hstart⟩
  · rintro a - ⟨m, h⟩ b hb hsucc
    obtain ⟨m', h'⟩ := h.ahead (Nat.zero_le _) (Nat.le_refl _)
    exact ⟨m' + 1, h'.enter hb hsucc⟩

/-- The node is a placeholder of the block. -/
def Inherits (t : Translation code g) (b : Block) (n : NodeId) : Prop :=
  ∃ f s, t.Has b f ∧ f.entry.slot s = some n

theorem exists_inherits (t : Translation code g) {n : NodeId} (hop : g.op? n = some .input)
    (hfed : g.inputs n ≠ []) : ∃ b, t.Inherits b n := by
  obtain ⟨b, hb, f, s, hf, hs⟩ := t.joined.fed hop hfed
  exact ⟨b, f, s, ⟨hb, hf⟩, hs⟩

/-- The placeholders that a block knows are its own. -/
theorem inherits_of_knows {n : NodeId} (hb : b ∈ t.blocks) (hk : k ≤ b.live.length)
    (hn : (t.context b k).Knows n) (hop : g.op? n = some .input) : t.Inherits b n := by
  induction k with
  | zero =>
    obtain ⟨f, hf⟩ := t.exists_has hb
    obtain ⟨s, hs⟩ := hn
    rw [hf.context_zero] at hs
    exact ⟨f, s, hf, hs⟩
  | succ k ih =>
    obtain ⟨i, -, hstep⟩ := step_context hb hk
    cases hstep.source hn with
    | known hn => exact ih (Nat.le_of_succ_le hk) hn
    | leaf hop' hcase =>
      rw [Option.some.inj (hop'.symm.trans hop)] at hcase
      simp at hcase
    | not hop' => cases hop'.symm.trans hop
    | send hop' => cases hop'.symm.trans hop

/-- A placeholder that stands for a placeholder stands for one of an earlier block. -/
theorem Inherits.earlier {n l : NodeId} (h : t.Inherits b n) (hroute : t.Route m b 0)
    (hsource : g.valueSources n = [l]) (hop : g.op? l = some .input) :
    ∃ b' m', m' < m ∧ t.Route m' b' 0 ∧ t.Inherits b' l := by
  obtain ⟨f, s, hf, hs⟩ := h
  cases hroute with
  | start _ hstart =>
    rw [hf.slot_entry hstart] at hs
    cases hs
  | @enter m₁ b₁ _ h₁ hb hsucc =>
    obtain ⟨-, sources, hfeeds, hsupplied⟩ := hf.supply hs
    cases hsupplied with
    | @direct l' only inputs =>
      obtain rfl : l' = l := by
        rw [Graph.valueSources, inputs] at hsource
        exact List.singleton_inj.mp hsource
      obtain ⟨f₁, hf₁⟩ := t.exists_has h₁.mem
      obtain ⟨j, hj⟩ := t.exists_pred h₁.mem hb hsucc
      obtain ⟨x, hx, hslot⟩ := hf₁.source_at hfeeds hj
      obtain rfl : x = l' := by
        have hmem := List.mem_of_getElem? hx
        rw [only, List.mem_singleton] at hmem
        exact hmem
      have hknows : (t.context b₁ b₁.live.length).Knows x :=
        ⟨s, by rw [hf₁.context_end]; exact hslot⟩
      refine ⟨b₁, ?_⟩
      have hinherits := inherits_of_knows h₁.mem (Nat.le_refl _) hknows hop
      by_cases hempty : b₁.live.length = 0
      · rw [hempty] at h₁
        exact ⟨m₁, Nat.lt_succ_self m₁, h₁, hinherits⟩
      · obtain ⟨m', hm', h'⟩ := h₁.back (Nat.pos_of_ne_zero hempty)
        exact ⟨m', Nat.lt_succ_of_lt hm', h', hinherits⟩
    | @phi p decides =>
      rw [(valueSources_of_decides decides).2] at hsource
      rw [← List.singleton_inj.mp hsource, decides.op] at hop
      cases hop

end Translation

/-- A placeholder, and the node that it stands for. -/
def Graph.Passes (g : Graph) (n m : NodeId) : Prop :=
  g.op? n = some .input ∧ g.valueSources n = [m]

/-- Placeholders do not stand for each other in a circle. -/
theorem Translation.wellFounded_passes {code : Code} {g : Graph} (t : Translation code g) :
    WellFounded fun m n => g.Passes n m := by
  have hacc : ∀ (m : Nat) {b : Block} {n : NodeId}, t.Route m b 0 → t.Inherits b n →
      Acc (fun m n => g.Passes n m) n := by
    intro m
    induction m using Nat.strongRecOn with
    | ind m ih =>
      intro b n hroute hn
      refine ⟨n, fun l hl => ?_⟩
      by_cases hop : g.op? l = some .input
      · obtain ⟨b', m', hm', hroute', hl'⟩ := hn.earlier hroute hl.2 hop
        exact ih m' hm' hroute' hl'
      · exact ⟨l, fun _ hl' => absurd hl'.1 hop⟩
  refine ⟨fun n => ?_⟩
  by_cases hfed : ∃ l, g.Passes n l
  · obtain ⟨l, hop, hsource⟩ := hfed
    have hinputs : g.inputs n ≠ [] := fun hnil => by
      rw [Graph.valueSources, hnil] at hsource
      cases hsource
    obtain ⟨b, f, s, hf, hs⟩ := t.exists_inherits hop hinputs
    obtain ⟨m, hroute⟩ := t.exists_route hf.mem
    exact hacc m hroute ⟨f, s, hf, hs⟩
  · exact ⟨n, fun l hl => absurd ⟨l, hl⟩ hfed⟩

end StackJit
