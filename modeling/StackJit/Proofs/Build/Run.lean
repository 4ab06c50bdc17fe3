import StackJit.Proofs.Build.Lower

/-!
# Lowering a run of instructions

From what one instruction does (`Lowering.lowers_instr`) follows what a run of them does: the state
stays sound, the graph only gets edges into new nodes and stays chained, control leads from where it
was to every new chained node, and the contexts at the instructions form a `Context.Trace`. A trace
survives in every graph that adds edges only into new or open nodes (`Context.Trace.extend`). Which
locals a run inherits, and which it knows at its end, is read off its instructions
(`Lowering.mem_neededNames_instrs`, `Lowering.mem_names_instrs`).
-/

namespace StackJit

/-- The nodes that get edges after the block they belong to has been lowered. -/
def Op.isOpen : Op → Bool
  | region | finish | input => true
  | _ => false

namespace Graph

/-- `h` is `g` with new nodes and with new edges into them and into old nodes of an operation for
which `opens` holds. -/
def Extends (opens : Op → Bool) (g h : Graph) : Prop :=
  ∃ es, g.Grows h es ∧ ∀ e ∈ es, ∀ {op : Op}, g.op? e.target = some op → opens op = true

/-- `h` is `g` with new nodes and with new edges into them. -/
abbrev Adds (g h : Graph) : Prop := Extends (fun _ => false) g h

namespace Extends

variable {opens : Op → Bool} {g h k : Graph}

theorem refl (g : Graph) : Extends opens g g := ⟨[], .refl g, by simp⟩

theorem trans (h₁ : Extends opens g h) (h₂ : Extends opens h k) : Extends opens g k := by
  obtain ⟨es, hgrow₁, hes⟩ := h₁
  obtain ⟨fs, hgrow₂, hfs⟩ := h₂
  refine ⟨es ++ fs, hgrow₁.trans hgrow₂, fun e he op hop => ?_⟩
  rcases List.mem_append.mp he with he | he
  · exact hes e he hop
  · exact hfs e he (hgrow₁.op_some hop)

theorem mono {opens' : Op → Bool} (h₁ : Extends opens g h)
    (hle : ∀ {op : Op}, opens op = true → opens' op = true) : Extends opens' g h := by
  obtain ⟨es, hgrow, hes⟩ := h₁
  exact ⟨es, hgrow, fun e he op hop => hle (hes e he hop)⟩

theorem consistent (h₁ : Extends opens g h) (hg : g.Consistent) : h.Consistent := by
  obtain ⟨es, hgrow, -⟩ := h₁
  exact hgrow.consistent hg

theorem size_le (h₁ : Extends opens g h) : g.nodes.size ≤ h.nodes.size := by
  obtain ⟨es, hgrow, -⟩ := h₁
  exact hgrow.size_le

theorem label_some (h₁ : Extends opens g h) {n : NodeId} {l : Op × Props}
    (hl : g.label? n = some l) : h.label? n = some l := by
  obtain ⟨es, hgrow, -⟩ := h₁
  exact hgrow.label_some hl

theorem op_some (h₁ : Extends opens g h) {n : NodeId} {op : Op} (hop : g.op? n = some op) :
    h.op? n = some op := by
  obtain ⟨es, hgrow, -⟩ := h₁
  exact hgrow.op_some hop

theorem op_of_lt (h₁ : Extends opens g h) {n : NodeId} (hn : n < g.nodes.size) :
    h.op? n = g.op? n := by
  obtain ⟨es, hgrow, -⟩ := h₁
  exact hgrow.op hn

/-- A node that is not open keeps the edges into it. -/
theorem inputs (h₁ : Extends opens g h) (hg : g.Consistent) {n : NodeId} {op : Op}
    (hop : g.op? n = some op) (hclosed : opens op = false) : h.inputs n = g.inputs n := by
  obtain ⟨es, hgrow, hes⟩ := h₁
  refine hgrow.inputs_of_not_target hg n fun e he hn => ?_
  have := hes e he (hn ▸ hop)
  rw [hclosed] at this
  cases this

end Extends

/-- Control leads from one node to another. -/
inductive Leads (g : Graph) (x : NodeId) : NodeId → Prop where
  | refl : Leads g x x
  | step {y : NodeId} {i : EdgeId} {e : Edge} (h : Leads g x y) (he : (i, e) ∈ g.exits y) :
      Leads g x e.target

theorem Leads.grow {g h : Graph} {es : List Edge} {x y : NodeId} (hgrow : g.Grows h es)
    (hg : g.Consistent) (hl : g.Leads x y) : h.Leads x y := by
  induction hl with
  | refl => exact .refl
  | @step y i e _ he ih =>
    have he' : (i, e) ∈ h.exits y := by
      rw [hgrow.exits hg]
      exact List.mem_append_left _ he
    exact ih.step he'

theorem Leads.trans {g : Graph} {x y z : NodeId} (h₁ : g.Leads x y) (h₂ : g.Leads y z) :
    g.Leads x z := by
  induction h₂ with
  | refl => exact h₁
  | step _ he ih => exact ih.step he

end Graph

namespace Context

variable {g h : Graph} {ip : Nat}

theorem Step.extend {i : Instr} {s t : Context} (hstep : Step g ip i s t)
    (hext : g.Extends Op.isOpen h) (hg : g.Consistent) : Step h ip i s t := by
  have hinputs : ∀ {n : NodeId} {op : Op} {props : Props}, g.label? n = some (op, props) →
      op.isOpen = false → h.inputs n = g.inputs n := fun hl hclosed =>
    hext.inputs hg (Graph.op?_of_label? hl) hclosed
  cases hstep with
  | trace label inputs after =>
    exact .trace (hext.label_some label) ((hinputs label rfl).trans inputs) after
  | self label inputs => exact .self (hext.label_some label) ((hinputs label rfl).trans inputs)
  | arg label inputs => exact .arg (hext.label_some label) ((hinputs label rfl).trans inputs)
  | load known => exact .load known
  | store top => exact .store top
  | push label inputs => exact .push (hext.label_some label) ((hinputs label rfl).trans inputs)
  | send top label inputs after =>
    exact .send top (hext.label_some label) ((hinputs label rfl).trans inputs) after
  | not top label inputs =>
    exact .not top (hext.label_some label) ((hinputs label rfl).trans inputs)
  | jump label inputs after =>
    exact .jump (hext.label_some label) ((hinputs label rfl).trans inputs) after
  | branch top label inputs after =>
    exact .branch top (hext.label_some label) ((hinputs label rfl).trans inputs) after
  | ret top => exact .ret top

/-- The contexts before, between and after the instructions of `body`, the first of which has
index `ip`. -/
structure Trace (g : Graph) (ip : Nat) (body : List Instr) (first last : Context)
    (ctx : Nat → Context) : Prop where
  first : ctx 0 = first
  last : ctx body.length = last
  step : ∀ {k : Nat} {i : Instr}, body[k]? = some i → Step g (ip + k) i (ctx k) (ctx (k + 1))

theorem Trace.extend {body : List Instr} {first last : Context} {ctx : Nat → Context}
    (htrace : Trace g ip body first last ctx) (hext : g.Extends Op.isOpen h)
    (hg : g.Consistent) : Trace h ip body first last ctx :=
  ⟨htrace.first, htrace.last, fun hi => (htrace.step hi).extend hext hg⟩

/-- The node that counts as the latest one after an instruction, in the context after it; loads and
stores leave the one before. -/
def named (t : Context) : Instr → Option NodeId
  | .trace _ | .jump _ | .branch _ => some t.control
  | .self | .arg _ | .push _ | .send _ _ | .not | .ret => t.stack.head?
  | .load _ | .store _ => none

/-- The latest node after some instructions, in the contexts around them. -/
def latest : List Instr → (Nat → Context) → Option NodeId
  | [], _ => none
  | i :: rest, ctx => (latest rest fun k => ctx (k + 1)).or ((ctx 1).named i)

theorem latest_concat (body : List Instr) (i : Instr) (ctx : Nat → Context) :
    latest (body ++ [i]) ctx = ((ctx (body.length + 1)).named i).or (latest body ctx) := by
  induction body generalizing ctx with
  | nil => simp [latest]
  | cons j rest ih =>
    rw [List.cons_append, latest, ih, latest, Option.or_assoc]
    rfl

end Context

namespace Lowering

variable {lo : NodeId} {s t u : Lowering}

/-- What a run of instructions does to the state and its graph, the contexts apart. -/
structure Advances (s t : Lowering) : Prop where
  adds : s.graph.Adds t.graph
  fresh : ∀ {n : NodeId} {op : Op}, s.graph.nodes.size ≤ n → t.graph.op? n = some op →
    op.isPure = true ∨ op.isChained = true
  needs : ∀ {a : Slot} {n : NodeId}, s.needs a = some n → t.needs a = some n
  within : ∀ {below : List NodeId} {inherited : String → Option NodeId},
    t.Within below inherited → s.Within below inherited
  chained : ∀ {ends : NodeId → Prop}, (∀ {n : NodeId}, ends n → n < s.graph.nodes.size) →
    ¬ ends s.controlEnd → s.graph.Chained (fun n => ends n ∨ n = s.controlEnd) →
      t.graph.Chained (fun n => ends n ∨ n = t.controlEnd) ∧ ¬ ends t.controlEnd
  vacant : s.graph.Consistent → s.graph.Vacant → t.graph.Vacant
  leads : ∀ {x : NodeId}, s.graph.Consistent → s.graph.Leads x s.controlEnd →
    t.graph.Leads x t.controlEnd ∧
      ∀ {n : NodeId} {op : Op}, s.graph.nodes.size ≤ n → t.graph.op? n = some op →
        op.isChained = true → t.graph.Leads x n

theorem Advances.refl (s : Lowering) : s.Advances s where
  adds := .refl _
  fresh hn hop := absurd (Graph.op?_lt hop) (Nat.not_lt.mpr hn)
  needs := id
  within := id
  chained _ hend hc := ⟨hc, hend⟩
  vacant _ hv := hv
  leads _ hl := ⟨hl, fun hn hop => absurd (Graph.op?_lt hop) (Nat.not_lt.mpr hn)⟩

theorem Advances.trans (h₁ : s.Advances t) (h₂ : t.Advances u) : s.Advances u where
  adds := h₁.adds.trans h₂.adds
  fresh {n op} hn hop := by
    by_cases hlt : n < t.graph.nodes.size
    · rw [h₂.adds.op_of_lt hlt] at hop
      exact h₁.fresh hn hop
    · exact h₂.fresh (Nat.not_lt.mp hlt) hop
  needs h := h₂.needs (h₁.needs h)
  within h := h₁.within (h₂.within h)
  chained hlt hend hc := by
    obtain ⟨hc', hend'⟩ := h₁.chained hlt hend hc
    exact h₂.chained (fun hn => Nat.lt_of_lt_of_le (hlt hn) h₁.adds.size_le) hend' hc'
  vacant hg hv := h₂.vacant (h₁.adds.consistent hg) (h₁.vacant hg hv)
  leads hg hl := by
    obtain ⟨hl₁, hnew₁⟩ := h₁.leads hg hl
    obtain ⟨hl₂, hnew₂⟩ := h₂.leads (h₁.adds.consistent hg) hl₁
    refine ⟨hl₂, fun {n op} hn hop hchained => ?_⟩
    by_cases hlt : n < t.graph.nodes.size
    · rw [h₂.adds.op_of_lt hlt] at hop
      obtain ⟨es, hgrow, -⟩ := h₂.adds
      exact (hnew₁ hn hop hchained).grow hgrow (h₁.adds.consistent hg)
    · exact hnew₂ (Nat.not_lt.mp hlt) hop hchained

theorem Lowers.advances {ip : Nat} {i : Instr} (hs : s.Sound lo) (h : Lowers lo ip i s t) :
    s.Advances t := by
  have hcontrol := hs.control_lt
  obtain ⟨-, opEnd, hopEnd, hleft⟩ := hs.control
  cases h.emits with
  | @quiet es grows edges fresh control =>
    refine ⟨⟨es, grows, fun e he op hop => ?_⟩, fun hn hop => .inl (fresh hn hop), h.needs,
      h.within, ?_, fun hg hv => hv.grow hg grows fun e he => (edges e he).2.2, ?_⟩
    · exact absurd (Graph.op?_lt hop) (Nat.not_lt.mpr (edges e he).2.1)
    · intro ends _ hend hc
      rw [control]
      exact ⟨hc.quiet grows (fun e he => (edges e he).1) fresh, hend⟩
    · intro x hg hl
      rw [control]
      refine ⟨hl.grow grows hg, fun {n op} hn hop hchained => ?_⟩
      rw [Op.not_isChained_of_isPure (fresh hn hop)] at hchained
      cases hchained
  | @chained vs op grows edges new label chained fresh =>
    have hlink : t.graph.Typed (.control s.controlEnd t.controlEnd) := by
      refine ⟨opEnd, op, grows.op_some hopEnd, label, ?_⟩
      have hentered : op.isEntered = true := by cases op <;> first | rfl | cases chained
      simp [Op.allows, Edge.control, hleft, hentered]
    have hexit : ∀ (hg : s.graph.Consistent),
        (s.graph.edges.size + vs.length, Edge.control s.controlEnd t.controlEnd) ∈
          t.graph.exits s.controlEnd := by
      intro hg
      rw [grows.exits hg, List.mem_append, List.mem_filter, Graph.stamp_append]
      have hphi : t.graph.hasOp t.controlEnd .phi = false := by
        rw [Graph.hasOp, label, beq_eq_false_iff_ne]
        intro h
        rw [Option.some.inj h] at chained
        cases chained
      exact .inr ⟨List.mem_append_right _ List.mem_cons_self, by
        simp [Edge.control, Edge.isControl, hphi]⟩
    refine ⟨⟨_, grows, fun e he op hop => ?_⟩, fun {n o} hn hop => ?_, h.needs, h.within,
      ?_, ?_, ?_⟩
    · rcases List.mem_append.mp he with he | he
      · exact absurd (Graph.op?_lt hop) (Nat.not_lt.mpr (edges e he).2.1)
      · rw [List.mem_singleton.mp he] at hop
        exact absurd (Graph.op?_lt hop) (Nat.not_lt.mpr new)
    · by_cases hne : n = t.controlEnd
      · rw [hne, label] at hop
        exact .inr (Option.some.inj hop ▸ chained)
      · exact .inl (fresh hn hne hop)
    · intro ends hlt hend hc
      have hc' := hc.chain grows (fun e he => (edges e he).1) (.inr rfl) hcontrol hlink new label
        chained fun hn hne hop => fresh hn hne hop
      refine ⟨?_, fun h => absurd (hlt h) (Nat.not_lt.mpr new)⟩
      have hends : (fun n => ((ends n ∨ n = s.controlEnd) ∧ n ≠ s.controlEnd) ∨ n = t.controlEnd) =
          fun n => ends n ∨ n = t.controlEnd := by
        funext n
        refine propext (or_congr_left ?_)
        constructor
        · rintro ⟨h | h, hne⟩
          · exact h
          · exact absurd h hne
        · exact fun h => ⟨.inl h, fun heq => hend (heq ▸ h)⟩
      rwa [hends] at hc'
    · intro hg hv
      refine hv.grow hg grows fun e he hinput => ?_
      rcases List.mem_append.mp he with he | he
      · exact (edges e he).2.2 hinput
      · rw [List.mem_singleton.mp he, Edge.control, label] at hinput
        rw [Option.some.inj hinput] at chained
        cases chained
    · intro x hg hl
      have hnew := (hl.grow grows hg).step (hexit hg)
      refine ⟨hnew, fun {n o} hn hop hchained => ?_⟩
      by_cases hne : n = t.controlEnd
      · rw [hne]
        exact hnew
      · rw [Op.not_isChained_of_isPure (fresh hn hne hop)] at hchained
        cases hchained

/-! ## Runs -/

theorem advances_instrs (hs : s.Sound lo) (ip : Nat) (body : List Instr) :
    s.Advances (s.instrs ip body) ∧ (s.instrs ip body).Sound lo := by
  induction body generalizing s ip with
  | nil => exact ⟨.refl s, hs⟩
  | cons i rest ih =>
    have hi := lowers_instr hs ip i
    obtain ⟨hrest, hsound⟩ := ih hi.sound (ip + 1)
    exact ⟨(hi.advances hs).trans hrest, hsound⟩

theorem latest_pop (s : Lowering) : s.pop.2.latest = s.latest := by
  cases h : s.stack with
  | nil => rw [pop_of_nil h]
  | cons n rest => rw [pop_of_cons h]

/-- What is seen of a state stays the same while operands are taken, if one changes nothing. -/
theorem popMany_keeps {γ : Type} {view : Lowering → γ} (hpop : ∀ s, view s.pop.2 = view s)
    (k : Nat) (taken : List NodeId) (s : Lowering) : view (popMany k taken s).2 = view s := by
  induction k generalizing taken s with
  | zero => rfl
  | succ k ih => rw [popMany_succ, ih, hpop]

theorem latest_read (s : Lowering) (x : String) : (s.read x).2.latest = s.latest := by
  cases h : s.names[x]? with
  | none => rw [read_of_none h]
  | some n => rw [read_of_some h]

theorem latest_send (s : Lowering) (ip : Nat) (name : String) (argc : Nat) :
    (s.instr ip (.send name argc)).latest = some s.graph.nodes.size := by
  change Lowering.latest (Prod.snd (pop (Prod.snd (popMany argc [] _)))) = _
  rw [latest_pop, popMany_keeps latest_pop]
  rfl

/-- The latest node after an instruction is the one that it names, if any. -/
theorem latest_instr_eq (s : Lowering) (ip : Nat) (i : Instr) (below : List NodeId)
    (inherited : String → Option NodeId) :
    (s.instr ip i).latest = (((s.instr ip i).context below inherited).named i).or s.latest := by
  cases i with
  | load x => exact latest_read s x
  | store x => exact latest_pop s
  | send name argc => exact latest_send s ip name argc
  | _ => rfl

/-- The contexts in which the instructions of a block are lowered. -/
theorem trace_instrs (hs : s.Sound lo) (ip : Nat) (body : List Instr) {below : List NodeId}
    {inherited : String → Option NodeId} (h : (s.instrs ip body).Within below inherited) :
    ∃ ctx, Context.Trace (s.instrs ip body).graph ip body (s.context below inherited)
        ((s.instrs ip body).context below inherited) ctx ∧
      (s.instrs ip body).latest = (Context.latest body ctx).or s.latest := by
  induction body generalizing s ip with
  | nil => exact ⟨fun _ => s.context below inherited, ⟨rfl, rfl, by simp⟩, rfl⟩
  | cons i rest ih =>
    have hi := lowers_instr hs ip i
    obtain ⟨hrest, -⟩ := advances_instrs hi.sound (ip + 1) rest
    obtain ⟨ctx, htrace, hlatest⟩ := ih hi.sound (ip + 1) h
    have hlatest' : (instrs (ip + 1) rest (s.instr ip i)).latest =
        ((Context.latest rest ctx).or ((ctx 0).named i)).or s.latest := by
      rw [hlatest, latest_instr_eq s ip i below inherited, htrace.first, Option.or_assoc]
    refine ⟨fun k => k.casesOn (s.context below inherited) ctx, ⟨rfl, htrace.last, ?_⟩, ?_⟩
    · rintro (_ | k) j hj
      · obtain rfl : i = j := by simpa using hj
        have hstep := (hi.step (hrest.within h)).extend (hrest.adds.mono fun h => by cases h)
          hi.sound.consistent
        change Context.Step _ (ip + 0) i (s.context below inherited) (ctx 0)
        rw [htrace.first]
        exact hstep
      · have hstep := htrace.step (k := k) (by simpa using hj)
        rwa [show ip + 1 + k = ip + (k + 1) by omega] at hstep
    · exact hlatest'

/-- What a block returns is on top of its stack at the end. -/
theorem latest_of_ret (s : Lowering) (ip : Nat) {body : List Instr}
    (h : body.getLast? = some .ret) :
    ∃ n rest, (s.instrs ip body).stack = n :: rest ∧ (s.instrs ip body).latest = some n := by
  induction body generalizing s ip with
  | nil => simp at h
  | cons i rest ih =>
    cases rest with
    | nil =>
      obtain rfl : i = .ret := by simpa using h
      exact ⟨s.pop.1, s.pop.2.stack, rfl, rfl⟩
    | cons j rest => exact ih (s.instr ip i) (ip + 1) (by simpa using h)

/-- The latest node is one of the block: a new one is the end of the control chain or on top of the
stack. -/
theorem latest_instr (hs : s.Sound lo) (hl : ∀ n ∈ s.latest, lo ≤ n ∧ n < s.graph.nodes.size)
    (ip : Nat) (i : Instr) :
    ∀ n ∈ (s.instr ip i).latest, lo ≤ n ∧ n < (s.instr ip i).graph.nodes.size := by
  intro n hn
  have hi := lowers_instr hs ip i
  have hkeep : n ∈ s.latest → lo ≤ n ∧ n < (s.instr ip i).graph.nodes.size := fun h =>
    ⟨(hl n h).1, Nat.lt_of_lt_of_le (hl n h).2 (hi.advances hs).adds.size_le⟩
  cases i with
  | trace line | jump target | branch target =>
    cases hn
    exact ⟨hi.sound.control.1, hi.sound.control_lt⟩
  | send name argc =>
    rw [latest_send] at hn
    cases hn
    exact ⟨hi.sound.control.1, hi.sound.control_lt⟩
  | self | arg k | push v | not | ret =>
    cases hn
    have hfits := hi.sound.stack List.mem_cons_self
    exact ⟨Nat.le_of_lt hfits.above, hfits.lt⟩
  | load x => exact hkeep (by rwa [← latest_read s x])
  | store x => exact hkeep (by rwa [← latest_pop s])

theorem latest_instrs (hs : s.Sound lo) (hl : ∀ n ∈ s.latest, lo ≤ n ∧ n < s.graph.nodes.size)
    (ip : Nat) (body : List Instr) :
    ∀ n ∈ (s.instrs ip body).latest, lo ≤ n ∧ n < (s.instrs ip body).graph.nodes.size := by
  induction body generalizing s ip with
  | nil => exact hl
  | cons i rest ih => exact ih (lowers_instr hs ip i).sound (latest_instr hs hl ip i) (ip + 1)

end Lowering

/-! ## Which locals a block reads before it assigns them -/

/-- Some instruction of `body` reads a local that none before it assigns. -/
def ReadFirst (x : String) (body : List Instr) : Prop :=
  ∃ before after, body = before ++ .load x :: after ∧ .store x ∉ before

theorem readFirst_cons {x : String} {i : Instr} {rest : List Instr} :
    ReadFirst x (i :: rest) ↔ i = .load x ∨ i ≠ .store x ∧ ReadFirst x rest := by
  constructor
  · rintro ⟨_ | ⟨j, before⟩, after, hbody, hstore⟩
    · exact .inl (List.cons.inj hbody).1
    · obtain ⟨rfl, rfl⟩ := List.cons.inj hbody
      rw [List.mem_cons, not_or] at hstore
      exact .inr ⟨Ne.symm hstore.1, before, after, rfl, hstore.2⟩
  · rintro (rfl | ⟨hne, before, after, rfl, hstore⟩)
    · exact ⟨[], rest, rfl, List.not_mem_nil⟩
    · refine ⟨i :: before, after, rfl, ?_⟩
      rw [List.mem_cons, not_or]
      exact ⟨Ne.symm hne, hstore⟩

namespace Lowering

variable {s : Lowering} {ip : Nat} {i : Instr} {body : List Instr} {x y : String}

theorem neededNames_pop (s : Lowering) : s.pop.2.neededNames = s.neededNames := by
  cases h : s.stack with
  | nil => rw [pop_of_nil h]
  | cons n rest => rw [pop_of_cons h]

theorem names_pop (s : Lowering) : s.pop.2.names = s.names := by
  cases h : s.stack with
  | nil => rw [pop_of_nil h]
  | cons n rest => rw [pop_of_cons h]

theorem mem_insert_names {m : NameMap} {n : NodeId} : x ∈ m.insert y n ↔ x ∈ m ∨ x = y := by
  rw [Std.TreeMap.mem_insert, Std.LawfulEqCmp.compare_eq_iff_eq, eq_comm, or_comm]

/-- A local that is read is known from then on, and needed if it was not known before. -/
theorem mem_read : (x ∈ (s.read y).2.names ↔ x ∈ s.names ∨ x = y) ∧
    (x ∈ (s.read y).2.neededNames ↔ x ∈ s.neededNames ∨ x ∉ s.names ∧ x = y) := by
  cases h : s.names[y]? with
  | none =>
    have hy : y ∉ s.names := by simp [Std.TreeMap.mem_iff_isSome_getElem?, h]
    rw [read_of_none h]
    simp only [mem_insert_names]
    grind
  | some n =>
    have hy : y ∈ s.names := by simp [Std.TreeMap.mem_iff_isSome_getElem?, h]
    rw [read_of_some h]
    grind

/-- Only reading and assigning a local changes which locals are known or needed. -/
theorem names_instr (hload : ∀ y, i ≠ .load y) (hstore : ∀ y, i ≠ .store y) :
    (s.instr ip i).names = s.names ∧ (s.instr ip i).neededNames = s.neededNames := by
  cases i with
  | load y => exact absurd rfl (hload y)
  | store y => exact absurd rfl (hstore y)
  | send name argc =>
    change Lowering.names (Prod.snd (pop (Prod.snd (popMany argc [] _)))) = _ ∧
      Lowering.neededNames (Prod.snd (pop (Prod.snd (popMany argc [] _)))) = _
    rw [names_pop, popMany_keeps names_pop, neededNames_pop, popMany_keeps neededNames_pop]
    exact ⟨rfl, rfl⟩
  | branch _ =>
    simp only [instr_branch, chain, addEdges, addNode]
    exact ⟨names_pop s, neededNames_pop s⟩
  | not | ret => exact ⟨names_pop s, neededNames_pop s⟩
  | trace _ | self | arg _ | push _ | jump _ => exact ⟨rfl, rfl⟩

theorem mem_names_instr :
    x ∈ (s.instr ip i).names ↔ x ∈ s.names ∨ i = .load x ∨ i = .store x := by
  cases i with
  | load y =>
    change x ∈ (s.read y).2.names ↔ _
    rw [mem_read.1]
    simp [eq_comm]
  | store y =>
    change x ∈ s.pop.2.names.insert y s.pop.1 ↔ _
    rw [names_pop, mem_insert_names]
    simp [eq_comm]
  | _ =>
    rw [(names_instr (by simp) (by simp)).1]
    simp

theorem mem_neededNames_instr :
    x ∈ (s.instr ip i).neededNames ↔ x ∈ s.neededNames ∨ x ∉ s.names ∧ i = .load x := by
  cases i with
  | load y =>
    change x ∈ (s.read y).2.neededNames ↔ _
    rw [mem_read.2]
    simp [eq_comm]
  | store y =>
    change x ∈ s.pop.2.neededNames ↔ _
    rw [neededNames_pop]
    simp
  | _ =>
    rw [(names_instr (by simp) (by simp)).2]
    simp

/-- The locals known at the end are those that the run reads or assigns. -/
theorem mem_names_instrs :
    x ∈ (s.instrs ip body).names ↔ x ∈ s.names ∨ .load x ∈ body ∨ .store x ∈ body := by
  induction body generalizing s ip with
  | nil => simp [instrs]
  | cons i rest ih =>
    rw [instrs, ih, mem_names_instr]
    simp only [List.mem_cons, eq_comm]
    grind

/-- A local is inherited for a load that no assignment comes before. -/
theorem mem_neededNames_instrs :
    x ∈ (s.instrs ip body).neededNames ↔ x ∈ s.neededNames ∨ x ∉ s.names ∧ ReadFirst x body := by
  induction body generalizing s ip with
  | nil => simp [instrs, ReadFirst]
  | cons i rest ih =>
    -- a load that follows another one of the same local finds it known, and needed already
    rw [instrs, ih, mem_neededNames_instr, mem_names_instr, readFirst_cons]
    grind

end Lowering

end StackJit
