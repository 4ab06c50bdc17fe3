import StackJit.Proofs.Rejection

/-!
# Which methods have a graph

A method body has a graph exactly if its targets lie within it and no trail through it lacks an
operand or reads a local unassigned. That such a body is not refused is `Code.warrants_of_graph`.
For the converse, a trail through a body that has a graph has put something into every slot for
which the context at the end of the trail knows a node (`Translation.backed`).

Main statement: `Code.graph_error_cause`.
-/

namespace StackJit

/-- The instructions `body` put something into every slot known in a context, where they leave `h`
operands. -/
structure Context.Backed (s : Context) (h : Nat) (body : List Instr) : Prop where
  stack : s.stack.length ≤ h
  names : ∀ {x : String} {n : NodeId}, s.names x = some n → .store x ∈ body

namespace Context

variable {g : Graph} {ip h : Nat} {i : Instr} {s t : Context} {body : List Instr}

/-- A context is backed if one is that knows at least its slots. -/
theorem Backed.of_slots (hs : s.Backed h body)
    (hslots : ∀ {a : Slot} {n : NodeId}, t.slot a = some n → ∃ m, s.slot a = some m) :
    t.Backed h body where
  stack := by
    refine Nat.le_trans (Nat.not_lt.mp fun hlt => ?_) hs.stack
    obtain ⟨m, hm⟩ := hslots (a := .operand s.stack.length) (List.getElem?_eq_getElem hlt)
    exact absurd (List.getElem?_eq_some_iff.mp hm).1 (Nat.lt_irrefl _)
  names {x _} hn := by
    obtain ⟨m, hm⟩ := hslots (a := .name x) hn
    exact hs.names hm

theorem Step.length (hstep : Step g ip i s t) :
    i.takes ≤ s.stack.length ∧ t.stack.length = s.stack.length - i.takes + i.gives := by
  cases hstep with
  | store top | not top | branch top | ret top =>
    simp [top, Context.assign, Instr.takes, Instr.gives]
  | send top =>
    simp only [top, Instr.takes, Instr.gives, List.length_append, List.length_reverse,
      List.length_cons]
    omega
  | _ => simp [Context.push, Instr.takes, Instr.gives]

theorem Step.names (hstep : Step g ip i s t) {x : String} {n : NodeId} (hn : t.names x = some n) :
    s.names x = some n ∨ i = .store x := by
  cases hstep with
  | @store _ y m _ top =>
    simp only [Context.assign] at hn
    split at hn
    · next heq => exact .inr (by rw [heq])
    · exact .inl hn
  | _ => exact .inl hn

/-- An instruction finds its operands, and puts something into what is known after it. -/
theorem Step.backed (hstep : Step g ip i s t) (hs : s.Backed h body) :
    i.takes ≤ h ∧ t.Backed (h - i.takes + i.gives) (body ++ [i]) := by
  obtain ⟨htakes, hlength⟩ := hstep.length
  have hle := hs.stack
  refine ⟨by omega, by omega, fun {x n} hn => ?_⟩
  rcases hstep.names hn with hn | rfl
  · exact List.mem_append_left _ (hs.names hn)
  · exact List.mem_append_right _ List.mem_cons_self

end Context

namespace Translation

variable {code : Code} {g : Graph} {t : Translation code g} {b : Block} {v : List Nat}
  {ip k h : Nat}

/-- An index within a block, at which a trail `v` backs what is known and leaves `h` operands. -/
structure Backs (t : Translation code g) (v : List Nat) (h : Nat) (b : Block) (k : Nat) : Prop where
  mem : b ∈ t.blocks
  lt : k < b.live.length
  backed : (t.context b k).Backed h (code.passed v)

theorem Backs.step (hb : t.Backs v h b k) {i : Instr} (hi : code[b.start + k]? = some i) :
    b.live[k]? = some i ∧
      Context.Step g (b.start + k) i (t.context b k) (t.context b (k + 1)) := by
  obtain ⟨f, hf⟩ := t.exists_has hb.mem
  have hlive : b.live[k]? = some i := by
    rw [(t.layout.fits b hb.mem).live_at k hb.lt, hi]
  exact ⟨hlive, hf.trace.step hlive⟩

/-- At the start of a successor the slots are known that the block knows at its end. -/
theorem backs_succ (hb : b ∈ t.blocks)
    (hbacked : (t.context b b.live.length).Backed h (code.passed v)) {e : Nat}
    (he : e ∈ b.succs) : ∃ c, t.Backs v h c 0 ∧ e = c.start := by
  obtain ⟨c, hc, rfl⟩ := t.layout.succ b hb e he
  obtain ⟨fb, hfb⟩ := t.exists_has hb
  obtain ⟨fc, hfc⟩ := t.exists_has hc
  obtain ⟨j, hj⟩ := t.exists_pred hb hc he
  have hpos := List.length_pos_iff.mpr (t.layout.fits c hc).live_ne_nil
  refine ⟨c, ⟨hc, hpos, hbacked.of_slots fun {s n} hn => ?_⟩, rfl⟩
  rw [hfc.context_zero] at hn
  obtain ⟨-, sources, hfeeds, -⟩ := hfc.supply hn
  obtain ⟨m, -, hm⟩ := hfb.source_at hfeeds hj
  rw [hfb.context_end]
  exact ⟨m, hm⟩

/-- Every trail has a height, and backs what is known where it ends, unless it leaves the body. -/
theorem backed (t : Translation code g) (hv : code.Trail 0 v ip) :
    ∃ h, heightAfter (code.passed v) = some h ∧
      (code.size ≤ ip ∨ ∃ b k, t.Backs v h b k ∧ ip = b.start + k) := by
  induction hv with
  | nil =>
    refine ⟨0, rfl, ?_⟩
    by_cases hpos : 0 < code.size
    · obtain ⟨b, hb, hstart⟩ := t.layout.entry hpos
      obtain ⟨f, hf⟩ := t.exists_has hb
      have hnone := hf.slot_entry hstart
      rw [← hf.context_zero] at hnone
      refine .inr ⟨b, 0, ⟨hb, List.length_pos_iff.mpr (t.layout.fits b hb).live_ne_nil, ?_⟩,
        hstart.symm⟩
      refine Context.Backed.of_slots (s := ⟨[], fun _ => none, 0⟩) ⟨Nat.le_refl 0, nofun⟩ ?_
      intro a n hn
      rw [hnone] at hn
      cases hn
    · exact .inl (Nat.not_lt.mp hpos)
  | @step v ip next i before instr leads ih =>
    obtain ⟨h, hheight, hout | ⟨b, k, hb, rfl⟩⟩ := ih
    · exact absurd (Array.getElem?_eq_some_iff.mp instr).1 (Nat.not_lt.mpr hout)
    obtain ⟨hlive, hstep⟩ := hb.step instr
    obtain ⟨htakes, hbacked⟩ := hstep.backed hb.backed
    rw [Code.passed_concat instr]
    refine ⟨h - i.takes + i.gives, ?_, ?_⟩
    · rw [heightAfter_concat, hheight, Option.bind_some, if_pos htakes]
    rw [← Code.passed_concat instr] at hbacked
    rcases (t.layout.fits b hb.mem).leads hlive leads with ⟨hlt, rfl⟩ | ⟨hlast, hsucc⟩ | hout
    · exact .inr ⟨b, k + 1, ⟨hb.mem, hlt, hbacked⟩, rfl⟩
    · rw [hlast] at hbacked
      obtain ⟨c, hc, rfl⟩ := backs_succ hb.mem hbacked hsucc
      exact .inr ⟨c, 0, hc, rfl⟩
    · exact .inl hout

/-- At an instruction of a trail, what is known before it is backed. -/
theorem backed_instr (t : Translation code g) (hv : code.Trail 0 v ip) {i : Instr}
    (hi : code[ip]? = some i) : ∃ h s s', heightAfter (code.passed v) = some h ∧
      Context.Step g ip i s s' ∧ s.Backed h (code.passed v) := by
  obtain ⟨h, hheight, hout | ⟨b, k, hb, rfl⟩⟩ := t.backed hv
  · exact absurd (Array.getElem?_eq_some_iff.mp hi).1 (Nat.not_lt.mpr hout)
  · exact ⟨h, _, _, hheight, (hb.step hi).2, hb.backed⟩

theorem not_underflows (t : Translation code g) : ¬ code.Underflows := by
  rintro ⟨v, ip, i, h, hv, hi, hheight, hlt⟩
  obtain ⟨h', s, s', hheight', hstep, hbacked⟩ := t.backed_instr hv hi
  obtain rfl : h = h' := Option.some.inj (hheight.symm.trans hheight')
  exact absurd (hstep.backed hbacked).1 (Nat.not_le.mpr hlt)

theorem not_readsUnassigned (t : Translation code g) (x : String) : ¬ code.ReadsUnassigned x := by
  rintro ⟨v, ip, hv, hi, hstore⟩
  obtain ⟨h, s, s', -, hstep, hbacked⟩ := t.backed_instr hv hi
  cases hstep with
  | load known => exact hstore (hbacked.names known)

end Translation

namespace Code

variable {code : Code}

/-- Every jump and branch goes to an instruction of the body. -/
def InRange (code : Code) : Prop :=
  ∀ {k t : Nat} {i : Instr}, code[k]? = some i → i.target? = some t → t < code.size

/-- No trail through the body is at fault. -/
structure Safe (code : Code) : Prop where
  inRange : code.InRange
  operands : ¬ code.Underflows
  locals : ∀ x, ¬ code.ReadsUnassigned x

theorem Safe.not_warrants (h : code.Safe) (e : BuildError) : ¬ code.Warrants e := by
  cases e with
  | invalidTarget source target len =>
    rintro ⟨rfl, hle, i, hi, htarget⟩
    exact absurd (h.inRange hi htarget) (Nat.not_lt.mpr hle)
  | unsupportedControlFlow => exact id
  | stackUnderflow => exact h.operands
  | undefinedName x => exact h.locals x

theorem safe_of_graph {g : Graph} (h : code.graph = .ok g) : code.Safe := by
  obtain ⟨t⟩ := Code.exists_translation h
  obtain ⟨all, hblocks, -⟩ := t.found
  exact ⟨Code.target_lt (Code.blocks_eq hblocks).1, t.not_underflows, t.not_readsUnassigned⟩

/-- A method body is refused for want of an operand, or of an assignment, only if a trail through it
wants one; and exactly the bodies without a fault are not refused. -/
theorem graph_error_cause (code : Code) :
    (∀ b, code.graph = .error (.stackUnderflow b) → code.Underflows) ∧
      (∀ x b, code.graph = .error (.undefinedName x b) → code.ReadsUnassigned x) ∧
      ((∃ g, code.graph = .ok g) ↔ code.Safe) := by
  refine ⟨fun b h => warrants_of_graph h, fun x b h => warrants_of_graph h, ?_⟩
  constructor
  · rintro ⟨g, hg⟩
    exact safe_of_graph hg
  · intro hsafe
    cases hgraph : code.graph with
    | ok g => exact ⟨g, rfl⟩
    | error e => exact absurd (warrants_of_graph hgraph) (hsafe.not_warrants e)

/-- A loop that takes more operands than the body has instructions. -/
def devour : Code := #[.push (.int 1), .send "f" 3, .jump 1]

/-- Assigns a local on one of two ways to a load. -/
def maybeAssign : Code := #[.self, .branch 4, .self, .store "x", .load "x", .ret]

theorem graph_error_cause_devour :
    devour.graph = .error (.stackUnderflow 1) ∧ devour.Underflows ∧
      maybeAssign.graph = .error (.undefinedName "x" 0) ∧ maybeAssign.ReadsUnassigned "x" := by
  have hdevour : devour.graph = .error (.stackUnderflow 1) := by decide +kernel
  have hmaybe : maybeAssign.graph = .error (.undefinedName "x" 0) := by decide +kernel
  exact ⟨hdevour, (graph_error_cause devour).1 1 hdevour, hmaybe,
    (graph_error_cause maybeAssign).2.1 "x" 0 hmaybe⟩

end Code

end StackJit
