import StackJit.Proofs.Frames

/-!
# Accepted methods run safely

A method that has a graph never runs out of operands, reads a local before it is assigned or leaves
its body. Blocks that have a value for a slot have it on every path, because each predecessor of a
block that inherits a slot was found to supply it: the machine always stands at an instruction whose
context is covered by its frame (`Translation.Covered`), or at the end of the body.

Main statement: `Code.run_error_of_graph`.
-/

namespace StackJit

namespace Translation

variable {code : Code} {g : Graph} {t : Translation code g} {a : Activation} {b : Block}
  {fb : Fragment} {k : Nat} {f : Frame}

/-- The frame has a value in every slot that its context knows. -/
def Covered (t : Translation code g) (f : Frame) : Prop :=
  (∃ b k, t.At b k f ∧ (t.context b k).Holds (fun _ _ => True) f) ∨ f.ip = code.size

theorem covered_entry (t : Translation code g) : t.Covered .entry := by
  by_cases hpos : 0 < code.size
  · obtain ⟨b, hb, hstart⟩ := t.layout.entry hpos
    obtain ⟨fb, hfb⟩ := t.exists_has hb
    have hlen := List.length_pos_iff.mpr (t.layout.fits b hb).live_ne_nil
    refine .inl ⟨b, 0, ⟨hb, hlen, hstart.symm⟩, .of_slot fun {s n} hn => ?_⟩
    rw [hfb.context_zero, hfb.slot_entry hstart] at hn
    cases hn
  · exact .inr (Nat.eq_zero_of_not_pos hpos).symm

/-- At the end of a block, a successor is covered. -/
theorem covered_of_succ (hb : t.Has b fb) (h : fb.exit.Holds (fun _ _ => True) f)
    (hsucc : f.ip ∈ b.succs) : t.Covered f := by
  obtain ⟨c, hat, hcs⟩ := t.at_succ hb.mem hsucc
  obtain ⟨fc, hfc⟩ := t.exists_has hat.mem
  obtain ⟨j, hj⟩ := t.exists_pred hb.mem hat.mem hcs
  refine .inl ⟨c, 0, hat, ?_⟩
  rw [hfc.context_zero]
  exact holds_enter hb hfc hj h fun _ _ _ _ _ => trivial

/-- Past an instruction that does not jump, the next one is covered. -/
theorem At.covered_next (h : t.At b k f) {i : Instr} (hi : b.live[k]? = some i)
    (hjump : ∀ target, i ≠ .jump target) (hret : i ≠ .ret) {f' : Frame} (hip : f'.ip = f.ip + 1)
    (hholds : (t.context b (k + 1)).Holds (fun _ _ => True) f') : t.Covered f' := by
  by_cases hlt : k + 1 < b.live.length
  · exact .inl ⟨b, k + 1, h.inner hlt hip, hholds⟩
  · have hk : k + 1 = b.live.length := Nat.le_antisymm h.lt (Nat.le_of_not_lt hlt)
    obtain ⟨fb, hfb⟩ := t.exists_has h.mem
    rw [hk, hfb.context_end] at hholds
    rcases h.fallsThrough hk hi hjump hret with hsucc | ⟨hsize, -⟩
    · exact covered_of_succ hfb hholds (hip ▸ hsucc)
    · exact .inr (hip.trans hsize.symm)

/-- A jump within the body leads to a covered instruction. -/
theorem At.covered_goto (h : t.At b k f) (hcode : a.code = code) (hk : k + 1 = b.live.length)
    {target : Nat} (hsucc : target ∈ b.succs) {f' : Frame}
    (hholds : (t.context b (k + 1)).Holds (fun _ _ => True) { f' with ip := target }) :
    ∃ f'', a.goto f' target = .next f'' ∧ t.Covered f'' := by
  obtain ⟨fb, hfb⟩ := t.exists_has h.mem
  obtain ⟨c, hc, rfl⟩ := t.layout.succ b h.mem target hsucc
  rw [hk, hfb.context_end] at hholds
  refine ⟨{ f' with ip := c.start }, ?_, covered_of_succ hfb hholds hsucc⟩
  rw [Activation.goto, hcode, if_pos (Nat.le_of_lt (t.layout.start_lt hc))]

/-- One step of the machine: a covered frame, an answer, or a failure of the instruction's own. -/
theorem Covered.step (h : t.Covered f) (hcode : a.code = code) :
    (∃ f', a.step f = .next f' ∧ t.Covered f') ∨ (∃ v, a.step f = .stop (.ok v)) ∨
      ∃ i e, code[f.ip]? = some i ∧ a.Raises i e ∧ a.step f = .stop (.error e) := by
  rcases h with ⟨b, k, hat, hholds⟩ | hend
  · obtain ⟨i, hi, hcodei, hstep⟩ := hat.instr
    have hexec : a.step f = a.execute f i := by
      rw [Activation.step, hcode, hcodei]
    rw [hexec]
    cases hends : i.endsBlock with
    | false =>
      have hjump : ∀ target, i ≠ .jump target := by
        rintro target rfl
        cases hends
      have hret : i ≠ .ret := by
        rintro rfl
        cases hends
      by_cases hsend : ∃ name argc, i = .send name argc
      · obtain ⟨name, argc, rfl⟩ := hsend
        obtain ⟨n, receiver, args, rest, v, vs, ws, -, -, ht, -, -, hrest, heq, hlen⟩ :=
          hstep.execute_send (a := a) hholds
        rw [heq]
        cases hanswer : v.send name vs with
        | ok w =>
          refine .inl ⟨_, rfl, hat.covered_next hi hjump hret rfl ?_⟩
          rw [ht]
          exact (hrest.push (v := w) (f.ip + 1) trivial).control (f.ip + 1) n
        | error e => exact .inr (.inr ⟨_, e, hcodei, .send hlen hanswer, rfl⟩)
      · rcases hstep.execute (a := a) hholds hends (fun name argc heq => hsend ⟨name, argc, heq⟩)
          fun _ => trivial with ⟨f', heq, hip, hholds'⟩ | ⟨e, heq, hraises⟩
        · exact .inl ⟨f', heq, hat.covered_next hi hjump hret hip hholds'⟩
        · exact .inr (.inr ⟨i, e, hcodei, hraises, heq⟩)
    | true =>
      have hk := hat.last_of_endsBlock hi hends
      cases i with
      | jump target =>
        obtain ⟨heq, hholds'⟩ := hstep.execute_jump (a := a) hholds target
        rw [heq]
        exact .inl (hat.covered_goto hcode hk (by simp [hat.jumps hk hi]) hholds')
      | branch target =>
        obtain ⟨n, rest, v, ws, -, -, heq, hholds', -, -⟩ :=
          hstep.execute_branch (a := a) hholds target
        rw [heq]
        refine .inl ?_
        split
        · exact hat.covered_goto hcode hk (by simp [hat.branches hk hi]) hholds'
        · refine ⟨_, rfl, hat.covered_next hi (by simp) (by simp) rfl ?_⟩
          exact ⟨hholds'.stack, hholds'.names⟩
      | ret =>
        obtain ⟨n, rest, v, -, -, -, heq⟩ := hstep.execute_ret (a := a) hholds
        exact .inr (.inl ⟨v, heq⟩)
      | _ => cases hends
  · refine .inr (.inl ⟨f.stack.headD .nil, ?_⟩)
    rw [Activation.step, hcode, hend, Array.getElem?_eq_none (Nat.le_refl _)]

/-- A run from a covered frame fails only as an instruction of the body can. -/
theorem Covered.run_error (h : t.Covered f) (hcode : a.code = code) {budget : Nat} {e : RunError}
    (hrun : a.run budget f = some (.error e)) : ∃ i ∈ code, a.Raises i e := by
  induction budget generalizing f with
  | zero => cases hrun
  | succ budget ih =>
    rw [Activation.run] at hrun
    rcases h.step hcode with ⟨f', heq, hcovered⟩ | ⟨v, heq⟩ | ⟨i, e', hi, hraises, heq⟩
    · rw [heq] at hrun
      exact ih hcovered hrun
    · rw [heq] at hrun
      cases hrun
    · rw [heq] at hrun
      cases hrun
      exact ⟨i, Array.mem_of_getElem? hi, hraises⟩

end Translation

theorem Value.sendUnary_error {name : String} {args : List Value} {answer : Bool} {e : RunError}
    (h : Value.sendUnary name args answer = .error e) :
    ∃ given expected, e = .arity name given expected := by
  unfold Value.sendUnary at h
  split at h
  · cases h
  · exact ⟨_, _, (Except.error.inj h).symm⟩

theorem Value.sendBinary_error {name : String} {args : List Value} {answer : Value → Bool}
    {e : RunError} (h : Value.sendBinary name args answer = .error e) :
    ∃ given expected, e = .arity name given expected := by
  unfold Value.sendBinary at h
  split at h
  · cases h
  · exact ⟨_, _, (Except.error.inj h).symm⟩

theorem IntOp.apply_error {op : IntOp} {a b : Int64} {e : RunError}
    (h : op.apply a b = .error e) : e = .divisionByZero := by
  unfold IntOp.apply at h
  split at h <;> first | cases h | (split at h <;> cases h; rfl)

theorem Value.sendInt_error {a : Int64} {name : String} {args : List Value} {e : RunError}
    (h : Value.sendInt a name args = .error e) :
    (∃ kind, e = .noMethod name kind) ∨ (∃ given expected, e = .arity name given expected) ∨
      (∃ expected got, e = .typeMismatch name expected got) ∨ e = .divisionByZero := by
  unfold Value.sendInt at h
  split at h
  · exact .inl ⟨_, (Except.error.inj h).symm⟩
  · split at h
    · exact .inr (.inr (.inr (IntOp.apply_error h)))
    · exact .inr (.inr (.inl ⟨_, _, (Except.error.inj h).symm⟩))
    · exact .inr (.inl ⟨_, _, (Except.error.inj h).symm⟩)

/-- A message is refused for reasons of its own. -/
theorem Value.send_error {v : Value} {name : String} {args : List Value} {e : RunError}
    (h : v.send name args = .error e) :
    (∃ kind, e = .noMethod name kind) ∨ (∃ given expected, e = .arity name given expected) ∨
      (∃ expected got, e = .typeMismatch name expected got) ∨ e = .divisionByZero := by
  unfold Value.send at h
  split at h
  · exact .inr (.inl (Value.sendBinary_error h))
  · exact .inr (.inl (Value.sendBinary_error h))
  · exact .inr (.inl (Value.sendUnary_error h))
  · exact .inr (.inl (Value.sendUnary_error h))
  · split at h
    · exact Value.sendInt_error h
    · exact .inl ⟨_, (Except.error.inj h).symm⟩

/-- A method body that has a graph fails in no run but for a missing argument or for a message that
its receiver refuses. -/
theorem Code.run_error_of_graph {code : Code} {g : Graph} (h : code.graph = .ok g)
    (receiver : Value) (args : List Value) (budget : Nat) {e : RunError}
    (hrun : (Activation.mk code receiver args).resume budget .entry = some (.error e)) :
    ((∃ n, .arg n ∈ code ∧ args.length ≤ n ∧ e = .missingArgument n args.length) ∨
      ∃ v name vs, .send name vs.length ∈ code ∧ Value.send v name vs = .error e) ∧
    (∀ ip, e ≠ .stackUnderflow ip) ∧ (∀ x, e ≠ .undefinedLocal x) ∧
      ∀ ip len, e ≠ .badIp ip len := by
  obtain ⟨t⟩ := Code.exists_translation h
  rw [Activation.resume_entry] at hrun
  obtain ⟨i, hi, hraises⟩ := t.covered_entry.run_error rfl hrun
  cases hraises with
  | @arg k missing =>
    refine ⟨.inl ⟨k, hi, List.getElem?_eq_none_iff.mp missing, rfl⟩, ?_, ?_, ?_⟩ <;> intros <;> simp
  | @send name argc v vs e given refused =>
    subst given
    refine ⟨.inr ⟨v, name, vs, hi, refused⟩, ?_⟩
    rcases Value.send_error refused with ⟨_, rfl⟩ | ⟨_, _, rfl⟩ | ⟨_, _, rfl⟩ | rfl <;> simp

/-- Counts a local down to zero and then asks for an argument. -/
def Code.countdown : Code :=
  #[.arg 0, .store "x", .load "x", .push (.int 1), .send "-" 1, .store "x", .load "x",
    .push (.int 0), .send ">" 1, .branch 2, .arg 1, .ret]

/-- A loop that ends in a missing argument. -/
theorem Code.run_error_of_graph_countdown :
    (∃ g, Code.countdown.graph = .ok g) ∧
      (Activation.mk Code.countdown .nil [.int 2]).resume 20 .entry =
        some (.error (.missingArgument 1 1)) ∧
      ∀ ip, RunError.missingArgument 1 1 ≠ .stackUnderflow ip := by
  have hok : Code.countdown.graph.isOk = true := by decide +kernel
  have hrun : (Activation.mk Code.countdown .nil [.int 2]).resume 20 .entry =
      some (.error (.missingArgument 1 1)) := by decide +kernel
  obtain ⟨g, hg⟩ : ∃ g, Code.countdown.graph = .ok g := by
    cases hgraph : Code.countdown.graph with
    | error e =>
      rw [hgraph] at hok
      cases hok
    | ok g => exact ⟨g, rfl⟩
  exact ⟨⟨g, hg⟩, hrun, (Code.run_error_of_graph hg .nil [.int 2] 20 hrun).2.1⟩

end StackJit
