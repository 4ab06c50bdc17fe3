import Mathlib.Algebra.Ring.Nat
import StackJit.Proofs.Admission
import StackJit.Proofs.Flow
import StackJit.Proofs.Frames
import StackJit.Proofs.Token

/-!
# What a lowered block computes

Once its placeholders have values, every node of a lowered block that makes a value has one: sends
answer what their receivers answer, and the others compute theirs (`Execution.evaluate`). Let the
machine execute the block from operands and locals that cover what the block needs, and let the
placeholders have the values that the machine finds there. Then the machine ends with the values of
the fragment's final nodes, over the operands that the block does not reach (`Execution.Leaves`).

Both sides go along the contexts of the block: `Execution.Follows` is kept by every step. The
control chain is followed separately, as it does not depend on values: each instruction with an
effect of its own puts one node at the end of it (`Lowering.Lowers.chain`).

Main statement: `Graph.lower_executes`.
-/

namespace StackJit

/-! ## Values of the nodes of a block -/

namespace Execution

/-- The value of a node of a lowered block whose placeholders have the values `ρ`. -/
def evaluate (x : Execution) (ρ : NodeId → Option Value) : Nat → NodeId → Option Value
  | 0, _ => none
  | depth + 1, id =>
    match x.graph.op? id with
    | some .input => ρ id
    | some .constant => x.graph.prop? id "value"
    | some .self => some x.receiver
    | some .arg => ((x.graph.prop? id "n").bind (·.int?)).bind fun n => x.args[n.toUInt64.toNat]?
    | some .not =>
      match x.graph.valueSources id with
      | [source] => (x.evaluate ρ depth source).map fun v => .bool (!v.truthy)
      | _ => none
    | some .send => do
      let name ← (x.graph.prop? id "name").bind (·.symbol?)
      let receiver ← (x.graph.sourceFor? id .receiver).bind (x.evaluate ρ depth)
      let args ← (x.graph.argSources id).mapM (x.evaluate ρ depth)
      (receiver.send name args).toOption
    | _ => none

/-- The value of a node is `v`, to every depth that is large enough. -/
def Evaluates (x : Execution) (ρ : NodeId → Option Value) (n : NodeId) (v : Value) : Prop :=
  ∃ depth, ∀ d, depth ≤ d → x.evaluate ρ d n = some v

variable {x : Execution} {ρ : NodeId → Option Value} {n : NodeId} {v : Value}

/-- One depth is enough for the values of a list of nodes. -/
theorem Evaluates.mapM {ns : List NodeId} {vs : List Value}
    (h : List.Forall₂ (x.Evaluates ρ) ns vs) :
    ∃ depth, ∀ d, depth ≤ d → ns.mapM (x.evaluate ρ d) = some vs := by
  induction h with
  | nil => exact ⟨0, fun _ _ => rfl⟩
  | @cons n v ns vs hn _ ih =>
    obtain ⟨d₀, hv⟩ := hn
    obtain ⟨d₁, hvs⟩ := ih
    refine ⟨max d₀ d₁, fun d hd => ?_⟩
    rw [List.mapM_cons, hv d (by omega), hvs d (by omega)]
    rfl

theorem Evaluates.of_succ {depth : Nat} (h : ∀ d, depth ≤ d → x.evaluate ρ (d + 1) n = some v) :
    x.Evaluates ρ n v := by
  refine ⟨depth + 1, fun d hd => ?_⟩
  obtain ⟨d, rfl⟩ : ∃ e, d = e + 1 := ⟨d - 1, by omega⟩
  exact h d (by omega)

theorem evaluates_input (hop : x.graph.op? n = some .input) (hv : ρ n = some v) :
    x.Evaluates ρ n v :=
  .of_succ fun d (_ : 0 ≤ d) => by rw [evaluate, hop, hv]

/-- What a node computes from its operands is its value. -/
theorem evaluates_of_computes {a : Activation} (hreceiver : x.receiver = a.receiver)
    (hargs : x.args = a.args) (hlen : a.args.length ≤ 2 ^ 64)
    (h : a.Computes x.graph (x.Evaluates ρ) n v) : x.Evaluates ρ n v := by
  cases h with
  | self label =>
    exact .of_succ fun d (_ : 0 ≤ d) => by rw [evaluate, Graph.op?_of_label? label, hreceiver]
  | @arg k v label given =>
    have hk : k % 18446744073709551616 = k :=
      Nat.mod_eq_of_lt (Nat.lt_of_lt_of_le (List.getElem?_eq_some_iff.mp given).1 hlen)
    refine .of_succ fun d (_ : 0 ≤ d) => ?_
    rw [evaluate, Graph.op?_of_label? label]
    simp only [Graph.prop?_eq_label?, label, hargs]
    simp [Value.ofNat, Value.int?, hk, given]
  | constant label =>
    refine .of_succ fun d (_ : 0 ≤ d) => ?_
    rw [evaluate, Graph.op?_of_label? label]
    simp [Graph.prop?_eq_label?, label]
  | @not m w label inputs operand =>
    have hsource : x.graph.valueSources n = [m] := by
      rw [Graph.valueSources, inputs]
      rfl
    obtain ⟨depth, hv⟩ := operand
    refine .of_succ fun d (hd : depth ≤ d) => ?_
    rw [evaluate, Graph.op?_of_label? label]
    simp only [hsource, hv d hd, Option.map_some]

end Execution

namespace Graph.Sends

variable {g : Graph} {n receiver control : NodeId} {name : String} {args : List NodeId}

theorem prop_name (h : g.Sends n name receiver args control) :
    (g.prop? n "name").bind (·.symbol?) = some name := by
  obtain ⟨rest, hlabel⟩ := h.label
  rw [prop?_eq_label?, hlabel]
  rfl

theorem sourceFor_receiver (h : g.Sends n name receiver args control) :
    g.sourceFor? n .receiver = some receiver := by
  rw [sourceFor?, h.inputs]
  rfl

theorem argSources_eq (h : g.Sends n name receiver args control) : g.argSources n = args := by
  have hall : (args.map fun m => Edge.value m n .args).filter (·.input == .args) =
      args.map fun m => Edge.value m n .args := by
    refine List.filter_eq_self.mpr fun e he => ?_
    obtain ⟨m, -, rfl⟩ := List.mem_map.mp he
    rfl
  rw [argSources, h.inputs, List.filter_append, List.filter_cons_of_neg (by simp [Edge.value]),
    hall]
  simp [Edge.control, Edge.value, Function.comp_def]

end Graph.Sends

/-- The value of a send is the answer. -/
theorem Execution.evaluates_of_sends {x : Execution} {ρ : NodeId → Option Value}
    {n receiver control : NodeId} {name : String} {args : List NodeId} {v w : Value}
    {vs : List Value} (h : x.graph.Sends n name receiver args control)
    (hv : x.Evaluates ρ receiver v) (hvs : List.Forall₂ (x.Evaluates ρ) args vs)
    (hsend : v.send name vs = .ok w) : x.Evaluates ρ n w := by
  obtain ⟨d₀, hv⟩ := hv
  obtain ⟨d₁, hvs⟩ := Evaluates.mapM hvs
  refine .of_succ fun d (hd : max d₀ d₁ ≤ d) => ?_
  rw [evaluate, h.op]
  simp only [h.prop_name, h.sourceFor_receiver, h.argSources_eq, Option.bind_eq_bind,
    Option.bind_some, hv d (by omega), hvs d (by omega), hsend]
  rfl

/-! ## Placeholders -/

namespace Fragment

/-- Operands, deepest first, and locals that a block can be entered with. -/
structure Covered (fr : Fragment) (operands : List Value) (locals : Locals) : Prop where
  stack : fr.neededStack.length ≤ operands.length
  names : ∀ x ∈ fr.neededNames, x ∈ locals

/-- The placeholders of a block have the values `ρ`, if it is entered with these operands
and locals. -/
structure Binds (fr : Fragment) (operands : List Value) (locals : Locals)
    (ρ : NodeId → Option Value) : Prop where
  stack : ∀ {i : Nat} {n : NodeId}, fr.neededStack[i]? = some n →
    ρ n = operands[operands.length - fr.neededStack.length + i]?
  names : ∀ {x : String} {n : NodeId}, fr.neededNames[x]? = some n → ρ n = locals[x]?

variable {fr : Fragment} {operands : List Value} {locals : Locals} {ρ : NodeId → Option Value}
  {start : Nat} {n : NodeId}

/-- A needed operand, counted from the top. -/
theorem slot_operand (start : Nat) (locals : Locals)
    (hlen : fr.neededStack.length ≤ operands.length) {i : Nat} (hi : i < fr.neededStack.length) :
    (Frame.resumeAt start operands locals).slot (.operand (fr.neededStack.length - 1 - i)) =
      operands[operands.length - fr.neededStack.length + i]? := by
  change operands.reverse[_]? = _
  rw [List.getElem?_reverse (by omega)]
  congr 1
  omega

/-- Placeholders have the values that the frame has in their slots. -/
theorem binds_of_slot (start : Nat) (hlen : fr.neededStack.length ≤ operands.length)
    (h : ∀ {a : Slot} {n : NodeId}, fr.entry.slot a = some n →
      ρ n = (Frame.resumeAt start operands locals).slot a) : fr.Binds operands locals ρ where
  stack {i n} hn := by
    have hi := (List.getElem?_eq_some_iff.mp hn).1
    rw [← slot_operand start locals hlen hi]
    refine h ?_
    change fr.neededStack.reverse[_]? = _
    rw [List.getElem?_reverse (by omega), ← hn]
    congr 1
    omega
  names {x _} hn := h (a := .name x) hn

theorem Binds.slot (h : fr.Binds operands locals ρ) (hc : fr.Covered operands locals) {a : Slot}
    (hn : fr.entry.slot a = some n) :
    ∃ v, (Frame.resumeAt start operands locals).slot a = some v ∧ ρ n = some v := by
  cases a with
  | name x =>
    have hx : x ∈ locals := hc.names x (Std.TreeMap.mem_iff_isSome_getElem?.mpr (by
      rw [show fr.neededNames[x]? = some n from hn]; rfl))
    obtain ⟨v, hv⟩ := Option.isSome_iff_exists.mp (Std.TreeMap.mem_iff_isSome_getElem?.mp hx)
    exact ⟨v, hv, (h.names hn).trans hv⟩
  | operand j =>
    have hn : fr.neededStack.reverse[j]? = some n := hn
    have hj : j < fr.neededStack.length := by simpa using (List.getElem?_eq_some_iff.mp hn).1
    rw [List.getElem?_reverse hj] at hn
    have hslot := slot_operand start locals hc.stack (i := fr.neededStack.length - 1 - j) (by omega)
    rw [show fr.neededStack.length - 1 - (fr.neededStack.length - 1 - j) = j by omega] at hslot
    rw [hslot, h.stack hn]
    have hlen := hc.stack
    exact ⟨_, List.getElem?_eq_getElem (by omega), List.getElem?_eq_getElem (by omega)⟩

/-- Every covered block has values for its placeholders, as no two slots share one. -/
theorem Models.exists_binds {g : Graph} {b : Block} (hm : fr.Models g b)
    (hc : fr.Covered operands locals) : ∃ ρ, fr.Binds operands locals ρ := by
  refine ⟨fun n => (fr.slots.find? fun a => fr.entry.slot a == some n).bind
    (Frame.resumeAt 0 operands locals).slot, binds_of_slot 0 hc.stack fun {a n} hn => ?_⟩
  have hfind : fr.slots.find? (fun b => fr.entry.slot b == some n) = some a := by
    cases hfound : fr.slots.find? fun b => fr.entry.slot b == some n with
    | none => exact absurd hn (by simpa using List.find?_eq_none.mp hfound a (mem_slots hn))
    | some b =>
      have hb : fr.entry.slot b = some n := by simpa using List.find?_some hfound
      rw [hm.sound.distinct ((fr.needs_state g b).trans hb) ((fr.needs_state g a).trans hn)]
  rw [hfind]
  rfl

end Fragment

/-! ## Executing a block -/

/-- Every instruction leads from related contexts and frames to related ones, if `R` relates nodes
to what they compute and to what they are answered. -/
theorem Context.Step.holds {R : NodeId → Value → Prop} {g : Graph} {a : Activation} {s t : Context}
    {f f' : Frame} {i : Instr} (hstep : Context.Step g f.ip i s t) (h : s.Holds R f)
    (hcomputes : ∀ {n : NodeId} {v : Value}, a.Computes g R n v → R n v)
    (hsends : ∀ {n receiver control : NodeId} {name : String} {args : List NodeId} {v w : Value}
      {vs : List Value}, g.Sends n name receiver args control → R receiver v →
        List.Forall₂ R args vs → v.send name vs = .ok w → R n w)
    (hexec : a.execute f i = .next f') : t.Holds R f' := by
  cases hends : i.endsBlock with
  | false =>
    by_cases hsend : ∃ name argc, i = .send name argc
    · obtain ⟨name, argc, rfl⟩ := hsend
      obtain ⟨n, receiver, args, rest, v, vs, ws, hn, -, rfl, hvs, hv, hrest, heq, -⟩ :=
        hstep.execute_send (a := a) h
      rw [hexec] at heq
      split at heq
      · next w hw =>
        cases heq
        have hpush := hrest.push (f.ip + 1) (hsends hn hv hvs hw)
        exact ⟨hpush.stack, hpush.names⟩
      · cases heq
    · rcases hstep.execute h hends (fun name argc heq => hsend ⟨name, argc, heq⟩) hcomputes with
        ⟨f'', heq, -, hholds⟩ | ⟨e, heq, -⟩
      · rw [hexec] at heq
        cases heq
        exact hholds
      · rw [hexec] at heq
        cases heq
  | true =>
    cases i with
    | jump target =>
      obtain ⟨heq, hholds⟩ := hstep.execute_jump (a := a) h target
      rw [Activation.eq_of_goto (heq.symm.trans hexec)]
      exact hholds
    | branch target =>
      obtain ⟨n, rest, v, ws, -, -, heq, hholds, -⟩ := hstep.execute_branch (a := a) h target
      rw [hexec] at heq
      split at heq
      · rw [Activation.eq_of_goto heq.symm]
        exact hholds
      · cases heq
        exact ⟨hholds.stack, hholds.names⟩
    | ret =>
      obtain ⟨n, rest, v, -, -, -, heq⟩ := hstep.execute_ret (a := a) h
      rw [hexec] at heq
      cases heq
    | _ => cases hends

namespace Execution

variable {x : Execution} {ρ : NodeId → Option Value} {fr : Fragment} {start k : Nat}
  {body : List Instr} {ctx : Nat → Context} {a : Activation} {f f' entry : Frame}

/-- The machine, which has entered a block with the frame `entry`, is before instruction `k` with
the frame `f`: the frame has values for the nodes of the context there, and below them what the
block does not reach. -/
structure Follows (x : Execution) (ρ : NodeId → Option Value) (start : Nat) (body : List Instr)
    (ctx : Nat → Context) (entry : Frame) (k : Nat) (f : Frame) : Prop where
  ip : k < body.length → f.ip = start + k
  holds : (ctx k).Holds (x.Evaluates ρ) f
  rest : f.stack.drop (ctx k).stack.length = entry.stack.drop (ctx 0).stack.length
  locals : ∀ y, .store y ∉ body → f.locals[y]? = entry.locals[y]?

/-- An activation executes the instructions of a block on the nodes of the graph. -/
structure Performs (x : Execution) (a : Activation) (start : Nat) (body : List Instr) : Prop where
  receiver : x.receiver = a.receiver
  args : x.args = a.args
  length : a.args.length ≤ 2 ^ 64
  code : ∀ {k : Nat} {i : Instr}, body[k]? = some i → a.code[start + k]? = some i
  inner : ∀ {k : Nat} {i : Instr}, body[k]? = some i → i.endsBlock = true → k + 1 = body.length

theorem Follows.instr {i : Instr} (h : x.Follows ρ start body ctx entry k f)
    (hp : x.Performs a start body) (hi : body[k]? = some i) : a.code[f.ip]? = some i := by
  rw [h.ip (List.getElem?_eq_some_iff.mp hi).1]
  exact hp.code hi

theorem Follows.step {i : Instr} {first last : Context} (h : x.Follows ρ start body ctx entry k f)
    (hp : x.Performs a start body) (htrace : Context.Trace x.graph start body first last ctx)
    (hi : body[k]? = some i) (hexec : a.execute f i = .next f') :
    x.Follows ρ start body ctx entry (k + 1) f' := by
  have hk := (List.getElem?_eq_some_iff.mp hi).1
  have hip := h.ip hk
  have hstep : Context.Step x.graph f.ip i (ctx k) (ctx (k + 1)) := hip ▸ htrace.step hi
  obtain ⟨hdrop, hlocals⟩ := Activation.execute_frame hexec
  refine ⟨fun hlt => ?_, ?_, ?_, fun y hy => ?_⟩
  · -- only the last instruction may lead elsewhere
    have hends : i.endsBlock = false := by
      by_contra hends
      have := hp.inner hi (by simpa using hends)
      omega
    have hcode := h.instr hp hi
    have hmem := Activation.ip_mem_nexts hcode ((Activation.step_eq hcode).trans hexec)
    rw [Instr.nexts_of_inner hends, List.mem_singleton] at hmem
    omega
  · exact hstep.holds h.holds (fun hc => evaluates_of_computes hp.receiver hp.args hp.length hc)
      (fun hs hv hvs hw => evaluates_of_sends hs hv hvs hw) hexec
  · obtain ⟨hle, hlen⟩ := hstep.length
    rw [hlen, Nat.add_comm, ← List.drop_drop, hdrop, List.drop_drop,
      Nat.add_sub_cancel' hle, h.rest]
  · rw [hlocals y fun heq => hy (heq ▸ List.mem_of_getElem? hi), h.locals y hy]

/-- The machine follows the contexts of a block as long as it is in it. -/
theorem follows_after {first last : Context} (hp : x.Performs a start body)
    (htrace : Context.Trace x.graph start body first last ctx)
    (hentry : x.Follows ρ start body ctx entry 0 entry) (hk : k ≤ body.length)
    (hafter : a.after k entry = some f) : x.Follows ρ start body ctx entry k f := by
  induction k generalizing f with
  | zero => exact Option.some.inj hafter ▸ hentry
  | succ k ih =>
    obtain ⟨f₁, hafter₁, hstep⟩ := Activation.exists_last hafter
    have h := ih (by omega) hafter₁
    have hi : body[k]? = some body[k] := List.getElem?_eq_getElem hk
    exact h.step hp htrace hi ((Activation.step_eq (h.instr hp hi)).symm.trans hstep)

/-- The frame `f` is what the block makes of operands, deepest first, and locals: the values of its
final nodes, over what it does not reach. -/
structure Leaves (x : Execution) (ρ : NodeId → Option Value) (fr : Fragment) (operands : List Value)
    (locals : Locals) (f : Frame) : Prop where
  stack : ∃ vs, List.Forall₂ (x.Evaluates ρ) fr.finalStack vs ∧
    f.stack.reverse = operands.take (operands.length - fr.neededStack.length) ++ vs
  assigned : ∀ {y : String} {n : NodeId}, fr.finalNames[y]? = some n →
    ∃ v, f.locals[y]? = some v ∧ x.Evaluates ρ n v
  kept : ∀ {y : String}, fr.finalNames[y]? = none → f.locals[y]? = locals[y]?

theorem Follows.leaves {operands : List Value} {locals : Locals}
    (h : x.Follows ρ start body ctx (.resumeAt start operands locals) body.length f)
    (htrace : Context.Trace x.graph start body fr.entry fr.exit ctx)
    (hstores : ∀ {y : String}, fr.finalNames[y]? = none → .store y ∉ body) :
    x.Leaves ρ fr operands locals f where
  stack := by
    have hholds := h.holds
    have hrest := h.rest
    rw [htrace.last] at hholds hrest
    rw [htrace.first] at hrest
    obtain ⟨top, deeper, hf, htop⟩ := hholds.stack
    refine ⟨top.reverse, by simpa [Fragment.exit] using List.rel_reverse htop, ?_⟩
    rw [htop.length_eq, hf, List.drop_left, Frame.resumeAt, Fragment.entry, List.length_reverse,
      List.drop_reverse] at hrest
    rw [hf, List.reverse_append, hrest, List.reverse_reverse]
  assigned hn := by
    have hholds := h.holds
    rw [htrace.last] at hholds
    exact hholds.names hn
  kept hn := h.locals _ (hstores hn)

/-- The machine takes the value of the condition from the stack. -/
theorem Follows.branch {target : Nat} {first last : Context}
    (h : x.Follows ρ start body ctx entry k f)
    (htrace : Context.Trace x.graph start body first last ctx)
    (hi : body[k]? = some (.branch target)) (hexec : a.execute f (.branch target) = .next f') :
    ∃ m v, f.stack = v :: f'.stack ∧
      x.graph.sourceFor? (ctx (k + 1)).control .condition = some m ∧ x.Evaluates ρ m v := by
  have hstep := htrace.step hi
  have hholds := h.holds
  generalize ctx k = s at hstep hholds
  generalize ctx (k + 1) = t at hstep
  cases hstep with
  | @branch _ _ n operand rest top label inputs after =>
    obtain ⟨v, ws, hf, hv, -⟩ := hholds.pop top
    have hdrop := (Activation.execute_frame hexec).1
    rw [hf] at hdrop
    refine ⟨operand, v, ?_, ?_, hv⟩
    · rw [hf, show f'.stack = ws from hdrop]
    · rw [Graph.sourceFor?, inputs]
      rfl

/-- The machine returns the value of the node on top. -/
theorem Follows.ret {first last : Context} {v : Value} (h : x.Follows ρ start body ctx entry k f)
    (htrace : Context.Trace x.graph start body first last ctx) (hi : body[k]? = some .ret)
    (hexec : a.execute f .ret = .stop (.ok v)) :
    ∃ n rest, (ctx (k + 1)).stack = n :: rest ∧ x.Evaluates ρ n v := by
  have hk := (List.getElem?_eq_some_iff.mp hi).1
  have hstep : Context.Step x.graph f.ip .ret (ctx k) (ctx (k + 1)) := h.ip hk ▸ htrace.step hi
  obtain ⟨n, rest, w, hstack, heq, hw, hexec'⟩ := hstep.execute_ret (a := a) h.holds
  rw [hexec] at hexec'
  cases hexec'
  exact ⟨n, rest, heq ▸ hstack, hw⟩

section Ends

variable {first last : Context} {v : Value}

/-- A block that ends in a branch takes the value of the condition from the stack at its end. -/
theorem exists_condition {target : Nat} (hp : x.Performs a start body)
    (htrace : Context.Trace x.graph start body first last ctx)
    (hentry : x.Follows ρ start body ctx entry 0 entry)
    (hlast : body.getLast? = some (.branch target)) (hafter : a.after body.length entry = some f) :
    ∃ before m v, a.after (body.length - 1) entry = some before ∧ before.stack = v :: f.stack ∧
      x.graph.sourceFor? last.control .condition = some m ∧ x.Evaluates ρ m v := by
  rw [List.getLast?_eq_getElem?] at hlast
  have hk := (List.getElem?_eq_some_iff.mp hlast).1
  have hlen : body.length - 1 + 1 = body.length := by omega
  rw [← hlen] at hafter
  obtain ⟨before, hbefore, hstep⟩ := Activation.exists_last hafter
  have h := follows_after hp htrace hentry (Nat.sub_le _ _) hbefore
  obtain ⟨m, v, hstack, hsource, hv⟩ :=
    h.branch htrace hlast ((Activation.step_eq (h.instr hp hlast)).symm.trans hstep)
  rw [hlen, htrace.last] at hsource
  exact ⟨before, m, v, hbefore, hstack, hsource, hv⟩

/-- A block in which the machine stops with an answer ends in a return of it. -/
theorem exists_returned (hp : x.Performs a start body)
    (htrace : Context.Trace x.graph start body first last ctx)
    (hentry : x.Follows ρ start body ctx entry 0 entry)
    (hrun : a.run body.length entry = some (.ok v)) :
    body.getLast? = some .ret ∧ ∃ n rest, last.stack = n :: rest ∧ x.Evaluates ρ n v := by
  obtain ⟨k, hk, f, hafter, hstop⟩ := Activation.exists_stop hrun
  have h := follows_after hp htrace hentry (Nat.le_of_lt hk) hafter
  have hi : body[k]? = some body[k] := List.getElem?_eq_getElem hk
  generalize body[k] = i at hi
  have hcode := h.instr hp hi
  obtain ⟨rfl, -⟩ := Activation.ret_of_stop hcode hstop
  have hlen := hp.inner hi rfl
  obtain ⟨n, rest, hstack, hv⟩ := h.ret htrace hi ((Activation.step_eq hcode).symm.trans hstop)
  rw [hlen, htrace.last] at hstack
  refine ⟨?_, n, rest, hstack, hv⟩
  rw [List.getLast?_eq_getElem?, ← hlen]
  exact hi

end Ends

end Execution

/-! ## The control chain -/

/-- The label of the node that an instruction at index `ip` puts onto the control chain. -/
def Instr.effect? (ip : Nat) : Instr → Option (Op × Props)
  | trace line => some (.trace, [("line", .ofNat line.toNat)])
  | send name argc =>
    some (.send, [("name", .symbol name), ("argc", .ofNat argc), ("ip", .ofNat ip)])
  | jump _ => some (.jump, [])
  | branch _ => some (.branch, [])
  | _ => none

/-- The effects of consecutive instructions, the first of which has index `ip`. -/
def Instr.effects : Nat → List Instr → List (Op × Props)
  | _, [] => []
  | ip, i :: rest => (i.effect? ip).toList ++ effects (ip + 1) rest

/-- Control goes from a node through `nodes`, to each by the only control edge out of the one before
it, and ends at the last. -/
inductive Graph.Chain (g : Graph) : NodeId → List NodeId → NodeId → Prop where
  | stop {n : NodeId} (none : g.controlTargets n = []) : Chain g n [] n
  | link {n m last : NodeId} {nodes : List NodeId} (one : g.controlTargets n = [m])
      (rest : Chain g m nodes last) : Chain g n (m :: nodes) last

theorem Context.Step.effect {g : Graph} {ip : Nat} {i : Instr} {s t : Context}
    (h : Context.Step g ip i s t) :
    (i.effect? ip = none ∧ t.control = s.control) ∨
      ∃ l, i.effect? ip = some l ∧ g.label? t.control = some l ∧ s.control < t.control := by
  cases h with
  | trace label _ after | send _ label _ after | jump label _ after | branch _ label _ after =>
    exact .inr ⟨_, rfl, label, after⟩
  | _ => exact .inl ⟨rfl, rfl⟩

namespace Graph

variable {g h : Graph} {es : List Edge} {n m last : NodeId} {nodes : List NodeId}

theorem Grows.controlTargets (hgrow : g.Grows h es) (hg : g.Consistent) (n : NodeId) :
    h.controlTargets n = g.controlTargets n ++
      ((es.filter (·.source == n)).filter (·.isControl)).map (·.target) := by
  rw [Graph.controlTargets, hgrow.outputs hg, List.filter_append, List.map_append]
  rfl

theorem Chain.last_eq_nil (hc : g.Chain n nodes last) : g.controlTargets last = [] := by
  induction hc with
  | stop none => exact none
  | link _ _ ih => exact ih

theorem Chain.congr (hc : g.Chain n nodes last)
    (heq : ∀ n, h.controlTargets n = g.controlTargets n) : h.Chain n nodes last := by
  induction hc with
  | stop none => exact .stop ((heq _).trans none)
  | link one _ ih => exact .link ((heq _).trans one) ih

/-- A chain gets longer by a control edge from its end to a node that control does not leave. -/
theorem Chain.concat (hc : g.Chain n nodes last) (hlast : h.controlTargets last = [m])
    (hm : h.controlTargets m = [])
    (hkeep : ∀ k, g.controlTargets k ≠ [] → h.controlTargets k = g.controlTargets k) :
    h.Chain n (nodes ++ [m]) m := by
  induction hc with
  | stop none => exact .link hlast (.stop hm)
  | link one _ ih =>
    refine .link ?_ (ih hlast)
    rw [hkeep _ (by simp [one]), one]

/-- A chain keeps the labels of its nodes. -/
theorem Adds.map_label? {labels : List (Op × Props)} (hadds : g.Adds h)
    (heq : nodes.map g.label? = labels.map some) : nodes.map h.label? = labels.map some := by
  rw [← heq]
  refine List.map_congr_left fun n hn => ?_
  have hmem : g.label? n ∈ labels.map some := heq ▸ List.mem_map_of_mem hn
  obtain ⟨l, -, hl⟩ := List.mem_map.mp hmem
  rw [← hl]
  exact hadds.label_some hl.symm

end Graph

namespace Lowering

variable {s t : Lowering} {lo region : NodeId} {nodes : List NodeId}

/-- An instruction leaves the control chain as it is or puts one new node at the end of it. -/
theorem Emits.chain (h : s.Emits t) (hg : s.graph.Consistent)
    (hlt : s.controlEnd < s.graph.nodes.size) (hc : s.graph.Chain region nodes s.controlEnd) :
    (t.controlEnd = s.controlEnd ∧ t.graph.Chain region nodes t.controlEnd) ∨
      s.controlEnd < t.controlEnd ∧
        t.graph.Chain region (nodes ++ [t.controlEnd]) t.controlEnd := by
  have hnone : ∀ {vs : List Edge} (n : NodeId), (∀ e ∈ vs, e.isControl = false) →
      (vs.filter (·.source == n)).filter (·.isControl) = [] := fun n hvs =>
    List.filter_eq_nil_iff.mpr fun e he => by simp [hvs e (List.mem_filter.mp he).1]
  cases h with
  | quiet grows edges fresh control =>
    rw [control]
    refine .inl ⟨rfl, hc.congr fun n => ?_⟩
    rw [grows.controlTargets hg, hnone n fun e he => (edges e he).1.2, List.map_nil,
      List.append_nil]
  | @chained vs op grows edges new label chained fresh =>
    have hlast : s.controlEnd < t.controlEnd := Nat.lt_of_lt_of_le hlt new
    have htargets : ∀ n, t.graph.controlTargets n = s.graph.controlTargets n ++
        if s.controlEnd = n then [t.controlEnd] else [] := by
      intro n
      rw [grows.controlTargets hg, List.filter_append, List.filter_append,
        hnone n fun e he => (edges e he).1.2, List.nil_append]
      by_cases hn : s.controlEnd = n <;> simp [Edge.control, Edge.isControl, hn]
    refine .inr ⟨hlast, hc.concat ?_ ?_ fun n hn => ?_⟩
    · rw [htargets, hc.last_eq_nil, if_pos rfl, List.nil_append]
    · rw [htargets, if_neg (Nat.ne_of_lt hlast), Graph.controlTargets, hg.outputs_of_ge new]
      rfl
    · rw [htargets, if_neg, List.append_nil]
      rintro rfl
      exact hn hc.last_eq_nil

theorem Lowers.chain {ip : Nat} {i : Instr} (hs : s.Sound lo) (h : Lowers lo ip i s t)
    (hc : s.graph.Chain region nodes s.controlEnd) :
    ∃ more, t.graph.Chain region (nodes ++ more) t.controlEnd ∧
      more.map t.graph.label? = (i.effect? ip).toList.map some := by
  have hwithin : t.Within t.neededStack.reverse fun x => t.neededNames[x]? :=
    ⟨List.prefix_refl _, id⟩
  have heffect := (h.step hwithin).effect
  rcases h.emits.chain hs.consistent hs.control_lt hc with ⟨hend, hchain⟩ | ⟨hend, hchain⟩
  -- the chain gets longer exactly if the context's control moves
  · rcases heffect with ⟨hnone, -⟩ | ⟨l, -, -, hlt⟩
    · exact ⟨[], by rwa [List.append_nil], by rw [hnone]; rfl⟩
    · exact absurd hend (Nat.ne_of_gt hlt)
  · rcases heffect with ⟨-, heq⟩ | ⟨l, hsome, hlabel, -⟩
    · exact absurd heq (Nat.ne_of_gt hend)
    · refine ⟨[t.controlEnd], hchain, ?_⟩
      rw [hsome]
      exact congrArg (fun l => [l]) hlabel

/-- The nodes that a run of instructions puts onto the control chain are its effects, in order. -/
theorem chain_instrs (hs : s.Sound lo) (ip : Nat) (body : List Instr)
    (hc : s.graph.Chain region nodes s.controlEnd) :
    ∃ more, (s.instrs ip body).graph.Chain region (nodes ++ more) (s.instrs ip body).controlEnd ∧
      more.map (s.instrs ip body).graph.label? = (Instr.effects ip body).map some := by
  induction body generalizing s ip nodes with
  | nil => exact ⟨[], by rwa [List.append_nil], rfl⟩
  | cons i rest ih =>
    have hi := lowers_instr hs ip i
    obtain ⟨here, hchain, hlabel⟩ := hi.chain hs hc
    obtain ⟨more, hchain', hlabels⟩ := ih hi.sound (ip + 1) hchain
    refine ⟨here ++ more, by rwa [← List.append_assoc], ?_⟩
    have hadds := (advances_instrs hi.sound (ip + 1) rest).1.adds
    rw [List.map_append, Instr.effects, List.map_append]
    exact congrArg₂ (· ++ ·) (hadds.map_label? hlabel) hlabels

end Lowering

namespace Graph

variable {g h : Graph} {fr : Fragment} {start : Nat} {body : List Instr}

/-- The control chain of a block holds its effects. -/
theorem chain_lower (hg : g.Consistent) (hlower : g.lower start body = (fr, h)) :
    ∃ nodes, h.Chain fr.region nodes fr.controlEnd ∧
      nodes.map h.label? = (Instr.effects start body).map some := by
  have hnone : (g.addNode .region []).controlTargets g.nodes.size = [] := by
    rw [(Grows.addNode g .region []).controlTargets hg, Graph.controlTargets,
      hg.outputs_of_ge (Nat.le_refl _)]
    rfl
  cases hlower
  exact Lowering.chain_instrs (sound_atRegion hg) start body (.stop hnone)

/-- A local that is not known at the end of a block is not assigned in it. -/
theorem not_mem_of_lower (hlower : g.lower start body = (fr, h)) {y : String}
    (hy : fr.finalNames[y]? = none) : .store y ∉ body := by
  have hnot : y ∉ fr.finalNames := by
    rw [Std.TreeMap.mem_iff_isSome_getElem?, hy]
    simp
  cases hlower
  exact fun hstore => hnot (Lowering.mem_names_instrs.mpr (.inr (.inr hstore)))

end Graph

/-- A lowered block computes what the machine does with its instructions. Let the machine execute
the block from operands and locals that cover what it needs, and let the placeholders have the
values found there. Where the machine leaves the block, its operands and locals are the values of
the final nodes, with those the block does not reach; the condition that a branch takes and the
answer that a return gives are values of the nodes recorded for them. The control chain of the block
holds its effects in order. The number of an argument is kept as a word, hence the bound on the
number of arguments. -/
theorem Graph.lower_executes {g h : Graph} {fr : Fragment} {start : Nat} {body : List Instr}
    (hg : g.Consistent) (hlower : g.lower start body = (fr, h))
    (hbody : ∀ k i, body[k]? = some i → i.endsBlock = true → k + 1 = body.length)
    {a : Activation} (hargs : a.args.length ≤ 2 ^ 64)
    (hcode : ∀ k i, body[k]? = some i → a.code[start + k]? = some i)
    {operands : List Value} {locals : Locals} (hcovered : fr.Covered operands locals) :
    (∃ ρ, fr.Binds operands locals ρ) ∧
      (∀ ρ, fr.Binds operands locals ρ →
        (∀ f, a.after body.length (.resumeAt start operands locals) = some f →
          (Execution.mk h a.receiver a.args).Leaves ρ fr operands locals f ∧
          ∀ target, body.getLast? = some (.branch target) →
            ∃ before m v,
              a.after (body.length - 1) (.resumeAt start operands locals) = some before ∧
              before.stack = v :: f.stack ∧ h.sourceFor? fr.controlEnd .condition = some m ∧
              (Execution.mk h a.receiver a.args).Evaluates ρ m v) ∧
        ∀ v, a.run body.length (.resumeAt start operands locals) = some (.ok v) →
          body.getLast? = some .ret ∧ ∃ m, fr.latest = some m ∧
            (Execution.mk h a.receiver a.args).Evaluates ρ m v) ∧
      ∃ nodes, h.Chain fr.region nodes fr.controlEnd ∧
        nodes.map h.label? = (Instr.effects start body).map some := by
  have hlive : livePart body = body := livePart_of_inner fun {k i} => hbody k i
  have hm : fr.Models h ⟨start, body, [], []⟩ := by
    have hm := models_lower hg ⟨start, body, [], []⟩
    simp only [Block.live, hlive, hlower] at hm
    exact hm
  obtain ⟨ctx, htrace, -⟩ := hm.trace_entry
  rw [Block.live, hlive] at htrace
  have hreturned : body.getLast? = some .ret →
      ∃ n rest, fr.finalStack.reverse = n :: rest ∧ fr.latest = some n := by
    have hreturned := hm.returned
    rwa [Block.live, hlive] at hreturned
  refine ⟨hm.exists_binds hcovered, fun ρ hρ => ?_, ?_⟩
  · have hp : (Execution.mk h a.receiver a.args).Performs a start body :=
      ⟨rfl, rfl, hargs, fun {k i} => hcode k i, fun {k i} => hbody k i⟩
    have hentry : (Execution.mk h a.receiver a.args).Follows ρ start body ctx
        (.resumeAt start operands locals) 0 (.resumeAt start operands locals) := by
      refine ⟨fun _ => rfl, ?_, rfl, fun _ _ => rfl⟩
      rw [htrace.first]
      refine .of_slot fun {s n} hn => ?_
      obtain ⟨v, hv, hρv⟩ := hρ.slot hcovered hn
      exact ⟨v, hv, Execution.evaluates_input (hm.op_of_slot hn) hρv⟩
    refine ⟨fun f hafter => ⟨?_, fun target hlast => ?_⟩, fun v hrun => ?_⟩
    · exact (Execution.follows_after hp htrace hentry (Nat.le_refl _) hafter).leaves htrace
        (not_mem_of_lower hlower)
    · exact Execution.exists_condition hp htrace hentry hlast hafter
    · obtain ⟨hlast, n, rest, hstack, hv⟩ := Execution.exists_returned hp htrace hentry hrun
      obtain ⟨n', rest', hstack', hlatest⟩ := hreturned hlast
      obtain rfl : n = n' := (List.cons.inj (hstack.symm.trans hstack')).1
      exact ⟨hlast, n, hlatest, hv⟩
  · exact chain_lower hg hlower

/-- Stores the difference of two operands that it inherits, loads it, and goes back on a local. -/
def Instr.subtracting : List Instr :=
  [.trace 3, .send "-" 1, .store "y", .load "y", .load "x", .not, .branch 0]

/-- The block takes two of three operands, and the machine goes back with the lowest one and what
the block has made of the others. -/
theorem Graph.lower_executes_subtracting :
    ∃ fr h f ρ, Graph.initial.lower 0 Instr.subtracting = (fr, h) ∧ fr.neededStack.length = 2 ∧
      fr.Binds [.int 9, .int 7, .int 2] (.insert ∅ "x" (.bool false)) ρ ∧
      (Activation.mk Instr.subtracting.toArray .nil []).after 7
        (.resumeAt 0 [.int 9, .int 7, .int 2] (.insert ∅ "x" (.bool false))) = some f ∧
      f.stack = [.int 5, .int 9] ∧
      (Execution.mk h .nil []).Leaves ρ fr [.int 9, .int 7, .int 2]
        (.insert ∅ "x" (.bool false)) f ∧
      ∃ m, h.sourceFor? fr.controlEnd .condition = some m ∧
        (Execution.mk h .nil []).Evaluates ρ m (.bool true) := by
  have hneeds : (Graph.initial.lower 0 Instr.subtracting).1.neededStack.length = 2 ∧
      (Graph.initial.lower 0 Instr.subtracting).1.neededNames.keys = ["x"] := by decide +kernel
  have hstack : ((Activation.mk Instr.subtracting.toArray .nil []).after 7
      (.resumeAt 0 [.int 9, .int 7, .int 2] (.insert ∅ "x" (.bool false)))).map (·.stack) =
        some [.int 5, .int 9] := by decide +kernel
  have hbefore : ((Activation.mk Instr.subtracting.toArray .nil []).after 6
      (.resumeAt 0 [.int 9, .int 7, .int 2] (.insert ∅ "x" (.bool false)))).map (·.stack) =
        some [.bool true, .int 5, .int 9] := by decide +kernel
  have hlast : ∀ k : Fin Instr.subtracting.length, Instr.subtracting[k].endsBlock = true →
      k.1 + 1 = Instr.subtracting.length := by decide
  obtain ⟨f, hf, hfstack⟩ := Option.map_eq_some_iff.mp hstack
  have hcovered : (Graph.initial.lower 0 Instr.subtracting).1.Covered [.int 9, .int 7, .int 2]
      (.insert ∅ "x" (.bool false)) := by
    refine ⟨by rw [hneeds.1]; decide, fun y hy => ?_⟩
    rw [← Std.TreeMap.mem_keys, hneeds.2, List.mem_singleton] at hy
    rw [hy]
    exact Std.TreeMap.mem_insert_self
  have hlower : Graph.initial.lower 0 Instr.subtracting =
      ((Graph.initial.lower 0 Instr.subtracting).1, (Graph.initial.lower 0 Instr.subtracting).2) :=
    rfl
  obtain ⟨⟨ρ, hρ⟩, hexec, -⟩ := Graph.lower_executes (a := ⟨Instr.subtracting.toArray, .nil, []⟩)
    Graph.consistent_initial hlower
    (fun k i hi hends => by
      obtain ⟨hk, rfl⟩ := List.getElem?_eq_some_iff.mp hi
      exact hlast ⟨k, hk⟩ hends)
    (by decide) (fun k i hi => by simpa using hi) hcovered
  obtain ⟨hleaves, hcondition⟩ := (hexec ρ hρ).1 f hf
  obtain ⟨before, m, v, hafter, htop, hsource, hv⟩ := hcondition 0 rfl
  rw [show Instr.subtracting.length - 1 = 6 from rfl] at hafter
  rw [hafter, Option.map_some, htop] at hbefore
  obtain rfl : v = .bool true := (List.cons.inj (Option.some.inj hbefore)).1
  exact ⟨_, _, f, ρ, rfl, hneeds.1, hρ, hf, hfstack, hleaves, m, hsource, hv⟩

end StackJit
