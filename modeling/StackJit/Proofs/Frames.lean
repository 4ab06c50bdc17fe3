import StackJit.Proofs.Build.Method
import StackJit.Proofs.Runs

/-!
# Frames against contexts

`Context.Holds R s f` relates what a block knows at an instruction to a frame of the machine there:
whatever node the context has in a slot, the frame has a value in that slot that `R` relates to the
node. `R` is left open. Executing an instruction makes at most one new value (`Activation.Makes`),
and takes related contexts and frames to related ones (`Context.Holds.execute`).
-/

namespace StackJit

/-- The value in a slot. -/
def Frame.slot (f : Frame) : Slot → Option Value
  | .operand i => f.stack[i]?
  | .name x => f.locals[x]?

/-- A frame has values for the nodes of a context. -/
structure Context.Holds (R : NodeId → Value → Prop) (s : Context) (f : Frame) : Prop where
  stack : ∃ top deeper, f.stack = top ++ deeper ∧ List.Forall₂ R s.stack top
  names : ∀ {x : String} {n : NodeId}, s.names x = some n → ∃ v, f.locals[x]? = some v ∧ R n v

/-- The node `n` of `g` computes `v`, from values of other nodes or from the activation. -/
inductive Activation.Computes (a : Activation) (g : Graph) (R : NodeId → Value → Prop)
    (n : NodeId) : Value → Prop where
  | self (label : g.label? n = some (.self, [])) : Computes a g R n a.receiver
  | arg {k : Nat} {v : Value} (label : g.label? n = some (.arg, [("n", .ofNat k)]))
      (given : a.args[k]? = some v) : Computes a g R n v
  | constant {v : Value} (label : g.label? n = some (.constant, [("value", v)])) :
      Computes a g R n v
  | not {m : NodeId} {v : Value} (label : g.label? n = some (.not, []))
      (inputs : g.inputs n = [.value m n .value]) (operand : R m v) :
      Computes a g R n (.bool (!v.truthy))

/-- The node `n` of `g` sends the message `name` with the values of `args` to that of `receiver`. -/
structure Graph.Sends (g : Graph) (n : NodeId) (name : String) (receiver : NodeId)
    (args : List NodeId) (control : NodeId) : Prop where
  label : ∃ rest, g.label? n = some (.send, ("name", .symbol name) :: rest)
  inputs : g.inputs n =
    .value receiver n .receiver :: args.map (fun m => .value m n .args) ++ [.control control n]
  after : control < n

theorem Graph.Sends.op {g : Graph} {n receiver control : NodeId} {name : String}
    {args : List NodeId} (h : g.Sends n name receiver args control) : g.op? n = some .send := by
  obtain ⟨rest, hlabel⟩ := h.label
  exact op?_of_label? hlabel

/-- The failures of a lowered instruction. -/
inductive Activation.Raises (a : Activation) : Instr → RunError → Prop where
  | arg {k : Nat} (missing : a.args[k]? = none) :
      Raises a (.arg k) (.missingArgument k a.args.length)
  | send {name : String} {argc : Nat} {receiver : Value} {args : List Value} {e : RunError}
      (given : args.length = argc) (refused : receiver.send name args = .error e) :
      Raises a (.send name argc) e

namespace Context.Holds

variable {R R' : NodeId → Value → Prop} {s : Context} {f : Frame}

/-- The value of the node in a slot. -/
theorem slot (h : s.Holds R f) {a : Slot} {n : NodeId} (hn : s.slot a = some n) :
    ∃ v, f.slot a = some v ∧ R n v := by
  cases a with
  | name x => exact h.names hn
  | operand i =>
    obtain ⟨top, deeper, hf, htop⟩ := h.stack
    obtain ⟨hi, rfl⟩ := List.getElem?_eq_some_iff.mp hn
    have hi' : i < top.length := htop.length_eq ▸ hi
    have hR := (List.forall₂_iff_get.mp htop).2 i hi hi'
    refine ⟨top[i], ?_, hR⟩
    change f.stack[i]? = _
    rw [hf, List.getElem?_append_left hi', List.getElem?_eq_getElem hi']

/-- Values for every slot are enough. -/
theorem of_slot (h : ∀ {a : Slot} {n : NodeId}, s.slot a = some n →
    ∃ v, f.slot a = some v ∧ R n v) : s.Holds R f where
  stack := by
    refine ⟨f.stack.take s.stack.length, f.stack.drop s.stack.length,
      (List.take_append_drop _ _).symm, List.forall₂_iff_get.mpr ⟨?_, ?_⟩⟩
    · rw [List.length_take, eq_comm, Nat.min_eq_left]
      by_contra hlt
      have hpos : f.stack.length < s.stack.length := Nat.lt_of_not_le hlt
      obtain ⟨v, hv, -⟩ := h (a := .operand f.stack.length) (List.getElem?_eq_getElem hpos)
      simp [Frame.slot] at hv
    · intro i hi hi'
      obtain ⟨v, hv, hR⟩ := h (a := .operand i) (List.getElem?_eq_getElem hi)
      obtain ⟨hlt, rfl⟩ := List.getElem?_eq_some_iff.mp hv
      simpa using hR
  names hn := h (a := .name _) hn

theorem mono (h : s.Holds R f)
    (hR : ∀ {a : Slot} {n : NodeId} {v : Value}, s.slot a = some n → R n v → R' n v) :
    s.Holds R' f := by
  refine .of_slot fun {a n} hn => ?_
  obtain ⟨v, hv, hnv⟩ := h.slot hn
  exact ⟨v, hv, hR hn hnv⟩

theorem control (h : s.Holds R f) (ip : Nat) (n : NodeId) :
    Context.Holds R { s with control := n } { f with ip } :=
  ⟨h.stack, h.names⟩

theorem push {n : NodeId} {v : Value} (h : s.Holds R f) (ip : Nat) (hnv : R n v) :
    (s.push n).Holds R { f with ip, stack := v :: f.stack } := by
  obtain ⟨top, deeper, hf, htop⟩ := h.stack
  exact ⟨⟨v :: top, deeper, by simp [hf], .cons hnv htop⟩, h.names⟩

/-- The top operands of a context, with their values. -/
theorem split {upper rest : List NodeId} (h : s.Holds R f) (hs : s.stack = upper ++ rest) :
    ∃ vs ws, f.stack = vs ++ ws ∧ List.Forall₂ R upper vs ∧
      Context.Holds R { s with stack := rest } { f with stack := ws } := by
  obtain ⟨top, deeper, hf, htop⟩ := h.stack
  rw [hs] at htop
  refine ⟨top.take upper.length, top.drop upper.length ++ deeper, ?_,
    (List.forall₂_take_append top upper rest htop.flip).flip,
    ⟨_, deeper, rfl, (List.forall₂_drop_append top upper rest htop.flip).flip⟩, h.names⟩
  rw [← List.append_assoc, List.take_append_drop, hf]

/-- The top operand of a context, with its value. -/
theorem pop {n : NodeId} {rest : List NodeId} (h : s.Holds R f) (hs : s.stack = n :: rest) :
    ∃ v ws, f.stack = v :: ws ∧ R n v ∧
      Context.Holds R { s with stack := rest } { f with stack := ws } := by
  obtain ⟨vs, ws, hf, hvs, hrest⟩ := h.split (show s.stack = [n] ++ rest from hs)
  obtain ⟨v, vs, hnv, hnil, rfl⟩ := List.forall₂_cons_left_iff.mp hvs
  obtain rfl := List.forall₂_nil_left_iff.mp hnil
  exact ⟨v, ws, hf, hnv, hrest⟩

theorem assign {n : NodeId} {v : Value} (h : s.Holds R f) (x : String) (hnv : R n v) :
    (s.assign x n).Holds R { f with locals := f.locals.insert x v } := by
  refine ⟨h.stack, fun {y m} hm => ?_⟩
  simp only [Context.assign] at hm
  split at hm
  · next hy =>
    obtain rfl : n = m := Option.some.inj hm
    exact ⟨v, by simp [hy], hnv⟩
  · next hy =>
    obtain ⟨w, hw, hmw⟩ := h.names hm
    refine ⟨w, ?_, hmw⟩
    rw [Std.TreeMap.getElem?_insert, if_neg (by simpa using Ne.symm hy)]
    exact hw

end Context.Holds

namespace Context.Step

variable {a : Activation} {R : NodeId → Value → Prop} {g : Graph} {s t : Context} {f : Frame}
  {i : Instr}

/-- An instruction within a block, sends apart, leads to the frame of the next context. -/
theorem execute (hstep : Context.Step g f.ip i s t) (h : s.Holds R f) (hends : i.endsBlock = false)
    (hsend : ∀ name argc, i ≠ .send name argc)
    (hR : ∀ {n : NodeId} {v : Value}, a.Computes g R n v → R n v) :
    (∃ f', a.execute f i = .next f' ∧ f'.ip = f.ip + 1 ∧ t.Holds R f') ∨
      ∃ e, a.execute f i = .stop (.error e) ∧ a.Raises i e := by
  cases hstep with
  | trace label inputs after => exact .inl ⟨_, rfl, rfl, h.control _ _⟩
  | self label inputs => exact .inl ⟨_, rfl, rfl, h.push _ (hR (.self label))⟩
  | @arg _ k n label inputs =>
    cases hk : a.args[k]? with
    | none => exact .inr ⟨_, by simp only [Activation.execute, hk], .arg hk⟩
    | some v =>
      exact .inl ⟨_, by simp only [Activation.execute, hk], rfl, h.push _ (hR (.arg label hk))⟩
  | @load _ x n known =>
    obtain ⟨v, hv, hnv⟩ := h.names known
    exact .inl ⟨_, by simp only [Activation.execute, hv], rfl, h.push _ hnv⟩
  | @store _ x n rest top =>
    obtain ⟨v, ws, hf, hnv, hrest⟩ := h.pop top
    have hassign := hrest.assign x hnv
    exact .inl ⟨⟨f.ip + 1, ws, f.locals.insert x v⟩, by simp only [Activation.execute, hf], rfl,
      hassign.stack, hassign.names⟩
  | push label inputs => exact .inl ⟨_, rfl, rfl, h.push _ (hR (.constant label))⟩
  | send top label inputs after => exact absurd rfl (hsend _ _)
  | @not _ n operand rest top label inputs =>
    obtain ⟨v, ws, hf, hnv, hrest⟩ := h.pop top
    exact .inl ⟨_, by simp only [Activation.execute, hf], rfl,
      hrest.push _ (hR (.not label inputs hnv))⟩
  | jump => cases hends
  | branch => cases hends
  | ret => cases hends

/-- A send takes its operands, and its answer is the value of its node. -/
theorem execute_send {name : String} {argc : Nat}
    (hstep : Context.Step g f.ip (.send name argc) s t) (h : s.Holds R f) :
    ∃ n receiver args rest v vs ws, g.Sends n name receiver args s.control ∧
      s.stack = args.reverse ++ receiver :: rest ∧ t = ⟨n :: rest, s.names, n⟩ ∧
      List.Forall₂ R args vs ∧ R receiver v ∧
      Context.Holds R { s with stack := rest } { f with stack := ws } ∧
      a.execute f (.send name argc) =
        (match v.send name vs with
        | .ok w => .next { f with ip := f.ip + 1, stack := w :: ws }
        | .error e => .stop (.error e)) ∧
      vs.length = argc := by
  cases hstep with
  | @send _ _ n receiver args rest top label inputs after =>
    obtain ⟨us, ws', hf, hus, hrest⟩ := h.split top
    obtain ⟨v, ws, hws, hv, hrest⟩ := hrest.pop (n := receiver) rfl
    have hws : ws' = v :: ws := hws
    have hlen : us.length = args.length := by simpa using hus.length_eq.symm
    refine ⟨n, receiver, args, rest, v, us.reverse, ws, ⟨⟨_, label⟩, inputs, after⟩, top,
      rfl, ?_, hv, hrest, ?_, by simpa using hlen⟩
    · simpa using List.rel_reverse hus
    · have hdrop : f.stack.drop args.length = v :: ws := by
        rw [hf, ← hlen, List.drop_left, hws]
      have htake : f.stack.take args.length = us := by
        rw [hf, ← hlen, List.take_left]
      cases hanswer : v.send name us.reverse <;>
        simp only [Activation.execute, hdrop, htake, hanswer]

theorem execute_jump {target : Nat} (hstep : Context.Step g f.ip (.jump target) s t)
    (h : s.Holds R f) (ip : Nat) :
    a.execute f (.jump target) = a.goto f target ∧ t.Holds R { f with ip } := by
  cases hstep with
  | jump label inputs after => exact ⟨rfl, h.control _ _⟩

/-- A branch takes its condition and goes one of two ways. -/
theorem execute_branch {target : Nat} (hstep : Context.Step g f.ip (.branch target) s t)
    (h : s.Holds R f) (ip : Nat) :
    ∃ n rest v ws, s.stack = n :: rest ∧ R n v ∧
      a.execute f (.branch target) =
        (if v.truthy then a.goto { f with stack := ws } target
        else .next { f with ip := f.ip + 1, stack := ws }) ∧
      t.Holds R { f with ip, stack := ws } ∧
      g.label? t.control = some (.branch, []) ∧
      g.inputs t.control = [.value n t.control .condition, .control s.control t.control] := by
  cases hstep with
  | @branch _ _ n operand rest top label inputs after =>
    obtain ⟨v, ws, hf, hnv, hrest⟩ := h.pop top
    exact ⟨operand, rest, v, ws, top, hnv, by simp only [Activation.execute, hf],
      ⟨hrest.stack, hrest.names⟩, label, inputs⟩

theorem execute_ret (hstep : Context.Step g f.ip .ret s t) (h : s.Holds R f) :
    ∃ n rest v, s.stack = n :: rest ∧ t = s ∧ R n v ∧ a.execute f .ret = .stop (.ok v) := by
  cases hstep with
  | @ret _ n rest top =>
    obtain ⟨v, ws, hf, hnv, -⟩ := h.pop top
    exact ⟨n, rest, v, top, rfl, hnv, by simp only [Activation.execute, hf]⟩

end Context.Step

namespace Translation

variable {code : Code} {g : Graph} {t : Translation code g} {b c : Block} {k : Nat} {f : Frame}

/-- The frame `f` is about to execute the live instruction `k` of the block `b`. -/
structure At (t : Translation code g) (b : Block) (k : Nat) (f : Frame) : Prop where
  mem : b ∈ t.blocks
  lt : k < b.live.length
  ip : f.ip = b.start + k

theorem At.instr (h : t.At b k f) :
    ∃ i, b.live[k]? = some i ∧ code[f.ip]? = some i ∧
      Context.Step g f.ip i (t.context b k) (t.context b (k + 1)) := by
  obtain ⟨i, hi⟩ : ∃ i, b.live[k]? = some i := ⟨_, List.getElem?_eq_getElem h.lt⟩
  obtain ⟨fb, hfb⟩ := t.exists_has h.mem
  refine ⟨i, hi, ?_, h.ip ▸ hfb.trace.step hi⟩
  rw [h.ip, ← (t.layout.fits b h.mem).live_at k h.lt, hi]

/-- What follows a live instruction lies in its block, unless it is the last one. -/
theorem At.inner (h : t.At b k f) (hk : k + 1 < b.live.length) {f' : Frame}
    (hip : f'.ip = f.ip + 1) : t.At b (k + 1) f' :=
  ⟨h.mem, hk, by rw [hip, h.ip, Nat.add_assoc]⟩

/-- A block starts where a predecessor of it leads to. -/
theorem at_succ (t : Translation code g) (hb : b ∈ t.blocks) (hsucc : f.ip ∈ b.succs) :
    ∃ c, t.At c 0 f ∧ c.start ∈ b.succs := by
  obtain ⟨c, hc, hcs⟩ := t.layout.succ b hb f.ip hsucc
  exact ⟨c, ⟨hc, List.length_pos_iff.mpr (t.layout.fits c hc).live_ne_nil, hcs.symm⟩, hcs ▸ hsucc⟩

theorem At.succs_eq (h : t.At b k f) {i : Instr} (hk : k + 1 = b.live.length)
    (hi : b.live[k]? = some i) :
    b.succs = flowAfter b.live (code.following (f.ip + 1)) ∧ b.live.getLast? = some i := by
  have hlast : b.live.getLast? = some i := by
    rw [List.getLast?_eq_getElem?, ← hk]
    exact hi
  rw [(t.layout.fits b h.mem).succs_eq, h.ip, Nat.add_assoc, hk]
  exact ⟨rfl, hlast⟩

/-- Control that runs past the last live instruction of a block comes to a successor, or to the end
of the body. -/
theorem At.fallsThrough (h : t.At b k f) {i : Instr} (hk : k + 1 = b.live.length)
    (hi : b.live[k]? = some i) (hjump : ∀ target, i ≠ .jump target) (hret : i ≠ .ret) :
    f.ip + 1 ∈ b.succs ∨ code.size = f.ip + 1 ∧ ∀ t ∈ b.succs, i.target? = some t := by
  obtain ⟨hsuccs, hlast⟩ := h.succs_eq hk hi
  have hflow : ∀ following, flowAfter b.live following = i.target?.toList ++ following.toList := by
    intro following
    cases i with
    | jump target => exact absurd rfl (hjump target)
    | ret => exact absurd rfl hret
    | _ => simp [flowAfter, hlast, Instr.target?]
  rw [hsuccs, hflow]
  by_cases hlt : f.ip + 1 < code.size
  · refine .inl (List.mem_append_right _ ?_)
    simp [Code.following, hlt]
  · obtain ⟨j, -, hj, -⟩ := h.instr
    have hip := (Array.getElem?_eq_some_iff.mp hj).1
    refine .inr ⟨by omega, fun t ht => ?_⟩
    simpa [Code.following, hlt] using ht

theorem At.jumps (h : t.At b k f) {target : Nat} (hk : k + 1 = b.live.length)
    (hi : b.live[k]? = some (.jump target)) : b.succs = [target] := by
  obtain ⟨hsuccs, hlast⟩ := h.succs_eq hk hi
  rw [hsuccs, flowAfter, hlast]

theorem At.branches (h : t.At b k f) {target : Nat} (hk : k + 1 = b.live.length)
    (hi : b.live[k]? = some (.branch target)) :
    b.succs = target :: (code.following (f.ip + 1)).toList := by
  obtain ⟨hsuccs, hlast⟩ := h.succs_eq hk hi
  rw [hsuccs, flowAfter, hlast]

/-- Only the last live instruction of a block ends it. -/
theorem At.last_of_endsBlock (h : t.At b k f) {i : Instr} (hi : b.live[k]? = some i)
    (hends : i.endsBlock = true) : k + 1 = b.live.length := by
  by_contra hne
  have hlt : k + 1 < b.live.length := Nat.lt_of_le_of_ne h.lt hne
  rw [(t.layout.fits b h.mem).inner hlt hi] at hends
  cases hends

/-- Going over to a successor keeps frames and contexts related, if placeholders are related to what
their sources are related to. -/
theorem holds_enter {R R' : NodeId → Value → Prop} {fb fc : Fragment} {j : Nat} (hb : t.Has b fb)
    (hc : t.Has c fc) (hj : c.preds[j]? = some b.start) (h : fb.exit.Holds R f)
    (hR : ∀ {s : Slot} {n m : NodeId} {sources : List NodeId} {v : Value},
      Assembly.Feeds t.parts.table c fc s n sources → g.Supplied fc.region n sources →
        sources[j]? = some m → fb.exit.slot s = some m → R m v → R' n v) :
    fc.entry.Holds R' f := by
  refine .of_slot fun {s n} hn => ?_
  obtain ⟨-, sources, hfeeds, hsupplied⟩ := hc.supply hn
  obtain ⟨m, hm, hslot⟩ := hb.source_at hfeeds hj
  obtain ⟨v, hv, hmv⟩ := h.slot hslot
  exact ⟨v, hv, hR hfeeds hsupplied hm hslot hmv⟩

end Translation

end StackJit
