import StackJit.Proofs.Runs
import StackJit.Proofs.Trails

/-!
# Runs follow the blocks

A run of a body executes live instructions only, of blocks that control enters from the first one
(`Code.Stands`). Within a block it goes from each instruction to the next, after the last one it
comes to a successor or to the end of the body, and at any instruction it may fail.

Conversely each successor of a block is where some frame at its last live instruction leads to. The
exception is a block that ends in a send which no values answer (`Value.Unanswered`): it counts as
falling through, and never does.

Main statement: `Code.runs_follow_blocks`.
-/

namespace StackJit

/-- No receiver answers the message with that many arguments. -/
def Value.Unanswered (name : String) (argc : Nat) : Prop :=
  ∀ (receiver : Value) (args : List Value), args.length = argc →
    ∃ e, receiver.send name args = .error e

namespace Activation

variable {a : Activation} {f f' : Frame} {i : Instr} {v : Value}

theorem goto_cases (a : Activation) (f : Frame) (target : Nat) :
    a.goto f target = .next { f with ip := target } ∨ ∃ e, a.goto f target = .stop (.error e) := by
  unfold goto
  split
  · exact .inl rfl
  · exact .inr ⟨_, rfl⟩

theorem eq_of_goto {target : Nat} (h : a.goto f target = .next f') :
    f' = { f with ip := target } := by
  rcases a.goto_cases f target with heq | ⟨e, heq⟩
  · rw [h] at heq
    exact Step.next.inj heq
  · rw [h] at heq
    cases heq

/-- An instruction leads on, fails, or returns the top of the stack. -/
theorem execute_cases (a : Activation) (f : Frame) (i : Instr) :
    (∃ f', a.execute f i = .next f' ∧ f'.ip ∈ i.nexts f.ip) ∨
      (∃ e, a.execute f i = .stop (.error e)) ∨
      i = .ret ∧ ∃ v, f.stack.head? = some v ∧ a.execute f i = .stop (.ok v) := by
  cases i with
  | trace _ | self | push _ => exact .inl ⟨_, rfl, List.mem_singleton_self _⟩
  | arg _ | load _ | store _ | not =>
    simp only [execute]
    split
    · exact .inl ⟨_, rfl, List.mem_singleton_self _⟩
    · exact .inr (.inl ⟨_, rfl⟩)
  | send _ _ =>
    simp only [execute]
    split
    · split
      · exact .inl ⟨_, rfl, List.mem_singleton_self _⟩
      · exact .inr (.inl ⟨_, rfl⟩)
    · exact .inr (.inl ⟨_, rfl⟩)
  | jump target =>
    rcases a.goto_cases f target with hgoto | herror
    · exact .inl ⟨_, hgoto, List.mem_singleton_self _⟩
    · exact .inr (.inl herror)
  | branch target =>
    simp only [execute]
    split
    · next v rest hstack =>
      split
      · rcases a.goto_cases { f with stack := rest } target with hgoto | herror
        · exact .inl ⟨_, hgoto, List.mem_cons_self⟩
        · exact .inr (.inl herror)
      · exact .inl ⟨_, rfl, List.mem_cons_of_mem _ (List.mem_singleton_self _)⟩
    · exact .inr (.inl ⟨_, rfl⟩)
  | ret =>
    right
    cases hstack : f.stack with
    | nil => exact .inl ⟨.stackUnderflow f.ip, by simp only [execute, hstack]⟩
    | cons v rest => exact .inr ⟨rfl, v, rfl, by simp only [execute, hstack]⟩

/-- An instruction reaches no deeper than its operands, and assigns no local but the one
it names. -/
theorem execute_frame (h : a.execute f i = .next f') :
    f'.stack.drop i.gives = f.stack.drop i.takes ∧
      ∀ x, i ≠ .store x → f'.locals[x]? = f.locals[x]? := by
  cases i with
  | trace _ | self | push _ =>
    cases h
    exact ⟨rfl, fun _ _ => rfl⟩
  | arg _ | load _ =>
    simp only [execute] at h
    split at h <;> cases h
    exact ⟨rfl, fun _ _ => rfl⟩
  | not =>
    simp only [execute] at h
    split at h <;> cases h
    next hstack => exact ⟨by rw [hstack]; rfl, fun _ _ => rfl⟩
  | store y =>
    simp only [execute] at h
    split at h <;> cases h
    next v rest hstack =>
      refine ⟨by rw [hstack]; rfl, fun x hx => ?_⟩
      rw [Std.TreeMap.getElem?_insert, if_neg]
      intro heq
      exact hx (by rw [Std.LawfulEqOrd.eq_of_compare heq])
  | send name argc =>
    simp only [execute] at h
    split at h
    · next receiver rest hdrop =>
      split at h <;> cases h
      refine ⟨?_, fun _ _ => rfl⟩
      rw [Instr.takes, ← List.drop_drop, hdrop]
      rfl
    · cases h
  | jump target =>
    rw [eq_of_goto h]
    exact ⟨rfl, fun _ _ => rfl⟩
  | branch target =>
    simp only [execute] at h
    split at h
    · next v rest hstack =>
      split at h
      · rw [eq_of_goto h]
        exact ⟨by rw [hstack]; rfl, fun _ _ => rfl⟩
      · cases h
        exact ⟨by rw [hstack]; rfl, fun _ _ => rfl⟩
    · cases h
  | ret =>
    simp only [execute] at h
    split at h <;> cases h

theorem step_eq (hi : a.code[f.ip]? = some i) : a.step f = a.execute f i := by
  rw [step, hi]

theorem ip_mem_nexts (hi : a.code[f.ip]? = some i) (h : a.step f = .next f') :
    f'.ip ∈ i.nexts f.ip := by
  rw [step_eq hi] at h
  rcases a.execute_cases f i with ⟨f₁, heq, hmem⟩ | ⟨e, heq⟩ | ⟨-, v, -, heq⟩
  · rw [h] at heq
    cases heq
    exact hmem
  · rw [h] at heq
    cases heq
  · rw [h] at heq
    cases heq

theorem ret_of_stop (hi : a.code[f.ip]? = some i) (h : a.step f = .stop (.ok v)) :
    i = .ret ∧ f.stack.head? = some v := by
  rw [step_eq hi] at h
  rcases a.execute_cases f i with ⟨f₁, heq, -⟩ | ⟨e, heq⟩ | ⟨hret, w, hw, heq⟩
  · rw [h] at heq
    cases heq
  · rw [h] at heq
    cases heq
  · rw [h] at heq
    cases heq
    exact ⟨hret, hw⟩

/-- An instruction that does not end a block leads to the next one or fails. -/
theorem step_of_inner (hi : a.code[f.ip]? = some i) (hinner : i.endsBlock = false) :
    (∃ f', a.step f = .next f' ∧ f'.ip = f.ip + 1) ∨ ∃ e, a.step f = .stop (.error e) := by
  rw [step_eq hi]
  rcases a.execute_cases f i with ⟨f', heq, hmem⟩ | herror | ⟨rfl, -⟩
  · rw [Instr.nexts_of_inner hinner, List.mem_singleton] at hmem
    exact .inl ⟨f', heq, hmem⟩
  · exact .inr herror
  · cases hinner

/-- What a branch does with the top of the stack. -/
theorem step_branch {target : Nat} {rest : List Value} (hi : a.code[f.ip]? = some (.branch target))
    (hle : target ≤ a.code.size) (hstack : f.stack = v :: rest) :
    a.step f = .next ⟨if v.truthy then target else f.ip + 1, rest, f.locals⟩ := by
  rw [step_eq hi]
  simp only [execute, hstack, goto, if_pos hle]
  split <;> rfl

/-- A send that no values answer fails on every frame. -/
theorem step_unanswered {name : String} {argc : Nat} (hi : a.code[f.ip]? = some (.send name argc))
    (h : Value.Unanswered name argc) : ∃ e, a.step f = .stop (.error e) := by
  rw [step_eq hi]
  simp only [execute]
  split
  · next receiver rest hdrop =>
    have hlen : (f.stack.take argc).reverse.length = argc := by
      have hlen := congrArg List.length hdrop
      rw [List.length_drop, List.length_cons] at hlen
      rw [List.length_reverse, List.length_take]
      omega
    obtain ⟨e, he⟩ := h receiver _ hlen
    rw [he]
    exact ⟨e, rfl⟩
  · exact ⟨_, rfl⟩

/-- Wherever control may go from an instruction, some frame leads there, if the instruction is no
send that is never answered. -/
theorem exists_step_to {code : Code} {ip t : Nat} (hi : code[ip]? = some i) (ht : t ∈ i.nexts ip)
    (hle : t ≤ code.size) :
    (∃ receiver args f f', f.ip = ip ∧ (Activation.mk code receiver args).step f = .next f' ∧
      f'.ip = t) ∨
      ∃ name argc, i = .send name argc ∧ Value.Unanswered name argc := by
  -- a frame at the instruction that it does not fail on
  have hframe : ∀ (args : List Value) (stack : List Value) (locals : Locals) (f' : Frame),
      (Activation.mk code .nil args).execute ⟨ip, stack, locals⟩ i = .next f' → f'.ip = t →
      ∃ receiver args f f', f.ip = ip ∧ (Activation.mk code receiver args).step f = .next f' ∧
        f'.ip = t := by
    intro args stack locals f' hexec hip
    refine ⟨.nil, args, ⟨ip, stack, locals⟩, f', rfl, ?_, hip⟩
    rw [step_eq (a := ⟨code, .nil, args⟩) (f := ⟨ip, stack, locals⟩) hi]
    exact hexec
  cases i with
  | trace _ | self | push _ =>
    exact .inl (hframe [] [] ∅ _ rfl (List.mem_singleton.mp ht).symm)
  | arg n =>
    refine .inl (hframe (List.replicate (n + 1) .nil) [] ∅ ⟨ip + 1, [.nil], ∅⟩ ?_
      (List.mem_singleton.mp ht).symm)
    simp [execute]
  | load x =>
    refine .inl (hframe [] [] (Std.TreeMap.insert ∅ x .nil)
      ⟨ip + 1, [.nil], Std.TreeMap.insert ∅ x .nil⟩ ?_ (List.mem_singleton.mp ht).symm)
    simp [execute]
  | store _ | not =>
    exact .inl (hframe [] [.nil] ∅ _ rfl (List.mem_singleton.mp ht).symm)
  | send name argc =>
    by_cases hanswered : Value.Unanswered name argc
    · exact .inr ⟨name, argc, rfl, hanswered⟩
    · -- the operands that are answered
      simp only [Value.Unanswered, not_forall, not_exists] at hanswered
      obtain ⟨receiver, args, hlen, hanswer⟩ := hanswered
      cases hsend : receiver.send name args with
      | error e => exact absurd hsend (hanswer e)
      | ok v =>
        refine .inl (hframe [] (args.reverse ++ [receiver]) ∅ ⟨ip + 1, [v], ∅⟩ ?_
          (List.mem_singleton.mp ht).symm)
        have hlen' : args.reverse.length = argc := by rw [List.length_reverse, hlen]
        simp [execute, List.drop_left' hlen', List.take_left' hlen', hsend]
  | jump target =>
    obtain rfl := List.mem_singleton.mp ht
    exact .inl (hframe [] [] ∅ ⟨t, [], ∅⟩ (if_pos hle) rfl)
  | branch target =>
    left
    rcases List.mem_cons.mp ht with rfl | ht
    · exact hframe [] [.bool true] ∅ ⟨t, [], ∅⟩ (if_pos hle) rfl
    · exact hframe [] [.nil] ∅ ⟨ip + 1, [], ∅⟩ rfl (List.mem_singleton.mp ht).symm
  | ret => cases ht

end Activation

/-! ## Blocks that control enters -/

/-- Control enters the block from the one at index 0, from successor to successor. -/
inductive Block.Entered (blocks : List Block) : Block → Prop where
  | first {b : Block} (hb : b ∈ blocks) (hstart : b.start = 0) : Entered blocks b
  | next {a b : Block} (h : Entered blocks a) (hb : b ∈ blocks) (hsucc : b.start ∈ a.succs) :
      Entered blocks b

theorem Block.Entered.mem {blocks : List Block} {b : Block} (h : Block.Entered blocks b) :
    b ∈ blocks := by
  cases h with
  | first hb => exact hb
  | next _ hb => exact hb

/-- What a step from the last live instruction of a block can be. -/
structure Block.Leaves (code : Code) (b : Block) (f : Frame) (s : Step) : Prop where
  next : ∀ {f' : Frame}, s = .next f' → f'.ip ∈ b.succs ∨ f'.ip = code.size
  answer : ∀ {v : Value}, s = .stop (.ok v) → b.terminator? = some .ret ∧ f.stack.head? = some v
  /-- A branch that is taken leads to the first successor. -/
  taken : ∀ {target : Nat} {v : Value} {rest : List Value}, b.terminator? = some (.branch target) →
    f.stack = v :: rest → v.truthy = true → ∃ f', s = .next f' ∧ b.succs.head? = some f'.ip
  /-- A branch that is not taken leads to the last successor, unless nothing follows it. -/
  passed : ∀ {target : Nat} {v : Value} {rest : List Value}, b.terminator? = some (.branch target) →
    f.stack = v :: rest → v.truthy = false →
      ∃ f', s = .next f' ∧ (b.succs.getLast? = some f'.ip ∨ f'.ip = code.size)

/-- The next instruction is live, in a block that control enters, unless the end has
been reached. -/
def Code.Stands (code : Code) (blocks : List Block) (f : Frame) : Prop :=
  f.ip = code.size ∨
    ∃ b k, Block.Entered blocks b ∧ k < b.live.length ∧ f.ip = b.start + k

section Runs

variable {code : Code} {blocks : List Block} {a : Activation} {b : Block} {k : Nat} {f f' : Frame}

theorem Block.Fits.instr (h : b.Fits code) (hk : k < b.live.length) (hip : f.ip = b.start + k) :
    ∃ i, b.live[k]? = some i ∧ code[f.ip]? = some i := by
  refine ⟨b.live[k], List.getElem?_eq_getElem hk, ?_⟩
  rw [hip, ← h.live_at k hk]
  exact List.getElem?_eq_getElem hk

theorem Block.terminator_of_last {i : Instr} (hk : k + 1 = b.live.length)
    (hi : b.live[k]? = some i) : b.terminator? = some i := by
  rw [Block.terminator?, List.getLast?_eq_getElem?, ← hk]
  exact hi

theorem Code.stands_entry (hblocks : code.blocks = .ok blocks) : code.Stands blocks .entry := by
  by_cases hpos : 0 < code.size
  · right
    obtain ⟨b, hb, hb0⟩ := exists_first_block hblocks hpos
    have hne := (fits_of_mem_blocks hblocks hb).live_ne_nil
    exact ⟨b, 0, .first hb hb0, List.length_pos_iff.mpr hne, hb0.symm⟩
  · left
    exact (Nat.eq_zero_of_not_pos hpos).symm

/-- A run goes on standing so. -/
theorem Code.Stands.step (hblocks : code.blocks = .ok blocks) (hcode : a.code = code)
    (h : code.Stands blocks f) (hstep : a.step f = .next f') : code.Stands blocks f' := by
  have hle := Activation.ip_le_of_step hstep
  rw [hcode] at hle
  rcases h with hend | ⟨b, k, hb, hk, hip⟩
  · rw [Activation.step, hcode, hend, Array.getElem?_eq_none (Nat.le_refl _)] at hstep
    cases hstep
  · have hfits := fits_of_mem_blocks hblocks hb.mem
    obtain ⟨i, hi, hcodei⟩ := hfits.instr hk hip
    have hnext := Activation.ip_mem_nexts (hcode ▸ hcodei) hstep
    rw [hip] at hnext
    rcases hfits.leads hi hnext with ⟨hinner, hip'⟩ | ⟨-, hsucc⟩ | hge
    · exact .inr ⟨b, k + 1, hb, hinner, hip'⟩
    · obtain ⟨c, hc, hstart⟩ := List.mem_map.mp (succ_mem_starts hblocks hb.mem hsucc)
      have hne := (fits_of_mem_blocks hblocks hc).live_ne_nil
      exact .inr ⟨c, 0, hb.next hc (hstart ▸ hsucc), List.length_pos_iff.mpr hne, hstart.symm⟩
    · exact .inl (Nat.le_antisymm hle hge)

theorem Code.stands_after (hblocks : code.blocks = .ok blocks) (hcode : a.code = code) {n : Nat}
    (hafter : a.after n .entry = some f) : code.Stands blocks f :=
  Activation.after_induct (P := code.Stands blocks) (fun h hstep => h.step hblocks hcode hstep)
    (Code.stands_entry hblocks) hafter

theorem Block.leaves_of_last (hblocks : code.blocks = .ok blocks) (hcode : a.code = code)
    (hb : b ∈ blocks) (hk : k + 1 = b.live.length) (hip : f.ip = b.start + k) :
    b.Leaves code f (a.step f) := by
  have hfits := fits_of_mem_blocks hblocks hb
  obtain ⟨i, hi, hcodei⟩ := hfits.instr (by omega) hip
  have hterm := Block.terminator_of_last hk hi
  -- a branch leads to its target or to the next instruction
  have hbranch : ∀ {target : Nat} {v : Value} {rest : List Value},
      b.terminator? = some (.branch target) → f.stack = v :: rest →
        a.step f = .next ⟨if v.truthy then target else f.ip + 1, rest, f.locals⟩ ∧
          b.succs = target :: (code.following (f.ip + 1)).toList := by
    intro target v rest hbranch hstack
    obtain rfl : i = .branch target := Option.some.inj (hterm.symm.trans hbranch)
    have hlt := Code.target_lt (Code.blocks_eq hblocks).1 hcodei rfl
    refine ⟨Activation.step_branch (hcode ▸ hcodei) (hcode ▸ Nat.le_of_lt hlt) hstack, ?_⟩
    have hlast : b.live.getLast? = some (.branch target) := hbranch
    rw [hfits.succs_eq, flowAfter, hlast, hip, Nat.add_assoc, hk]
  refine ⟨?_, ?_, ?_, ?_⟩
  · intro f' hstep
    have hle := Activation.ip_le_of_step hstep
    have hnext := Activation.ip_mem_nexts (hcode ▸ hcodei) hstep
    rw [hip] at hnext
    rw [hcode] at hle
    rcases hfits.leads hi hnext with ⟨hinner, -⟩ | ⟨-, hsucc⟩ | hge
    · omega
    · exact .inl hsucc
    · exact .inr (Nat.le_antisymm hle hge)
  · intro v hstop
    obtain ⟨rfl, hv⟩ := Activation.ret_of_stop (hcode ▸ hcodei) hstop
    exact ⟨hterm, hv⟩
  · intro target v rest hbr hstack htrue
    obtain ⟨hstep, hsuccs⟩ := hbranch hbr hstack
    rw [if_pos htrue] at hstep
    exact ⟨_, hstep, by rw [hsuccs]; rfl⟩
  · intro target v rest hbr hstack hfalse
    obtain ⟨hstep, hsuccs⟩ := hbranch hbr hstack
    rw [if_neg (by simp [hfalse])] at hstep
    refine ⟨_, hstep, ?_⟩
    rw [hsuccs, Code.following]
    split
    · exact .inl rfl
    · have hlt := (Array.getElem?_eq_some_iff.mp hcodei).1
      right
      show f.ip + 1 = code.size
      omega

end Runs

/-- Every instruction that a run of a body executes lies in the live part of a block that control
enters from the first one. An instruction before the last live one leads to the following index or
fails, and the last one leads where the block leads. Every successor of a block is where some frame
at the last live instruction leads to, unless this is a send that no values answer. -/
theorem Code.runs_follow_blocks {code : Code} {blocks : List Block}
    (hblocks : code.blocks = .ok blocks) :
    (∀ (receiver : Value) (args : List Value) {n : Nat} {f : Frame},
      (Activation.mk code receiver args).after n .entry = some f → f.ip < code.size →
        ∃ b k, Block.Entered blocks b ∧ k < b.live.length ∧ f.ip = b.start + k ∧
          (k + 1 < b.live.length →
            (∃ f', (Activation.mk code receiver args).step f = .next f' ∧ f'.ip = f.ip + 1) ∨
              ∃ e, (Activation.mk code receiver args).step f = .stop (.error e)) ∧
          (k + 1 = b.live.length →
            b.Leaves code f ((Activation.mk code receiver args).step f))) ∧
    ∀ b ∈ blocks, ∀ t ∈ b.succs,
      (∃ receiver args f f', f.ip + 1 = b.start + b.live.length ∧
        (Activation.mk code receiver args).step f = .next f' ∧ f'.ip = t) ∨
      ∃ name argc, b.terminator? = some (.send name argc) ∧ Value.Unanswered name argc := by
  refine ⟨fun receiver args n f hafter hlt => ?_, fun b hb t ht => ?_⟩
  · rcases Code.stands_after hblocks rfl hafter with hend | ⟨b, k, hb, hk, hip⟩
    · exact absurd hlt (hend ▸ Nat.lt_irrefl _)
    · refine ⟨b, k, hb, hk, hip, fun hinner => ?_, fun hlast => ?_⟩
      · have hfits := fits_of_mem_blocks hblocks hb.mem
        obtain ⟨i, hi, hcodei⟩ := hfits.instr hk hip
        exact Activation.step_of_inner hcodei (hfits.inner hinner hi)
      · exact Block.leaves_of_last hblocks rfl hb.mem hlast hip
  · have hfits := fits_of_mem_blocks hblocks hb
    have hlt : t < code.size := by
      have hmem := succ_mem_starts hblocks hb ht
      rw [map_start_blocks hblocks] at hmem
      exact List.mem_range.mp (List.mem_filter.mp hmem).1
    obtain ⟨before, i, hlive⟩ : ∃ before i, b.live = before ++ [i] :=
      ⟨_, _, (List.dropLast_append_getLast hfits.live_ne_nil).symm⟩
    have hlen : b.live.length = before.length + 1 := by
      rw [hlive, List.length_append, List.length_singleton]
    obtain ⟨-, -, -, hcodei⟩ := hfits.trail_to hlive
    have hterm : b.terminator? = some i := by
      rw [Block.terminator?, hlive, List.getLast?_concat]
    rcases Activation.exists_step_to hcodei ((hfits.mem_succs hlive).1 ht) (Nat.le_of_lt hlt) with
      ⟨receiver, args, f, f', hip, hstep, hip'⟩ | ⟨name, argc, rfl, hunanswered⟩
    · exact .inl ⟨receiver, args, f, f', by omega, hstep, hip'⟩
    · exact .inr ⟨name, argc, hterm, hunanswered⟩

/-- Answers one, after a message that nobody answers, and has a block that ends in that message. -/
def Code.stumble : Code :=
  #[.arg 0, .branch 4, .self, .send "f" 0, .self, .send "f" 0, .push (.int 1), .ret]

/-- The blocks of `Code.stumble`. -/
def Code.stumbleBlocks : List Block :=
  [⟨0, [.arg 0, .branch 4], [4, 2], []⟩, ⟨2, [.self, .send "f" 0], [4], [0]⟩,
    ⟨4, [.self, .send "f" 0, .push (.int 1), .ret], [], [0, 2]⟩]

theorem Code.blocks_stumble : Code.stumble.blocks = .ok Code.stumbleBlocks := by
  decide +kernel

theorem Value.unanswered_f : Value.Unanswered "f" 0 := by
  intro receiver args hlen
  obtain rfl := List.length_eq_zero_iff.mp hlen
  cases receiver with
  | int n => exact ⟨.noMethod "f" .int, rfl⟩
  | nil => exact ⟨.noMethod "f" .nil, rfl⟩
  | bool v => exact ⟨.noMethod "f" .bool, rfl⟩
  | symbol x => exact ⟨.noMethod "f" .symbol, rfl⟩

/-- A branch that is taken, and where the same branch leads otherwise. -/
theorem Code.runs_follow_blocks_stumble :
    Code.stumble.blocks = .ok Code.stumbleBlocks ∧
      (∃ f, (Activation.mk Code.stumble .nil [.bool true]).after 1 .entry = some f ∧
        f.ip < Code.stumble.size ∧
        ∃ b k, Block.Entered Code.stumbleBlocks b ∧ k < b.live.length ∧ f.ip = b.start + k ∧
          (k + 1 = b.live.length → b.Leaves Code.stumble f
            ((Activation.mk Code.stumble .nil [.bool true]).step f))) ∧
      ∃ receiver args f f', f.ip = 1 ∧
        (Activation.mk Code.stumble receiver args).step f = .next f' ∧ f'.ip = 2 := by
  obtain ⟨hruns, hsuccs⟩ := Code.runs_follow_blocks Code.blocks_stumble
  have hafter : (Activation.mk Code.stumble .nil [.bool true]).after 1 .entry =
      some ⟨1, [.bool true], ∅⟩ := rfl
  have hlt : 1 < Code.stumble.size := by decide
  obtain ⟨b, k, hb, hk, hip, -, hleaves⟩ := hruns .nil [.bool true] hafter hlt
  refine ⟨Code.blocks_stumble, ⟨_, hafter, hlt, b, k, hb, hk, hip, hleaves⟩, ?_⟩
  rcases hsuccs _ List.mem_cons_self 2 (by decide) with
    ⟨receiver, args, f, f', hlast, hstep, hip'⟩ | ⟨name, argc, hterm, -⟩
  · exact ⟨receiver, args, f, f', Nat.succ.inj hlast, hstep, hip'⟩
  · cases hterm

/-- A run may fail before the last live instruction of a block, and a block may have a successor
that control never comes to from it. -/
theorem Code.stumble_fails_inside :
    ∃ blocks, Code.stumble.blocks = .ok blocks ∧
      (∃ b ∈ blocks, ∃ k f, k + 1 < b.live.length ∧ f.ip = b.start + k ∧
        (Activation.mk Code.stumble .nil [.bool true]).after 3 .entry = some f ∧
        (Activation.mk Code.stumble .nil [.bool true]).step f =
          .stop (.error (.noMethod "f" .nil))) ∧
      ∃ b, Block.Entered blocks b ∧ ∃ t ∈ b.succs, ∀ (receiver : Value) (args : List Value)
        (f f' : Frame), f.ip + 1 = b.start + b.live.length →
          (Activation.mk Code.stumble receiver args).step f = .next f' → f'.ip ≠ t := by
  refine ⟨_, Code.blocks_stumble, ?_, ?_⟩
  · exact ⟨_, List.mem_cons_of_mem _ (List.mem_cons_of_mem _ List.mem_cons_self), 1,
      ⟨5, [.nil], ∅⟩, by decide, rfl, rfl, rfl⟩
  · refine ⟨⟨2, [.self, .send "f" 0], [4], [0]⟩, ?_, 4, List.mem_singleton_self 4, ?_⟩
    · exact .next (.first List.mem_cons_self rfl) (List.mem_cons_of_mem _ List.mem_cons_self)
        (by decide)
    · intro receiver args f f' hip hstep
      have hip' : f.ip = 3 := Nat.succ.inj hip
      have hi : Code.stumble[f.ip]? = some (.send "f" 0) := by
        rw [hip']
        rfl
      obtain ⟨e, he⟩ := Activation.step_unanswered (a := ⟨Code.stumble, receiver, args⟩) hi
        Value.unanswered_f
      rw [he] at hstep
      cases hstep

end StackJit
