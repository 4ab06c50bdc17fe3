import Mathlib.Order.Bounds.Defs
import StackJit.Proofs.Acceptance
import StackJit.Proofs.Build.Placeholders
import StackJit.Proofs.Rejection

/-!
# A block needs what it takes, and no more

The lowering makes a placeholder when an operand or a local is wanted and is not there, while the
block's own stack shrinks and grows. What it has made in the end can be read off the instructions:

* `heightFrom` executes instructions one after the other on the height of the stack alone, and comes
  to an end where the machine reports an empty stack (`Activation.execute_underflow_iff`). The
  operands that a block needs are the least height from which it gets through, because both follow
  `demand` (`demand_le_iff`, `Graph.length_neededStack_lower`). The final stack is higher by
  `netEffect`.
* A block needs the locals that it reads before it assigns them (`ReadFirst`), and knows at its end
  those that it reads or assigns.
* Each slot that a block needs has a placeholder of its own, and the block makes no other `input`
node.

Main statement: `Graph.lower_needs_exact`.
-/

namespace StackJit

/-! ## Operands -/

/-- The height of the stack after `body`, which finds `h` operands; none if an operand was missing.
Here every instruction leads to the next one, and a return leaves what it answers. -/
def heightFrom (h : Nat) (body : List Instr) : Option Nat :=
  body.foldlM (fun h i => if i.takes ≤ h then some (h - i.takes + i.gives) else none) h

/-- By how much `body` changes the height of the stack. -/
def netEffect : List Instr → Int
  | [] => 0
  | i :: rest => i.gives - i.takes + netEffect rest

theorem heightFrom_cons (h : Nat) (i : Instr) (rest : List Instr) :
    heightFrom h (i :: rest) =
      if i.takes ≤ h then heightFrom (h - i.takes + i.gives) rest else none := by
  rw [heightFrom, List.foldlM_cons]
  split <;> rfl

/-- What an instruction takes is what the machine wants: it reports an empty stack exactly if there
is less. -/
theorem Activation.execute_underflow_iff (a : Activation) (f : Frame) (i : Instr) :
    a.execute f i = .stop (.error (.stackUnderflow f.ip)) ↔ f.stack.length < i.takes := by
  cases i with
  | trace _ | self | push _ => simp [execute, Instr.takes]
  | arg _ | load _ =>
    simp only [execute]
    split <;> simp [Instr.takes]
  | jump target =>
    simp only [execute, goto]
    split <;> simp [Instr.takes]
  | store _ | not | ret => cases hstack : f.stack <;> simp [execute, hstack, Instr.takes]
  | branch target =>
    cases hstack : f.stack with
    | nil => simp [execute, hstack, Instr.takes]
    | cons v rest =>
      simp only [execute, hstack, goto, Instr.takes, List.length_cons]
      split
      · split <;> simp
      · simp
  | send name argc =>
    cases hdrop : f.stack.drop argc with
    | nil =>
      have hlen : f.stack.length ≤ argc := List.drop_eq_nil_iff.mp hdrop
      simp only [execute, hdrop, Instr.takes, true_iff]
      omega
    | cons receiver rest =>
      have hlen := congrArg List.length hdrop
      rw [List.length_drop, List.length_cons] at hlen
      simp only [execute, hdrop, Instr.takes]
      refine iff_of_false ?_ (by omega)
      -- a receiver refuses a message for reasons of its own
      cases hanswer : receiver.send name (f.stack.take argc).reverse with
      | ok v => simp
      | error e =>
        rcases Value.send_error hanswer with ⟨_, rfl⟩ | ⟨_, _, rfl⟩ | ⟨_, _, rfl⟩ | rfl <;> simp

/-- What `body` demands in order to leave `d` operands is the least height from which it
leaves them. -/
theorem demand_le_iff {body : List Instr} {d h : Nat} :
    demand body d ≤ h ↔ ∃ h', heightFrom h body = some h' ∧ d ≤ h' := by
  induction body generalizing h with
  | nil => simp [demand, heightFrom]
  | cons i rest ih =>
    have hdemand : demand (i :: rest) d = demand rest d - i.gives + i.takes := rfl
    rw [hdemand, heightFrom_cons]
    by_cases htakes : i.takes ≤ h
    · rw [if_pos htakes, ← ih]
      omega
    · rw [if_neg htakes]
      refine ⟨fun hle => absurd hle (by omega), ?_⟩
      rintro ⟨h', hnone, -⟩
      cases hnone

theorem Lowering.netEffect_instrs (s : Lowering) (ip : Nat) (body : List Instr) :
    ((s.instrs ip body).stack.length : Int) - (s.instrs ip body).neededStack.length =
      s.stack.length - s.neededStack.length + netEffect body := by
  induction body generalizing s ip with
  | nil => simp [instrs, netEffect]
  | cons i rest ih =>
    obtain ⟨hstack, hneeded⟩ := s.length_instr ip i
    rw [instrs, ih, netEffect]
    omega

/-! ## Placeholders -/

namespace Fragment

variable {f : Fragment} {n : NodeId}

/-- The placeholders of locals and then those of operands. -/
def placeholders (f : Fragment) : List NodeId := f.neededNames.toList.map (·.2) ++ f.neededStack

/-- They are what the block has in its slots. -/
theorem map_slot_slots (f : Fragment) : f.slots.map f.entry.slot = f.placeholders.map some := by
  rw [slots, placeholders, List.map_append, List.map_append, List.map_map, List.map_map,
    List.map_map]
  congr 1
  · refine List.map_congr_left fun q hq => ?_
    exact Std.TreeMap.mem_toList_iff_getElem?_eq_some.mp hq
  · have hslot : ∀ q ∈ f.neededStack.zipIdx,
        f.entry.slot (.operand (f.neededStack.length - 1 - q.2)) = some q.1 := by
      intro q hq
      have hget := List.mem_zipIdx_iff_getElem?.mp hq
      have hlt := (List.getElem?_eq_some_iff.mp hget).1
      change f.neededStack.reverse[_]? = _
      rw [List.getElem?_reverse (by omega), ← hget]
      congr 1
      omega
    calc f.neededStack.zipIdx.map (f.entry.slot ∘ _)
        = f.neededStack.zipIdx.map (some ∘ Prod.fst) := List.map_congr_left hslot
      _ = f.neededStack.map some := by rw [← List.map_map, List.zipIdx_map_fst]

theorem mem_placeholders : n ∈ f.placeholders ↔ ∃ a, f.entry.slot a = some n := by
  rw [← List.mem_map_of_injective fun _ _ => Option.some.inj, ← f.map_slot_slots, List.mem_map]
  exact ⟨fun ⟨a, _, ha⟩ => ⟨a, ha⟩, fun ⟨a, ha⟩ => ⟨a, mem_slots ha, ha⟩⟩

/-- Where no two slots share a placeholder, none is listed twice. -/
theorem nodup_placeholders (h : ∀ {a b : Slot} {n : NodeId}, f.entry.slot a = some n →
    f.entry.slot b = some n → a = b) : f.placeholders.Nodup := by
  refine List.Nodup.of_map some ?_
  rw [← f.map_slot_slots]
  refine f.nodup_slots.map_on fun a ha b _ heq => ?_
  have hmem : f.entry.slot a ∈ f.placeholders.map some :=
    f.map_slot_slots ▸ List.mem_map_of_mem ha
  obtain ⟨n, -, hn⟩ := List.mem_map.mp hmem
  exact h hn.symm (heq.symm.trans hn.symm)

end Fragment

namespace Graph

variable {g h : Graph} {fr : Fragment} {start : Nat} {body : List Instr}

/-- What a block has in its slots are distinct new placeholders without inputs. -/
theorem placeholder_lower (hg : g.Consistent) (hlower : g.lower start body = (fr, h)) :
    (∀ {a : Slot} {n : NodeId}, fr.entry.slot a = some n →
      g.nodes.size ≤ n ∧ h.op? n = some .input ∧ h.inputs n = []) ∧
    ∀ {a b : Slot} {n : NodeId}, fr.entry.slot a = some n → fr.entry.slot b = some n → a = b := by
  obtain ⟨-, hsound⟩ := Lowering.advances_instrs (sound_atRegion hg) start body
  cases hlower
  have hneeds : ∀ {a : Slot} {n : NodeId}, (g.lower start body).1.entry.slot a = some n →
      ((Lowering.atRegion (g.addNode .region []) g.nodes.size).instrs start body).needs a =
        some n := fun {a n} ha => by
    rw [← Fragment.needs_state _ (g.lower start body).2] at ha
    exact ha
  refine ⟨fun ha => ?_, fun ha hb => hsound.distinct (hneeds ha) (hneeds hb)⟩
  obtain ⟨hlt, hop, hinputs⟩ := hsound.placeholder (hneeds ha)
  exact ⟨Nat.le_of_lt hlt, hop, hinputs⟩

/-- A block needs the operands that its instructions demand, whatever they leave. -/
theorem length_neededStack_lower (hlower : g.lower start body = (fr, h)) :
    fr.neededStack.length = demand body 0 := by
  cases hlower
  have hdemand := (Lowering.atRegion (g.addNode .region []) g.freshNode).demand_instrs start body 0
  simpa [Lowering.atRegion, Lowering.fragment] using hdemand

theorem netEffect_lower (hlower : g.lower start body = (fr, h)) :
    (fr.finalStack.length : Int) - fr.neededStack.length = netEffect body := by
  cases hlower
  have heffect := (Lowering.atRegion (g.addNode .region []) g.freshNode).netEffect_instrs start body
  simpa [Lowering.atRegion, Lowering.fragment] using heffect

theorem mem_names_lower (hlower : g.lower start body = (fr, h)) (x : String) :
    (x ∈ fr.neededNames ↔ ReadFirst x body) ∧
      (x ∈ fr.finalNames ↔ .load x ∈ body ∨ .store x ∈ body) := by
  have hnone : ∀ g region, x ∉ (Lowering.atRegion g region).names ∧
      x ∉ (Lowering.atRegion g region).neededNames := by simp [Lowering.atRegion]
  cases hlower
  constructor
  · refine Lowering.mem_neededNames_instrs.trans ?_
    simp [hnone]
  · refine Lowering.mem_names_instrs.trans ?_
    simp [hnone]

/-- What a lowered block needs is exact. Its needed operands are the least number from which its
instructions, one after the other, find every operand they take, and its final ones differ from them
in number by the instructions' net effect. It needs the locals that it reads before it assigns them,
and knows those that it reads or assigns. Its placeholders are distinct, they are the `input` nodes
that the block has added, and no edge leads into them. -/
theorem lower_needs_exact (hg : g.Consistent) (hlower : g.lower start body = (fr, h)) :
    IsLeast {d | ∃ e, heightFrom d body = some e} fr.neededStack.length ∧
      (fr.finalStack.length : Int) - fr.neededStack.length = netEffect body ∧
      (∀ x, x ∈ fr.neededNames ↔ ReadFirst x body) ∧
      (∀ x, x ∈ fr.finalNames ↔ .load x ∈ body ∨ .store x ∈ body) ∧
      fr.placeholders.Nodup ∧
      (∀ n, n ∈ fr.placeholders ↔ g.nodes.size ≤ n ∧ h.op? n = some .input) ∧
      ∀ n ∈ fr.placeholders, h.inputs n = [] := by
  obtain ⟨hslots, hdistinct⟩ := placeholder_lower hg hlower
  refine ⟨⟨?_, ?_⟩, netEffect_lower hlower, fun x => (mem_names_lower hlower x).1,
    fun x => (mem_names_lower hlower x).2, Fragment.nodup_placeholders hdistinct, fun n => ?_,
    fun n hn => ?_⟩
  · obtain ⟨e, he, -⟩ := demand_le_iff.mp (Nat.le_of_eq (length_neededStack_lower hlower).symm)
    exact ⟨e, he⟩
  · rintro d ⟨e, he⟩
    rw [length_neededStack_lower hlower]
    exact demand_le_iff.mpr ⟨e, he, Nat.zero_le e⟩
  · rw [Fragment.mem_placeholders]
    constructor
    · rintro ⟨a, ha⟩
      exact ⟨(hslots ha).1, (hslots ha).2.1⟩
    · rintro ⟨hn, hop⟩
      cases hlower
      exact exists_slot_lower hg start body hn hop
  · obtain ⟨a, ha⟩ := Fragment.mem_placeholders.mp hn
    exact (hslots ha).2.2

end Graph

/-- Digs below what it has pushed, returns half way and digs on. -/
def Instr.digging : List Instr :=
  [.load "x", .push (.int 1), .send "f" 2, .store "x", .load "x", .ret, .send "g" 1, .store "y",
    .store "x"]

/-- The block needs three operands, though it never lacks more than one at a time, and one local. -/
theorem Graph.lower_needs_exact_digging :
    ∃ fr h, Graph.initial.lower 4 Instr.digging = (fr, h) ∧ fr.placeholders = [3, 9, 8, 6] ∧
      IsLeast {d | ∃ e, heightFrom d Instr.digging = some e} 3 ∧ netEffect Instr.digging = -3 ∧
      ReadFirst "x" Instr.digging ∧ ¬ ReadFirst "y" Instr.digging ∧ "y" ∈ fr.finalNames ∧
      h.op? 9 = some .input ∧ h.inputs 9 = [] := by
  have hfragment : (Graph.initial.lower 4 Instr.digging).1.placeholders = [3, 9, 8, 6] ∧
      (Graph.initial.lower 4 Instr.digging).1.neededStack.length = 3 ∧
      (Graph.initial.lower 4 Instr.digging).1.neededNames.keys = ["x"] := by decide +kernel
  obtain ⟨hplaceholders, hlength, hkeys⟩ := hfragment
  have hlower : Graph.initial.lower 4 Instr.digging =
      ((Graph.initial.lower 4 Instr.digging).1, (Graph.initial.lower 4 Instr.digging).2) := rfl
  obtain ⟨hleast, -, hneeded, hfinal, -, hinput, hvacant⟩ :=
    Graph.lower_needs_exact Graph.consistent_initial hlower
  rw [hlength] at hleast
  rw [hplaceholders] at hinput hvacant
  have hnames : ∀ x, ReadFirst x Instr.digging ↔ x = "x" := fun x => by
    rw [← hneeded, ← Std.TreeMap.mem_keys, hkeys, List.mem_singleton]
  exact ⟨_, _, rfl, hplaceholders, hleast, by decide, (hnames "x").mpr rfl,
    fun hy => absurd ((hnames "y").mp hy) (by decide), (hfinal "y").mpr (by decide),
    ((hinput 9).mp (by decide)).2, hvacant 9 (by decide)⟩

end StackJit
