import Mathlib.Data.List.Induction
import Mathlib.Data.List.Perm.Subperm
import StackJit.Proofs.Layout

/-!
# Paths through a method body

A `Code.Trail` follows control from instruction to instruction, without regard to what a branch
finds. A body is at fault if a trail from its first instruction comes to one that takes more
operands than there are (`Code.Underflows`), or to one that reads a local which no instruction on
the trail has assigned (`Code.ReadsUnassigned`).

`code.Requires ip d` says that the body is at fault as soon as a trail comes to `ip` with fewer than
`d` operands. What an index requires, the indices before it require too, less what the instructions
in between leave on the stack (`Requires.along`). No index may require more operands than the body
has instructions, since a trail without repetitions leads there (`Requires.underflows`).
-/

namespace StackJit

namespace Instr

/-- How many operands an instruction takes from the stack. -/
def takes : Instr → Nat
  | store _ => 1
  | send _ argc => argc + 1
  | not => 1
  | branch _ => 1
  | ret => 1
  | _ => 0

/-- How many operands it then leaves there; a return leaves what it answers. -/
def gives : Instr → Nat
  | self => 1
  | arg _ => 1
  | load _ => 1
  | push _ => 1
  | send _ _ => 1
  | not => 1
  | ret => 1
  | _ => 0

/-- Where control may go from an instruction at index `ip`. -/
def nexts (ip : Nat) : Instr → List Nat
  | jump target => [target]
  | branch target => [target, ip + 1]
  | ret => []
  | _ => [ip + 1]

theorem gives_le_one (i : Instr) : i.gives ≤ 1 := by
  cases i <;> simp [gives]

theorem nexts_of_inner {i : Instr} (h : i.endsBlock = false) (ip : Nat) :
    i.nexts ip = [ip + 1] := by
  cases i with
  | jump _ | branch _ | ret => cases h
  | _ => rfl

end Instr

/-- The height of the stack after `body`, which finds it empty; none if an operand was missing. -/
def heightAfter (body : List Instr) : Option Nat :=
  body.foldlM (fun h i => if i.takes ≤ h then some (h - i.takes + i.gives) else none) 0

theorem heightAfter_concat (body : List Instr) (i : Instr) :
    heightAfter (body ++ [i]) = (heightAfter body).bind fun h =>
      if i.takes ≤ h then some (h - i.takes + i.gives) else none := by
  simp [heightAfter, List.foldlM_append]

theorem heightAfter_le {body : List Instr} {h : Nat} (hbody : heightAfter body = some h) :
    h ≤ body.length := by
  induction body using List.reverseRecOn generalizing h with
  | nil =>
    obtain rfl := Option.some.inj hbody
    exact Nat.le_refl 0
  | append_singleton body i ih =>
    rw [heightAfter_concat, Option.bind_eq_some_iff] at hbody
    obtain ⟨h₀, hbefore, hstep⟩ := hbody
    split at hstep
    · have hle := ih hbefore
      have hgives := i.gives_le_one
      have heq := Option.some.inj hstep
      rw [List.length_append, List.length_singleton]
      omega
    · cases hstep

/-- The operands that `body` needs, so that it leaves `d` of them. -/
def demand (body : List Instr) (d : Nat) : Nat :=
  body.foldr (fun i d => d - i.gives + i.takes) d

namespace Code

/-- Control may pass through the instructions at the indices `v`, from `start` on, and then stand at
an index. -/
inductive Trail (code : Code) (start : Nat) : List Nat → Nat → Prop
  | nil : Trail code start [] start
  | step {v : List Nat} {ip next : Nat} {i : Instr} (before : Trail code start v ip)
      (instr : code[ip]? = some i) (leads : next ∈ i.nexts ip) : Trail code start (v ++ [ip]) next

/-- The instructions at the given indices. -/
def passed (code : Code) (v : List Nat) : List Instr := v.filterMap fun k => code[k]?

/-- A trail from the first instruction comes to one that takes more operands than there are. -/
def Underflows (code : Code) : Prop :=
  ∃ v ip i h, code.Trail 0 v ip ∧ code[ip]? = some i ∧ heightAfter (code.passed v) = some h ∧
    h < i.takes

/-- A trail from the first instruction comes to one that reads a local, and assigns it nowhere. -/
def ReadsUnassigned (code : Code) (x : String) : Prop :=
  ∃ v ip, code.Trail 0 v ip ∧ code[ip]? = some (.load x) ∧ .store x ∉ code.passed v

variable {code : Code} {v w : List Nat} {start ip k d : Nat} {i : Instr} {x : String}

theorem passed_concat (hi : code[ip]? = some i) (v : List Nat) :
    code.passed (v ++ [ip]) = code.passed v ++ [i] := by
  simp [passed, hi]

theorem Trail.mem_lt (h : code.Trail start v ip) : ∀ k ∈ v, k < code.size := by
  induction h with
  | nil => simp
  | step _ instr _ ih =>
    intro k hk
    rcases List.mem_append.mp hk with hk | hk
    · exact ih k hk
    · obtain rfl := List.mem_singleton.mp hk
      exact (Array.getElem?_eq_some_iff.mp instr).1

theorem Trail.before (h : code.Trail start v ip) (hk : k ∈ v) :
    ∃ w rest, v = w ++ k :: rest ∧ code.Trail start w k := by
  induction h with
  | nil => cases hk
  | @step v ip _ _ before _ _ ih =>
    rcases List.mem_append.mp hk with hk | hk
    · obtain ⟨w, rest, rfl, hw⟩ := ih hk
      exact ⟨w, rest ++ [ip], by simp, hw⟩
    · obtain rfl := List.mem_singleton.mp hk
      exact ⟨v, [], rfl, before⟩

theorem Trail.trans {m : Nat} (h : code.Trail start v m) (hw : code.Trail m w ip) :
    code.Trail start (v ++ w) ip := by
  induction hw with
  | nil => simpa using h
  | step _ instr leads ih =>
    rw [← List.append_assoc]
    exact ih.step instr leads

/-- A trail that comes back to an index can be cut short. -/
theorem Trail.exists_nodup (h : code.Trail start v ip) :
    ∃ w, code.Trail start w ip ∧ w.Nodup := by
  induction h with
  | nil => exact ⟨[], .nil, List.nodup_nil⟩
  | @step _ ip _ _ _ instr leads ih =>
    obtain ⟨w, hw, hnodup⟩ := ih
    by_cases hmem : ip ∈ w
    · obtain ⟨w₁, rest, rfl, hw₁⟩ := hw.before hmem
      have hcut : (w₁ ++ [ip]).Sublist (w₁ ++ ip :: rest) := by simp
      exact ⟨w₁ ++ [ip], .step hw₁ instr leads, hnodup.sublist hcut⟩
    · exact ⟨w ++ [ip], .step hw instr leads, List.nodup_append'.mpr
        ⟨hnodup, List.nodup_singleton ip, by simpa using hmem⟩⟩

/-- Some trail to an index has no more instructions than the body. -/
theorem Trail.exists_length_le (h : code.Trail start v ip) :
    ∃ w, code.Trail start w ip ∧ w.length ≤ code.size := by
  obtain ⟨w, hw, hnodup⟩ := h.exists_nodup
  have hsub : List.Subperm w (List.range code.size) :=
    hnodup.subperm fun k hk => List.mem_range.mpr (hw.mem_lt k hk)
  refine ⟨w, hw, ?_⟩
  have hle := hsub.length_le
  rwa [List.length_range] at hle

/-- On a trail without a height some instruction lacks operands. -/
theorem Trail.underflows (h : code.Trail 0 v ip) (hnone : heightAfter (code.passed v) = none) :
    code.Underflows := by
  induction h with
  | nil => cases hnone
  | @step v ip _ i before instr _ ih =>
    cases hheight : heightAfter (code.passed v) with
    | none => exact ih hheight
    | some h =>
      rw [passed_concat instr, heightAfter_concat, hheight, Option.bind_some] at hnone
      split at hnone
      · cases hnone
      · next hlt => exact ⟨v, ip, i, h, before, instr, hheight, Nat.lt_of_not_le hlt⟩

/-! ## What an index requires -/

/-- The body underflows if a trail comes to an index with fewer than `d` operands. -/
def Requires (code : Code) (ip d : Nat) : Prop :=
  ∀ v h, code.Trail 0 v ip → heightAfter (code.passed v) = some h → h < d → code.Underflows

/-- The body reads a local unassigned if a trail that does not assign it comes to an index. -/
def RequiresName (code : Code) (ip : Nat) (x : String) : Prop :=
  ∀ v, code.Trail 0 v ip → .store x ∉ code.passed v → code.ReadsUnassigned x

theorem Requires.mono {d' : Nat} (h : code.Requires ip d) (hle : d' ≤ d) : code.Requires ip d' :=
  fun v n hv hn hlt => h v n hv hn (Nat.lt_of_lt_of_le hlt hle)

theorem requires_takes (hi : code[ip]? = some i) : code.Requires ip i.takes :=
  fun v n hv hn hlt => ⟨v, ip, i, n, hv, hi, hn, hlt⟩

theorem requiresName_load (hi : code[ip]? = some (.load x)) : code.RequiresName ip x :=
  fun v hv hstore => ⟨v, ip, hv, hi, hstore⟩

theorem Requires.back {next : Nat} (h : code.Requires next d) (hi : code[ip]? = some i)
    (hnext : next ∈ i.nexts ip) : code.Requires ip (d - i.gives + i.takes) := by
  intro v n hv hn hlt
  by_cases htakes : i.takes ≤ n
  · have hheight : heightAfter (code.passed (v ++ [ip])) = some (n - i.takes + i.gives) := by
      rw [passed_concat hi, heightAfter_concat, hn, Option.bind_some, if_pos htakes]
    exact h (v ++ [ip]) _ (.step hv hi hnext) hheight (by omega)
  · exact requires_takes hi v n hv hn (Nat.lt_of_not_le htakes)

theorem RequiresName.back {next : Nat} (h : code.RequiresName next x) (hi : code[ip]? = some i)
    (hnext : next ∈ i.nexts ip) (hne : .store x ≠ i) : code.RequiresName ip x := by
  intro v hv hstore
  refine h (v ++ [ip]) (.step hv hi hnext) ?_
  rw [passed_concat hi, List.mem_append, List.mem_singleton]
  exact not_or.mpr ⟨hstore, hne⟩

/-- Requirements go back along a trail. -/
theorem Requires.along (h : code.Requires ip d) (hw : code.Trail start w ip) :
    code.Requires start (demand (code.passed w) d) := by
  induction hw generalizing d with
  | nil => exact h
  | step _ instr leads ih =>
    rw [passed_concat instr, demand, List.foldr_append]
    exact ih (h.back instr leads)

theorem RequiresName.along (h : code.RequiresName ip x) (hw : code.Trail start w ip)
    (hstore : .store x ∉ code.passed w) : code.RequiresName start x := by
  induction hw with
  | nil => exact h
  | step _ instr leads ih =>
    rw [passed_concat instr, List.mem_append, List.mem_singleton, not_or] at hstore
    exact ih (h.back instr leads hstore.2) hstore.1

/-- No index of a sound body requires more operands than the body has instructions. -/
theorem Requires.underflows (h : code.Requires ip d) (hv : code.Trail 0 v ip)
    (hd : code.size < d) : code.Underflows := by
  obtain ⟨w, hw, hlen⟩ := hv.exists_length_le
  cases hheight : heightAfter (code.passed w) with
  | none => exact hw.underflows hheight
  | some n =>
    have hn : n ≤ (code.passed w).length := heightAfter_le hheight
    have hpassed : (code.passed w).length ≤ w.length := List.length_filterMap_le _ _
    exact h w n hw hheight (by omega)

end Code

/-! ## Trails through blocks -/

namespace Block.Fits

variable {code : Code} {b : Block}

/-- Control runs through a block from its start. -/
theorem trail (h : b.Fits code) {k : Nat} (hk : k < b.live.length) :
    ∃ v, code.Trail b.start v (b.start + k) ∧ code.passed v = b.live.take k := by
  induction k with
  | zero => exact ⟨[], .nil, rfl⟩
  | succ k ih =>
    obtain ⟨v, hv, hpassed⟩ := ih (by omega)
    have hi : b.live[k]? = some b.live[k] := List.getElem?_eq_getElem (by omega)
    have hcode : code[b.start + k]? = some b.live[k] := by
      rw [← h.live_at k (by omega)]
      exact hi
    have hnext : b.start + (k + 1) ∈ b.live[k].nexts (b.start + k) := by
      rw [Instr.nexts_of_inner (h.inner hk hi)]
      exact List.mem_singleton_self _
    refine ⟨v ++ [b.start + k], .step hv hcode hnext, ?_⟩
    rw [Code.passed_concat hcode, hpassed, List.take_add_one, hi]
    rfl

theorem trail_to (h : b.Fits code) {before after : List Instr} {i : Instr}
    (hlive : b.live = before ++ i :: after) :
    ∃ v, code.Trail b.start v (b.start + before.length) ∧ code.passed v = before ∧
      code[b.start + before.length]? = some i := by
  have hlt : before.length < b.live.length := by
    rw [hlive, List.length_append, List.length_cons]
    omega
  obtain ⟨v, hv, hpassed⟩ := h.trail hlt
  refine ⟨v, hv, by rw [hpassed, hlive, List.take_left], ?_⟩
  rw [← h.live_at _ hlt, hlive, List.getElem?_append_right (Nat.le_refl _), Nat.sub_self]
  rfl

/-- The last live instruction of a block leads to the successors, or out of the body. -/
theorem mem_succs (h : b.Fits code) {before : List Instr} {i : Instr}
    (hlive : b.live = before ++ [i]) {e : Nat} :
    (e ∈ b.succs → e ∈ i.nexts (b.start + before.length)) ∧
      (e ∈ i.nexts (b.start + before.length) → e ∈ b.succs ∨ code.size ≤ e) := by
  have hfollowing : ∀ {n e : Nat}, e ∈ (code.following n).toList ↔ e = n ∧ e < code.size := by
    intro n e
    rw [Option.mem_toList, Code.following]
    split <;> simp <;> omega
  rw [h.succs_eq, hlive, flowAfter, List.getLast?_concat, List.length_append, List.length_singleton,
    ← Nat.add_assoc]
  cases i with
  | jump target => exact ⟨id, .inl⟩
  | ret => exact ⟨id, .inl⟩
  | branch target =>
    simp only [Instr.nexts, List.mem_cons, List.not_mem_nil, or_false, hfollowing]
    omega
  | _ =>
    simp only [Instr.nexts, List.mem_singleton, hfollowing]
    omega

theorem exists_last (h : b.Fits code) : ∃ v m i, code.Trail b.start v m ∧ code[m]? = some i ∧
    b.live = code.passed v ++ [i] ∧ ∀ e ∈ b.succs, e ∈ i.nexts m := by
  obtain ⟨before, i, hlive⟩ : ∃ before i, b.live = before ++ [i] :=
    ⟨_, _, (List.dropLast_append_getLast h.live_ne_nil).symm⟩
  obtain ⟨v, hv, rfl, hi⟩ := h.trail_to hlive
  exact ⟨v, _, i, hv, hi, hlive, fun _ => (h.mem_succs hlive).1⟩

/-- A live instruction leads to the next one of its block, from the last one to a successor, or out
of the body. -/
theorem leads (h : b.Fits code) {k next : Nat} {i : Instr} (hi : b.live[k]? = some i)
    (hnext : next ∈ i.nexts (b.start + k)) :
    (k + 1 < b.live.length ∧ next = b.start + (k + 1)) ∨
      (k + 1 = b.live.length ∧ next ∈ b.succs) ∨ code.size ≤ next := by
  have hlt : k < b.live.length := (List.getElem?_eq_some_iff.mp hi).1
  by_cases hk : k + 1 < b.live.length
  · rw [Instr.nexts_of_inner (h.inner hk hi), List.mem_singleton] at hnext
    exact .inl ⟨hk, hnext⟩
  · have hlast : k + 1 = b.live.length := by omega
    have hlive : b.live = b.live.take k ++ [i] :=
      calc b.live = b.live.take (k + 1) := by rw [hlast, List.take_length]
        _ = b.live.take k ++ [i] := by rw [List.take_add_one, hi]; rfl
    have hlen : (b.live.take k).length = k := by
      rw [List.length_take]
      omega
    rw [← hlen] at hnext
    exact .inr (((h.mem_succs hlive).2 hnext).imp_left fun hmem => ⟨hlast, hmem⟩)

end Block.Fits

/-- Control can reach every block. -/
theorem Layout.exists_trail {code : Code} {bs : List Block} (h : Layout code bs) {b : Block}
    (hb : b ∈ bs) : ∃ v, code.Trail 0 v b.start := by
  refine h.reach (fun b => ∃ v, code.Trail 0 v b.start) (fun b _ hstart => ?_)
    (fun a ha ⟨v, hv⟩ c _ hsucc => ?_) b hb
  · exact ⟨[], hstart ▸ .nil⟩
  · obtain ⟨w, m, i, hw, hi, -, hnext⟩ := (h.fits a ha).exists_last
    exact ⟨_, .step (hv.trans hw) hi (hnext _ hsucc)⟩

end StackJit
