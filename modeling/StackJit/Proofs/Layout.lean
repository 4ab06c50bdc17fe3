import Mathlib.Data.List.Nodup
import StackJit.Block

/-!
# How the blocks lie in a method body

`Layout code bs` says what the reachable blocks `bs` of a body are: their live parts are stretches
of the body that control runs through from the first instruction to the last, their successors are
where control goes after that, each successor is again one of the blocks, and the predecessors of a
block are the blocks that it follows, in ascending order and once for every edge.

Main statement: the blocks that `Code.graph` works on have such a layout (`layout_reachable`).
-/

namespace StackJit

/-! ## The live part of a block -/

theorem livePart_ne_nil {l : List Instr} (h : l ≠ []) : livePart l ≠ [] := by
  cases l with
  | nil => exact absurd rfl h
  | cons i rest =>
    unfold livePart
    split <;> simp

theorem livePart_isPrefix (l : List Instr) : livePart l <+: l := by
  induction l with
  | nil => exact List.prefix_rfl
  | cons i rest ih =>
    unfold livePart
    split
    · exact ⟨rest, rfl⟩
    · exact List.cons_prefix_cons.mpr ⟨rfl, ih⟩

/-- Only the last live instruction may end the block. -/
theorem not_endsBlock_of_livePart {l : List Instr} {k : Nat} {i : Instr}
    (hk : k + 1 < (livePart l).length) (hi : (livePart l)[k]? = some i) : i.endsBlock = false := by
  induction l generalizing k with
  | nil => simp [livePart] at hk
  | cons j rest ih =>
    unfold livePart at hk hi
    split at hk
    · simp at hk
    · next hj =>
      rw [if_neg hj] at hi
      cases k with
      | zero =>
        simp only [List.getElem?_cons_zero, Option.some.injEq] at hi
        subst hi
        simpa using hj
      | succ k =>
        rw [List.getElem?_cons_succ] at hi
        simp only [List.length_cons] at hk
        exact ih (by omega) hi

theorem livePart_of_inner {body : List Instr}
    (h : ∀ {k : Nat} {i : Instr}, body[k]? = some i → i.endsBlock = true → k + 1 = body.length) :
    livePart body = body := by
  induction body with
  | nil => rfl
  | cons i rest ih =>
    rw [livePart]
    split
    · next hends =>
      have hlen := h (k := 0) rfl hends
      have hrest : rest = [] := List.length_eq_zero_iff.mp (by simpa using hlen.symm)
      rw [hrest]
    · rw [ih fun {k j} hj hends => ?_]
      simpa using h (k := k + 1) (by simpa using hj) hends

/-- A live part without an instruction that ends it is the whole block. -/
theorem livePart_eq_self {l : List Instr}
    (h : ∀ i, (livePart l).getLast? = some i → i.endsBlock = false) : livePart l = l := by
  induction l with
  | nil => rfl
  | cons i rest ih =>
    unfold livePart at h ⊢
    split at h
    · next hi =>
      rw [if_pos hi]
      have := h i rfl
      rw [hi] at this
      cases this
    · next hi =>
      rw [if_neg hi]
      congr 1
      cases rest with
      | nil => rfl
      | cons j rest =>
        refine ih fun k hk => h k ?_
        have hne : livePart (j :: rest) ≠ [] := livePart_ne_nil (by simp)
        rw [List.getLast?_cons, hk]
        rfl

/-! ## Cutting a body at its leaders -/

/-- Neighbours in an ascending list, the last of them followed by `stop`. -/
theorem mem_zipWith_neighbours {α : Type} (f : Nat → Nat → α) {l : List Nat} {stop : Nat}
    (hsorted : l.Pairwise (· < ·)) (hlt : ∀ i ∈ l, i < stop) {b : α}
    (hb : b ∈ l.zipWith f (l.drop 1 ++ [stop])) :
    ∃ s t, b = f s t ∧ s ∈ l ∧ s < t ∧ t ≤ stop ∧ (t < stop → t ∈ l) ∧ ∀ i ∈ l, i ≤ s ∨ t ≤ i := by
  induction l with
  | nil => simp at hb
  | cons a l ih =>
    obtain ⟨ha, hl⟩ := List.pairwise_cons.mp hsorted
    cases l with
    | nil =>
      simp only [List.drop_succ_cons, List.drop_nil, List.nil_append, List.zipWith_cons_cons,
        List.zipWith_nil_left, List.mem_singleton] at hb
      refine ⟨a, stop, hb, by simp, hlt a (by simp), Nat.le_refl _,
        fun h => absurd h (by omega), ?_⟩
      simp
    | cons c l =>
      simp only [List.drop_succ_cons, List.drop_zero, List.cons_append, List.zipWith_cons_cons,
        List.mem_cons] at hb
      have hac : a < c := ha c (by simp)
      rcases hb with rfl | hb
      · have hc : c < stop := hlt c (by simp)
        refine ⟨a, c, rfl, by simp, hac, Nat.le_of_lt hc, fun _ => by simp, fun i hi => ?_⟩
        rcases List.mem_cons.mp hi with rfl | hi
        · exact .inl (Nat.le_refl _)
        · rcases List.mem_cons.mp hi with rfl | hi
          · exact .inr (Nat.le_refl _)
          · exact .inr (Nat.le_of_lt ((List.pairwise_cons.mp hl).1 i hi))
      · obtain ⟨s, t, rfl, hs, hst, ht, htl, hgap⟩ :=
          ih hl (fun i hi => hlt i (List.mem_cons_of_mem a hi)) (by simpa using hb)
        refine ⟨s, t, rfl, List.mem_cons_of_mem a hs, hst, ht,
          fun h => List.mem_cons_of_mem a (htl h), fun i hi => ?_⟩
        rcases List.mem_cons.mp hi with rfl | hi
        · exact .inl (Nat.le_of_lt (ha s hs))
        · exact hgap i hi

theorem map_zipWith_neighbours {α : Type} (f : Nat → Nat → α) (first : α → Nat)
    (hf : ∀ s t, first (f s t) = s) (l : List Nat) (stop : Nat) :
    (l.zipWith f (l.drop 1 ++ [stop])).map first = l := by
  induction l with
  | nil => rfl
  | cons a l ih =>
    cases l with
    | nil => simp [hf]
    | cons c l =>
      simp only [List.drop_succ_cons, List.drop_zero, List.cons_append, List.zipWith_cons_cons,
        List.map_cons, hf, List.cons.injEq, true_and] at ih ⊢
      exact ih

/-- Where control continues after the instruction before `next`, if there is an instruction. -/
def Code.following (code : Code) (next : Nat) : Option Nat :=
  if next < code.size then some next else none

/-- What one block of a body is, its predecessors apart. -/
structure Block.Fits (code : Code) (b : Block) : Prop where
  live_ne_nil : b.live ≠ []
  live_at : ∀ k < b.live.length, b.live[k]? = code[b.start + k]?
  /-- Control runs on to the next live instruction. -/
  inner : ∀ {k i}, k + 1 < b.live.length → b.live[k]? = some i → i.endsBlock = false
  succs_eq : b.succs = flowAfter b.live (code.following (b.start + b.live.length))

/-- Control goes two ways after a branch only. -/
theorem Block.Fits.succs_cases {code : Code} {b : Block} (h : b.Fits code) :
    b.succs = [] ∨ (∃ s, b.succs = [s]) ∨
      ∃ s u t, b.succs = [s, u] ∧ b.live.getLast? = some (.branch t) := by
  have hone : ∀ o : Option Nat, o.toList = [] ∨ ∃ s, o.toList = [s] := by
    rintro (_ | s)
    · exact .inl rfl
    · exact .inr ⟨s, rfl⟩
  rw [h.succs_eq, flowAfter]
  split
  · exact .inr (.inl ⟨_, rfl⟩)
  · next t hlast =>
    rcases hone (code.following (b.start + b.live.length)) with hnil | ⟨u, hu⟩
    · exact .inr (.inl ⟨t, by rw [hnil]⟩)
    · exact .inr (.inr ⟨t, u, t, by rw [hu], hlast⟩)
  · exact .inl rfl
  · rcases hone (code.following (b.start + b.live.length)) with hnil | ⟨u, hu⟩
    · exact .inl hnil
    · exact .inr (.inl ⟨u, hu⟩)

namespace Code

theorem target_lt {code : Code} (h : code.badTarget? = none) {i t : Nat} {instr : Instr}
    (hi : code[i]? = some instr) (ht : instr.target? = some t) : t < code.size := by
  unfold badTarget? at h
  rw [List.findSome?_eq_none_iff] at h
  have hmem : (instr, i) ∈ code.toList.zipIdx := by
    rw [List.mem_zipIdx_iff_getElem?]
    simpa using hi
  have hn := h (instr, i) hmem
  simp only [ht] at hn
  split at hn
  · assumption
  · cases hn

theorem isLeader_of_target {code : Code} {i t : Nat} {instr : Instr} (hi : code[i]? = some instr)
    (ht : instr.target? = some t) : code.isLeader t = true := by
  have hany : (code.any fun instr => instr.target? == some t) = true := by
    rw [Array.any_eq_true]
    obtain ⟨hlt, rfl⟩ := Array.getElem?_eq_some_iff.mp hi
    exact ⟨i, hlt, by simp [ht]⟩
  simp [isLeader, hany]

theorem isLeader_succ_of_branch {code : Code} {i t : Nat} (hi : code[i]? = some (.branch t)) :
    code.isLeader (i + 1) = true := by
  simp [isLeader, hi]

/-- A block between two neighbouring leaders fits the body. -/
theorem fits_blockBetween {code : Code} {start stop : Nat} (hlt : start < stop)
    (hle : stop ≤ code.size) (hgap : ∀ i, start < i → i < stop → code.isLeader i = false) :
    (code.blockBetween start stop).Fits code := by
  have hlen : (code.extract start stop).toList.length = stop - start := by
    simp only [Array.length_toList, Array.size_extract]
    omega
  have hne : (code.extract start stop).toList ≠ [] := by
    intro h
    rw [h] at hlen
    simp at hlen
    omega
  have hprefix := livePart_isPrefix (code.extract start stop).toList
  have hle' := hprefix.length_le
  have hat : ∀ k < (livePart (code.extract start stop).toList).length,
      (livePart (code.extract start stop).toList)[k]? = code[start + k]? := by
    intro k hk
    obtain ⟨rest, hrest⟩ := hprefix
    rw [← List.getElem?_append_left hk, hrest, Array.getElem?_toList, Array.getElem?_extract,
      if_pos (by omega)]
  have hpos := List.length_pos_iff.mpr (livePart_ne_nil hne)
  refine ⟨livePart_ne_nil hne, hat, not_endsBlock_of_livePart, ?_⟩
  -- the instruction that ends the live part decides whether the next leader follows it
  set live := livePart (code.extract start stop).toList with hlive
  show flowAfter live (if stop < code.size then some stop else none) =
    flowAfter live (code.following (start + live.length))
  have hstop : (∀ i, live.getLast? = some i → i.endsBlock = false) →
      start + live.length = stop := by
    intro h
    have := livePart_eq_self h
    rw [hlive, this, hlen]
    omega
  have hlast : live.getLast? = code[start + live.length - 1]? := by
    rw [List.getLast?_eq_getElem?, hat _ (by omega)]
    congr 1
    omega
  unfold flowAfter following
  cases hl : live.getLast? with
  | none => rw [List.getLast?_eq_none_iff] at hl; exact absurd hl (livePart_ne_nil hne)
  | some i =>
    cases i with
    | jump t => rfl
    | ret => rfl
    | branch t =>
      have hb : code[start + live.length - 1]? = some (.branch t) := hlast ▸ hl
      have hleader := isLeader_succ_of_branch hb
      rw [show start + live.length - 1 + 1 = start + live.length by omega] at hleader
      have : stop = start + live.length := by
        by_contra hne'
        have := hgap (start + live.length) (by omega) (by omega)
        rw [hleader] at this
        cases this
      rw [this]
    | _ => rw [hstop (fun j hj => by rw [hl] at hj; obtain rfl := Option.some.inj hj; rfl)]

/-- The blocks of a body before their predecessors are filled in. -/
theorem blocks_eq {code : Code} {bs : List Block} (h : code.blocks = .ok bs) :
    code.badTarget? = none ∧
      bs = Block.linkPreds (((List.range code.size).filter code.isLeader).zipWith code.blockBetween
        (((List.range code.size).filter code.isLeader).drop 1 ++ [code.size])) := by
  unfold blocks leaders at h
  cases hbad : code.badTarget? with
  | some e => simp [hbad] at h
  | none =>
    simp only [hbad] at h
    exact ⟨rfl, (Except.ok.inj h).symm⟩

theorem pairwise_leaders (code : Code) :
    ((List.range code.size).filter code.isLeader).Pairwise (· < ·) :=
  List.pairwise_lt_range.sublist List.filter_sublist

end Code

/-! ## All blocks -/

theorem Block.map_start_linkPreds (bs : List Block) :
    (Block.linkPreds bs).map (·.start) = bs.map (·.start) := by
  simp [Block.linkPreds, Function.comp_def]

theorem Block.Fits.of_eq {code : Code} {a b : Block} (h : a.Fits code) (hs : b.start = a.start)
    (hb : b.body = a.body) (hsucc : b.succs = a.succs) : b.Fits code := by
  have hlive : b.live = a.live := by rw [Block.live, hb, Block.live]
  refine ⟨hlive ▸ h.live_ne_nil, ?_, ?_, ?_⟩
  · intro k hk
    rw [hlive] at hk ⊢
    rw [hs]
    exact h.live_at k hk
  · intro k i hk hi
    rw [hlive] at hk hi
    exact h.inner hk hi
  · rw [hsucc, h.succs_eq, hlive, hs]

section Blocks

variable {code : Code} {bs : List Block}

theorem map_start_blocks (h : code.blocks = .ok bs) :
    bs.map (·.start) = (List.range code.size).filter code.isLeader := by
  rw [(Code.blocks_eq h).2, Block.map_start_linkPreds]
  exact map_zipWith_neighbours code.blockBetween (·.start) (fun _ _ => rfl) _ _

theorem pairwise_start_blocks (h : code.blocks = .ok bs) : (bs.map (·.start)).Pairwise (· < ·) := by
  rw [map_start_blocks h]
  exact code.pairwise_leaders

/-- Blocks start at the leaders. -/
theorem mem_map_start_blocks (h : code.blocks = .ok bs) {i : Nat} :
    i ∈ bs.map (·.start) ↔ i < code.size ∧ code.isLeader i = true := by
  rw [map_start_blocks h, List.mem_filter, List.mem_range]

theorem start_lt_size (h : code.blocks = .ok bs) {b : Block} (hb : b ∈ bs) : b.start < code.size :=
  ((mem_map_start_blocks h).mp (List.mem_map_of_mem hb)).1

theorem isLeader_start (h : code.blocks = .ok bs) {b : Block} (hb : b ∈ bs) :
    code.isLeader b.start = true :=
  ((mem_map_start_blocks h).mp (List.mem_map_of_mem hb)).2

theorem exists_first_block (h : code.blocks = .ok bs) (hpos : 0 < code.size) :
    ∃ b ∈ bs, b.start = 0 :=
  List.mem_map.mp ((mem_map_start_blocks h).mpr ⟨hpos, by simp [Code.isLeader]⟩)

/-- A block lies between two neighbouring leaders. -/
theorem eq_blockBetween_of_mem_blocks (h : code.blocks = .ok bs) {b : Block} (hb : b ∈ bs) :
    ∃ stop, b.start < stop ∧ stop ≤ code.size ∧ (stop < code.size → code.isLeader stop = true) ∧
      (∀ i, b.start < i → i < stop → code.isLeader i = false) ∧
      b.body = (code.blockBetween b.start stop).body ∧
      b.succs = (code.blockBetween b.start stop).succs := by
  rw [(Code.blocks_eq h).2] at hb
  obtain ⟨a, ha, rfl⟩ := List.mem_map.mp hb
  obtain ⟨s, t, rfl, -, hst, ht, hleader, hgap⟩ := mem_zipWith_neighbours _ code.pairwise_leaders
    (fun i hi => List.mem_range.mp (List.mem_filter.mp hi).1) ha
  refine ⟨t, hst, ht, fun hlt => (List.mem_filter.mp (hleader hlt)).2,
    fun i hs' ht' => ?_, rfl, rfl⟩
  by_contra hi
  rw [Bool.not_eq_false] at hi
  rcases hgap i (List.mem_filter.mpr ⟨List.mem_range.mpr (by omega), hi⟩) with hle | hle
  · exact absurd hs' (Nat.not_lt.mpr hle)
  · exact absurd ht' (Nat.not_lt.mpr hle)

theorem fits_of_mem_blocks (h : code.blocks = .ok bs) {b : Block} (hb : b ∈ bs) : b.Fits code := by
  obtain ⟨stop, hlt, hle, -, hgap, hbody, hsuccs⟩ := eq_blockBetween_of_mem_blocks h hb
  exact (Code.fits_blockBetween hlt hle hgap).of_eq rfl hbody hsuccs

theorem mem_flowAfter {live : List Instr} {following : Option Nat} {t : Nat}
    (h : t ∈ flowAfter live following) :
    (∃ i, live.getLast? = some i ∧ i.target? = some t) ∨ following = some t := by
  unfold flowAfter at h
  split at h
  · next target hl =>
    rw [List.mem_singleton] at h
    exact .inl ⟨_, hl, by rw [h]; rfl⟩
  · next target hl =>
    rcases List.mem_cons.mp h with rfl | h
    · exact .inl ⟨_, hl, rfl⟩
    · exact .inr (Option.mem_toList.mp h)
  · simp at h
  · exact .inr (Option.mem_toList.mp h)

/-- Every successor is the start of a block. -/
theorem succ_mem_starts (h : code.blocks = .ok bs) {b : Block} (hb : b ∈ bs) {t : Nat}
    (ht : t ∈ b.succs) : t ∈ bs.map (·.start) := by
  obtain ⟨stop, -, -, hstop, -, hbody, hsuccs⟩ := eq_blockBetween_of_mem_blocks h hb
  have hfits := fits_of_mem_blocks h hb
  have hpos := List.length_pos_iff.mpr hfits.live_ne_nil
  have hlast : b.live.getLast? = code[b.start + (b.live.length - 1)]? := by
    rw [List.getLast?_eq_getElem?, hfits.live_at _ (by omega)]
  rw [mem_map_start_blocks h]
  rw [hsuccs] at ht
  rcases mem_flowAfter ht with ⟨i, hi, hit⟩ | hfollow
  · have hi' : b.live.getLast? = some i := by rw [Block.live, hbody]; exact hi
    rw [hlast] at hi'
    exact ⟨Code.target_lt (Code.blocks_eq h).1 hi' hit, Code.isLeader_of_target hi' hit⟩
  · split at hfollow
    · next hlt =>
      obtain rfl := Option.some.inj hfollow
      exact ⟨hlt, hstop hlt⟩
    · cases hfollow

theorem preds_of_mem_blocks (h : code.blocks = .ok bs) {b : Block} (hb : b ∈ bs) :
    b.preds = bs.flatMap fun a => List.replicate (a.succs.count b.start) a.start := by
  have heq := (Code.blocks_eq h).2
  rw [heq] at hb
  obtain ⟨a, ha, rfl⟩ := List.mem_map.mp hb
  rw [heq]
  simp only [Block.linkPreds, List.flatMap_map]

end Blocks

/-! ## The reachable blocks -/

/-- What the reachable blocks of a body are. -/
structure Layout (code : Code) (bs : List Block) : Prop where
  ascending : (bs.map (·.start)).Pairwise (· < ·)
  fits : ∀ b ∈ bs, b.Fits code
  entry : 0 < code.size → ∃ b ∈ bs, b.start = 0
  succ : ∀ b ∈ bs, ∀ t ∈ b.succs, ∃ c ∈ bs, c.start = t
  preds : ∀ b ∈ bs, b.preds = bs.flatMap fun a => List.replicate (a.succs.count b.start) a.start
  /-- What holds of the block at index 0 and passes on to successors holds of all blocks. -/
  reach : ∀ p : Block → Prop, (∀ b ∈ bs, b.start = 0 → p b) →
    (∀ a ∈ bs, p a → ∀ b ∈ bs, b.start ∈ a.succs → p b) → ∀ b ∈ bs, p b

theorem Layout.eq_of_start {code : Code} {bs : List Block} (h : Layout code bs) {a b : Block}
    (ha : a ∈ bs) (hb : b ∈ bs) (hs : a.start = b.start) : a = b :=
  List.inj_on_of_nodup_map (h.ascending.imp Nat.ne_of_lt) ha hb hs

theorem Layout.nodup {code : Code} {bs : List Block} (h : Layout code bs) :
    (bs.map (·.start)).Nodup :=
  h.ascending.imp Nat.ne_of_lt

/-- Predecessors are the blocks that have the block among their successors. -/
theorem Layout.mem_preds {code : Code} {bs : List Block} (h : Layout code bs) {b : Block}
    (hb : b ∈ bs) {p : Nat} : p ∈ b.preds ↔ ∃ a ∈ bs, a.start = p ∧ b.start ∈ a.succs := by
  rw [h.preds b hb, List.mem_flatMap]
  refine exists_congr fun a => and_congr_right fun _ => ?_
  rw [List.mem_replicate, ← List.one_le_count_iff]
  constructor
  · exact fun ⟨hcount, heq⟩ => ⟨heq.symm, Nat.one_le_iff_ne_zero.mpr hcount⟩
  · exact fun ⟨heq, hcount⟩ => ⟨Nat.one_le_iff_ne_zero.mp hcount, heq.symm⟩

/-- Control reaches every block but the one at index 0 from a block. -/
theorem Layout.preds_ne_nil {code : Code} {bs : List Block} (h : Layout code bs) {b : Block}
    (hb : b ∈ bs) (hstart : b.start ≠ 0) : b.preds ≠ [] := by
  have hall := h.reach (fun b => b.start = 0 ∨ b.preds ≠ []) (fun _ _ h0 => .inl h0)
    fun a ha _ c hc hsucc => .inr
      (List.ne_nil_of_mem ((h.mem_preds hc).mpr ⟨a, ha, rfl, hsucc⟩))
  exact (hall b hb).resolve_left hstart

theorem Block.find?_start {bs : List Block} (hnodup : (bs.map (·.start)).Nodup) {b : Block}
    (hb : b ∈ bs) : bs.find? (·.start == b.start) = some b := by
  induction bs with
  | nil => simp at hb
  | cons a bs ih =>
    rw [List.map_cons, List.nodup_cons] at hnodup
    rcases List.mem_cons.mp hb with rfl | hb
    · simp
    · have hne : a.start ≠ b.start := fun he => hnodup.1 (he ▸ List.mem_map_of_mem hb)
      simp [hne, ih hnodup.2 hb]

theorem filter_flatMap_replicate (bs : List Block) (n : Block → Nat) (r : Nat → Bool) :
    (bs.flatMap fun a => List.replicate (n a) a.start).filter r =
      (bs.filter fun a => r a.start).flatMap fun a => List.replicate (n a) a.start := by
  induction bs with
  | nil => rfl
  | cons a bs ih =>
    rw [List.flatMap_cons, List.filter_append, ih]
    by_cases ha : r a.start = true
    · simp [ha]
    · simp [ha]

/-- No block starts within the live part of another one. -/
theorem isLeader_inner {code : Code} {bs : List Block} (h : code.blocks = .ok bs) {b : Block}
    (hb : b ∈ bs) {i : Nat} (hlt : b.start < i) (hi : i < b.start + b.live.length) :
    code.isLeader i = false := by
  obtain ⟨stop, hstart, hle, -, hgap, hbody, -⟩ := eq_blockBetween_of_mem_blocks h hb
  have hprefix : b.live.length ≤ b.body.length := (livePart_isPrefix b.body).length_le
  rw [hbody] at hprefix
  simp only [Code.blockBetween, Array.length_toList, Array.size_extract] at hprefix
  exact hgap i hlt (by omega)

/-- A block starts after the live part of the blocks before it. -/
theorem apart_of_mem_blocks {code : Code} {bs : List Block} (h : code.blocks = .ok bs) {a b : Block}
    (ha : a ∈ bs) (hb : b ∈ bs) (hlt : a.start < b.start) : a.start + a.live.length ≤ b.start := by
  by_contra hinner
  have hleader := isLeader_start h hb
  rw [isLeader_inner h ha hlt (Nat.lt_of_not_le hinner)] at hleader
  cases hleader

/-! ## Reaching blocks -/

theorem Block.succsAt_start {bs : List Block} (hnodup : (bs.map (·.start)).Nodup) {b : Block}
    (hb : b ∈ bs) : Block.succsAt bs b.start = b.succs := by
  rw [Block.succsAt, Block.find?_start hnodup hb]

theorem Block.mem_succsAt {bs : List Block} {s t : Nat} (h : t ∈ Block.succsAt bs s) :
    ∃ a ∈ bs, a.start = s ∧ t ∈ a.succs := by
  unfold Block.succsAt at h
  split at h
  · next a ha => exact ⟨a, List.mem_of_find?_eq_some ha, by simpa using List.find?_some ha, h⟩
  · cases h

/-- A reachable block is a block that control comes to, with its predecessors restricted to such
blocks. -/
theorem Block.mem_reachable {bs : List Block} {size : Nat} {c : Block} :
    c ∈ Block.reachable bs size ↔ ∃ b ∈ bs, Search.Reach size (Block.succsAt bs) 0 b.start ∧
      c = { b with preds := b.preds.filter (Search.order size (Block.succsAt bs) 0).contains } := by
  simp only [Block.reachable, List.mem_map, List.mem_filter, List.contains_iff_mem,
    Search.mem_order]
  constructor
  · rintro ⟨b, ⟨hb, hr⟩, rfl⟩
    exact ⟨b, hb, hr, rfl⟩
  · rintro ⟨b, hb, hr, rfl⟩
    exact ⟨b, ⟨hb, hr⟩, rfl⟩

theorem Block.map_start_reachable (bs : List Block) (size : Nat) :
    (Block.reachable bs size).map (·.start) =
      (bs.map (·.start)).filter (Search.order size (Block.succsAt bs) 0).contains := by
  simp [Block.reachable, List.filter_map, Function.comp_def]

/-- What holds of the block at index 0 and passes on to successors holds of all reachable blocks. -/
theorem Block.reachable_induct {bs : List Block} {size : Nat} {p : Block → Prop}
    (hentry : ∀ b ∈ Block.reachable bs size, b.start = 0 → p b)
    (hstep : ∀ a ∈ Block.reachable bs size, p a →
      ∀ b ∈ Block.reachable bs size, b.start ∈ a.succs → p b) :
    ∀ b ∈ Block.reachable bs size, p b := by
  intro c hc
  obtain ⟨b, hb, hr, rfl⟩ := Block.mem_reachable.mp hc
  obtain ⟨t, ht⟩ : ∃ t, b.start = t := ⟨_, rfl⟩
  rw [ht] at hr
  -- by the way on which control comes to the block
  induction hr generalizing b with
  | root h0 => exact hentry _ hc ht
  | @step v w hv hw hlt ih =>
    obtain ⟨a, ha, rfl, hsucc⟩ := Block.mem_succsAt hw
    have ha' := Block.mem_reachable.mpr ⟨a, ha, hv, rfl⟩
    refine hstep _ ha' (ih a ha ha' rfl) _ hc ?_
    rw [← ht] at hsucc
    exact hsucc

section Reachable

variable {code : Code} {blocks : List Block}

/-- A live index belongs to one reachable block. -/
theorem eq_of_live_index (h : code.blocks = .ok blocks)
    {a b : Block} (ha : a ∈ Block.reachable blocks code.size)
    (hb : b ∈ Block.reachable blocks code.size) {k l : Nat} (hk : k < a.live.length)
    (hl : l < b.live.length) (heq : a.start + k = b.start + l) : a.start = b.start ∧ k = l := by
  obtain ⟨a', ha', -, rfl⟩ := Block.mem_reachable.mp ha
  obtain ⟨b', hb', -, rfl⟩ := Block.mem_reachable.mp hb
  have hbefore := apart_of_mem_blocks h ha' hb'
  have hafter := apart_of_mem_blocks h hb' ha'
  have hk' : k < a'.live.length := hk
  have hl' : l < b'.live.length := hl
  change a'.start + k = b'.start + l at heq
  change a'.start = b'.start ∧ k = l
  rcases Nat.lt_trichotomy a'.start b'.start with hlt | hstart | hlt
  · have := hbefore hlt
    omega
  · omega
  · have := hafter hlt
    omega

/-- Control goes on from a block that it comes to, to the successors of the block. -/
theorem reach_succ (h : code.blocks = .ok blocks) {a b : Block} (ha : a ∈ blocks) (hb : b ∈ blocks)
    (hr : Search.Reach code.size (Block.succsAt blocks) 0 a.start) (hsucc : b.start ∈ a.succs) :
    Search.Reach code.size (Block.succsAt blocks) 0 b.start := by
  have hnodup := (pairwise_start_blocks h).imp Nat.ne_of_lt
  refine .step hr ?_ (start_lt_size h hb)
  rw [Block.succsAt_start hnodup ha]
  exact hsucc

/-- The reachable blocks of a body have such a layout. -/
theorem layout_reachable (h : code.blocks = .ok blocks) :
    Layout code (Block.reachable blocks code.size) := by
  refine ⟨?_, ?_, ?_, ?_, ?_, fun p => Block.reachable_induct⟩
  · rw [Block.map_start_reachable]
    exact (pairwise_start_blocks h).sublist List.filter_sublist
  · intro c hc
    obtain ⟨b, hb, -, rfl⟩ := Block.mem_reachable.mp hc
    exact (fits_of_mem_blocks h hb).of_eq rfl rfl rfl
  · intro hpos
    obtain ⟨b, hb, hb0⟩ := exists_first_block h hpos
    exact ⟨_, Block.mem_reachable.mpr ⟨b, hb, by rw [hb0]; exact .root hpos, rfl⟩, hb0⟩
  · intro c hc t ht
    obtain ⟨b, hb, hr, rfl⟩ := Block.mem_reachable.mp hc
    obtain ⟨d, hd, rfl⟩ := List.mem_map.mp (succ_mem_starts h hb ht)
    exact ⟨_, Block.mem_reachable.mpr ⟨d, hd, reach_succ h hb hd hr ht, rfl⟩, rfl⟩
  · intro c hc
    obtain ⟨b, hb, -, rfl⟩ := Block.mem_reachable.mp hc
    simp only [preds_of_mem_blocks h hb, Block.reachable]
    rw [filter_flatMap_replicate, List.flatMap_map]

end Reachable

end StackJit
