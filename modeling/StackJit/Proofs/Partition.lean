import StackJit.Proofs.Layout

/-!
# Basic blocks partition a body

Unless an instruction goes outside the body (`Code.Strays`), the blocks of a body are cut exactly
where control can come from elsewhere than the instruction before, or may go elsewhere than the one
after, and put one after the other they are the body again. Successors and predecessors are two
views of the same edges, each with its multiplicity.

Main statement: `Code.blocks_partition`.
-/

namespace StackJit

variable {code : Code} {bs : List Block} {b : Block} {e : BuildError}

/-- The instruction at `source` is a jump or a branch to `target`. -/
def Code.GoesTo (code : Code) (source target : Nat) : Prop :=
  ∃ i, code[source]? = some i ∧ i.target? = some target

/-- The instruction at `source` goes to `target`, which is no index of the body. -/
def Code.Strays (code : Code) (source target : Nat) : Prop :=
  code.GoesTo source target ∧ code.size ≤ target

/-- What the blocks of a body are, all of them and not only the ones that control reaches. -/
structure Block.Partition (code : Code) (bs : List Block) : Prop where
  ascending : (bs.map (·.start)).Pairwise (· < ·)
  starts : ∀ k, k ∈ bs.map (·.start) ↔ k = 0 ∧ 0 < code.size ∨
    (∃ i, code.GoesTo i k) ∨ ∃ i target, code[i]? = some (.branch target) ∧ i + 1 = k ∧
      k < code.size
  body_ne_nil : ∀ b ∈ bs, b.body ≠ []
  body_at : ∀ b ∈ bs, b.body <+: code.toList.drop b.start
  whole : bs.flatMap (·.body) = code.toList
  succs_le_two : ∀ b ∈ bs, b.succs.length ≤ 2
  /-- Control goes two ways after a branch only. -/
  branches : ∀ b ∈ bs, b.succs.length = 2 → ∃ target, b.terminator? = some (.branch target)
  succs_mem : ∀ b ∈ bs, ∀ k ∈ b.succs, k ∈ bs.map (·.start)
  preds_mem : ∀ b ∈ bs, ∀ k ∈ b.preds, k ∈ bs.map (·.start)
  preds_sorted : ∀ b ∈ bs, b.preds.Pairwise (· ≤ ·)
  /-- Predecessors are counted as often as the block follows them. -/
  preds_count : ∀ a ∈ bs, ∀ b ∈ bs, b.preds.count a.start = a.succs.count b.start

/-! ## Targets outside the body -/

namespace Code

theorem badTarget?_eq_none_iff : code.badTarget? = none ↔
    ∀ source target, ¬ code.Strays source target := by
  constructor
  · rintro hnone source target ⟨⟨i, hi, htarget⟩, hle⟩
    exact absurd (target_lt hnone hi htarget) (Nat.not_lt.mpr hle)
  · intro hstrays
    rw [badTarget?, List.findSome?_eq_none_iff]
    rintro ⟨i, source⟩ hmem
    have hi : code[source]? = some i := by simpa using List.mem_zipIdx_iff_getElem?.mp hmem
    cases htarget : i.target? with
    | none => simp only [htarget]
    | some target =>
      have hlt : target < code.size :=
        Nat.lt_of_not_le fun hle => hstrays source target ⟨⟨i, hi, htarget⟩, hle⟩
      simp only [htarget, if_pos hlt]

/-- The first of the instructions that go outside the body is reported. -/
theorem first_of_badTarget? (h : code.badTarget? = some e) : ∃ source target,
    code.Strays source target ∧ (∀ earlier < source, ∀ t, ¬ code.Strays earlier t) ∧
      e = .invalidTarget source target code.size := by
  obtain ⟨before, ⟨i, source⟩, after, hsplit, hbad, hbefore⟩ := List.findSome?_eq_some_iff.mp h
  obtain ⟨before, rest, hcode, rfl, hrest⟩ := List.zipIdx_eq_append_iff.mp hsplit
  obtain ⟨i, after, rfl, hfirst, -⟩ := List.zipIdx_eq_cons_iff.mp hrest.symm
  obtain ⟨rfl, rfl⟩ := Prod.mk.inj hfirst
  have hi : code[0 + before.length]? = some i := by
    rw [← Array.getElem?_toList, hcode]
    simp
  cases htarget : i.target? with
  | none => simp [htarget] at hbad
  | some target =>
    simp only [htarget] at hbad
    split at hbad
    · cases hbad
    · next hout =>
      refine ⟨_, target, ⟨⟨i, hi, htarget⟩, Nat.le_of_not_lt hout⟩, ?_, (Option.some.inj hbad).symm⟩
      rintro earlier hlt t ⟨⟨i', hi', htarget'⟩, hle⟩
      rw [Nat.zero_add] at hlt
      rw [← Array.getElem?_toList, hcode, List.getElem?_append_left hlt] at hi'
      have hnone := hbefore (i', earlier) (List.mem_zipIdx_iff_getElem?.mpr hi')
      simp [htarget', Nat.not_lt.mpr hle] at hnone

theorem leaders_eq_error_iff : code.leaders = .error e ↔ code.badTarget? = some e := by
  unfold leaders
  cases code.badTarget? <;> simp

/-! ## Where blocks start -/

theorem isLeader_iff {k : Nat} : code.isLeader k = true ↔ k = 0 ∨
    (∃ i, code.GoesTo i k) ∨ ∃ i target, code[i]? = some (.branch target) ∧ i + 1 = k := by
  constructor
  · intro h
    simp only [isLeader, Bool.or_eq_true, beq_iff_eq] at h
    obtain (hzero | htarget) | hbranch := h
    · exact .inl hzero
    · obtain ⟨i, hi, htarget⟩ := Array.any_eq_true.mp htarget
      exact .inr (.inl ⟨i, code[i], Array.getElem?_eq_getElem hi, beq_iff_eq.mp htarget⟩)
    · by_cases hzero : k = 0
      · exact .inl hzero
      · split at hbranch
        · next target hi => exact .inr (.inr ⟨k - 1, target, hi, by omega⟩)
        · cases hbranch
  · rintro (rfl | ⟨i, instr, hi, htarget⟩ | ⟨i, target, hi, rfl⟩)
    · simp [isLeader]
    · exact isLeader_of_target hi htarget
    · exact isLeader_succ_of_branch hi

/-! ## Cutting -/

theorem body_blockBetween (code : Code) (start stop : Nat) :
    (code.blockBetween start stop).body = (code.toList.drop start).take (stop - start) := by
  rw [blockBetween, Array.toList_extract]

/-- What lies between neighbouring cuts is everything from the first cut on. -/
theorem flatMap_body_blockBetween (code : Code) {cuts : List Nat}
    (hsorted : cuts.Pairwise (· < ·)) :
    (cuts.zipWith code.blockBetween (cuts.drop 1 ++ [code.size])).flatMap (·.body) =
      code.toList.drop (cuts.headD code.size) := by
  induction cuts with
  | nil => simp
  | cons first cuts ih =>
    obtain ⟨hfirst, hrest⟩ := List.pairwise_cons.mp hsorted
    cases cuts with
    | nil =>
      simp only [List.drop_succ_cons, List.drop_nil, List.nil_append, List.zipWith_cons_cons,
        List.zipWith_nil_left, List.flatMap_cons, List.flatMap_nil, List.append_nil,
        body_blockBetween, List.headD_cons]
      exact List.take_of_length_le (by simp)
    | cons second cuts =>
      have hle : first ≤ second := Nat.le_of_lt (hfirst second List.mem_cons_self)
      simp only [List.drop_succ_cons, List.drop_zero, List.cons_append, List.zipWith_cons_cons,
        List.flatMap_cons, body_blockBetween, List.headD_cons] at ih ⊢
      rw [ih hrest, ← Nat.add_sub_of_le hle, ← List.drop_drop, Nat.add_sub_cancel_left,
        List.take_append_drop]

/-- A body that has instructions is cut at index 0. -/
theorem drop_first_leader (code : Code) :
    code.toList.drop (((List.range code.size).filter code.isLeader).headD code.size) =
      code.toList := by
  cases hsize : code.size with
  | zero =>
    have hnil : code.toList = [] := List.length_eq_zero_iff.mp hsize
    simp [hnil]
  | succ n =>
    have hzero : code.isLeader 0 = true := isLeader_iff.mpr (.inl rfl)
    rw [List.range_succ_eq_map, List.filter_cons, if_pos hzero]
    rfl

theorem flatMap_body_blocks (h : code.blocks = .ok bs) : bs.flatMap (·.body) = code.toList := by
  rw [(blocks_eq h).2, Block.linkPreds, List.flatMap_map,
    flatMap_body_blockBetween code code.pairwise_leaders, drop_first_leader]

theorem mem_starts_iff (h : code.blocks = .ok bs) (k : Nat) : k ∈ bs.map (·.start) ↔
    k = 0 ∧ 0 < code.size ∨ (∃ i, code.GoesTo i k) ∨
      ∃ i target, code[i]? = some (.branch target) ∧ i + 1 = k ∧ k < code.size := by
  rw [mem_map_start_blocks h, isLeader_iff]
  constructor
  · rintro ⟨hlt, rfl | hgoes | ⟨i, target, hi, rfl⟩⟩
    · exact .inl ⟨rfl, hlt⟩
    · exact .inr (.inl hgoes)
    · exact .inr (.inr ⟨i, target, hi, rfl, hlt⟩)
  · rintro (⟨rfl, hlt⟩ | ⟨i, instr, hi, htarget⟩ | ⟨i, target, hi, rfl, hlt⟩)
    · exact ⟨hlt, .inl rfl⟩
    · exact ⟨target_lt (blocks_eq h).1 hi htarget, .inr (.inl ⟨i, instr, hi, htarget⟩)⟩
    · exact ⟨hlt, .inr (.inr ⟨i, target, hi, rfl⟩)⟩

end Code

/-! ## Predecessors -/

theorem count_flatMap_replicate {a : Block} (hnodup : (bs.map (·.start)).Nodup) (ha : a ∈ bs)
    (n : Block → Nat) : (bs.flatMap fun c => List.replicate (n c) c.start).count a.start = n a := by
  induction bs with
  | nil => cases ha
  | cons c bs ih =>
    rw [List.map_cons, List.nodup_cons] at hnodup
    obtain ⟨hc, hnodup⟩ := hnodup
    rw [List.flatMap_cons, List.count_append]
    rcases List.mem_cons.mp ha with rfl | ha
    · have hothers : (bs.flatMap fun c => List.replicate (n c) c.start).count a.start = 0 := by
        rw [List.count_eq_zero, List.mem_flatMap]
        rintro ⟨d, hd, hmem⟩
        rw [(List.mem_replicate.mp hmem).2] at hc
        exact hc (List.mem_map_of_mem hd)
      rw [List.count_replicate_self, hothers, Nat.add_zero]
    · have hne : c.start ≠ a.start := fun heq => hc (heq ▸ List.mem_map_of_mem ha)
      rw [List.count_replicate, if_neg (by simpa using hne), ih hnodup ha, Nat.zero_add]

theorem pairwise_flatMap_replicate (hsorted : (bs.map (·.start)).Pairwise (· < ·))
    (n : Block → Nat) : (bs.flatMap fun c => List.replicate (n c) c.start).Pairwise (· ≤ ·) := by
  rw [List.pairwise_flatMap]
  refine ⟨fun c _ => ?_, (List.pairwise_map.mp hsorted).imp ?_⟩
  · exact List.pairwise_replicate.mpr (.inr (Nat.le_refl _))
  · intro c d hlt x hx y hy
    rw [(List.mem_replicate.mp hx).2, (List.mem_replicate.mp hy).2]
    exact Nat.le_of_lt hlt

/-! ## The partition -/

theorem Block.partition_of_blocks (h : code.blocks = .ok bs) : Block.Partition code bs := by
  have hsorted := pairwise_start_blocks h
  refine
    { ascending := hsorted
      starts := Code.mem_starts_iff h
      body_ne_nil := fun b hb hnil =>
        (fits_of_mem_blocks h hb).live_ne_nil (by rw [Block.live, hnil]; rfl)
      body_at := fun b hb => ?_
      whole := Code.flatMap_body_blocks h
      succs_le_two := fun b hb => ?_
      branches := fun b hb => ?_
      succs_mem := fun b hb k => succ_mem_starts h hb
      preds_mem := fun b hb k hk => ?_
      preds_sorted := fun b hb => ?_
      preds_count := fun a ha b hb => ?_ }
  · obtain ⟨stop, -, -, -, -, hbody, -⟩ := eq_blockBetween_of_mem_blocks h hb
    rw [hbody, Code.body_blockBetween]
    exact List.take_prefix _ _
  · obtain hnil | ⟨s, hone⟩ | ⟨s, u, t, htwo, -⟩ := (fits_of_mem_blocks h hb).succs_cases
    all_goals simp [*]
  · intro hlen
    obtain hnil | ⟨s, hone⟩ | ⟨s, u, t, -, hlast⟩ := (fits_of_mem_blocks h hb).succs_cases
    · simp [hnil] at hlen
    · simp [hone] at hlen
    · exact ⟨t, hlast⟩
  · rw [preds_of_mem_blocks h hb, List.mem_flatMap] at hk
    obtain ⟨a, ha, hmem⟩ := hk
    rw [(List.mem_replicate.mp hmem).2]
    exact List.mem_map_of_mem ha
  · rw [preds_of_mem_blocks h hb]
    exact pairwise_flatMap_replicate hsorted _
  · rw [preds_of_mem_blocks h hb]
    exact count_flatMap_replicate (hsorted.imp Nat.ne_of_lt) ha _

namespace Code

/-- Finding where blocks start fails iff an instruction goes outside the body, and the first such
instruction is reported. Otherwise the blocks are found, and they partition the body. -/
theorem blocks_partition (code : Code) :
    ((∃ e, code.leaders = .error e) ↔ ∃ source target, code.Strays source target) ∧
    (∀ e, code.leaders = .error e → code.blocks = .error e ∧ ∃ source target,
      code.Strays source target ∧ (∀ earlier < source, ∀ t, ¬ code.Strays earlier t) ∧
        e = .invalidTarget source target code.size) ∧
    ((∀ source target, ¬ code.Strays source target) → ∃ bs, code.blocks = .ok bs ∧
      code.leaders = .ok (bs.map (·.start)) ∧ Block.Partition code bs) := by
  refine ⟨?_, fun e he => ⟨by rw [blocks, he], first_of_badTarget? (leaders_eq_error_iff.mp he)⟩,
    fun hstrays => ?_⟩
  · rw [← not_iff_not]
    push Not
    rw [← badTarget?_eq_none_iff, Option.eq_none_iff_forall_ne_some]
    exact forall_congr' fun e => not_congr leaders_eq_error_iff
  · have hleaders : code.leaders = .ok ((List.range code.size).filter code.isLeader) := by
      rw [leaders, badTarget?_eq_none_iff.mpr hstrays]
    obtain ⟨bs, hbs⟩ : ∃ bs, code.blocks = .ok bs := by
      rw [blocks, hleaders]
      exact ⟨_, rfl⟩
    exact ⟨bs, hbs, hleaders.trans (congrArg _ (map_start_blocks hbs).symm),
      Block.partition_of_blocks hbs⟩

/-- A branch to the instruction after it, and a branch with none after it. -/
def twins : Code := #[.arg 0, .branch 2, .arg 0, .branch 0]

/-- The second block follows the first one twice. -/
theorem blocks_partition_twins : (∀ source target, ¬ twins.Strays source target) ∧
    ∃ bs, twins.blocks = .ok bs ∧ bs.map (·.succs) = [[2, 2], [0]] ∧
      bs.map (·.preds) = [[2], [0, 0]] ∧ Block.Partition twins bs := by
  have hstrays : ∀ source target, ¬ twins.Strays source target :=
    badTarget?_eq_none_iff.mp (by decide +kernel)
  obtain ⟨bs, hbs, -, hpartition⟩ := (blocks_partition twins).2.2 hstrays
  have hlinks : twins.blocks.toOption.any (fun bs =>
      bs.map (·.succs) = [[2, 2], [0]] ∧ bs.map (·.preds) = [[2], [0, 0]]) = true := by
    decide +kernel
  rw [hbs] at hlinks
  obtain ⟨hsuccs, hpreds⟩ := of_decide_eq_true hlinks
  exact ⟨hstrays, bs, hbs, hsuccs, hpreds, hpartition⟩

end Code

end StackJit
