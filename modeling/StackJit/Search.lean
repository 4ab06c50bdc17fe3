/-!
# Searching a numbered graph

Vertices are the numbers below a given size. A search keeps a stack of vertices to visit and marks
each vertex when it is pushed, so every vertex is visited at most once. Vertices come in the order
in which they are popped: the last vertex offered is visited first. Numbers outside the range are
never visited.

Main statements: `Search.order` lists a vertex iff it is reachable from the root (`mem_order`),
lists none twice (`nodup_order`), and starts with the root (`head?_order`).
-/

namespace StackJit

structure Search where
  marks : Array Bool
  /-- Marked vertices that are still to be visited, the next one first. -/
  work : List Nat

namespace Search

/-- Pushes a vertex that is not marked yet. -/
def offer (s : Search) (v : Nat) : Search :=
  if s.marks[v]? = some false then ⟨s.marks.setIfInBounds v true, v :: s.work⟩ else s

/-- Visits at most `fuel` vertices. -/
def visit (next : Nat → List Nat) : Nat → Search → List Nat
  | 0, _ => []
  | fuel + 1, s =>
    match s.work with
    | [] => []
    | v :: rest => v :: visit next fuel ((next v).foldl offer ⟨s.marks, rest⟩)

/-- A search of the vertices below `size` that is about to visit `root`. -/
def start (size root : Nat) : Search := offer ⟨Array.replicate size false, []⟩ root

/-- The vertices below `size` that can be reached from `root` along `next`. Each is pushed once,
so `size` visits are enough. -/
def order (size : Nat) (next : Nat → List Nat) (root : Nat) : List Nat :=
  visit next size (start size root)

/-- Reachability from `root` along `next`, through vertices below `size` only. -/
inductive Reach (size : Nat) (next : Nat → List Nat) (root : Nat) : Nat → Prop
  | root : root < size → Reach size next root root
  | step {v w : Nat} : Reach size next root v → w ∈ next v → w < size → Reach size next root w

/-! ## Offering vertices -/

/-- How many vertices are not marked yet. -/
def unmarked (s : Search) : Nat := s.marks.count false

/-- Every vertex on the stack is marked, and none is there twice. -/
structure Sound (s : Search) : Prop where
  nodup : s.work.Nodup
  marked : ∀ v ∈ s.work, s.marks[v]? = some true

theorem offer_of_unmarked {s : Search} {v : Nat} (h : s.marks[v]? = some false) :
    s.offer v = ⟨s.marks.setIfInBounds v true, v :: s.work⟩ := if_pos h

theorem offer_of_marked {s : Search} {v : Nat} (h : s.marks[v]? ≠ some false) : s.offer v = s :=
  if_neg h

theorem size_offer (s : Search) (v : Nat) : (s.offer v).marks.size = s.marks.size := by
  unfold offer
  split <;> simp

/-- Pushing a vertex takes it from the unmarked ones. -/
theorem length_add_unmarked_offer (s : Search) (v : Nat) :
    (s.offer v).work.length + (s.offer v).unmarked = s.work.length + s.unmarked := by
  by_cases h : s.marks[v]? = some false
  · obtain ⟨hv, he⟩ := Array.getElem?_eq_some_iff.mp h
    have hc : 0 < s.marks.count false := Array.count_pos_iff.mpr (he ▸ Array.getElem_mem hv)
    rw [offer_of_unmarked h]
    simp only [unmarked, Array.setIfInBounds_def, dif_pos hv, Array.count_set, he, List.length_cons]
    simp
    omega
  · rw [offer_of_marked h]

theorem mem_work_offer {s : Search} {v w : Nat} :
    w ∈ (s.offer v).work ↔ w ∈ s.work ∨ (w = v ∧ s.marks[w]? = some false) := by
  by_cases h : s.marks[v]? = some false
  · rw [offer_of_unmarked h, List.mem_cons, or_comm]
    exact or_congr_right ⟨fun e => ⟨e, e ▸ h⟩, And.left⟩
  · rw [offer_of_marked h]
    exact ⟨Or.inl, fun hw => hw.elim id fun ⟨e, hf⟩ => absurd (e ▸ hf) h⟩

theorem marks_offer {s : Search} {v w : Nat} :
    (s.offer v).marks[w]? =
      if w = v ∧ s.marks[w]? = some false then some true else s.marks[w]? := by
  unfold offer
  split
  · next h =>
    obtain ⟨hv, -⟩ := Array.getElem?_eq_some_iff.mp h
    by_cases hw : w = v
    · subst hw; simp [hv]
    · simp [hw, Ne.symm hw]
  · next h => grind

theorem Sound.offer {s : Search} (h : s.Sound) (v : Nat) : (s.offer v).Sound := by
  constructor
  · unfold Search.offer
    split
    · next hv =>
      refine List.nodup_cons.mpr ⟨fun hm => ?_, h.nodup⟩
      simp [h.marked v hm] at hv
    · exact h.nodup
  · intro w hw
    rw [marks_offer]
    rcases mem_work_offer.mp hw with hw | hw
    · simp [h.marked w hw]
    · rw [if_pos hw]

theorem foldl_offer (vs : List Nat) {s : Search} (h : s.Sound) :
    let t := vs.foldl offer s
    t.Sound ∧ t.marks.size = s.marks.size ∧
      t.work.length + t.unmarked = s.work.length + s.unmarked ∧
      (∀ w, w ∈ t.work ↔ w ∈ s.work ∨ (w ∈ vs ∧ s.marks[w]? = some false)) ∧
      ∀ w, t.marks[w]? = if w ∈ vs ∧ s.marks[w]? = some false then some true else s.marks[w]? := by
  induction vs generalizing s with
  | nil => simp [h]
  | cons v vs ih =>
    obtain ⟨hs, hsize, hlen, hwork, hmarks⟩ := ih (h.offer v)
    refine ⟨hs, hsize.trans (size_offer s v), hlen.trans (length_add_unmarked_offer s v),
      fun w => ?_, fun w => ?_⟩
    · simp only [List.foldl_cons, hwork, mem_work_offer, marks_offer, List.mem_cons]
      grind
    · simp only [List.foldl_cons, hmarks, marks_offer, List.mem_cons]
      grind

/-! ## Visiting -/

/-- What a visit lists: vertices that were on the stack or not marked, each once; all that were on
the stack; and with a vertex everything next to it that was not marked. -/
theorem visit_closed (next : Nat → List Nat) (fuel : Nat) {s : Search} (h : s.Sound)
    (hfuel : s.work.length + s.unmarked ≤ fuel) :
    let l := visit next fuel s
    (∀ v ∈ l, v ∈ s.work ∨ s.marks[v]? = some false) ∧ l.Nodup ∧ (∀ v ∈ s.work, v ∈ l) ∧
      ∀ v ∈ l, ∀ w ∈ next v, w < s.marks.size → w ∈ l ∨ s.marks[w]? = some true := by
  induction fuel generalizing s with
  | zero =>
    have : s.work = [] := List.length_eq_zero_iff.mp (by omega)
    simp [visit, this]
  | succ fuel ih =>
    unfold visit
    split
    · next hw => simp [hw]
    · next v rest hw =>
      have hrest : Sound ⟨s.marks, rest⟩ :=
        ⟨(List.nodup_cons.mp (hw ▸ h.nodup)).2, fun u hu => h.marked u (by simp [hw, hu])⟩
      have hv : s.marks[v]? = some true := h.marked v (by simp [hw])
      have hvr : v ∉ rest := (List.nodup_cons.mp (hw ▸ h.nodup)).1
      obtain ⟨ht, hsize, hlen, hwork, hmarks⟩ := foldl_offer (next v) hrest
      simp only at hsize hlen hwork hmarks
      obtain ⟨hfrom, hnodup, hall, hnext⟩ := ih ht (by
        rw [hlen]
        simp only [hw, List.length_cons, unmarked] at hfuel ⊢
        omega)
      simp only [hwork, hmarks, hsize] at hfrom hall hnext
      refine ⟨?_, List.nodup_cons.mpr ⟨?_, hnodup⟩, ?_, ?_⟩
      · intro u hu
        simp only [hw, List.mem_cons] at hu ⊢
        grind
      · intro hm
        grind
      · intro u hu
        simp only [hw, List.mem_cons] at hu ⊢
        grind
      · intro u hu w hwn hlt
        have hb : s.marks[w]? = some true ∨ s.marks[w]? = some false := by
          rw [Array.getElem?_eq_getElem hlt]
          cases s.marks[w] <;> simp
        simp only [List.mem_cons] at hu ⊢
        grind

/-- A property of the stack that passes on to neighbours holds of all vertices visited. -/
theorem visit_induct {p : Nat → Prop} (next : Nat → List Nat) (size fuel : Nat) {s : Search}
    (hsize : s.marks.size = size) (h : s.Sound) (hwork : ∀ v ∈ s.work, p v)
    (hnext : ∀ v w, p v → w ∈ next v → w < size → p w) : ∀ v ∈ visit next fuel s, p v := by
  induction fuel generalizing s with
  | zero => simp [visit]
  | succ fuel ih =>
    unfold visit
    split
    · simp
    · next v rest hw =>
      have hrest : Sound ⟨s.marks, rest⟩ :=
        ⟨(List.nodup_cons.mp (hw ▸ h.nodup)).2, fun u hu => h.marked u (by simp [hw, hu])⟩
      obtain ⟨ht, hts, -, htw, -⟩ := foldl_offer (next v) hrest
      have hv : p v := hwork v (by simp [hw])
      intro u hu
      rcases List.mem_cons.mp hu with rfl | hu
      · exact hv
      · refine ih (hts.trans hsize) ht (fun w hwm => ?_) u hu
        rcases (htw w).mp hwm with hwm | ⟨hwn, hwf⟩
        · exact hwork w (by simp [hw, hwm])
        · obtain ⟨hlt, -⟩ := Array.getElem?_eq_some_iff.mp hwf
          exact hnext v w hv hwn (hsize ▸ hlt)

/-! ## The order -/

section Order

variable (size : Nat) (next : Nat → List Nat) (root : Nat)

theorem size_start : (start size root).marks.size = size := by simp [start, size_offer]

theorem sound_start : (start size root).Sound := by
  refine Sound.offer ⟨?_, ?_⟩ root <;> simp

theorem mem_work_start {v : Nat} : v ∈ (start size root).work ↔ v = root ∧ v < size := by
  simp [start, mem_work_offer, Array.getElem?_replicate]

theorem marks_start (v : Nat) :
    (start size root).marks[v]? = if v < size then some (v == root) else none := by
  rw [start, marks_offer, Array.getElem?_replicate]
  by_cases hv : v < size <;> by_cases hr : v = root <;> grind

theorem length_add_unmarked_start :
    (start size root).work.length + (start size root).unmarked = size := by
  rw [start, length_add_unmarked_offer]
  simp [unmarked]

/-- The order lists vertices of the range, each once, the root among them, and with a vertex all
that are next to it. -/
theorem order_closed :
    let l := order size next root
    (∀ v ∈ l, v < size) ∧ l.Nodup ∧ (root < size → root ∈ l) ∧
      ∀ v ∈ l, ∀ w ∈ next v, w < size → w ∈ l := by
  obtain ⟨hfrom, hnodup, hall, hnext⟩ := visit_closed next size (sound_start size root)
    (Nat.le_of_eq (length_add_unmarked_start size root))
  simp only [mem_work_start, marks_start, size_start] at hfrom hall hnext
  refine ⟨fun v hv => ?_, hnodup, fun hr => hall root ⟨rfl, hr⟩, fun v hv w hw hlt => ?_⟩
  · rcases hfrom v hv with h | h
    · exact h.2
    · by_cases hlt : v < size
      · exact hlt
      · simp [hlt] at h
  · rcases hnext v hv w hw hlt with h | h
    · exact h
    · exact hall w ⟨by simpa [hlt] using h, hlt⟩

theorem nodup_order : (order size next root).Nodup := (order_closed size next root).2.1

theorem mem_order {v : Nat} : v ∈ order size next root ↔ Reach size next root v := by
  obtain ⟨-, -, hroot, hnext⟩ := order_closed size next root
  constructor
  · refine visit_induct next size size (size_start size root) (sound_start size root)
      (fun u hu => ?_) (fun u w hu hw hlt => hu.step hw hlt) v
    obtain ⟨rfl, hlt⟩ := (mem_work_start size root).mp hu
    exact .root hlt
  · intro h
    induction h with
    | root h => exact hroot h
    | step _ hw hlt ih => exact hnext _ ih _ hw hlt

theorem head?_order (h : root < size) : (order size next root).head? = some root := by
  obtain ⟨n, rfl⟩ : ∃ n, size = n + 1 := ⟨size - 1, by omega⟩
  have hroot : (start (n + 1) root).work = [root] := by
    rw [start, offer_of_unmarked (by simp [h])]
  simp [order, visit, hroot]

end Order

end Search

end StackJit
