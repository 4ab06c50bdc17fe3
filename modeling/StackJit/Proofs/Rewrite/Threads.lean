import StackJit.Proofs.Available
import StackJit.Proofs.Rewrite.Edits

/-!
# Control through rewritten graphs

`Graph.Threads g c` says that control runs through `c` as it runs through `g`: nodes are left in the
same roles and entered equally often, what was put in only passes control on, and control that
leaves a node of both graphs comes to the same nodes of both graphs (`Threads.follows`).

Each edit keeps that: removing a node that control does not pass (`Threads.erase`), leading control
past a node that it enters by one edge (`Threads.bypass`), and putting a node onto a control edge
(`Threads.mount`).
-/

namespace StackJit

namespace Op

/-- The nodes that control neither enters nor leaves. -/
def isIdle : Op → Bool
  | phi | input | constant | self | arg | not => true
  | _ => false

theorem not_isLeft_of_isIdle {op : Op} (h : op.isIdle = true) : op.isLeft = false := by
  cases op <;> first | rfl | cases h

theorem not_isKept_of_isIdle {op : Op} (h : op.isIdle = true) : op.isKept = false := by
  cases op <;> first | rfl | cases h

end Op

namespace Graph

/-! ## Paths of control -/

section Arrives

variable {g c c' : Graph} {P Q : NodeId → Prop} {x y : NodeId} {ρ ρ' : Role} {i : EdgeId}

/-- Only nodes that control leaves are passed. -/
theorem Arrives.imp (h : g.Arrives P x ρ i)
    (hPQ : ∀ {n : NodeId} {p : EdgeId × Edge}, p ∈ g.exits n → P n → Q n) : g.Arrives Q x ρ i := by
  induction h with
  | exit he hrole => exact .exit he hrole
  | pass _ hi hP he ih => exact ih.pass hi (hPQ he hP) he

/-- Control takes the same way in a graph with more exits. -/
theorem Arrives.transfer (hc : c.Consistent) (hc' : c'.Consistent) (h : c.Arrives P x ρ i)
    (hexits : ∀ {n : NodeId} {p : EdgeId × Edge}, p ∈ c.exits n → p ∈ c'.exits n) :
    c'.Arrives P x ρ i := by
  induction h with
  | exit he hrole => exact .exit (hexits he) hrole
  | pass h hi hP he ih =>
    obtain ⟨y, hy⟩ := h.mem_exits hc hi
    exact ih.pass (hc'.mem_exits.mp (hexits hy)).1 hP (hexits he)

/-- An edge that control comes to by passing nodes with one entry tells where it came from. -/
theorem Arrives.origin_unique (hg : g.Consistent) (h : g.Arrives P x ρ i) (h' : g.Arrives P y ρ' i)
    (hx : ¬ P x) (hy : ¬ P y)
    (hone : ∀ {n : NodeId}, n < g.nodes.size → P n → ∃ p, g.enters n = [p]) :
    x = y ∧ ρ = ρ' := by
  induction h generalizing ρ' with
  | @exit i e he hrole =>
    obtain ⟨hi, hsource, -⟩ := hg.mem_exits.mp he
    cases h' with
    | @exit _ e' he' hrole' =>
      obtain ⟨hi', hsource', -⟩ := hg.mem_exits.mp he'
      obtain rfl : e = e' := Option.some.inj (hi.symm.trans hi')
      exact ⟨hsource.symm.trans hsource', hrole.symm.trans hrole'⟩
    | @pass i₀ _ e₀ e' _ hi₀ hP he' =>
      obtain ⟨hi', hsource', -⟩ := hg.mem_exits.mp he'
      obtain rfl : e = e' := Option.some.inj (hi.symm.trans hi')
      exact absurd (hsource'.symm.trans hsource ▸ hP) hx
  | @pass i₁ i e₁ e h₁ hi₁ hP he ih =>
    obtain ⟨hi, hsource, -⟩ := hg.mem_exits.mp he
    cases h' with
    | @exit _ e' he' hrole' =>
      obtain ⟨hi', hsource', -⟩ := hg.mem_exits.mp he'
      obtain rfl : e = e' := Option.some.inj (hi.symm.trans hi')
      exact absurd (hsource.symm.trans hsource' ▸ hP) hy
    | @pass i₂ _ e₂ e' h₂ hi₂ hP₂ he' =>
      obtain ⟨hi', hsource', -⟩ := hg.mem_exits.mp he'
      obtain rfl : e = e' := Option.some.inj (hi.symm.trans hi')
      -- both ways enter the node before by its only edge
      obtain ⟨p, hp⟩ := hone (hg.ends hi₁).2 hP
      have hmem₁ := hg.mem_enters.mpr ⟨hi₁, rfl, h₁.isControl hg hi₁⟩
      have hmem₂ := hg.mem_enters.mpr ⟨hi₂, hsource'.symm.trans hsource, h₂.isControl hg hi₂⟩
      rw [hp, List.mem_singleton] at hmem₁ hmem₂
      obtain rfl : i₁ = i₂ := congrArg Prod.fst (hmem₁.trans hmem₂.symm)
      exact ih h₂

end Arrives

/-! ## Control of one graph through another -/

/-- Control runs through `c` as through `g`. -/
structure Threads (g c : Graph) : Prop where
  control : ∀ {i : EdgeId} {e : Edge}, c.edge? i = some e → e.isControl = true → e.input = .control
  exits : ∀ {x : NodeId}, x < g.nodes.size → ¬ c.Gone x →
    ((c.exits x).map (·.2.output)).Perm ((g.exits x).map (·.2.output))
  enters : ∀ {y : NodeId}, y < g.nodes.size → ¬ c.Gone y → g.op? y ≠ some .phi →
    (c.enters y).length = (g.enters y).length
  inserted : ∀ {n : NodeId}, g.New n → n < c.nodes.size → ¬ c.Gone n ∧
    (c.op? n = some .safepoint ∨ c.op? n = some .guard) ∧ (∃ p, c.exits n = [p]) ∧
      ∃ p, c.enters n = [p]
  kept : ∀ {n : NodeId} {op : Op}, g.op? n = some op → op.isKept = true → ¬ c.Gone n
  merges : ∀ {n : NodeId}, g.op? n = some .region → c.Gone n → (g.enters n).length ≤ 1
  follows : ∀ {x : NodeId} {ρ : Role} {j : EdgeId} {e : Edge}, x < g.nodes.size → ¬ c.Gone x →
    g.Arrives c.Gone x ρ j → g.edge? j = some e → ¬ c.Gone e.target →
      ∃ i e', c.Arrives g.New x ρ i ∧ c.edge? i = some e' ∧ e'.target = e.target

/-- `c'` has the nodes of `c`, and the node `n` has been removed. -/
structure Removes (c c' : Graph) (n : NodeId) : Prop where
  size : c'.nodes.size = c.nodes.size
  label : ∀ m, c'.label? m = c.label? m
  removed : ∀ {m : NodeId}, c'.Gone m ↔ c.Gone m ∨ m = n

theorem removes_eraseNode {c : Graph} {n : NodeId} (hn : n < c.nodes.size) :
    Removes c (c.eraseNode n) n where
  size := numNodes_eraseNode c n
  label m := label?_eraseNode c n m
  removed {m} := by
    rw [Gone, isRemoved_eraseNode, Bool.or_eq_true, Bool.and_eq_true, beq_iff_eq, decide_eq_true_eq]
    constructor
    · exact fun h => h.imp_right And.left
    · rintro (h | rfl)
      · exact .inl h
      · exact .inr ⟨rfl, hn⟩

theorem removes_forward {c : Graph} {old : NodeId} (hold : old < c.nodes.size) (new : NodeId) :
    Removes c (c.forward old new) old := by
  have h := removes_eraseNode (c := c.moveUses old new) (n := old) (by simpa using hold)
  refine ⟨h.size.trans (numNodes_moveUses c old new),
    fun m => (h.label m).trans (label?_moveUses c old new m), fun {m} => h.removed.trans ?_⟩
  rw [Gone, isRemoved_moveUses]

theorem removes_bypass {c : Graph} {n : NodeId} (hn : n < c.nodes.size) :
    Removes c ((c.bypass n).eraseNode n) n := by
  obtain ⟨hsize, hlabel, hremoved⟩ : (c.bypass n).nodes.size = c.nodes.size ∧
      (∀ m, (c.bypass n).label? m = c.label? m) ∧
      ∀ m, (c.bypass n).isRemoved m = c.isRemoved m := by
    refine bypass_induct (P := fun d => d.nodes.size = c.nodes.size ∧
      (∀ m, d.label? m = c.label? m) ∧ ∀ m, d.isRemoved m = c.isRemoved m)
      ⟨rfl, fun _ => rfl, fun _ => rfl⟩ ?_
    rintro d e ⟨hsize, hlabel, hremoved⟩
    exact ⟨(numNodes_addEdge d e).trans hsize, fun m => (label?_addEdge d e m).trans (hlabel m),
      fun m => (isRemoved_addEdge d e m).trans (hremoved m)⟩
  have h := removes_eraseNode (c := c.bypass n) (n := n) (hsize ▸ hn)
  refine ⟨h.size.trans hsize, fun m => (h.label m).trans (hlabel m), fun {m} => h.removed.trans ?_⟩
  rw [Gone, hremoved]

namespace Removes

variable {c c' : Graph} {n : NodeId}

theorem op (h : Removes c c' n) (m : NodeId) : c'.op? m = c.op? m := op?_congr (h.label m)

theorem live (h : Removes c c' n) {m : NodeId} : ¬ c'.Gone m ↔ ¬ c.Gone m ∧ m ≠ n := by
  rw [h.removed, not_or]

end Removes

theorem Descends.not_gone {g c : Graph} (h : g.Descends c) {i : EdgeId} {e : Edge}
    (he : c.edge? i = some e) : ¬ c.Gone e.source ∧ ¬ c.Gone e.target := by
  obtain ⟨hs, ht⟩ := h.ends he
  simp [hs, ht]

/-- A removed node has no edges. -/
theorem Descends.exits_of_gone {g c : Graph} (h : g.Descends c) {n : NodeId} (hn : c.Gone n) :
    c.exits n = [] := by
  refine List.eq_nil_iff_forall_not_mem.mpr fun p hp => ?_
  obtain ⟨he, hsource, -⟩ := h.consistent.mem_exits.mp hp
  exact (h.not_gone he).1 (hsource ▸ hn)

theorem Descends.enters_of_gone {g c : Graph} (h : g.Descends c) {n : NodeId} (hn : c.Gone n) :
    c.enters n = [] := by
  refine List.eq_nil_iff_forall_not_mem.mpr fun p hp => ?_
  obtain ⟨he, htarget, -⟩ := h.consistent.mem_enters.mp hp
  exact (h.not_gone he).2 (htarget ▸ hn)

end Graph

namespace Translation

variable {code : Code} {g : Graph}

theorem enters_of_idle (t : Translation code g) {n : NodeId} {op : Op} (hop : g.op? n = some op)
    (hidle : op.isIdle = true) (hphi : op ≠ .phi) : g.enters n = [] := by
  refine List.eq_nil_iff_forall_not_mem.mpr fun p hp => ?_
  obtain ⟨he, htarget, hctl⟩ := t.consistent.mem_enters.mp hp
  have htyped := t.typed he
  have hin := htyped.control_input hctl
  obtain ⟨s, u, hs, hu, hallow⟩ := htyped
  obtain rfl : u = op := Option.some.inj (hu.symm.trans (htarget ▸ hop))
  rw [hin] at hallow
  cases hout : p.2.output <;> rw [hout] at hallow <;>
    cases u <;> simp_all [Op.allows, Op.isEntered, Op.isIdle]

end Translation

namespace Graph.Threads

variable {code : Code} {g c c' : Graph} {n : NodeId} {op : Op}

/-- Control passes no idle node of a rewritten graph. -/
theorem exits_of_idle (h : g.Threads c) (hd : g.Descends c) (t : Translation code g)
    (hop : g.op? n = some op) (hidle : op.isIdle = true) : c.exits n = [] := by
  by_cases hgone : c.Gone n
  · exact hd.exits_of_gone hgone
  · have hperm := h.exits (op?_lt hop) hgone
    rw [t.exits_of_not_left hop (Op.not_isLeft_of_isIdle hidle)] at hperm
    exact List.map_eq_nil_iff.mp (List.perm_nil.mp hperm)

theorem enters_of_idle (h : g.Threads c) (hd : g.Descends c) (t : Translation code g)
    (hop : g.op? n = some op) (hidle : op.isIdle = true) (hphi : op ≠ .phi) : c.enters n = [] := by
  by_cases hgone : c.Gone n
  · exact hd.enters_of_gone hgone
  · have hlen := h.enters (op?_lt hop) hgone (by simpa [hop] using hphi)
    rw [t.enters_of_idle hop hidle hphi] at hlen
    exact List.length_eq_zero_iff.mp hlen

/-! ## Removing a node that control does not pass -/

section Erase

variable (h : g.Threads c) (hd : g.Descends c) (hd' : g.Descends c') (t : Translation code g)
  (hop : g.op? n = some op) (hidle : op.isIdle = true) (hr : Removes c c' n)
  (hctl : c'.controlEdges = c.controlEdges.filter fun p => avoids n p.2)

include h hd hd' t hop hidle hr hctl

theorem exits_erase (x : NodeId) : c'.exits x = c.exits x := by
  rw [hd'.consistent.exits_eq_controlEdges, hctl, List.filter_filter,
    hd.consistent.exits_eq_controlEdges]
  refine List.filter_congr fun p hp => ?_
  have hphi : c'.hasOp p.2.target .phi = c.hasOp p.2.target .phi := by
    rw [hasOp, hasOp, hr.op]
  rw [hphi]
  cases hexit : p.2.source == x && !c.hasOp p.2.target .phi with
  | false => rfl
  | true =>
    rw [Bool.and_eq_true, beq_iff_eq, Bool.not_eq_true', hasOp, beq_eq_false_iff_ne] at hexit
    obtain ⟨hi, hcontrol⟩ := mem_controlEdges.mp hp
    rw [Bool.true_and, avoids_iff]
    constructor
    · intro hsource
      have hmem := hd.consistent.mem_exits.mpr ⟨hi, hsource, hcontrol, hexit.2⟩
      rw [h.exits_of_idle hd t hop hidle] at hmem
      cases hmem
    · intro htarget
      have hne : op ≠ .phi := by
        rintro rfl
        exact hexit.2 (htarget ▸ hd.op_some hop)
      have hmem := hd.consistent.mem_enters.mpr ⟨hi, htarget, hcontrol⟩
      rw [h.enters_of_idle hd t hop hidle hne] at hmem
      cases hmem

omit hr in
theorem enters_erase {y : NodeId} (hy : c.op? y ≠ some .phi) : c'.enters y = c.enters y := by
  rw [hd'.consistent.enters_eq_controlEdges, hctl, List.filter_filter,
    hd.consistent.enters_eq_controlEdges]
  refine List.filter_congr fun p hp => ?_
  cases htarget : p.2.target == y with
  | false => rfl
  | true =>
    obtain rfl := beq_iff_eq.mp htarget
    obtain ⟨hi, hcontrol⟩ := mem_controlEdges.mp hp
    rw [Bool.true_and, avoids_iff]
    constructor
    · intro hsource
      have hmem := hd.consistent.mem_exits.mpr ⟨hi, hsource, hcontrol, hy⟩
      rw [h.exits_of_idle hd t hop hidle] at hmem
      cases hmem
    · intro heq
      have hne : op ≠ .phi := by
        rintro rfl
        exact hy (heq ▸ hd.op_some hop)
      have hmem := hd.consistent.mem_enters.mpr ⟨hi, heq, hcontrol⟩
      rw [h.enters_of_idle hd t hop hidle hne] at hmem
      cases hmem

/-- Control runs as before past a node that it did not pass. -/
theorem erase : g.Threads c' where
  control he hcontrol := by
    have hmem := mem_controlEdges.mpr ⟨he, hcontrol⟩
    rw [hctl] at hmem
    exact h.control (mem_controlEdges.mp (List.mem_filter.mp hmem).1).1 hcontrol
  exits hx hlive := by
    rw [exits_erase h hd hd' t hop hidle hr hctl]
    exact h.exits hx (hr.live.mp hlive).1
  enters hy hlive hphi := by
    rw [enters_erase h hd hd' t hop hidle hctl (hd.op hy ▸ hphi)]
    exact h.enters hy (hr.live.mp hlive).1 hphi
  inserted {m} hnew hm := by
    obtain ⟨hlive, hcase, hexits, henters⟩ := h.inserted hnew (hr.size ▸ hm)
    have hne : m ≠ n := fun heq => absurd (op?_lt hop) (Nat.not_lt.mpr (heq ▸ hnew))
    have hphi : c.op? m ≠ some .phi := by
      rcases hcase with hcase | hcase <;> simp [hcase]
    rw [hr.live, hr.op, exits_erase h hd hd' t hop hidle hr hctl,
      enters_erase h hd hd' t hop hidle hctl hphi]
    exact ⟨⟨hlive, hne⟩, hcase, hexits, henters⟩
  kept {m op'} hop' hkept := by
    refine hr.live.mpr ⟨h.kept hop' hkept, ?_⟩
    rintro rfl
    obtain rfl : op = op' := Option.some.inj (hop.symm.trans hop')
    rw [Op.not_isKept_of_isIdle hidle] at hkept
    cases hkept
  merges {m} hregion hgone := by
    rcases hr.removed.mp hgone with hgone | rfl
    · exact h.merges hregion hgone
    · rw [hop] at hregion
      cases hregion
      cases hidle
  follows {x ρ j e} hx hlive harrives he htarget := by
    -- no path goes through the removed node
    have harrives' : g.Arrives c.Gone x ρ j := harrives.imp fun {m p} hp hgone => by
      rcases hr.removed.mp hgone with hgone | rfl
      · exact hgone
      · rw [t.exits_of_not_left hop (Op.not_isLeft_of_isIdle hidle)] at hp
        cases hp
    obtain ⟨i, e', hi, he', htarget'⟩ :=
      h.follows hx (hr.live.mp hlive).1 harrives' he (hr.live.mp htarget).1
    have hsame : ∀ {y : NodeId} {p : EdgeId × Edge}, p ∈ c.exits y → p ∈ c'.exits y := by
      intro y p hp
      rw [exits_erase h hd hd' t hop hidle hr hctl]
      exact hp
    obtain ⟨y, hy⟩ := hi.mem_exits hd.consistent he'
    exact ⟨i, e', hi.transfer hd.consistent hd'.consistent hsame,
      (hd'.consistent.mem_exits.mp (hsame hy)).1, htarget'⟩

end Erase

/-! ## Leading control past a node -/

section Bypass

variable {i₀ j₀ k : EdgeId} {e₀ e₁ : Edge} {new : List (EdgeId × Edge)}
  (hd : g.Descends c) (hd' : g.Descends c') (hr : Removes c c' n)
  (henter : c.enters n = [(i₀, e₀)]) (hexit : c.exits n = [(j₀, e₁)]) (hphi : c.op? n ≠ some .phi)
  (hself : e₀.source = n → new = [])
  (hnew : e₀.source ≠ n → new = [(k, ⟨e₀.source, e₁.target, e₀.output, .control⟩)])
  (hctl : c'.controlEdges = (c.controlEdges.filter fun p => avoids n p.2) ++ new)

include hd hexit in
theorem exit_bypass : c.edge? j₀ = some e₁ ∧ e₁.source = n ∧ e₁.isControl = true ∧
    c.op? e₁.target ≠ some .phi :=
  hd.consistent.mem_exits.mp (hexit ▸ List.mem_singleton_self _)

include hd henter in
theorem enter_bypass : c.edge? i₀ = some e₀ ∧ e₀.target = n ∧ e₀.isControl = true :=
  hd.consistent.mem_enters.mp (henter ▸ List.mem_singleton_self _)

include hd henter hexit hphi in
/-- A node that control leaves to itself it does not leave otherwise. -/
theorem target_of_self (hsource : e₀.source = n) : e₁.target = n := by
  obtain ⟨hi₀, htarget, hcontrol⟩ := enter_bypass hd henter
  have hmem := hd.consistent.mem_exits.mpr ⟨hi₀, hsource, hcontrol, htarget ▸ hphi⟩
  rw [hexit, List.mem_singleton] at hmem
  rw [← (Prod.mk.inj hmem).2]
  exact htarget

include hd henter hexit in
theorem source_of_self (htarget : e₁.target = n) : e₀.source = n := by
  obtain ⟨hj₀, hsource, hcontrol, -⟩ := exit_bypass hd hexit
  have hmem := hd.consistent.mem_enters.mpr ⟨hj₀, htarget, hcontrol⟩
  rw [henter, List.mem_singleton] at hmem
  rw [← (Prod.mk.inj hmem).2]
  exact hsource

include hd hd' hr hexit hself hnew hctl in
theorem exits_bypass {x : NodeId} (hx : x ≠ n) :
    c'.exits x = (c.exits x).filter (·.2.target != n) ++ new.filter (·.2.source == x) := by
  have hlabel : ∀ m, c'.hasOp m .phi = c.hasOp m .phi := fun m => by rw [hasOp, hasOp, hr.op]
  rw [hd'.consistent.exits_eq_controlEdges, hctl, List.filter_append,
    hd.consistent.exits_eq_controlEdges, List.filter_filter, List.filter_filter]
  congr 1
  · refine List.filter_congr fun p _ => ?_
    rw [hlabel]
    cases hsource : p.2.source == x with
    | false => simp
    | true =>
      have hne : (p.2.source != n) = true := by simpa [beq_iff_eq.mp hsource] using hx
      rw [avoids, hne, Bool.true_and, Bool.true_and, Bool.and_comm]
  · refine List.filter_congr fun p hp => ?_
    have hne : e₀.source ≠ n := fun heq => by
      rw [hself heq] at hp
      cases hp
    rw [hnew hne, List.mem_singleton] at hp
    have htarget := (exit_bypass hd hexit).2.2.2
    rw [hlabel, hp]
    simp [hasOp, htarget]

include hd hd' hctl in
theorem enters_bypass {y : NodeId} (hy : y ≠ n) :
    c'.enters y = (c.enters y).filter (·.2.source != n) ++ new.filter (·.2.target == y) := by
  rw [hd'.consistent.enters_eq_controlEdges, hctl, List.filter_append,
    hd.consistent.enters_eq_controlEdges, List.filter_filter, List.filter_filter]
  congr 1
  refine List.filter_congr fun p _ => ?_
  cases htarget : p.2.target == y with
  | false => simp
  | true =>
    have hne : (p.2.target != n) = true := by simpa [beq_iff_eq.mp htarget] using hy
    rw [avoids, hne, Bool.and_true, Bool.true_and]

include hd hd' hr henter hexit hphi hself hnew hctl in
/-- The other nodes are left in the same roles. -/
theorem perm_exits_bypass {x : NodeId} (hx : x ≠ n) :
    ((c'.exits x).map (·.2.output)).Perm ((c.exits x).map (·.2.output)) := by
  have hsplit := List.filter_append_perm (fun p : EdgeId × Edge => p.2.target != n) (c.exits x)
  have hto : (c.exits x).filter (fun p => !(p.2.target != n)) =
      [(i₀, e₀)].filter (·.2.source == x) := by
    rw [← henter, ← hd.consistent.exits_to_eq hphi]
    simp [bne]
  rw [hto] at hsplit
  rw [exits_bypass hd hd' hr hexit hself hnew hctl hx]
  refine List.Perm.trans ?_ (hsplit.map _)
  rw [List.map_append, List.map_append]
  apply List.Perm.append_left
  by_cases hsource : e₀.source = x
  · rw [hnew (hsource ▸ hx)]
    simp [hsource]
  · by_cases hloop : e₀.source = n
    · rw [hself hloop]
      simp [hsource]
    · rw [hnew hloop]
      simp [hsource]

include hd hd' henter hexit hphi hself hnew hctl in
/-- The other nodes are entered equally often. -/
theorem length_enters_bypass {y : NodeId} (hy : y ≠ n) (hyphi : c.op? y ≠ some .phi) :
    (c'.enters y).length = (c.enters y).length := by
  have hsplit := (List.filter_append_perm (fun p : EdgeId × Edge => p.2.source != n)
    (c.enters y)).length_eq
  have hfrom : (c.enters y).filter (fun p => !(p.2.source != n)) =
      [(j₀, e₁)].filter (·.2.target == y) := by
    rw [← hexit, hd.consistent.exits_to_eq hyphi]
    simp [bne]
  rw [hfrom, List.length_append] at hsplit
  rw [enters_bypass hd hd' hctl hy, List.length_append, ← hsplit, Nat.add_left_cancel_iff]
  by_cases htarget : e₁.target = y
  · rw [hnew fun hloop => hy (htarget ▸ target_of_self hd henter hexit hphi hloop)]
    simp [htarget]
  · by_cases hloop : e₀.source = n
    · rw [hself hloop]
      simp [htarget]
    · rw [hnew hloop]
      simp [htarget]

include hctl in
theorem edge_bypass {i : EdgeId} {e : Edge} (hi : c.edge? i = some e)
    (hcontrol : e.isControl = true) (hs : e.source ≠ n) (ht : e.target ≠ n) :
    c'.edge? i = some e := by
  have hmem : (i, e) ∈ c'.controlEdges := by
    rw [hctl]
    exact List.mem_append_left _ (List.mem_filter.mpr
      ⟨mem_controlEdges.mpr ⟨hi, hcontrol⟩, avoids_iff.mpr ⟨hs, ht⟩⟩)
  exact (mem_controlEdges.mp hmem).1

include hd hd' hr hctl in
theorem mem_exits_bypass {y : NodeId} {i : EdgeId} {e : Edge} (hmem : (i, e) ∈ c.exits y)
    (hs : y ≠ n) (ht : e.target ≠ n) : (i, e) ∈ c'.exits y := by
  obtain ⟨hi, hsource, hcontrol, hphi⟩ := hd.consistent.mem_exits.mp hmem
  exact hd'.consistent.mem_exits.mpr
    ⟨edge_bypass hctl hi hcontrol (hsource ▸ hs) ht, hsource, hcontrol, (hr.op _).symm ▸ hphi⟩

include hd hd' hr hctl in
/-- Paths that do not come to the node stay. -/
theorem arrives_bypass (hn : n < g.nodes.size) {x : NodeId} {ρ : Role} {i : EdgeId} {e : Edge}
    (h : c.Arrives g.New x ρ i) (hx : x ≠ n) (hi : c.edge? i = some e) (ht : e.target ≠ n) :
    c'.Arrives g.New x ρ i ∧ c'.edge? i = some e := by
  have hold : ∀ {m : NodeId}, g.New m → m ≠ n := fun hm heq =>
    absurd hn (Nat.not_lt.mpr (heq ▸ hm))
  induction h generalizing e with
  | @exit i e' hmem hrole =>
    obtain rfl : e' = e := Option.some.inj ((hd.consistent.mem_exits.mp hmem).1.symm.trans hi)
    have hmem' := mem_exits_bypass hd hd' hr hctl hmem hx ht
    exact ⟨.exit hmem' hrole, (hd'.consistent.mem_exits.mp hmem').1⟩
  | @pass i₁ i e₁ e' _ hi₁ hP hmem ih =>
    obtain rfl : e' = e := Option.some.inj ((hd.consistent.mem_exits.mp hmem).1.symm.trans hi)
    obtain ⟨h₁, hi₁'⟩ := ih hi₁ (hold hP)
    have hmem' := mem_exits_bypass hd hd' hr hctl hmem (hold hP) ht
    exact ⟨h₁.pass hi₁' hP hmem', (hd'.consistent.mem_exits.mp hmem').1⟩

include hd hd' hr hexit hnew hctl in
theorem mem_exits_new (hsource : e₀.source ≠ n) :
    (k, ⟨e₀.source, e₁.target, e₀.output, .control⟩) ∈ c'.exits e₀.source := by
  have hmem : (k, ⟨e₀.source, e₁.target, e₀.output, .control⟩) ∈ c'.controlEdges := by
    rw [hctl, hnew hsource]
    exact List.mem_append_right _ (List.mem_singleton_self _)
  obtain ⟨hi, hcontrol⟩ := mem_controlEdges.mp hmem
  exact hd'.consistent.mem_exits.mpr ⟨hi, rfl, hcontrol,
    (hr.op _).symm ▸ (exit_bypass hd hexit).2.2.2⟩

include hd hd' hr henter hexit hnew hctl in
/-- Paths that come to the node take the new edge. -/
theorem arrives_new (hn : n < g.nodes.size) {x : NodeId} {ρ : Role}
    (h : c.Arrives g.New x ρ i₀) (hx : x ≠ n) :
    c'.Arrives g.New x ρ k ∧
      c'.edge? k = some ⟨e₀.source, e₁.target, e₀.output, .control⟩ := by
  have hold : ∀ {m : NodeId}, g.New m → m ≠ n := fun hm heq =>
    absurd hn (Nat.not_lt.mpr (heq ▸ hm))
  obtain ⟨hi₀, -, -⟩ := enter_bypass hd henter
  have hedge : e₀.source ≠ n →
      c'.edge? k = some ⟨e₀.source, e₁.target, e₀.output, .control⟩ := fun hs =>
    (hd'.consistent.mem_exits.mp (mem_exits_new hd hd' hr hexit hnew hctl hs)).1
  cases h with
  | @exit _ e hmem hrole =>
    obtain ⟨hi, hsource, -⟩ := hd.consistent.mem_exits.mp hmem
    obtain rfl : e₀ = e := Option.some.inj (hi₀.symm.trans hi)
    have hs : e₀.source ≠ n := hsource ▸ hx
    have hmem' := mem_exits_new hd hd' hr hexit hnew hctl hs
    rw [hsource] at hmem'
    exact ⟨.exit hmem' hrole, hedge hs⟩
  | @pass i₁ _ e₁' e h₁ hi₁ hP hmem =>
    obtain ⟨hi, hsource, -⟩ := hd.consistent.mem_exits.mp hmem
    obtain rfl : e₀ = e := Option.some.inj (hi₀.symm.trans hi)
    have hs : e₀.source ≠ n := hsource ▸ hold hP
    have hmem' := mem_exits_new hd hd' hr hexit hnew hctl hs
    rw [hsource] at hmem'
    obtain ⟨h₁', hi₁'⟩ := arrives_bypass hd hd' hr hctl hn h₁ hx hi₁ (hold hP)
    exact ⟨h₁'.pass hi₁' hP hmem', hedge hs⟩

include hd hd' hr henter hexit hnew hctl in
/-- Paths that go on from the node go on from the new edge. -/
theorem arrives_past (hn : n < g.nodes.size) {x : NodeId} {ρ : Role}
    (h₀ : c.Arrives g.New x ρ i₀) (hx : x ≠ n) {i : EdgeId} {e : Edge}
    (h : c.Arrives g.New n .control i) (hi : c.edge? i = some e) (ht : e.target ≠ n) :
    ∃ i' e', c'.Arrives g.New x ρ i' ∧ c'.edge? i' = some e' ∧ e'.target = e.target := by
  have hold : ∀ {m : NodeId}, g.New m → m ≠ n := fun hm heq =>
    absurd hn (Nat.not_lt.mpr (heq ▸ hm))
  obtain ⟨hk, hke⟩ := arrives_new hd hd' hr henter hexit hnew hctl hn h₀ hx
  induction h generalizing e with
  | @exit i e' hmem hrole =>
    obtain rfl : e' = e := Option.some.inj ((hd.consistent.mem_exits.mp hmem).1.symm.trans hi)
    rw [hexit, List.mem_singleton] at hmem
    exact ⟨k, _, hk, hke, (congrArg Edge.target (Prod.mk.inj hmem).2).symm⟩
  | @pass i₁ i e₁ e' _ hi₁ hP hmem ih =>
    obtain rfl : e' = e := Option.some.inj ((hd.consistent.mem_exits.mp hmem).1.symm.trans hi)
    obtain ⟨i₂, e₂, h₂, hi₂, htarget⟩ := ih hi₁ (hold hP)
    have hmem' := mem_exits_bypass hd hd' hr hctl hmem (hold hP) ht
    rw [← htarget] at hP hmem'
    exact ⟨i, e', h₂.pass hi₂ hP hmem', (hd'.consistent.mem_exits.mp hmem').1, rfl⟩

include hd henter in
theorem eq_of_arrives {i : EdgeId} {e : Edge} {x : NodeId} {ρ : Role} (h : c.Arrives g.New x ρ i)
    (hi : c.edge? i = some e) (htarget : e.target = n) : i = i₀ := by
  have hmem := hd.consistent.mem_enters.mpr ⟨hi, htarget, h.isControl hd.consistent hi⟩
  rw [henter, List.mem_singleton] at hmem
  exact (Prod.mk.inj hmem).1

include hd hr henter in
/-- A path past the node comes to it and goes on from it. -/
theorem arrives_cases (h : g.Threads c) (hn : n < g.nodes.size) (hlive : ¬ c.Gone n)
    (hroles : ∀ p ∈ g.exits n, p.2.output = .control) {x : NodeId} {ρ : Role} {j : EdgeId}
    (hx : x < g.nodes.size) (hxlive : ¬ c.Gone x) (hxn : x ≠ n) (hpath : g.Arrives c'.Gone x ρ j) :
    g.Arrives c.Gone x ρ j ∨ c.Arrives g.New x ρ i₀ ∧ g.Arrives c.Gone n .control j := by
  induction hpath with
  | exit hmem hrole => exact .inl (.exit hmem hrole)
  | @pass i j e e' _ hi hgone hmem ih =>
    by_cases heq : e.target = n
    · rcases ih with hpath | ⟨hcome, hpath⟩
      · obtain ⟨i', e'', hi', hie', htarget'⟩ := h.follows hx hxlive hpath hi (heq ▸ hlive)
        rw [eq_of_arrives hd henter hi' hie' (htarget'.trans heq)] at hi'
        exact .inr ⟨hi', .exit (heq ▸ hmem) (hroles _ (heq ▸ hmem))⟩
      · obtain ⟨i', e'', hi', hie', htarget'⟩ := h.follows hn hlive hpath hi (heq ▸ hlive)
        rw [eq_of_arrives hd henter hi' hie' (htarget'.trans heq)] at hi'
        -- control would come to the node from itself and from elsewhere
        have hunique := hcome.origin_unique hd.consistent hi' (Nat.not_le.mpr hx)
          (Nat.not_le.mpr hn) fun hlt hm => (h.inserted hm hlt).2.2.2
        exact absurd hunique.1 hxn
    · have hgone' : c.Gone e.target := (hr.removed.mp hgone).resolve_right heq
      rcases ih with hpath | ⟨hcome, hpath⟩
      · exact .inl (hpath.pass hi hgone' hmem)
      · exact .inr ⟨hcome, hpath.pass hi hgone' hmem⟩

include hd hd' hr henter hexit hphi hself hnew hctl in
/-- Control runs as before past a node that it entered by one edge and left by one edge. -/
theorem bypass (h : g.Threads c) (hop : g.op? n = some op) (hkept : op.isKept = false)
    (hone : (g.enters n).length ≤ 1) (hlive : ¬ c.Gone n)
    (hroles : ∀ p ∈ g.exits n, p.2.output = .control) : g.Threads c' where
  control {i e} he hcontrol := by
    have hmem := mem_controlEdges.mpr ⟨he, hcontrol⟩
    rw [hctl] at hmem
    rcases List.mem_append.mp hmem with hmem | hmem
    · exact h.control (mem_controlEdges.mp (List.mem_filter.mp hmem).1).1 hcontrol
    · by_cases hloop : e₀.source = n
      · rw [hself hloop] at hmem
        cases hmem
      · rw [hnew hloop, List.mem_singleton] at hmem
        rw [(Prod.mk.inj hmem).2]
  exits {x} hx hlive' := by
    obtain ⟨hlive', hne⟩ := hr.live.mp hlive'
    exact (perm_exits_bypass hd hd' hr henter hexit hphi hself hnew hctl hne).trans
      (h.exits hx hlive')
  enters {y} hy hlive' hyphi := by
    obtain ⟨hlive', hne⟩ := hr.live.mp hlive'
    rw [length_enters_bypass hd hd' henter hexit hphi hself hnew hctl hne (hd.op hy ▸ hyphi)]
    exact h.enters hy hlive' hyphi
  inserted {m} hm hlt := by
    obtain ⟨hlive', hcase, ⟨p, hp⟩, ⟨q, hq⟩⟩ := h.inserted hm (hr.size ▸ hlt)
    have hne : m ≠ n := fun heq => absurd (op?_lt hop) (Nat.not_lt.mpr (heq ▸ hm))
    have hmphi : c.op? m ≠ some .phi := by
      rcases hcase with hcase | hcase <;> simp [hcase]
    have hexits := (perm_exits_bypass hd hd' hr henter hexit hphi hself hnew hctl hne).length_eq
    have henters := length_enters_bypass hd hd' henter hexit hphi hself hnew hctl hne hmphi
    rw [hp, List.length_map, List.length_map] at hexits
    rw [hq] at henters
    rw [hr.live, hr.op]
    exact ⟨⟨hlive', hne⟩, hcase, List.length_eq_one_iff.mp hexits,
      List.length_eq_one_iff.mp henters⟩
  kept {m op'} hop' hkept' := by
    refine hr.live.mpr ⟨h.kept hop' hkept', ?_⟩
    rintro rfl
    obtain rfl : op = op' := Option.some.inj (hop.symm.trans hop')
    rw [hkept] at hkept'
    cases hkept'
  merges {m} hregion hgone := by
    rcases hr.removed.mp hgone with hgone | rfl
    · exact h.merges hregion hgone
    · exact hone
  follows {x ρ j e} hx hlive' harrives he htarget := by
    have hn := op?_lt hop
    obtain ⟨hxlive, hxn⟩ := hr.live.mp hlive'
    obtain ⟨htlive, htn⟩ := hr.live.mp htarget
    rcases arrives_cases hd hr henter h hn hlive hroles hx hxlive hxn harrives with
      hpath | ⟨hcome, hpath⟩
    · obtain ⟨i, e', hi, hie, heq⟩ := h.follows hx hxlive hpath he htlive
      obtain ⟨hi', hie'⟩ := arrives_bypass hd hd' hr hctl hn hi hxn hie (heq.symm ▸ htn)
      exact ⟨i, e', hi', hie', heq⟩
    · obtain ⟨i, e', hi, hie, heq⟩ := h.follows hn hlive hpath he htlive
      obtain ⟨i', e'', hi', hie', heq'⟩ :=
        arrives_past hd hd' hr henter hexit hnew hctl hn hcome hxn hi hie (heq.symm ▸ htn)
      exact ⟨i', e'', hi', hie', heq'.trans heq⟩

end Bypass

/-! ## Putting a node onto a control edge -/

section Mount

variable {i₀ : EdgeId} {e₀ : Edge} {props : Props} (hc : c.Consistent) (hc' : c'.Consistent)
  (hd : g.Descends c) (hd' : g.Descends c') (hsize : c'.nodes.size = c.nodes.size + 1)
  (hlabel : ∀ {m : NodeId}, m ≠ c.nodes.size → c'.label? m = c.label? m)
  (hop : c'.op? c.nodes.size = some op) (hkind : op = .safepoint ∨ op = .guard)
  (hremoved : ∀ m, c'.isRemoved m = c.isRemoved m)
  (he₀ : c.edge? i₀ = some e₀) (hcontrol₀ : e₀.isControl = true)
  (hphi : c.op? e₀.target ≠ some .phi)
  (hctl : c'.controlEdges = c.controlEdges.filter (·.1 != i₀) ++
    [(c.edges.size, ⟨e₀.source, c.nodes.size, e₀.output, .control⟩),
      (c.edges.size + 1, ⟨c.nodes.size, e₀.target, .control, e₀.input⟩)])

include hop hkind in
theorem hasOp_mount : c'.hasOp c.nodes.size .phi = false := by
  rw [hasOp, hop]
  rcases hkind with rfl | rfl <;> rfl

include hd hd' hlabel hop hkind he₀ hphi hctl in
theorem exits_mount (x : NodeId) :
    c'.exits x = (c.exits x).filter (·.1 != i₀) ++
      [(c.edges.size, ⟨e₀.source, c.nodes.size, e₀.output, .control⟩),
        (c.edges.size + 1, ⟨c.nodes.size, e₀.target, .control, e₀.input⟩)].filter
          (·.2.source == x) := by
  have hold : ∀ {m : NodeId}, m < c.nodes.size → c'.hasOp m .phi = c.hasOp m .phi := fun hm => by
    rw [hasOp, hasOp, op?_congr (hlabel (Nat.ne_of_lt hm))]
  rw [hd'.consistent.exits_eq_controlEdges, hctl, List.filter_append,
    hd.consistent.exits_eq_controlEdges, List.filter_filter, List.filter_filter]
  congr 1
  · refine List.filter_congr fun p hp => ?_
    obtain ⟨hi, -⟩ := mem_controlEdges.mp (show (p.1, p.2) ∈ c.controlEdges from hp)
    rw [hold (hd.consistent.ends hi).2, Bool.and_comm]
  · refine List.filter_congr fun p hp => ?_
    have htarget : c'.hasOp p.2.target .phi = false := by
      rcases List.mem_cons.mp hp with rfl | hp
      · exact hasOp_mount hop hkind
      · rw [List.mem_singleton.mp hp]
        rw [hold (hd.consistent.ends he₀).2, hasOp, beq_eq_false_iff_ne]
        exact hphi
    rw [htarget, Bool.not_false, Bool.and_true]

include hc hc' hctl in
theorem enters_mount (y : NodeId) :
    c'.enters y = (c.enters y).filter (·.1 != i₀) ++
      [(c.edges.size, ⟨e₀.source, c.nodes.size, e₀.output, .control⟩),
        (c.edges.size + 1, ⟨c.nodes.size, e₀.target, .control, e₀.input⟩)].filter
          (·.2.target == y) := by
  rw [hc'.enters_eq_controlEdges, hctl, List.filter_append, hc.enters_eq_controlEdges,
    List.filter_filter, List.filter_filter]
  congr 1
  refine List.filter_congr fun p _ => ?_
  rw [Bool.and_comm]

include hc hc' he₀ hctl in
/-- Only the node where the edge arrives is entered by other edges. -/
theorem enters_mount_of_ne {y : NodeId} (hy : y < c.nodes.size) (htarget : e₀.target ≠ y) :
    c'.enters y = c.enters y := by
  have hsize : c.nodes.size ≠ y := Ne.symm (Nat.ne_of_lt hy)
  rw [enters_mount hc hc' hctl, List.filter_eq_self.mpr]
  · simp [htarget, hsize]
  · intro q hq
    obtain ⟨hi, hq', -⟩ := hc.mem_enters.mp (show (q.1, q.2) ∈ c.enters y from hq)
    rw [bne_iff_ne]
    intro heq
    rw [heq, he₀] at hi
    rw [← Option.some.inj hi] at hq'
    exact htarget hq'

include hd he₀ hcontrol₀ hphi in
theorem exits_id (x : NodeId) :
    (c.exits x).filter (·.1 == i₀) = [(i₀, e₀)].filter (·.2.source == x) := by
  have hexit : (e₀.isControl && !c.hasOp e₀.target .phi) = true := by
    simp [hcontrol₀, hasOp, hphi]
  rw [hd.consistent.exits_eq, List.filter_filter, ← filter_live_id he₀, List.filter_filter]
  refine List.filter_congr fun p hp => ?_
  cases hid : p.1 == i₀ with
  | false => simp
  | true =>
    have hp' := mem_live.mp (show (p.1, p.2) ∈ c.live from hp)
    rw [beq_iff_eq.mp hid, he₀] at hp'
    rw [← Option.some.inj hp', hexit, Bool.true_and, Bool.and_true]

include hc he₀ hcontrol₀ in
theorem enters_id (y : NodeId) :
    (c.enters y).filter (·.1 == i₀) = [(i₀, e₀)].filter (·.2.target == y) := by
  rw [hc.enters_eq, List.filter_filter, ← filter_live_id he₀, List.filter_filter]
  refine List.filter_congr fun p hp => ?_
  cases hid : p.1 == i₀ with
  | false => simp
  | true =>
    have hp' := mem_live.mp (show (p.1, p.2) ∈ c.live from hp)
    rw [beq_iff_eq.mp hid, he₀] at hp'
    rw [← Option.some.inj hp', hcontrol₀, Bool.true_and, Bool.and_true]

include hd hd' hlabel hop hkind he₀ hcontrol₀ hphi hctl in
theorem perm_exits_mount {x : NodeId} (hx : x < c.nodes.size) :
    ((c'.exits x).map (·.2.output)).Perm ((c.exits x).map (·.2.output)) := by
  have hsplit := List.filter_append_perm (fun p : EdgeId × Edge => p.1 != i₀) (c.exits x)
  have hid : (c.exits x).filter (fun p => !(p.1 != i₀)) = [(i₀, e₀)].filter (·.2.source == x) := by
    rw [← exits_id hd he₀ hcontrol₀ hphi]
    simp [bne]
  rw [hid] at hsplit
  rw [exits_mount hd hd' hlabel hop hkind he₀ hphi hctl]
  refine List.Perm.trans ?_ (hsplit.map _)
  rw [List.map_append, List.map_append]
  apply List.Perm.append_left
  have hne : c.nodes.size ≠ x := Ne.symm (Nat.ne_of_lt hx)
  by_cases hsource : e₀.source = x
  · simp [hsource, hne]
  · simp [hsource, hne]

include hc hc' he₀ hcontrol₀ hctl in
theorem length_enters_mount {y : NodeId} (hy : y < c.nodes.size) :
    (c'.enters y).length = (c.enters y).length := by
  have hsplit := (List.filter_append_perm (fun p : EdgeId × Edge => p.1 != i₀)
    (c.enters y)).length_eq
  have hid : (c.enters y).filter (fun p => !(p.1 != i₀)) = [(i₀, e₀)].filter (·.2.target == y) := by
    rw [← enters_id hc he₀ hcontrol₀]
    simp [bne]
  rw [hid, List.length_append] at hsplit
  rw [enters_mount hc hc' hctl, List.length_append, ← hsplit, Nat.add_left_cancel_iff]
  have hne : c.nodes.size ≠ y := Ne.symm (Nat.ne_of_lt hy)
  by_cases htarget : e₀.target = y
  · simp [htarget, hne]
  · simp [htarget, hne]

include hd hd' hlabel hop hkind he₀ hphi hctl in
/-- The two edges that replace an edge. -/
theorem mem_exits_mount :
    (c.edges.size, ⟨e₀.source, c.nodes.size, e₀.output, .control⟩) ∈ c'.exits e₀.source ∧
      (c.edges.size + 1, ⟨c.nodes.size, e₀.target, .control, e₀.input⟩) ∈
      c'.exits c.nodes.size := by
  rw [exits_mount hd hd' hlabel hop hkind he₀ hphi hctl,
    exits_mount hd hd' hlabel hop hkind he₀ hphi hctl]
  constructor
  · exact List.mem_append_right _ (List.mem_filter.mpr ⟨List.mem_cons_self, by simp⟩)
  · exact List.mem_append_right _
      (List.mem_filter.mpr ⟨List.mem_cons_of_mem _ (List.mem_singleton_self _), by simp⟩)

include hd hd' hlabel hop hkind he₀ hphi hctl in
/-- Control comes to the same nodes, by way of the new node where that was put in. -/
theorem arrives_mount {x : NodeId} {ρ : Role} {i : EdgeId} {e : Edge} (h : c.Arrives g.New x ρ i)
    (hi : c.edge? i = some e) :
    ∃ i' e', c'.Arrives g.New x ρ i' ∧ c'.edge? i' = some e' ∧ e'.target = e.target := by
  obtain ⟨hfirst, hsecond⟩ := mem_exits_mount hd hd' hlabel hop hkind he₀ hphi hctl
  have hfirst' := (hd'.consistent.mem_exits.mp hfirst).1
  have hsecond' := (hd'.consistent.mem_exits.mp hsecond).1
  -- one more edge, given that control comes to its source
  have hstep : ∀ {y : NodeId} {i : EdgeId} {e e' : Edge}, (i, e') ∈ c.exits y → c.edge? i = some e →
      (∀ {i e'}, (i, e') ∈ c'.exits y → e'.output = e.output → c'.Arrives g.New x ρ i) →
      ∃ i' e', c'.Arrives g.New x ρ i' ∧ c'.edge? i' = some e' ∧ e'.target = e.target := by
    intro y i e e' hmem hi harrive
    obtain ⟨hi', hsource, -⟩ := hd.consistent.mem_exits.mp hmem
    obtain rfl : e = e' := Option.some.inj (hi.symm.trans hi')
    by_cases heq : i = i₀
    · subst heq
      obtain rfl : e = e₀ := Option.some.inj (hi.symm.trans he₀)
      rw [hsource] at hfirst
      exact ⟨_, _, (harrive hfirst rfl).pass hfirst' hd.size hsecond, hsecond', rfl⟩
    · have hmem' : (i, e) ∈ c'.exits y := by
        rw [exits_mount hd hd' hlabel hop hkind he₀ hphi hctl]
        exact List.mem_append_left _ (List.mem_filter.mpr ⟨hmem, by simpa using heq⟩)
      exact ⟨i, e, harrive hmem' rfl, (hd'.consistent.mem_exits.mp hmem').1, rfl⟩
  induction h generalizing e with
  | @exit i e' hmem hrole =>
    obtain rfl : e = e' := Option.some.inj (hi.symm.trans (hd.consistent.mem_exits.mp hmem).1)
    exact hstep hmem hi fun hmem' hout => .exit hmem' (hout.trans hrole)
  | @pass i₁ i e₁ e' _ hi₁ hP hmem ih =>
    obtain ⟨i₂, e₂, h₂, hi₂, htarget⟩ := ih hi₁
    rw [← htarget] at hP hmem
    exact hstep hmem hi fun hmem' _ => h₂.pass hi₂ hP hmem'

include hd hd' hsize hlabel hop hkind hremoved he₀ hcontrol₀ hphi hctl in
/-- Control runs as before by way of a node that was put onto an edge. -/
theorem mount (h : g.Threads c) : g.Threads c' where
  control {i e} he hcontrol := by
    have hmem := mem_controlEdges.mpr ⟨he, hcontrol⟩
    rw [hctl] at hmem
    rcases List.mem_append.mp hmem with hmem | hmem
    · exact h.control (mem_controlEdges.mp (List.mem_filter.mp hmem).1).1 hcontrol
    · rcases List.mem_cons.mp hmem with heq | hmem
      · rw [(Prod.mk.inj heq).2]
      · have hinput : e₀.input = .control := h.control he₀ hcontrol₀
        rw [(Prod.mk.inj (List.mem_singleton.mp hmem)).2]
        exact hinput
  exits {x} hx hlive := by
    rw [Gone, hremoved] at hlive
    exact (perm_exits_mount hd hd' hlabel hop hkind he₀ hcontrol₀ hphi hctl
      (Nat.lt_of_lt_of_le hx hd.size)).trans (h.exits hx hlive)
  enters {y} hy hlive hyphi := by
    rw [Gone, hremoved] at hlive
    rw [length_enters_mount hd.consistent hd'.consistent he₀ hcontrol₀ hctl
      (Nat.lt_of_lt_of_le hy hd.size)]
    exact h.enters hy hlive hyphi
  inserted {m} hm hlt := by
    rw [Gone, hremoved]
    rcases Nat.lt_succ_iff_lt_or_eq.mp (hsize ▸ hlt) with hlt | rfl
    · obtain ⟨hlive, hcase, ⟨p, hp⟩, ⟨q, hq⟩⟩ := h.inserted hm hlt
      have hexits := (perm_exits_mount hd hd' hlabel hop hkind he₀ hcontrol₀ hphi hctl
        hlt).length_eq
      have henters := length_enters_mount hd.consistent hd'.consistent he₀ hcontrol₀ hctl hlt
      rw [hp, List.length_map, List.length_map] at hexits
      rw [hq] at henters
      rw [op?_congr (hlabel (Nat.ne_of_lt hlt))]
      exact ⟨hlive, hcase, List.length_eq_one_iff.mp hexits, List.length_eq_one_iff.mp henters⟩
    · obtain ⟨hsource, htarget⟩ := hd.consistent.ends he₀
      have hs : (e₀.source == c.nodes.size) = false :=
        beq_eq_false_iff_ne.mpr (Nat.ne_of_lt hsource)
      have ht : (e₀.target == c.nodes.size) = false :=
        beq_eq_false_iff_ne.mpr (Nat.ne_of_lt htarget)
      refine ⟨by simp [isRemoved, node?], ?_, ?_, ?_⟩
      · rcases hkind with rfl | rfl
        · exact .inl hop
        · exact .inr hop
      · rw [exits_mount hd hd' hlabel hop hkind he₀ hphi hctl,
          hd.consistent.exits_of_ge (Nat.le_refl _)]
        simp [hs]
      · rw [enters_mount hd.consistent hd'.consistent hctl,
          hd.consistent.enters_of_ge (Nat.le_refl _)]
        simp [ht]
  kept hop' hkept := by
    rw [Gone, hremoved]
    exact h.kept hop' hkept
  merges hregion hgone := by
    rw [Gone, hremoved] at hgone
    exact h.merges hregion hgone
  follows {x ρ j e} hx hlive harrives he htarget := by
    rw [Gone, hremoved] at hlive htarget
    have harrives' : g.Arrives c.Gone x ρ j := harrives.imp fun _ hgone => by
      rw [Gone, hremoved] at hgone
      exact hgone
    obtain ⟨i, e', hi, hie, heq⟩ := h.follows hx hlive harrives' he htarget
    obtain ⟨i', e'', hi', hie', heq'⟩ :=
      arrives_mount hd hd' hlabel hop hkind he₀ hphi hctl hi hie
    exact ⟨i', e'', hi', hie', heq'.trans heq⟩

end Mount

end Graph.Threads

end StackJit
