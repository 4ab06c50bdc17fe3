import Mathlib.Data.Fintype.EquivFin
import Mathlib.Logic.Relation
import StackJit.Proofs.WellFormed

/-!
# The control skeleton

`Graph.Path g l i` says that control can leave the start node, pass the nodes of `l`, each left in
the role given with it, and come to the edge `i`. A trace (`Graph.IsTrace`) is what the sends and
branches on such a path, and the finish node at its end, let one see of it.

A rewritten graph has the paths of the graph that it was made from, apart from the nodes that were
removed and those that were put in. In both graphs, control that leaves a node of both comes to the
same next node of both (`Graph.Rewrites.comes_iff`): removed nodes have one entry and one exit, so
control cannot go round among them for ever (`Graph.exists_comes`).

Main statement: `Code.isTrace_compile_iff`.
-/

namespace StackJit

namespace Graph

/-! ## Paths and traces -/

/-- Control has passed the nodes of a list, each left in the role given with it, and is on
an edge. -/
inductive Path (g : Graph) : List (NodeId × Role) → EdgeId → Prop where
  | start {i : EdgeId} {e : Edge} (he : (i, e) ∈ g.exits g.start) : Path g [(g.start, e.output)] i
  | step {l : List (NodeId × Role)} {i j : EdgeId} {e e' : Edge} (h : Path g l i)
      (hi : g.edge? i = some e) (he : (j, e') ∈ g.exits e.target) :
      Path g (l ++ [(e.target, e'.output)]) j

/-- What can be seen of control. -/
inductive Event where
  | send (node : NodeId)
  | branch (node : NodeId) (arm : Role)
  | finish
deriving DecidableEq, Repr

/-- What is seen when control passes a node and leaves it in a role. -/
def passing (g : Graph) (n : NodeId) (role : Role) : List Event :=
  match g.op? n with
  | some .send => [.send n]
  | some .branch => [.branch n role]
  | _ => []

/-- What is seen when control arrives at a node. -/
def arriving (g : Graph) (n : NodeId) : List Event :=
  match g.op? n with
  | some .send => [.send n]
  | some .finish => [.finish]
  | _ => []

def events (g : Graph) (l : List (NodeId × Role)) : List Event :=
  l.flatMap fun q => g.passing q.1 q.2

/-- What can be seen until control stands still: before it leaves the start node, on an edge, or at
the node where that leads. -/
def IsTrace (g : Graph) (es : List Event) : Prop :=
  es = [] ∨ ∃ l i e, g.Path l i ∧ g.edge? i = some e ∧
    (es = g.events l ∨ es = g.events l ++ g.arriving e.target)

/-! ## From edge to edge -/

section Onward

variable {g : Graph} {P : NodeId → Prop} {x y y' : NodeId} {ρ : Role} {i j : EdgeId}

/-- Control on the edge `i` goes on to the edge `j` past a node of `P`. -/
def Onward (g : Graph) (P : NodeId → Prop) (i j : EdgeId) : Prop :=
  ∃ e e', g.edge? i = some e ∧ P e.target ∧ (j, e') ∈ g.exits e.target

theorem arrives_iff : g.Arrives P x ρ j ↔
    ∃ i e, (i, e) ∈ g.exits x ∧ e.output = ρ ∧ Relation.ReflTransGen (g.Onward P) i j := by
  constructor
  · intro h
    induction h with
    | exit he hrole => exact ⟨_, _, he, hrole, .refl⟩
    | pass _ hi hP he ih =>
      obtain ⟨i₀, e₀, he₀, hrole, hpath⟩ := ih
      exact ⟨i₀, e₀, he₀, hrole, hpath.tail ⟨_, _, hi, hP, he⟩⟩
  · rintro ⟨i, e, he, hrole, hpath⟩
    induction hpath with
    | refl => exact .exit he hrole
    | tail _ hstep ih =>
      obtain ⟨e, e', hi, hP, he'⟩ := hstep
      exact ih.pass hi hP he'

/-- Control that leaves `x` in the role `ρ` comes to `y`, past nodes of `P` only. -/
def Comes (g : Graph) (P : NodeId → Prop) (x : NodeId) (ρ : Role) (y : NodeId) : Prop :=
  ∃ i e, g.Arrives P x ρ i ∧ g.edge? i = some e ∧ e.target = y ∧ ¬ P y

/-- Where a role tells the edge, and each passed node has one exit, control comes to one node. -/
theorem Comes.unique (h : g.Comes P x ρ y) (h' : g.Comes P x ρ y')
    (hroles : ((g.exits x).map (·.2.output)).Nodup)
    (hone : ∀ {i : EdgeId} {e : Edge}, g.edge? i = some e → P e.target →
      ∃ p, g.exits e.target = [p]) : y = y' := by
  obtain ⟨i, e, harr, hi, rfl, hP⟩ := h
  obtain ⟨i', e', harr', hi', rfl, hP'⟩ := h'
  obtain ⟨j, f, hj, hrole, hpath⟩ := arrives_iff.mp harr
  obtain ⟨j', f', hj', hrole', hpath'⟩ := arrives_iff.mp harr'
  have hsame := List.inj_on_of_nodup_map hroles hj hj' (hrole.trans hrole'.symm)
  obtain rfl : j = j' := congrArg Prod.fst hsame
  have hunique : Relator.RightUnique (g.Onward P) := by
    rintro i j j' ⟨e, f, hi, hP, hf⟩ ⟨e', f', hi', -, hf'⟩
    obtain rfl : e = e' := Option.some.inj (hi.symm.trans hi')
    obtain ⟨p, hp⟩ := hone hi hP
    rw [hp, List.mem_singleton] at hf hf'
    exact congrArg Prod.fst (hf.trans hf'.symm)
  -- control stands still at the end of either path
  have hstop : ∀ {i k : EdgeId} {e : Edge}, g.edge? i = some e → ¬ P e.target →
      Relation.ReflTransGen (g.Onward P) i k → i = k := by
    intro i k e hi hP hpath
    rcases hpath.cases_head with heq | ⟨m, ⟨e', -, hi', hP', -⟩, -⟩
    · exact heq
    · obtain rfl : e = e' := Option.some.inj (hi.symm.trans hi')
      exact absurd hP' hP
  have heq : i = i' := by
    rcases Relation.ReflTransGen.total_of_right_unique hunique hpath hpath' with h | h
    · exact hstop hi hP h
    · exact (hstop hi' hP' h).symm
  subst heq
  rw [Option.some.inj (hi.symm.trans hi')]

/-- What goes on from everywhere in a finite range, and comes to each place from one only, comes to
every place. -/
theorem exists_before {α : Type} [Finite α] {R : α → α → Prop} (hnext : ∀ a, ∃ b, R a b)
    (hunique : Relator.LeftUnique R) (b : α) : ∃ a, R a b := by
  choose next hnext using hnext
  have hinjective : Function.Injective next := by
    intro a a' heq
    exact hunique (hnext a) (heq ▸ hnext a')
  obtain ⟨a, rfl⟩ := Finite.injective_iff_surjective.mp hinjective b
  exact ⟨a, hnext a⟩

/-- Past nodes with one entry, control comes to an edge from one edge. -/
theorem Onward.unique (hg : g.Consistent) {i' : EdgeId} {e e' : Edge} {z z' : NodeId}
    (hi : (i, e) ∈ g.exits z) (hi' : (i', e') ∈ g.exits z')
    (hone : ∀ {i : EdgeId} {e : Edge} {y : NodeId}, (i, e) ∈ g.exits y → P e.target →
      ∃ p, g.enters e.target = [p]) (h : g.Onward P i j) (h' : g.Onward P i' j) : i = i' := by
  obtain ⟨hie, -, hctl, -⟩ := hg.mem_exits.mp hi
  obtain ⟨hie', -, hctl', -⟩ := hg.mem_exits.mp hi'
  obtain ⟨e₁, f, hi₁, hP, hf⟩ := h
  obtain ⟨e₂, f', hi₂, -, hf'⟩ := h'
  obtain rfl : e = e₁ := Option.some.inj (hie.symm.trans hi₁)
  obtain rfl : e' = e₂ := Option.some.inj (hie'.symm.trans hi₂)
  -- both edges enter the node that the next edge leaves
  have hsame : e'.target = e.target := by
    obtain ⟨h₁, hs₁, -⟩ := hg.mem_exits.mp hf
    obtain ⟨h₂, hs₂, -⟩ := hg.mem_exits.mp hf'
    obtain rfl : f = f' := Option.some.inj (h₁.symm.trans h₂)
    exact hs₂.symm.trans hs₁
  obtain ⟨p, hp⟩ := hone hi hP
  have hmem := hg.mem_enters.mpr ⟨hie, rfl, hctl⟩
  have hmem' := hg.mem_enters.mpr ⟨hie', hsame, hctl'⟩
  rw [hp, List.mem_singleton] at hmem hmem'
  exact congrArg Prod.fst (hmem.trans hmem'.symm)

/-- Control that passes only nodes with one entry and one exit comes to another node. -/
theorem exists_comes (hg : g.Consistent) {e₀ : Edge} (hi : (i, e₀) ∈ g.exits x) (hx : ¬ P x)
    (hone : ∀ {i : EdgeId} {e : Edge} {y : NodeId}, (i, e) ∈ g.exits y → P e.target →
      (∃ p, g.exits e.target = [p]) ∧ ∃ p, g.enters e.target = [p]) :
    ∃ y, g.Comes P x e₀.output y := by
  by_contra hnone
  -- the edges that control comes to from `x`, each of which leads to a node of `P`
  let S := { j : EdgeId // Relation.ReflTransGen (g.Onward P) i j }
  have hedge : ∀ j : S, ∃ e y, (j.1, e) ∈ g.exits y ∧ P e.target := by
    rintro ⟨j, hj⟩
    obtain ⟨e, y, hy⟩ : ∃ e y, (j, e) ∈ g.exits y := by
      rcases hj.cases_tail with rfl | ⟨k, -, e, e', -, -, he'⟩
      · exact ⟨e₀, x, hi⟩
      · exact ⟨e', _, he'⟩
    refine ⟨e, y, hy, ?_⟩
    by_contra hP
    exact hnone ⟨e.target, j, e, arrives_iff.mpr ⟨i, e₀, hi, rfl, hj⟩,
      (hg.mem_exits.mp hy).1, rfl, hP⟩
  have hfinite : Finite S := by
    refine Finite.of_injective (β := Fin g.edges.size) (fun j => ⟨j.1, ?_⟩) ?_
    · obtain ⟨e, y, hy, -⟩ := hedge j
      exact edge?_lt (hg.mem_exits.mp hy).1
    · intro j k heq
      exact Subtype.ext (congrArg Fin.val heq)
  have hnext : ∀ j : S, ∃ k : S, g.Onward P j.1 k.1 := by
    rintro ⟨j, hj⟩
    obtain ⟨e, y, hy, hP⟩ := hedge ⟨j, hj⟩
    obtain ⟨⟨p, hp⟩, -⟩ := hone hy hP
    have hstep : g.Onward P j p.1 :=
      ⟨e, p.2, (hg.mem_exits.mp hy).1, hP, hp ▸ List.mem_singleton_self p⟩
    exact ⟨⟨p.1, hj.tail hstep⟩, hstep⟩
  have hunique : Relator.LeftUnique fun j k : S => g.Onward P j.1 k.1 := by
    intro j k l hj hk
    obtain ⟨e, y, hy, -⟩ := hedge j
    obtain ⟨f, z, hz, -⟩ := hedge k
    exact Subtype.ext (Onward.unique hg hy hz (fun hi hP => (hone hi hP).2) hj hk)
  -- so the first edge would come after another one
  obtain ⟨j, e, e', -, hP, he'⟩ := exists_before hnext hunique ⟨i, .refl⟩
  obtain ⟨h₁, hs₁, -⟩ := hg.mem_exits.mp he'
  obtain ⟨h₂, hs₂, -⟩ := hg.mem_exits.mp hi
  obtain rfl : e' = e₀ := Option.some.inj (h₁.symm.trans h₂)
  exact hx ((hs₁.symm.trans hs₂) ▸ hP)

end Onward

/-! ## From node to node -/

section Visits

variable {g : Graph} {P : NodeId → Prop} {l : List (NodeId × Role)} {x y : NodeId} {ρ : Role}
  {i : EdgeId}

/-- Control has passed the nodes of a list, apart from those of `P`, and left `x` in the
role `ρ`. -/
inductive Visits (g : Graph) (P : NodeId → Prop) : List (NodeId × Role) → NodeId → Role → Prop where
  | start {i : EdgeId} {e : Edge} (he : (i, e) ∈ g.exits g.start) :
      Visits g P [(g.start, e.output)] g.start e.output
  | step {l : List (NodeId × Role)} {x y : NodeId} {ρ : Role} {i : EdgeId} {e : Edge}
      (h : Visits g P l x ρ) (hy : g.Comes P x ρ y) (he : (i, e) ∈ g.exits y) :
      Visits g P (l ++ [(y, e.output)]) y e.output

/-- The nodes of a path outside `P`. -/
def outside (P : NodeId → Prop) [DecidablePred P] (l : List (NodeId × Role)) :
    List (NodeId × Role) :=
  l.filter fun q => !decide (P q.1)

variable [DecidablePred P]

theorem outside_concat_of_mem (l : List (NodeId × Role)) {q : NodeId × Role} (hq : P q.1) :
    outside P (l ++ [q]) = outside P l := by
  simp [outside, hq]

theorem outside_concat (l : List (NodeId × Role)) {q : NodeId × Role} (hq : ¬ P q.1) :
    outside P (l ++ [q]) = outside P l ++ [q] := by
  simp [outside, hq]

theorem Path.visits (h : g.Path l i) (hstart : ¬ P g.start) :
    ∃ x ρ, g.Visits P (outside P l) x ρ ∧ g.Arrives P x ρ i := by
  induction h with
  | @start i e he =>
    refine ⟨g.start, e.output, ?_, .exit he rfl⟩
    rw [← List.nil_append [_], outside_concat _ hstart]
    exact .start he
  | @step l i j e e' _ hi he ih =>
    obtain ⟨x, ρ, hvisits, harrives⟩ := ih
    by_cases hP : P e.target
    · rw [outside_concat_of_mem l hP]
      exact ⟨x, ρ, hvisits, harrives.pass hi hP he⟩
    · rw [outside_concat l hP]
      exact ⟨_, _, hvisits.step ⟨i, e, harrives, hi, rfl, hP⟩ he, .exit he rfl⟩

/-- Nodes of `P` extend a path, and do not count. -/
theorem Arrives.exists_path (h : g.Arrives P x ρ i)
    (hexit : ∀ {i : EdgeId} {e : Edge}, (i, e) ∈ g.exits x → e.output = ρ →
      ∃ l', g.Path l' i ∧ outside P l' = l) : ∃ l', g.Path l' i ∧ outside P l' = l := by
  induction h with
  | exit he hrole => exact hexit he hrole
  | @pass i j e e' _ hi hP he ih =>
    obtain ⟨l', hpath, rfl⟩ := ih
    exact ⟨_, hpath.step hi he, outside_concat_of_mem l' hP⟩

theorem Visits.exists_path (h : g.Visits P l x ρ) (hstart : ¬ P g.start) (hi : g.Arrives P x ρ i) :
    ∃ l', g.Path l' i ∧ outside P l' = l := by
  induction h generalizing i with
  | start _ =>
    refine hi.exists_path fun {i e'} he' hrole => ⟨_, .start he', ?_⟩
    rw [← List.nil_append [_], outside_concat _ hstart, hrole]
    rfl
  | @step l x y ρ _ e _ hy _ ih =>
    obtain ⟨j, e', harrives, hj, rfl, hP⟩ := hy
    obtain ⟨l', hpath, rfl⟩ := ih harrives
    refine hi.exists_path fun {i e''} he'' hrole => ⟨_, hpath.step hj he'', ?_⟩
    rw [outside_concat l' hP, hrole]

omit [DecidablePred P] in
/-- Control has left the last node. -/
theorem Visits.exists_exit (h : g.Visits P l x ρ) : ∃ i e, (i, e) ∈ g.exits x ∧ e.output = ρ := by
  cases h with
  | start he => exact ⟨_, _, he, rfl⟩
  | step _ _ he => exact ⟨_, _, he, rfl⟩

theorem events_outside (hquiet : ∀ {n : NodeId} {role : Role}, P n → g.passing n role = [])
    (l : List (NodeId × Role)) : g.events (outside P l) = g.events l := by
  induction l with
  | nil => rfl
  | cons q l ih =>
    by_cases hP : P q.1
    · rw [outside, List.filter_cons_of_neg (by simpa using hP), events, events, List.flatMap_cons,
        hquiet hP]
      exact ih
    · rw [outside, List.filter_cons_of_pos (by simpa using hP), events, events, List.flatMap_cons,
        List.flatMap_cons]
      exact congrArg _ ih

/-- Traces, told by the nodes outside `P`, where nothing is seen of the nodes of `P`. -/
theorem isTrace_iff (hg : g.Consistent) (hstart : ¬ P g.start)
    (hquiet : ∀ {n : NodeId} {role : Role}, P n → g.passing n role = [])
    (hsilent : ∀ {n : NodeId}, P n → g.arriving n = []) {es : List Event} :
    g.IsTrace es ↔ es = [] ∨ ∃ l x ρ, g.Visits P l x ρ ∧
      (es = g.events l ∨ ∃ y, g.Comes P x ρ y ∧ es = g.events l ++ g.arriving y) := by
  refine or_congr_right ⟨?_, ?_⟩
  · rintro ⟨l, i, e, hpath, hi, hes⟩
    obtain ⟨x, ρ, hvisits, harrives⟩ := hpath.visits hstart
    refine ⟨_, x, ρ, hvisits, ?_⟩
    rw [events_outside hquiet]
    rcases hes with hes | hes
    · exact .inl hes
    · by_cases hP : P e.target
      · rw [hsilent hP, List.append_nil] at hes
        exact .inl hes
      · exact .inr ⟨e.target, ⟨i, e, harrives, hi, rfl, hP⟩, hes⟩
  · rintro ⟨l, x, ρ, hvisits, hes⟩
    rcases hes with hes | ⟨y, ⟨i, e, harrives, hi, rfl, -⟩, hes⟩
    · obtain ⟨i, e, he, hrole⟩ := hvisits.exists_exit
      obtain ⟨l', hpath, rfl⟩ := hvisits.exists_path hstart (.exit he hrole)
      rw [events_outside hquiet] at hes
      exact ⟨l', i, e, hpath, (hg.mem_exits.mp he).1, .inl hes⟩
    · obtain ⟨l', hpath, rfl⟩ := hvisits.exists_path hstart harrives
      rw [events_outside hquiet] at hes
      exact ⟨l', i, e, hpath, hi, .inr hes⟩

end Visits

end Graph

namespace Translation

variable {code : Code} {g : Graph}

theorem isEntered_of_exit (t : Translation code g) {i : EdgeId} {e : Edge} {y : NodeId}
    (hi : (i, e) ∈ g.exits y) : ∃ op, g.op? e.target = some op ∧ op.isEntered = true := by
  obtain ⟨he, -, hctl, hphi⟩ := t.consistent.mem_exits.mp hi
  have hin := (t.typed he).control_input hctl
  obtain ⟨o, u, -, hu, hallow⟩ := t.typed he
  refine ⟨u, hu, ?_⟩
  have hu' : u ≠ .phi := fun heq => hphi (heq ▸ hu)
  rw [hin] at hallow
  cases hout : e.output <;> rw [hout] at hallow <;> simp_all [Op.allows, Op.isEntered]

end Translation

namespace Graph.Rewrites

variable {code : Code} {g c : Graph} {moves : Moves} {x y : NodeId} {ρ : Role}
  {l : List (NodeId × Role)}

theorem start_eq (h : g.Rewrites c moves) : c.start = g.start := congrArg (·.1) h.descends.marks

theorem start_live (h : g.Rewrites c moves) (t : Translation code g) :
    g.start < g.nodes.size ∧ ¬ c.Gone g.start := by
  rw [t.start_eq.1]
  exact ⟨op?_lt t.start_eq.2, h.threads.kept t.start_eq.2 rfl⟩

/-- Control passes a removed node in one way. -/
theorem single_of_gone (h : g.Rewrites c moves) (t : Translation code g) {i : EdgeId} {e : Edge}
    (hi : (i, e) ∈ g.exits y) (hgone : c.Gone e.target) :
    (∃ p, g.exits e.target = [p]) ∧ ∃ p, g.enters e.target = [p] := by
  obtain ⟨op, hop, hentered⟩ := t.isEntered_of_exit hi
  have hkept : op.isKept = false := by
    by_contra hkept
    exact h.threads.kept hop (Bool.not_eq_false _ ▸ hkept) hgone
  obtain ⟨hleft, hstart, hbranch⟩ : op.isLeft = true ∧ op ≠ .start ∧ op ≠ .branch := by
    cases op <;> simp_all [Op.isEntered, Op.isKept, Op.isLeft]
  constructor
  · obtain ⟨e', he', -⟩ := t.exits_single hop hleft hstart hbranch
    obtain ⟨p, hp, -⟩ := List.map_eq_singleton_iff.mp he'
    exact ⟨p, hp⟩
  · by_cases hregion : op = .region
    · subst hregion
      have hpos := List.length_pos_iff.mpr (t.enters_ne_nil hop)
      have hle := h.threads.merges hop hgone
      exact List.length_eq_one_iff.mp (by omega)
    · exact t.enters_of_chained hop (by
        cases op <;> simp_all [Op.isEntered, Op.isKept, Op.isChained])

/-- The nodes of both graphs are left in the same roles. -/
theorem exit_iff (h : g.Rewrites c moves) (hx : x < g.nodes.size) (hlive : ¬ c.Gone x) :
    (∃ i e, (i, e) ∈ c.exits x ∧ e.output = ρ) ↔ ∃ i e, (i, e) ∈ g.exits x ∧ e.output = ρ := by
  have hmem := (h.threads.exits hx hlive).mem_iff (a := ρ)
  simpa only [List.mem_map, Prod.exists] using hmem

theorem comes_of_comes (h : g.Rewrites c moves) (t : Translation code g) (hx : x < g.nodes.size)
    (hlive : ¬ c.Gone x) (hy : g.Comes c.Gone x ρ y) : c.Comes g.New x ρ y := by
  obtain ⟨j, e, harrives, hj, rfl, hgone⟩ := hy
  obtain ⟨i, e', harrives', hi, htarget⟩ := h.threads.follows hx hlive harrives hj hgone
  exact ⟨i, e', harrives', hi, htarget, Nat.not_le.mpr (t.consistent.ends hj).2⟩

/-- Control that leaves a node of both graphs comes to the same next node of both. -/
theorem comes_iff (h : g.Rewrites c moves) (t : Translation code g) (hx : x < g.nodes.size)
    (hlive : ¬ c.Gone x) : c.Comes g.New x ρ y ↔ g.Comes c.Gone x ρ y := by
  refine ⟨fun hy => ?_, h.comes_of_comes t hx hlive⟩
  obtain ⟨i, e, harrives, hi⟩ := hy
  obtain ⟨i₀, e₀, he₀, hrole⟩ := harrives.exists_exit
  obtain ⟨j₀, f₀, hf₀, rfl⟩ := (h.exit_iff hx hlive).mp ⟨i₀, e₀, he₀, hrole⟩
  obtain ⟨z, hz⟩ := exists_comes t.consistent hf₀ hlive fun hi hP => h.single_of_gone t hi hP
  have hsame : y = z := Comes.unique ⟨i, e, harrives, hi⟩ (h.comes_of_comes t hx hlive hz)
    (h.exits_nodup t x) fun hi hP =>
      (h.threads.inserted hP (h.descends.consistent.ends hi).2).2.2.1
  rw [hsame]
  exact hz

theorem comes_live (t : Translation code g) (hy : g.Comes c.Gone x ρ y) :
    y < g.nodes.size ∧ ¬ c.Gone y := by
  obtain ⟨i, e, -, hi, rfl, hlive⟩ := hy
  exact ⟨(t.consistent.ends hi).2, hlive⟩

/-- The node that control left last is in both graphs. -/
theorem visits_live (h : g.Rewrites c moves) (t : Translation code g) (hv : g.Visits c.Gone l x ρ) :
    x < g.nodes.size ∧ ¬ c.Gone x := by
  cases hv with
  | start _ => exact h.start_live t
  | step _ hy _ => exact comes_live t hy

/-- Control visits the nodes of both graphs in the same order. -/
theorem visits_iff (h : g.Rewrites c moves) (t : Translation code g) :
    c.Visits g.New l x ρ ↔ g.Visits c.Gone l x ρ := by
  constructor
  · intro hv
    induction hv with
    | start he =>
      rw [h.start_eq] at he ⊢
      obtain ⟨hx, hlive⟩ := h.start_live t
      obtain ⟨j, f, hf, hrole⟩ := (h.exit_iff hx hlive).mp ⟨_, _, he, rfl⟩
      rw [← hrole]
      exact .start hf
    | step _ hy he ih =>
      obtain ⟨hx, hlive⟩ := h.visits_live t ih
      have hy' := (h.comes_iff t hx hlive).mp hy
      obtain ⟨hlt, hlive'⟩ := comes_live t hy'
      obtain ⟨j, f, hf, hrole⟩ := (h.exit_iff hlt hlive').mp ⟨_, _, he, rfl⟩
      rw [← hrole]
      exact ih.step hy' hf
  · intro hv
    induction hv with
    | start he =>
      obtain ⟨hx, hlive⟩ := h.start_live t
      obtain ⟨j, f, hf, hrole⟩ := (h.exit_iff hx hlive).mpr ⟨_, _, he, rfl⟩
      rw [← hrole, ← h.start_eq] at *
      exact .start hf
    | step hv hy he ih =>
      obtain ⟨hx, hlive⟩ := h.visits_live t hv
      obtain ⟨hlt, hlive'⟩ := comes_live t hy
      obtain ⟨j, f, hf, hrole⟩ := (h.exit_iff hlt hlive').mpr ⟨_, _, he, rfl⟩
      rw [← hrole]
      exact ih.step ((h.comes_iff t hx hlive).mpr hy) hf

/-! ## What is seen of control -/

/-- Nothing is seen of the nodes that passes remove. -/
theorem quiet_of_gone (h : g.Rewrites c moves) {n : NodeId} (hgone : c.Gone n) :
    (∀ role, g.passing n role = []) ∧ g.arriving n = [] := by
  have hkept : ∀ {op : Op}, g.op? n = some op → op.isKept = false := by
    intro op hop
    by_contra hkept
    exact h.threads.kept hop (Bool.not_eq_false _ ▸ hkept) hgone
  unfold passing arriving
  cases hop : g.op? n with
  | none => exact ⟨fun _ => rfl, rfl⟩
  | some op =>
    have := hkept hop
    cases op <;> simp_all [Op.isKept]

/-- Nothing is seen of the nodes that passes put in. -/
theorem quiet_of_new (h : g.Rewrites c moves) {n : NodeId} (hnew : g.New n) :
    (∀ role, c.passing n role = []) ∧ c.arriving n = [] := by
  unfold passing arriving
  by_cases hn : n < c.nodes.size
  · rcases (h.threads.inserted hnew hn).2.1 with hop | hop <;> simp [hop]
  · have hop : c.op? n = none := by simp [op?, node?, Nat.le_of_not_lt hn]
    simp [hop]

theorem passing_eq (h : g.Rewrites c moves) (hx : x < g.nodes.size) (role : Role) :
    c.passing x role = g.passing x role := by
  rw [passing, passing, h.descends.op hx]

theorem events_eq (h : g.Rewrites c moves) (t : Translation code g) (hv : g.Visits c.Gone l x ρ) :
    c.events l = g.events l := by
  induction hv with
  | start _ => simp [events, h.passing_eq (h.start_live t).1]
  | @step l x y ρ i e hv hy he ih =>
    have hsplit : ∀ d : Graph,
        d.events (l ++ [(y, e.output)]) = d.events l ++ d.passing y e.output := by
      intro d
      simp [events]
    rw [hsplit, hsplit, ih, h.passing_eq (comes_live t hy).1]

/-- The same can be seen of control in both graphs. -/
theorem isTrace_iff (h : g.Rewrites c moves) (t : Translation code g) {es : List Event} :
    c.IsTrace es ↔ g.IsTrace es := by
  obtain ⟨hstart, hlive⟩ := h.start_live t
  rw [Graph.isTrace_iff t.consistent hlive (fun hP => (h.quiet_of_gone hP).1 _)
      fun hP => (h.quiet_of_gone hP).2,
    Graph.isTrace_iff h.descends.consistent (P := g.New) (h.start_eq ▸ Nat.not_le.mpr hstart)
      (fun hP => (h.quiet_of_new hP).1 _) fun hP => (h.quiet_of_new hP).2]
  refine or_congr_right (exists_congr fun l => exists_congr fun x => exists_congr fun ρ => ?_)
  rw [h.visits_iff t]
  refine and_congr_right fun hv => ?_
  obtain ⟨hx, hxlive⟩ := h.visits_live t hv
  rw [h.events_eq t hv]
  refine or_congr_right (exists_congr fun y => ?_)
  rw [h.comes_iff t hx hxlive]
  refine and_congr_right fun hy => ?_
  rw [arriving, arriving, h.descends.op (comes_live t hy).1]

end Graph.Rewrites

/-- Compiling a method keeps the control skeleton of its graph. -/
theorem Code.isTrace_compile_iff {code : Code} {g : Graph} (hg : code.graph = .ok g)
    (o : CompileOptions) (profile : Option Profile) :
    ∃ c, code.compile o profile = .ok c ∧ ∀ es, c.IsTrace es ↔ g.IsTrace es := by
  obtain ⟨t⟩ := Code.exists_translation hg
  obtain ⟨moves, h⟩ := t.rewritten_optimize o profile
  exact ⟨_, compile_of_graph hg o profile, fun _ => h.isTrace_iff t⟩

/-- A loop, compiled without safepoints. -/
theorem Code.isTrace_compile_iff_drain :
    ∃ g c, Code.drain.graph = .ok g ∧ Code.drain.compile { safepoints := false } none = .ok c ∧
      ∀ es, c.IsTrace es ↔ g.IsTrace es := by
  obtain ⟨g, hg⟩ := Code.exists_graph_drain
  obtain ⟨c, hc, htraces⟩ := Code.isTrace_compile_iff hg { safepoints := false } none
  exact ⟨g, c, hg, hc, htraces⟩

end StackJit
