import StackJit.Proofs.Build.Assembled

/-!
# Rounds that add nothing

Propagation ends with a round that adds no node. Such a round leaves every fragment as it is, and
then the predecessors of each block have at their ends what the block inherits
(`Assembly.Provided`).
-/

namespace StackJit

/-- Steps that never shrink a state, and leave what is seen of it as it is unless they
enlarge it. -/
theorem foldl_quiet {α β γ : Type} {f : α → β → α} {m : α → Nat} {v : α → γ}
    {Q : β → γ → Prop} (hstep : ∀ a b, m a ≤ m (f a b) ∧
      (m (f a b) = m a → v (f a b) = v a ∧ Q b (v a))) (l : List β) (a : α) :
    m a ≤ m (l.foldl f a) ∧
      (m (l.foldl f a) = m a → v (l.foldl f a) = v a ∧ ∀ b ∈ l, Q b (v a)) := by
  induction l generalizing a with
  | nil => exact ⟨Nat.le_refl _, fun _ => ⟨rfl, by simp⟩⟩
  | cons b l ih =>
    obtain ⟨hle, hquiet⟩ := hstep a b
    obtain ⟨hle', hquiet'⟩ := ih (f a b)
    rw [List.foldl_cons]
    refine ⟨Nat.le_trans hle hle', fun hsize => ?_⟩
    obtain ⟨hview, hb⟩ := hquiet (by omega)
    obtain ⟨hview', hl⟩ := hquiet' (by omega)
    rw [hview] at hview' hl
    exact ⟨hview', List.forall_mem_cons.mpr ⟨hb, hl⟩⟩

namespace Fragment

theorem inheritName_quiet (s : Fragment × Graph) (x : String) :
    s.2.nodes.size ≤ (inheritName s x).2.nodes.size ∧
      ((inheritName s x).2.nodes.size = s.2.nodes.size →
        inheritName s x = s ∧ x ∈ s.1.finalNames) := by
  obtain ⟨f, g⟩ := s
  by_cases hknown : f.finalNames.contains x = true
  · have heq : inheritName (f, g) x = (f, g) := by simp only [inheritName, if_pos hknown]
    rw [heq]
    exact ⟨Nat.le_refl _, fun _ => ⟨rfl, hknown⟩⟩
  · have hsize : (inheritName (f, g) x).2.nodes.size = g.nodes.size + 1 := by
      simp only [inheritName, if_neg hknown, Graph.numNodes_addNode]
    rw [hsize]
    exact ⟨Nat.le_succ _, fun h => absurd h (Nat.succ_ne_self _)⟩

theorem size_inheritOperands (n : Nat) (s : Fragment × Graph) :
    (inheritOperands n s).2.nodes.size = s.2.nodes.size + n := by
  induction n generalizing s with
  | zero => rfl
  | succ n ih =>
    have hsize : (inheritOperand s).2.nodes.size = s.2.nodes.size + 1 :=
      Graph.numNodes_addNode s.2 _ _
    rw [inheritOperands, ih, hsize]
    omega

/-- What adds no node was known at the end of the block. -/
theorem inherit_quiet (names : List String) (depth : Nat) (s : Fragment × Graph) :
    s.2.nodes.size ≤ (inherit names depth s).2.nodes.size ∧
      ((inherit names depth s).2.nodes.size = s.2.nodes.size →
        inherit names depth s = s ∧ (∀ x ∈ names, x ∈ s.1.finalNames) ∧
          depth ≤ s.1.finalStack.length) := by
  obtain ⟨hle, hquiet⟩ := foldl_quiet (v := id) (Q := fun x s => x ∈ s.1.finalNames)
    inheritName_quiet names s
  have hsize := size_inheritOperands
    (depth - (names.foldl inheritName s).1.finalStack.length) (names.foldl inheritName s)
  refine ⟨by rw [inherit, hsize]; omega, fun heq => ?_⟩
  rw [inherit, hsize] at heq
  obtain ⟨hsame, hnames⟩ := hquiet (by omega)
  have hsame : names.foldl inheritName s = s := hsame
  have hdepth : depth - s.1.finalStack.length = 0 := by
    rw [hsame] at heq
    omega
  refine ⟨?_, hnames, by omega⟩
  rw [inherit, hsame, hdepth]
  rfl

end Fragment

namespace Assembly

variable {a a' : Assembly} {b : Block} {limit : Nat}

/-- The block that starts at an index has `names` and `depth` operands at its end. -/
def Offers (names : List String) (depth : Nat) (start : Nat) (F : Nat → Option Fragment) : Prop :=
  ∀ {f : Fragment}, F start = some f →
    (∀ x ∈ names, x ∈ f.finalNames) ∧ depth ≤ f.finalStack.length

theorem supply_quiet (names : List String) (depth : Nat) (a : Assembly) (start : Nat) :
    a.graph.nodes.size ≤ (supply names depth a start).graph.nodes.size ∧
      ((supply names depth a start).graph.nodes.size = a.graph.nodes.size →
        (supply names depth a start).table = a.table ∧ Offers names depth start a.table) := by
  cases hf : a.fragments[start]? with
  | none =>
    have heq : supply names depth a start = a := by simp only [supply, hf]
    rw [heq]
    refine ⟨Nat.le_refl _, fun _ => ⟨rfl, fun {f} hf' => ?_⟩⟩
    cases hf.symm.trans hf'
  | some f =>
    obtain ⟨hle, hquiet⟩ := Fragment.inherit_quiet names depth (f, a.graph)
    have heq : supply names depth a start =
        ⟨(Fragment.inherit names depth (f, a.graph)).2,
          a.fragments.insert start (Fragment.inherit names depth (f, a.graph)).1⟩ := by
      simp only [supply, hf]
    rw [heq]
    refine ⟨hle, fun hsize => ?_⟩
    obtain ⟨hsame, hknown⟩ := hquiet hsize
    rw [hsame, table_insert]
    refine ⟨?_, fun {f'} hf' => ?_⟩
    · funext k
      by_cases hk : k = start
      · rw [hk, withFragment_self]
        exact hf.symm
      · exact withFragment_of_ne _ hk
    · obtain rfl : f = f' := Option.some.inj (hf.symm.trans hf')
      exact hknown

/-- The predecessors of a block have at their ends what it inherits. -/
def Provided (F : Nat → Option Fragment) (b : Block) : Prop :=
  b.start ≠ 0 → ∀ {f : Fragment}, F b.start = some f →
    ∀ p ∈ b.preds, Offers f.neededNames.keys f.neededStack.length p F

theorem propagateBlock_quiet (hok : propagateBlock limit a b = .ok a') :
    a.graph.nodes.size ≤ a'.graph.nodes.size ∧
      (a'.graph.nodes.size = a.graph.nodes.size → a'.table = a.table ∧ Provided a.table b) := by
  unfold propagateBlock at hok
  split at hok
  · next hf =>
    cases hok
    exact ⟨Nat.le_refl _, fun _ => ⟨rfl, fun _ _ hf' => by cases hf.symm.trans hf'⟩⟩
  next f hf =>
  simp only at hok
  split at hok
  · cases hok
  split at hok
  · next hstart =>
    split at hok
    · cases hok
    split at hok
    · cases hok
    · cases hok
      exact ⟨Nat.le_refl _, fun _ => ⟨rfl, fun hne => absurd hstart hne⟩⟩
  · cases hok
    obtain ⟨hle, hquiet⟩ := foldl_quiet (v := Assembly.table)
      (supply_quiet f.neededNames.keys f.neededStack.length) b.preds a
    refine ⟨hle, fun hsize => ?_⟩
    obtain ⟨htable, hoffers⟩ := hquiet hsize
    refine ⟨htable, fun _ f' hf' => ?_⟩
    obtain rfl : f = f' := Option.some.inj (hf.symm.trans hf')
    exact hoffers

theorem propagateRound_quiet {rest : List Block} (hok : propagateRound limit rest a = .ok a') :
    a.graph.nodes.size ≤ a'.graph.nodes.size ∧
      (a'.graph.nodes.size = a.graph.nodes.size →
        a'.table = a.table ∧ ∀ b ∈ rest, Provided a.table b) := by
  induction rest generalizing a with
  | nil =>
    cases hok
    exact ⟨Nat.le_refl _, fun _ => ⟨rfl, by simp⟩⟩
  | cons b rest ih =>
    unfold propagateRound at hok
    split at hok
    · cases hok
    next a₁ hblock =>
    obtain ⟨hle, hquiet⟩ := propagateBlock_quiet hblock
    obtain ⟨hle', hquiet'⟩ := ih hok
    refine ⟨Nat.le_trans hle hle', fun hsize => ?_⟩
    obtain ⟨htable, hb⟩ := hquiet (by omega)
    obtain ⟨htable', hrest⟩ := hquiet' (by omega)
    rw [htable] at htable' hrest
    exact ⟨htable', List.forall_mem_cons.mpr ⟨hb, hrest⟩⟩

end Assembly

end StackJit
