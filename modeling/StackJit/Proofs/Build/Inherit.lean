import Mathlib.Algebra.Ring.Nat
import Mathlib.Data.List.Perm.Subperm
import StackJit.Proofs.Build.Rounds

/-!
# Blocks that inherit values

Propagation only adds placeholders, each for one slot of one block, so the fragments stay
`Assembled`. `Threaded` adds the two facts that bound it: a block inherits only locals out of
`names`, and the number of nodes and the number of inherited values grow together. Hence every round
that changes something makes the blocks inherit more, and a round that succeeds starts with no more
than the limit for each block and nothing for the block at index 0. So the rounds end by themselves,
before the bound on their number is reached (`Assembly.settles_propagate`).

Main statement: `Assembly.propagate_spec`, when propagation succeeds, the fragments are still
assembled, the block at index 0 inherits nothing, and the predecessors of the others have what those
inherit.
-/

namespace StackJit

/-- How many values a fragment inherits. -/
def Fragment.weight (f : Fragment) : Nat := f.neededStack.length + f.neededNames.size

/-- How many values the blocks inherit. -/
def totalWeight (F : Nat → Option Fragment) (bs : List Block) : Nat :=
  (bs.map fun b => ((F b.start).map (·.weight)).getD 0).sum

structure Threaded (names : List String) (v w : Nat) (bs : List Block) (g : Graph)
    (F : Nat → Option Fragment) : Prop where
  assembled : Assembled g F bs
  named : ∀ {b : Block} {f : Fragment}, b ∈ bs → F b.start = some f →
    ∀ x ∈ f.neededNames, x ∈ names
  weight : totalWeight F bs + w = g.nodes.size + v

theorem withFragment_withFragment (F : Nat → Option Fragment) (start : Nat) (f f' : Fragment) :
    withFragment (withFragment F start f) start f' = withFragment F start f' := by
  funext k
  by_cases hk : k = start <;> simp [withFragment, hk]

theorem withFragment_eq_self {F : Nat → Option Fragment} {start : Nat} {f : Fragment}
    (h : F start = some f) : withFragment F start f = F := by
  funext k
  by_cases hk : k = start <;> simp [withFragment, hk, h]

/-- A block that inherits one value more adds one to the total. -/
theorem totalWeight_withFragment {F : Nat → Option Fragment} {bs : List Block} {b : Block}
    {f f' : Fragment} (hbs : (bs.map (·.start)).Nodup) (hb : b ∈ bs) (hf : F b.start = some f)
    (hw : f'.weight = f.weight + 1) :
    totalWeight (withFragment F b.start f') bs = totalWeight F bs + 1 := by
  induction bs with
  | nil => cases hb
  | cons c bs ih =>
    obtain ⟨hc, hbs⟩ := List.nodup_cons.mp hbs
    simp only [totalWeight, List.map_cons, List.sum_cons]
    by_cases hbc : b.start = c.start
    · -- the other blocks start elsewhere, so their fragments are the old ones
      have hrest : ∀ d ∈ bs, withFragment F b.start f' d.start = F d.start := by
        intro d hd
        refine withFragment_of_ne _ fun heq => hc ?_
        change c.start ∈ _
        rw [← hbc, ← heq]
        exact List.mem_map_of_mem hd
      rw [List.map_congr_left fun d hd => by rw [hrest d hd], ← hbc, withFragment_self, hf]
      simp only [Option.map_some, Option.getD_some, hw]
      omega
    · have hb' : b ∈ bs := by
        rcases List.mem_cons.mp hb with rfl | hb
        · exact absurd rfl hbc
        · exact hb
      have := ih hbs hb'
      rw [withFragment_of_ne _ (Ne.symm hbc)]
      simp only [totalWeight] at this
      omega

/-! ## One more placeholder -/

section Demand

variable {names : List String} {v w : Nat} {bs : List Block} {g : Graph} {F : Nat → Option Fragment}

/-- `f'` is `f` with one more placeholder, for the slot `a`. -/
structure Fragment.Demand (f f' : Fragment) (g : Graph) (a : Slot) : Prop where
  demand : (f.state g).Demand (f'.state (g.addNode .input [])) a
  region : f'.region = f.region
  latest : f'.latest = f.latest
  stack : ∃ more, f'.finalStack.reverse = f.finalStack.reverse ++ more
  context : ∀ {below : List NodeId} {inherited : String → Option NodeId},
    (f'.state (g.addNode .input [])).Within below inherited →
      (f.state g).Within below inherited ∧
        (f'.state (g.addNode .input [])).context below inherited =
          (f.state g).context below inherited

theorem Fragment.Models.demand {f f' : Fragment} {b : Block} {a : Slot} (hm : f.Models g b)
    (hd : f.Demand f' g a) : f'.Models (g.addNode .input []) b where
  sound := by
    rw [hd.region]
    exact (hm.sound.demand hd.demand).1
  region := by
    rw [hd.region]
    exact (Graph.Grows.addNode g _ _).op_some hm.region
  trace hw := by
    obtain ⟨hw', hctx⟩ := hd.context hw
    obtain ⟨ctx, htrace, hlatest⟩ := hm.trace hw'
    rw [hctx, hd.region, hd.latest]
    exact ⟨ctx, htrace.extend ⟨[], .addNode g _ _, by simp⟩ hm.sound.consistent, hlatest⟩
  leads := by
    rw [hd.region, show f'.controlEnd = f.controlEnd from hd.demand.control]
    exact hm.leads.grow (.addNode g _ _) hm.sound.consistent
  returned hret := by
    obtain ⟨n, rest, hstack, hlatest⟩ := hm.returned hret
    obtain ⟨more, hmore⟩ := hd.stack
    exact ⟨n, rest ++ more, by rw [hmore, hstack, List.cons_append], hd.latest.trans hlatest⟩
  latest n hn := by
    rw [hd.latest] at hn
    rw [hd.region]
    exact (hm.latest n hn).imp_right fun hlt =>
      Nat.lt_of_lt_of_le hlt (Graph.Grows.addNode g _ _).size_le

theorem op?_addNode_input {n : NodeId} {op : Op} (h : (g.addNode .input []).op? n = some op) :
    g.op? n = some op ∨ op = .input := by
  rw [Graph.op?_addNode] at h
  split at h
  · exact .inr (Option.some.inj h).symm
  · exact .inl h

/-- Every block keeps its region and its end of control. -/
theorem Fragment.Demand.exists_fragment {f f' f₁ : Fragment} {a : Slot} {k j : Nat}
    (hd : f.Demand f' g a) (hf : F k = some f) (hf₁ : F j = some f₁) :
    ∃ f₂, withFragment F k f' j = some f₂ ∧ f₂.region = f₁.region ∧
      f₂.controlEnd = f₁.controlEnd := by
  by_cases hj : j = k
  · subst hj
    obtain rfl : f = f₁ := Option.some.inj (hf.symm.trans hf₁)
    exact ⟨f', withFragment_self _ _ _, hd.region, hd.demand.control⟩
  · exact ⟨f₁, (withFragment_of_ne _ hj).trans hf₁, rfl, rfl⟩

/-- The new placeholder is no node of another block. -/
theorem Assembled.apart_demand (h : Assembled g F bs) {b c : Block} {f f' f₁ : Fragment} {a : Slot}
    (hb : b ∈ bs) (hf : F b.start = some f) (hd : f.Demand f' g a) (hc : c ∈ bs) (hne : b ≠ c)
    (hf₁ : F c.start = some f₁) :
    f'.region ≠ f₁.region ∧ f'.controlEnd ≠ f₁.controlEnd ∧
      ∀ {s s' : Slot} {n : NodeId}, (f'.state (g.addNode .input [])).needs s = some n →
        (f₁.state (g.addNode .input [])).needs s' ≠ some n := by
  obtain ⟨hregion, hcontrol, hneeds⟩ := h.apart hb hc hf hf₁ hne
  refine ⟨hd.region ▸ hregion, ?_, fun {s s' n} hs hs' => ?_⟩
  · rw [show f'.controlEnd = f.controlEnd from hd.demand.control]
    exact hcontrol
  · by_cases hslot : s = a
    · rw [hslot, hd.demand.new] at hs
      obtain rfl := Option.some.inj hs
      have hlt := Graph.op?_lt ((h.fragment_of_mem hc hf₁).sound.placeholder (a := s') hs').2.1
      exact Nat.lt_irrefl _ hlt
    · rw [hd.demand.old hslot] at hs
      exact hneeds hs hs'

/-- A block that inherits one value more leaves the fragments assembled. -/
theorem Assembled.demand (h : Assembled g F bs) (hbs : (bs.map (·.start)).Nodup) {b : Block}
    {f f' : Fragment} {a : Slot} (hb : b ∈ bs) (hf : F b.start = some f)
    (hd : f.Demand f' g a) : Assembled (g.addNode .input []) (withFragment F b.start f') bs := by
  have hgrow := Graph.Grows.addNode g .input []
  have hinj : ∀ {c : Block}, c ∈ bs → c.start = b.start → c = b := fun hc heq =>
    List.inj_on_of_nodup_map hbs hc hb heq
  refine
    { models := ?_, region := ?_, chained := ?_, led := ?_, apart := ?_
      start := ⟨h.start.1, hgrow.op_some h.start.2⟩
      finish := ⟨h.finish.1, hgrow.op_some h.finish.2.1,
        (hgrow.inputs_of_not_target h.consistent _ (by simp)).trans h.finish.2.2⟩
      root := h.root, ops := ?_
      whole := fun n => (hgrow.removed n).trans (h.whole n)
      vacant := h.vacant.grow h.consistent hgrow (by simp) }
  · intro c hc
    obtain ⟨f₁, hf₁, hm⟩ := h.models hc
    by_cases hcb : c.start = b.start
    · obtain rfl := hinj hc hcb
      exact ⟨f', withFragment_self _ _ _, (h.fragment_of_mem hb hf).demand hd⟩
    · exact ⟨f₁, (withFragment_of_ne _ hcb).trans hf₁, hm.adds ⟨[], hgrow, by simp⟩⟩
  · intro n hn
    rcases op?_addNode_input hn with hn | hn
    · obtain ⟨hin, c, hc, f₁, hf₁, hr⟩ := h.region hn
      obtain ⟨f₂, hf₂, hr₂, -⟩ := hd.exists_fragment hf hf₁
      exact ⟨(hgrow.inputs_of_not_target h.consistent _ (by simp)).trans hin, c, hc, f₂, hf₂,
        hr₂.trans hr⟩
    · cases hn
  · refine (h.chained.quiet hgrow (by simp) ?_).congr fun n => or_congr_right ?_
    · intro n op hn hop
      rcases op?_addNode_input hop with hop | rfl
      · exact absurd (Graph.op?_lt hop) (Nat.not_lt.mpr hn)
      · rfl
    · constructor
      · rintro ⟨c, hc, f₁, hf₁, hn⟩
        obtain ⟨f₂, hf₂, -, hc₂⟩ := hd.exists_fragment hf hf₁
        exact ⟨c, hc, f₂, hf₂, hc₂.trans hn⟩
      · rintro ⟨c, hc, f₁, hf₁, hn⟩
        rcases withFragment_cases hf₁ with ⟨-, rfl⟩ | ⟨-, hf₁⟩
        · exact ⟨b, hb, f, hf, hd.demand.control.symm.trans hn⟩
        · exact ⟨c, hc, f₁, hf₁, hn⟩
  · intro n op hn hchained
    rcases op?_addNode_input hn with hn | rfl
    · obtain ⟨c, hc, f₁, hf₁, hl⟩ := h.led hn hchained
      obtain ⟨f₂, hf₂, hr₂, -⟩ := hd.exists_fragment hf hf₁
      exact ⟨c, hc, f₂, hf₂, hr₂ ▸ hl.grow hgrow h.consistent⟩
    · cases hchained
  · intro c d f₁ f₂ hc hd' hf₁ hf₂ hne
    rcases withFragment_cases hf₁ with ⟨hcb, rfl⟩ | ⟨-, hold₁⟩ <;>
      rcases withFragment_cases hf₂ with ⟨hdb, rfl⟩ | ⟨-, hold₂⟩
    · exact absurd ((hinj hc hcb).trans (hinj hd' hdb).symm) hne
    · exact h.apart_demand hb hf hd hd' (hinj hc hcb ▸ hne) hold₂
    · obtain ⟨hr, hcontrol, hneeds⟩ := h.apart_demand hb hf hd hc (hinj hd' hdb ▸ hne.symm) hold₁
      exact ⟨hr.symm, hcontrol.symm, fun hs hs' => hneeds hs' hs⟩
    · exact h.apart hc hd' hold₁ hold₂ hne
  · intro n op hn
    rcases op?_addNode_input hn with hn | rfl
    · exact h.ops hn
    · exact .inr (.inr (.inr (.inl rfl)))

theorem Threaded.demand (h : Threaded names v w bs g F) (hbs : (bs.map (·.start)).Nodup) {b : Block}
    {f f' : Fragment} {a : Slot} (hb : b ∈ bs) (hf : F b.start = some f)
    (hd : f.Demand f' g a) (hweight : f'.weight = f.weight + 1)
    (hnames : ∀ x ∈ f'.neededNames, x ∈ f.neededNames ∨ x ∈ names) :
    Threaded names v w bs (g.addNode .input []) (withFragment F b.start f') where
  assembled := h.assembled.demand hbs hb hf hd
  named {c f₁} hc hf₁ x hx := by
    rcases withFragment_cases hf₁ with ⟨-, rfl⟩ | ⟨-, hf₁⟩
    · exact (hnames x hx).elim (h.named hb hf x) id
    · exact h.named hc hf₁ x hx
  weight := by
    have := h.weight
    rw [totalWeight_withFragment hbs hb hf hweight, Graph.numNodes_addNode]
    omega

/-- `f` with a placeholder for the local `x`. -/
def Fragment.withName (f : Fragment) (x : String) (n : NodeId) : Fragment :=
  { f with
    neededNames := f.neededNames.insert x n
    finalNames := f.finalNames.insert x n }

/-- `f` with a placeholder for one more operand. -/
def Fragment.withOperand (f : Fragment) (n : NodeId) : Fragment :=
  { f with
    neededStack := n :: f.neededStack
    finalStack := n :: f.finalStack }

theorem Fragment.Models.demand_withName {f : Fragment} {b : Block} (hm : f.Models g b) {x : String}
    (hx : x ∉ f.finalNames) : f.Demand (f.withName x g.nodes.size) g (.name x) := by
  have hnone : (f.state g).names[x]? = none := Std.TreeMap.getElem?_eq_none hx
  have hneeds := hm.sound.needs_none hnone
  have heq : ((f.state g).read x).2 = (f.withName x g.nodes.size).state (g.addNode .input []) := by
    rw [Lowering.read_of_none hnone]
    rfl
  refine ⟨heq ▸ Lowering.demand_read hnone hneeds, rfl, rfl, ⟨[], by simp [withName]⟩, ?_⟩
  intro below inherited hw
  rw [← heq] at hw ⊢
  exact ⟨hw.of_read fun _ => hneeds, (Lowering.context_read hw).1⟩

theorem Fragment.demand_withOperand (f : Fragment) :
    f.Demand (f.withOperand g.nodes.size) g (.operand f.neededStack.length) where
  demand :=
    { graph := rfl
      lacks := by simp [Lowering.needs, state]
      new := by simp [Lowering.needs, state, withOperand]
      old := fun hb => Lowering.needs_cons _ _ hb rfl rfl
      stack := fun hn => by
        simp only [state, withOperand, List.reverse_cons, List.mem_append, List.mem_singleton] at hn
        exact hn
      names := .inl
      known := by
        rintro x (hx | hx)
        · exact hx
        · cases hx
      control := rfl }
  region := rfl
  latest := rfl
  stack := ⟨[g.nodes.size], by simp [withOperand]⟩
  context {below inherited} hw := by
    have hp := hw.stack
    simp only [state, withOperand, List.reverse_cons] at hp
    refine ⟨⟨(List.prefix_append _ _).trans hp, hw.names⟩, ?_⟩
    obtain ⟨rest, rfl⟩ := hp
    simp [Lowering.context, state, withOperand, List.drop_append]

theorem Fragment.weight_withName {f : Fragment} {x : String} (n : NodeId)
    (hx : x ∉ f.neededNames) : (f.withName x n).weight = f.weight + 1 := by
  simp [weight, withName, Std.TreeMap.size_insert, hx, Nat.add_assoc]

theorem Fragment.weight_withOperand (f : Fragment) (n : NodeId) :
    (f.withOperand n).weight = f.weight + 1 := by
  simp only [weight, withOperand, List.length_cons]
  omega

end Demand

/-! ## Rounds of propagation -/

/-- From `F` to `F'` blocks only come to inherit more. -/
structure Inherits (F F' : Nat → Option Fragment) : Prop where
  more : ∀ {k : Nat} {f : Fragment}, F k = some f →
    ∃ f', F' k = some f' ∧ f.neededStack.length ≤ f'.neededStack.length ∧
      ∀ x ∈ f.neededNames, x ∈ f'.neededNames

theorem Inherits.refl (F : Nat → Option Fragment) : Inherits F F :=
  ⟨fun {_ f} hf => ⟨f, hf, Nat.le_refl _, fun _ hx => hx⟩⟩

theorem Inherits.trans {F F' F'' : Nat → Option Fragment} (h₁ : Inherits F F')
    (h₂ : Inherits F' F'') : Inherits F F'' := by
  refine ⟨fun {k f} hf => ?_⟩
  obtain ⟨f', hf', hlen, hnames⟩ := h₁.more hf
  obtain ⟨f'', hf'', hlen', hnames'⟩ := h₂.more hf'
  exact ⟨f'', hf'', Nat.le_trans hlen hlen', fun x hx => hnames' x (hnames x hx)⟩

theorem inherits_withFragment (F : Nat → Option Fragment) (start : Nat) {f f' : Fragment}
    (hlen : f.neededStack.length ≤ f'.neededStack.length)
    (hnames : ∀ x ∈ f.neededNames, x ∈ f'.neededNames) :
    Inherits (withFragment F start f) (withFragment F start f') := by
  refine ⟨fun {k f₁} hf₁ => ?_⟩
  rcases withFragment_cases hf₁ with ⟨rfl, rfl⟩ | ⟨hk, hf₁⟩
  · exact ⟨f', withFragment_self _ _ _, hlen, hnames⟩
  · exact ⟨f₁, (withFragment_of_ne _ hk).trans hf₁, Nat.le_refl _, fun _ hx => hx⟩

section Rounds

variable {names : List String} {v w : Nat} {bs : List Block} {F : Nat → Option Fragment} {b : Block}

theorem threaded_inheritName (hbs : (bs.map (·.start)).Nodup) (hb : b ∈ bs) {s : Fragment × Graph}
    (h : Threaded names v w bs s.2 (withFragment F b.start s.1)) {x : String} (hx : x ∈ names) :
    Threaded names v w bs (Fragment.inheritName s x).2
        (withFragment F b.start (Fragment.inheritName s x).1) ∧
      Inherits (withFragment F b.start s.1)
        (withFragment F b.start (Fragment.inheritName s x).1) := by
  obtain ⟨f, g⟩ := s
  by_cases hknown : f.finalNames.contains x = true
  · simp only [Fragment.inheritName, if_pos hknown]
    exact ⟨h, .refl _⟩
  · have hm := h.assembled.fragment_of_mem hb (withFragment_self _ _ _)
    have hnot : x ∉ f.finalNames := hknown
    have hneeds : x ∉ f.neededNames := fun hmem => by
      rw [Std.TreeMap.mem_iff_isSome_getElem?, Option.isSome_iff_exists] at hmem
      obtain ⟨n, hn⟩ := hmem
      exact hnot (hm.sound.known (n := n) hn)
    have heq : Fragment.inheritName (f, g) x =
        (f.withName x g.nodes.size, g.addNode .input []) := by
      simp only [Fragment.inheritName, if_neg hknown]
      rfl
    have hins : ∀ y, y ∈ (f.withName x g.nodes.size).neededNames ↔ x = y ∨ y ∈ f.neededNames := by
      intro y
      simp [Fragment.withName]
    rw [heq]
    refine ⟨?_, inherits_withFragment _ _ (Nat.le_refl _) fun y hy => (hins y).mpr (.inr hy)⟩
    have h' := h.demand hbs hb (withFragment_self _ _ _) (hm.demand_withName hnot)
      (Fragment.weight_withName _ hneeds) fun y hy => ((hins y).mp hy).elim
        (fun hxy => .inr (hxy ▸ hx)) .inl
    rwa [withFragment_withFragment] at h'

theorem threaded_inheritOperand (hbs : (bs.map (·.start)).Nodup) (hb : b ∈ bs)
    {s : Fragment × Graph} (h : Threaded names v w bs s.2 (withFragment F b.start s.1)) :
    Threaded names v w bs (Fragment.inheritOperand s).2
        (withFragment F b.start (Fragment.inheritOperand s).1) ∧
      Inherits (withFragment F b.start s.1)
        (withFragment F b.start (Fragment.inheritOperand s).1) := by
  obtain ⟨f, g⟩ := s
  have h' := h.demand hbs hb (withFragment_self _ _ _) f.demand_withOperand
    (f.weight_withOperand _) fun _ hx => .inl hx
  rw [withFragment_withFragment] at h'
  exact ⟨h', inherits_withFragment _ _ (Nat.le_succ _) fun _ hx => hx⟩

theorem threaded_inheritNames (hbs : (bs.map (·.start)).Nodup) (hb : b ∈ bs) {xs : List String}
    (hxs : ∀ x ∈ xs, x ∈ names) {s : Fragment × Graph}
    (h : Threaded names v w bs s.2 (withFragment F b.start s.1)) :
    Threaded names v w bs (xs.foldl Fragment.inheritName s).2
        (withFragment F b.start (xs.foldl Fragment.inheritName s).1) ∧
      Inherits (withFragment F b.start s.1)
        (withFragment F b.start (xs.foldl Fragment.inheritName s).1) := by
  induction xs generalizing s with
  | nil => exact ⟨h, .refl _⟩
  | cons x xs ih =>
    obtain ⟨h₁, hle₁⟩ := threaded_inheritName hbs hb h (hxs x List.mem_cons_self)
    obtain ⟨h₂, hle₂⟩ := ih (fun y hy => hxs y (List.mem_cons_of_mem x hy)) h₁
    exact ⟨h₂, hle₁.trans hle₂⟩

theorem threaded_inheritOperands (hbs : (bs.map (·.start)).Nodup) (hb : b ∈ bs) (n : Nat)
    {s : Fragment × Graph} (h : Threaded names v w bs s.2 (withFragment F b.start s.1)) :
    Threaded names v w bs (Fragment.inheritOperands n s).2
        (withFragment F b.start (Fragment.inheritOperands n s).1) ∧
      Inherits (withFragment F b.start s.1)
        (withFragment F b.start (Fragment.inheritOperands n s).1) := by
  induction n generalizing s with
  | zero => exact ⟨h, .refl _⟩
  | succ n ih =>
    obtain ⟨h₁, hle₁⟩ := threaded_inheritOperand hbs hb h
    obtain ⟨h₂, hle₂⟩ := ih h₁
    exact ⟨h₂, hle₁.trans hle₂⟩

namespace Assembly

variable {a a' : Assembly} {limit : Nat}

theorem threaded_supply (hbs : (bs.map (·.start)).Nodup) (hb : b ∈ bs)
    (h : Threaded names v w bs a.graph a.table) {xs : List String} (hxs : ∀ x ∈ xs, x ∈ names)
    (depth : Nat) :
    Threaded names v w bs (supply xs depth a b.start).graph (supply xs depth a b.start).table ∧
      Inherits a.table (supply xs depth a b.start).table := by
  obtain ⟨f, hf, -⟩ := h.assembled.models hb
  have hf' : a.fragments[b.start]? = some f := hf
  have hself := withFragment_eq_self hf
  have h₀ : Threaded names v w bs (f, a.graph).2 (withFragment a.table b.start (f, a.graph).1) := by
    rwa [hself]
  obtain ⟨h₁, hle₁⟩ := threaded_inheritNames hbs hb hxs h₀
  obtain ⟨h₂, hle₂⟩ := threaded_inheritOperands hbs hb
    (depth - (xs.foldl Fragment.inheritName (f, a.graph)).1.finalStack.length) h₁
  have hle := hle₁.trans hle₂
  rw [hself] at hle
  rw [supply, hf']
  simp only [table_insert]
  exact ⟨h₂, hle⟩

theorem threaded_supplies (hbs : (bs.map (·.start)).Nodup)
    (h : Threaded names v w bs a.graph a.table) {xs : List String} (hxs : ∀ x ∈ xs, x ∈ names)
    (depth : Nat) {preds : List Nat} (hpreds : ∀ p ∈ preds, ∃ c ∈ bs, c.start = p) :
    Threaded names v w bs (preds.foldl (supply xs depth) a).graph
        (preds.foldl (supply xs depth) a).table ∧
      Inherits a.table (preds.foldl (supply xs depth) a).table := by
  induction preds generalizing a with
  | nil => exact ⟨h, .refl _⟩
  | cons p preds ih =>
    obtain ⟨c, hc, rfl⟩ := hpreds p List.mem_cons_self
    obtain ⟨h₁, hle₁⟩ := threaded_supply hbs hc h hxs depth
    obtain ⟨h₂, hle₂⟩ := ih h₁ fun q hq => hpreds q (List.mem_cons_of_mem _ hq)
    exact ⟨h₂, hle₁.trans hle₂⟩

/-- What a block may inherit where propagation goes on. -/
structure Admitted (limit : Nat) (F : Nat → Option Fragment) (b : Block) : Prop where
  depth : ∀ {f : Fragment}, F b.start = some f → f.neededStack.length ≤ limit
  entry : ∀ {f : Fragment}, b.start = 0 → F b.start = some f →
    f.neededStack = [] ∧ ∀ x, x ∉ f.neededNames

theorem Admitted.of_inherits {F' : Nat → Option Fragment} (h : Admitted limit F' b)
    (hle : Inherits F F') : Admitted limit F b where
  depth hf := by
    obtain ⟨f', hf', hlen, -⟩ := hle.more hf
    exact Nat.le_trans hlen (h.depth hf')
  entry hb hf := by
    obtain ⟨f', hf', hlen, hnames⟩ := hle.more hf
    obtain ⟨hstack, hkeys⟩ := h.entry hb hf'
    rw [hstack] at hlen
    exact ⟨List.eq_nil_of_length_eq_zero (Nat.le_zero.mp hlen),
      fun x hx => hkeys x (hnames x hx)⟩

theorem threaded_propagateBlock (hbs : (bs.map (·.start)).Nodup) (hb : b ∈ bs)
    (hpreds : ∀ p ∈ b.preds, ∃ c ∈ bs, c.start = p) (h : Threaded names v w bs a.graph a.table)
    (hok : propagateBlock limit a b = .ok a') :
    (Threaded names v w bs a'.graph a'.table ∧ Inherits a.table a'.table) ∧
      Admitted limit a.table b := by
  obtain ⟨f, hf, -⟩ := h.assembled.models hb
  have hf' : a.fragments[b.start]? = some f := hf
  have huniq : ∀ {f' : Fragment}, a.table b.start = some f' → f' = f := fun h' =>
    Option.some.inj (h'.symm.trans hf)
  rw [propagateBlock, hf'] at hok
  simp only at hok
  split at hok
  · cases hok
  · next hdepth =>
    split at hok
    · next hstart =>
      split at hok
      · cases hok
      · next hzero =>
        split at hok
        · cases hok
        · next hkeys =>
          cases hok
          refine ⟨⟨h, .refl _⟩, fun hf₁ => ?_, fun _ hf₁ => ?_⟩
          · rw [huniq hf₁]
            omega
          · rw [huniq hf₁]
            refine ⟨List.eq_nil_of_length_eq_zero (by omega), fun x hx => ?_⟩
            have hmem := Std.TreeMap.mem_keys.mpr hx
            rw [hkeys] at hmem
            cases hmem
    · next hstart =>
      cases hok
      have hxs : ∀ x ∈ f.neededNames.keys, x ∈ names := fun x hx =>
        h.named hb hf x (Std.TreeMap.mem_keys.mp hx)
      refine ⟨threaded_supplies hbs h hxs _ hpreds, fun hf₁ => ?_, fun hzero => ?_⟩
      · rw [huniq hf₁]
        omega
      · exact absurd hzero hstart

theorem threaded_propagateRound (hbs : (bs.map (·.start)).Nodup)
    (hpreds : ∀ b ∈ bs, ∀ p ∈ b.preds, ∃ c ∈ bs, c.start = p) {rest : List Block}
    (hrest : ∀ b ∈ rest, b ∈ bs) (h : Threaded names v w bs a.graph a.table)
    (hok : propagateRound limit rest a = .ok a') :
    (Threaded names v w bs a'.graph a'.table ∧ Inherits a.table a'.table) ∧
      ∀ b ∈ rest, Admitted limit a.table b := by
  induction rest generalizing a with
  | nil =>
    cases hok
    exact ⟨⟨h, .refl _⟩, by simp⟩
  | cons b rest ih =>
    have hb := hrest b List.mem_cons_self
    rw [propagateRound] at hok
    cases hblock : propagateBlock limit a b with
    | error e =>
      rw [hblock] at hok
      cases hok
    | ok a₁ =>
      rw [hblock] at hok
      obtain ⟨⟨h₁, hle₁⟩, hadm⟩ := threaded_propagateBlock hbs hb (hpreds b hb) h hblock
      obtain ⟨⟨h₂, hle₂⟩, hadms⟩ := ih (fun c hc => hrest c (List.mem_cons_of_mem b hc)) h₁ hok
      refine ⟨⟨h₂, hle₁.trans hle₂⟩, fun c hc => ?_⟩
      rcases List.mem_cons.mp hc with rfl | hc
      · exact hadm
      · exact (hadms c hc).of_inherits hle₁

end Assembly

/-! ## The bound on the rounds -/

theorem Fragment.weight_le {f : Fragment} {limit : Nat} (hstack : f.neededStack.length ≤ limit)
    (hnames : ∀ x ∈ f.neededNames, x ∈ names) (hlen : names.length ≤ limit) :
    f.weight ≤ 2 * limit := by
  have hsub : List.Subperm f.neededNames.keys names :=
    f.neededNames.nodup_keys.subperm fun x hx => hnames x (Std.TreeMap.mem_keys.mp hx)
  have hsize := hsub.length_le
  rw [Std.TreeMap.length_keys] at hsize
  unfold weight
  omega

theorem Fragment.weight_eq_zero {f : Fragment} :
    f.weight = 0 ↔ f.neededStack = [] ∧ ∀ x, x ∉ f.neededNames := by
  have hkeys : f.neededNames.size = 0 ↔ ∀ x, x ∉ f.neededNames := by
    rw [← Std.TreeMap.length_keys, List.length_eq_zero_iff, List.eq_nil_iff_forall_not_mem]
    exact forall_congr' fun x => not_congr Std.TreeMap.mem_keys
  rw [weight, Nat.add_eq_zero_iff, List.length_eq_zero_iff, hkeys]

/-- Where every block is admitted, the blocks inherit less than the rounds allow for. -/
theorem totalWeight_le {g : Graph} {limit : Nat} (h : Threaded names v w bs g F)
    (hlen : names.length ≤ limit) (hadm : ∀ b ∈ bs, Assembly.Admitted limit F b)
    (hentry : ∃ b ∈ bs, b.start = 0) :
    totalWeight F bs + 2 * limit ≤ 2 * limit * bs.length := by
  let u : Block → Nat := fun b => ((F b.start).map (·.weight)).getD 0
  have hle : ∀ b ∈ bs, u b ≤ 2 * limit := by
    intro b hb
    obtain ⟨f, hf, -⟩ := h.assembled.models hb
    have hw := Fragment.weight_le ((hadm b hb).depth hf) (h.named hb hf) hlen
    simpa [u, hf] using hw
  have hsum : ∀ {l : List Block}, (∀ b ∈ l, u b ≤ 2 * limit) →
      (l.map u).sum ≤ 2 * limit * l.length := by
    intro l hl
    induction l with
    | nil => simp
    | cons c l ih =>
      have hc := hl c List.mem_cons_self
      have := ih fun b hb => hl b (List.mem_cons_of_mem c hb)
      rw [List.map_cons, List.sum_cons, List.length_cons, Nat.mul_succ]
      omega
  obtain ⟨b, hb, hzero⟩ := hentry
  obtain ⟨f, hf, -⟩ := h.assembled.models hb
  have hub : u b = 0 := by
    have hw := Fragment.weight_eq_zero.mpr ((hadm b hb).entry hzero hf)
    simp [u, hf, hw]
  -- the block at index 0 counts for nothing, so one summand of the bound is to spare
  obtain ⟨l₁, l₂, rfl⟩ := List.append_of_mem hb
  have h₁ := hsum (l := l₁) fun c hc => hle c (List.mem_append_left _ hc)
  have h₂ := hsum (l := l₂) fun c hc => hle c (List.mem_append_right _ (List.mem_cons_of_mem b hc))
  have hmul : 2 * limit * (l₁ ++ b :: l₂).length =
      2 * limit * l₁.length + (2 * limit * l₂.length + 2 * limit) := by
    rw [List.length_append, List.length_cons, Nat.mul_add, Nat.mul_succ]
  change ((l₁ ++ b :: l₂).map u).sum + 2 * limit ≤ _
  rw [hmul, List.map_append, List.sum_append, List.map_cons, List.sum_cons, hub]
  omega

namespace Assembly

variable {a a' : Assembly} {limit : Nat}

/-- Rounds repeated from `a` without a bound end with `r`: with the error of a round, or with the
first round that adds nothing. -/
inductive Settles (limit : Nat) (bs : List Block) :
    Assembly → Except BuildError Assembly → Prop where
  | fails {a : Assembly} {e : BuildError} (round : propagateRound limit bs a = .error e) :
    Settles limit bs a (.error e)
  | rests {a next : Assembly} (round : propagateRound limit bs a = .ok next)
    (quiet : next.graph.freshNode = a.graph.freshNode) : Settles limit bs a (.ok next)
  | again {a next : Assembly} {r : Except BuildError Assembly}
    (round : propagateRound limit bs a = .ok next)
    (more : next.graph.freshNode ≠ a.graph.freshNode) (rest : Settles limit bs next r) :
    Settles limit bs a r

/-- The rounds given are enough for the rounds to end by themselves. -/
theorem settles_propagateRounds (hbs : (bs.map (·.start)).Nodup)
    (hpreds : ∀ b ∈ bs, ∀ p ∈ b.preds, ∃ c ∈ bs, c.start = p) (hlen : names.length ≤ limit)
    (hentry : ∃ b ∈ bs, b.start = 0) {rounds : Nat}
    (hrounds : 2 * limit * bs.length + 2 ≤ totalWeight a.table bs + rounds + 2 * limit)
    (hpos : 1 ≤ rounds) (h : Threaded names v w bs a.graph a.table) :
    Settles limit bs a (propagateRounds limit bs rounds a) := by
  induction rounds generalizing a with
  | zero => exact absurd hpos (Nat.not_succ_le_zero 0)
  | succ rounds ih =>
    rw [propagateRounds]
    cases hround : propagateRound limit bs a with
    | error e => exact .fails hround
    | ok next =>
      simp only
      by_cases hfresh : next.graph.freshNode = a.graph.freshNode
      · rw [if_pos hfresh]
        exact .rests hround hfresh
      · -- each node added is one more value that a block inherits
        rw [if_neg hfresh]
        obtain ⟨⟨hnext, -⟩, hadm⟩ := threaded_propagateRound hbs hpreds (fun _ hb => hb) h hround
        have hweight := totalWeight_le h hlen hadm hentry
        have hle := (propagateRound_quiet hround).1
        have hdiff : next.graph.nodes.size ≠ a.graph.nodes.size := hfresh
        have hsize := h.weight
        have hsize' := hnext.weight
        exact .again hround hfresh (ih (by omega) (by omega) hnext)

/-- Rounds that end without an error end with one that adds nothing. -/
theorem Settles.last (hbs : (bs.map (·.start)).Nodup)
    (hpreds : ∀ b ∈ bs, ∀ p ∈ b.preds, ∃ c ∈ bs, c.start = p)
    (h : Threaded names v w bs a.graph a.table) (hr : Settles limit bs a (.ok a')) :
    ∃ last : Assembly, Threaded names v w bs last.graph last.table ∧
      propagateRound limit bs last = .ok a' ∧ a'.graph.nodes.size = last.graph.nodes.size := by
  generalize hok : Except.ok a' = r at hr
  induction hr with
  | fails _ => cases hok
  | rests round quiet =>
    cases hok
    exact ⟨_, h, round, quiet⟩
  | again round _ _ ih =>
    exact ih (threaded_propagateRound hbs hpreds (fun _ hb => hb) h round).1.1 hok

/-- Propagation is the rounds repeated until they end by themselves. -/
theorem settles_propagate (hbs : (bs.map (·.start)).Nodup)
    (hpreds : ∀ b ∈ bs, ∀ p ∈ b.preds, ∃ c ∈ bs, c.start = p) (hlen : names.length ≤ limit)
    (hentry : ∃ b ∈ bs, b.start = 0) (hlimit : 0 < limit)
    (h : Threaded names v w bs a.graph a.table) :
    Settles limit bs a (a.propagate limit bs) :=
  settles_propagateRounds hbs hpreds hlen hentry (by omega) (by omega) h

/-- Propagation leaves fragments assembled in which the block at index 0 inherits nothing and the
others inherit what their predecessors have. -/
theorem propagate_spec (hbs : (bs.map (·.start)).Nodup)
    (hpreds : ∀ b ∈ bs, ∀ p ∈ b.preds, ∃ c ∈ bs, c.start = p) (hlen : names.length ≤ limit)
    (hentry : ∃ b ∈ bs, b.start = 0) (hlimit : 0 < limit)
    (h : Threaded names v w bs a.graph a.table) (hok : a.propagate limit bs = .ok a') :
    Assembled a'.graph a'.table bs ∧
      (∀ b ∈ bs, b.start = 0 → ∀ {f : Fragment}, a'.table b.start = some f →
        f.neededStack = [] ∧ ∀ x, x ∉ f.neededNames) ∧ ∀ b ∈ bs, Provided a'.table b := by
  have hsettles := settles_propagate hbs hpreds hlen hentry hlimit h
  rw [hok] at hsettles
  obtain ⟨last, hlast, hround, hsize⟩ := hsettles.last hbs hpreds h
  obtain ⟨⟨hthreaded', -⟩, hadm⟩ :=
    threaded_propagateRound hbs hpreds (fun _ hb => hb) hlast hround
  obtain ⟨htable, hprovided⟩ := (propagateRound_quiet hround).2 hsize
  refine ⟨hthreaded'.assembled, ?_⟩
  rw [htable]
  exact ⟨fun b hb hzero _ hf => (hadm b hb).entry hzero hf, hprovided⟩

end Assembly

end Rounds

end StackJit
