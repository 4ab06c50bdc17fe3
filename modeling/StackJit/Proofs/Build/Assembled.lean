import Mathlib.Data.List.Nodup
import StackJit.Build.Assembly
import StackJit.Proofs.Build.Run

/-!
# Graphs of lowered blocks

`Assembled g F bs` is what holds of the graph `g` into which the blocks `bs` have been lowered, with
`F` the fragment of the block at each start, until the fragments are joined: every block has a
fragment that models it, the fragments share nothing, the only open ends of control are the start
node and the ends of the blocks, and regions, placeholders and the finish node have no inputs yet.
-/

namespace StackJit

/-- A fragment as the state in which its block was left. -/
def Fragment.state (f : Fragment) (g : Graph) : Lowering :=
  { graph := g
    neededNames := f.neededNames
    neededStack := f.neededStack
    names := f.finalNames
    stack := f.finalStack.reverse
    latest := f.latest
    controlEnd := f.controlEnd }

theorem Lowering.state_fragment (s : Lowering) (region : NodeId) :
    (s.fragment region).state s.graph = s := by
  simp [Lowering.fragment, Fragment.state]

/-- `f` is what the block `b` was lowered to in `g`, possibly with more placeholders. -/
structure Fragment.Models (f : Fragment) (g : Graph) (b : Block) : Prop where
  sound : (f.state g).Sound f.region
  region : g.op? f.region = some .region
  trace : ∀ {below : List NodeId} {inherited : String → Option NodeId},
    (f.state g).Within below inherited →
      ∃ ctx, Context.Trace g b.start b.live ⟨below, inherited, f.region⟩
          ((f.state g).context below inherited) ctx ∧
        f.latest = Context.latest b.live ctx
  leads : g.Leads f.region f.controlEnd
  returned : b.live.getLast? = some .ret →
    ∃ n rest, f.finalStack.reverse = n :: rest ∧ f.latest = some n
  latest : ∀ n ∈ f.latest, f.region ≤ n ∧ n < g.nodes.size

theorem Fragment.Models.adds {f : Fragment} {g h : Graph} {b : Block} (hm : f.Models g b)
    (hadds : g.Adds h) : f.Models h b where
  sound := by
    obtain ⟨es, hgrow, hes⟩ := hadds
    exact hm.sound.grow hgrow fun e he hop => absurd (hes e he hop) (by simp)
  region := hadds.op_some hm.region
  trace hw := by
    obtain ⟨ctx, htrace, hlatest⟩ := hm.trace ⟨hw.stack, hw.names⟩
    exact ⟨ctx, htrace.extend (hadds.mono fun h => by cases h) hm.sound.consistent, hlatest⟩
  leads := by
    obtain ⟨es, hgrow, -⟩ := hadds
    exact hm.leads.grow hgrow hm.sound.consistent
  returned := hm.returned
  latest n hn := (hm.latest n hn).imp_right fun hlt => Nat.lt_of_lt_of_le hlt hadds.size_le

structure Assembled (g : Graph) (F : Nat → Option Fragment) (bs : List Block) : Prop where
  models : ∀ {b : Block}, b ∈ bs → ∃ f, F b.start = some f ∧ f.Models g b
  region : ∀ {n : NodeId}, g.op? n = some .region →
    g.inputs n = [] ∧ ∃ b ∈ bs, ∃ f, F b.start = some f ∧ f.region = n
  chained : g.Chained fun n =>
    n = g.start ∨ ∃ b ∈ bs, ∃ f, F b.start = some f ∧ f.controlEnd = n
  led : ∀ {n : NodeId} {op : Op}, g.op? n = some op → op.isChained = true →
    ∃ b ∈ bs, ∃ f, F b.start = some f ∧ g.Leads f.region n
  apart : ∀ {b c : Block} {f f' : Fragment}, b ∈ bs → c ∈ bs → F b.start = some f →
    F c.start = some f' → b ≠ c →
      f.region ≠ f'.region ∧ f.controlEnd ≠ f'.controlEnd ∧
        ∀ {a a' : Slot} {n : NodeId}, (f.state g).needs a = some n → (f'.state g).needs a' ≠ some n
  start : g.start = 0 ∧ g.op? 0 = some .start
  finish : g.finish = 1 ∧ g.op? 1 = some .finish ∧ g.inputs 1 = []
  root : g.root = 0
  ops : ∀ {n : NodeId} {op : Op}, g.op? n = some op →
    (n = 0 ∧ op = .start) ∨ (n = 1 ∧ op = .finish) ∨ op = .region ∨ op.isPure = true ∨
      op.isChained = true
  whole : ∀ n : NodeId, g.isRemoved n = false
  vacant : g.Vacant

theorem op?_initial {n : NodeId} {op : Op} (hop : Graph.initial.op? n = some op) :
    (n = 0 ∧ op = .start) ∨ (n = 1 ∧ op = .finish) := by
  match n, hop with
  | 0, hop => exact .inl ⟨rfl, (Option.some.inj hop).symm⟩
  | 1, hop => exact .inr ⟨rfl, (Option.some.inj hop).symm⟩
  | n + 2, hop => simp [Graph.op?, Graph.node?, Graph.initial] at hop

theorem assembled_initial : Assembled .initial (fun _ => none) [] where
  models h := by cases h
  region hop := by rcases op?_initial hop with ⟨-, h⟩ | ⟨-, h⟩ <;> cases h
  chained :=
    { consistent := Graph.consistent_initial
      typed := fun he => by simp [Graph.edge?, Graph.initial] at he
      entered := fun hop hc => by
        rcases op?_initial hop with ⟨-, rfl⟩ | ⟨-, rfl⟩ <;> cases hc
      pending := fun _ => by
        rw [Graph.consistent_initial.exits_eq]
        rfl
      left := fun hop hl hend => by
        rcases op?_initial hop with ⟨rfl, -⟩ | ⟨-, rfl⟩
        · exact absurd (.inl rfl) hend
        · cases hl }
  led hop hc := by rcases op?_initial hop with ⟨-, rfl⟩ | ⟨-, rfl⟩ <;> cases hc
  apart h := by cases h
  start := ⟨rfl, rfl⟩
  finish := ⟨rfl, rfl, rfl⟩
  root := rfl
  ops hop := (op?_initial hop).imp id .inl
  whole n := by
    rcases n with _ | _ | n
    · rfl
    · rfl
    · simp [Graph.isRemoved, Graph.node?, Graph.initial]
  vacant _ hop := by rcases op?_initial hop with ⟨-, h⟩ | ⟨-, h⟩ <;> cases h

theorem sound_atRegion {g : Graph} (hg : g.Consistent) :
    (Lowering.atRegion (g.addNode .region []) g.nodes.size).Sound g.nodes.size where
  consistent := hg.addNode _ _
  stack h := by cases h
  names h := by simp [Lowering.atRegion] at h
  placeholder {a n} h := by cases a <;> simp [Lowering.atRegion, Lowering.needs] at h
  distinct {a b n} h := by cases a <;> simp [Lowering.atRegion, Lowering.needs] at h
  known h := by simp [Lowering.atRegion, Lowering.needs] at h
  control := ⟨Nat.le_refl _, .region, Lowering.op?_addNode_fresh g _ _, rfl⟩

/-- Lowering a block gives a fragment that models it. -/
theorem models_lower {g : Graph} (hg : g.Consistent) (b : Block) :
    (g.lower b.start b.live).1.Models (g.lower b.start b.live).2 b := by
  have hs := sound_atRegion hg
  obtain ⟨hadv, hsound⟩ := Lowering.advances_instrs hs b.start b.live
  have hstate := Lowering.state_fragment
    ((Lowering.atRegion (g.addNode .region []) g.nodes.size).instrs b.start b.live) g.nodes.size
  exact
    { sound := by
        rw [show ((g.lower b.start b.live).1.state (g.lower b.start b.live).2) = _ from hstate]
        exact hsound
      region := hadv.adds.op_some (Lowering.op?_addNode_fresh g _ _)
      trace := by
        rw [show ((g.lower b.start b.live).1.state (g.lower b.start b.live).2) = _ from hstate]
        intro below inherited hw
        obtain ⟨ctx, htrace, hlatest⟩ := Lowering.trace_instrs hs b.start b.live hw
        exact ⟨ctx, htrace, hlatest.trans Option.or_none⟩
      leads := (hadv.leads hs.consistent .refl).1
      returned := fun h => by
        obtain ⟨n, rest, hstack, hlatest⟩ := Lowering.latest_of_ret
          (Lowering.atRegion (g.addNode .region []) g.nodes.size) b.start h
        exact ⟨n, rest, (List.reverse_reverse _).trans hstack, hlatest⟩
      latest := Lowering.latest_instrs hs (by simp [Lowering.atRegion]) b.start b.live }

/-- What lowering a block into `g` does to the graph. -/
structure LoweredInto (g h : Graph) (f : Fragment) : Prop where
  adds : g.Adds h
  start : h.start = g.start
  finish : h.finish = g.finish
  root : h.root = g.root
  removed : ∀ n : NodeId, h.isRemoved n = g.isRemoved n
  region : f.region = g.nodes.size
  inputs : h.inputs g.nodes.size = []
  vacant : g.Vacant → h.Vacant
  cases : ∀ {n : NodeId} {op : Op}, h.op? n = some op →
    (n < g.nodes.size ∧ g.op? n = some op) ∨ (n = g.nodes.size ∧ op = .region) ∨
      op.isPure = true ∨ (g.nodes.size < n ∧ op.isChained = true ∧ h.Leads f.region n)
  chained : ∀ {ends : NodeId → Prop}, (∀ {n : NodeId}, ends n → n < g.nodes.size) →
    g.Chained ends → h.Chained fun n => ends n ∨ n = f.controlEnd

theorem loweredInto_lower {g : Graph} (hg : g.Consistent) (b : Block) :
    LoweredInto g (g.lower b.start b.live).2 (g.lower b.start b.live).1 := by
  have hs := sound_atRegion hg
  obtain ⟨hadv, -⟩ := Lowering.advances_instrs hs b.start b.live
  obtain ⟨es, hgrow, hes⟩ := hadv.adds
  have hadds : (g.addNode .region []).Adds (g.lower b.start b.live).2 := ⟨es, hgrow, hes⟩
  have hall : g.Adds (g.lower b.start b.live).2 := .trans ⟨[], .addNode g _ _, by simp⟩ hadds
  have hop := Lowering.op?_addNode_fresh g .region []
  exact
    { adds := hall
      start := hgrow.start
      finish := hgrow.finish
      root := hgrow.root
      removed := fun n => (hgrow.removed n).trans (Graph.isRemoved_addNode g _ _ n)
      region := rfl
      inputs := by
        rw [hadds.inputs (hg.addNode _ _) hop rfl,
          (Graph.Grows.addNode g .region []).inputs_of_not_target hg _ (by simp)]
        exact hg.inputs_of_ge (Nat.le_refl _)
      vacant := fun hv =>
        hadv.vacant hs.consistent (hv.grow hg (.addNode g _ _) (by simp))
      cases := fun {n op} hn => by
        rcases Nat.lt_trichotomy n g.nodes.size with hlt | rfl | hgt
        · rw [hall.op_of_lt hlt] at hn
          exact .inl ⟨hlt, hn⟩
        · rw [hadds.op_some hop] at hn
          exact .inr (.inl ⟨rfl, (Option.some.inj hn).symm⟩)
        · have hge : (g.addNode .region []).nodes.size ≤ n := by
            rw [Graph.numNodes_addNode]
            exact hgt
          rcases hadv.fresh hge hn with hpure | hchained
          · exact .inr (.inr (.inl hpure))
          · exact .inr (.inr (.inr ⟨hgt, hchained,
              (hadv.leads hs.consistent .refl).2 hge hn hchained⟩))
      chained := fun {ends} hlt hc =>
        (hadv.chained (fun hn => by
          change _ < (g.addNode .region []).nodes.size
          rw [Graph.numNodes_addNode]
          exact Nat.lt_succ_of_lt (hlt hn)) (fun hn => absurd (hlt hn) (Nat.lt_irrefl _))
          hc.addRegion).1 }

/-- Everything of a block that is lowered into `g` is newer than what a fragment has there. -/
theorem LoweredInto.apart {g h : Graph} {f f' : Fragment} {b c : Block} (hl : LoweredInto g h f)
    (hm : f.Models h b) (hm' : f'.Models g c) :
    f'.region ≠ f.region ∧ f'.controlEnd ≠ f.controlEnd ∧
      ∀ {a a' : Slot} {n : NodeId}, (f'.state h).needs a = some n →
        (f.state h).needs a' ≠ some n := by
  have hcontrol := hm.sound.control.1
  rw [hl.region] at hcontrol ⊢
  refine ⟨Nat.ne_of_lt (Graph.op?_lt hm'.region),
    Nat.ne_of_lt (Nat.lt_of_lt_of_le hm'.sound.control_lt hcontrol), ?_⟩
  intro a a' n ha ha'
  have hlt : n < g.nodes.size := Graph.op?_lt (hm'.sound.placeholder (a := a) ha).2.1
  have hgt := (hm.sound.placeholder ha').1
  rw [hl.region] at hgt
  exact absurd hlt (Nat.not_lt.mpr (Nat.le_of_lt hgt))

/-- The fragments with that of the block at `start` set to `f`. -/
def withFragment (F : Nat → Option Fragment) (start : Nat) (f : Fragment) : Nat → Option Fragment :=
  fun k => if k = start then some f else F k

theorem withFragment_self (F : Nat → Option Fragment) (start : Nat) (f : Fragment) :
    withFragment F start f start = some f := if_pos rfl

theorem withFragment_of_ne {F : Nat → Option Fragment} {start k : Nat} (f : Fragment)
    (h : k ≠ start) : withFragment F start f k = F k := if_neg h

theorem withFragment_cases {F : Nat → Option Fragment} {start k : Nat} {f f' : Fragment}
    (h : withFragment F start f k = some f') :
    (k = start ∧ f' = f) ∨ (k ≠ start ∧ F k = some f') := by
  by_cases hk : k = start
  · rw [hk, withFragment_self] at h
    exact .inl ⟨hk, (Option.some.inj h).symm⟩
  · rw [withFragment_of_ne _ hk] at h
    exact .inr ⟨hk, h⟩

namespace Assembled

variable {g : Graph} {F : Nat → Option Fragment} {bs : List Block}

theorem consistent (h : Assembled g F bs) : g.Consistent := h.chained.consistent

theorem start_lt (h : Assembled g F bs) : g.start < g.nodes.size := by
  rw [h.start.1]
  exact Graph.op?_lt h.start.2

theorem fragment_of_mem (h : Assembled g F bs) {b : Block} {f : Fragment} (hb : b ∈ bs)
    (hf : F b.start = some f) : f.Models g b := by
  obtain ⟨f', hf', hm⟩ := h.models hb
  obtain rfl : f = f' := Option.some.inj (hf.symm.trans hf')
  exact hm

/-- The finish node comes before the nodes of the blocks. -/
theorem not_finish_of_le (h : Assembled g F bs) {b : Block} {f : Fragment} (hb : b ∈ bs)
    (hf : F b.start = some f) {n : NodeId} (hn : f.region ≤ n) : g.op? n ≠ some .finish := by
  intro hop
  have hone : n = 1 := by
    rcases h.ops hop with ⟨-, h⟩ | ⟨h, -⟩ | h | h | h
    · cases h
    · exact h
    · cases h
    · cases h
    · cases h
  have hregion := (h.fragment_of_mem hb hf).region
  match hr : f.region, hone ▸ hn with
  | 0, _ =>
    rw [hr, h.start.2] at hregion
    cases hregion
  | 1, _ =>
    rw [hr, h.finish.2.1] at hregion
    cases hregion

theorem ends_lt (h : Assembled g F bs) {n : NodeId}
    (hn : n = g.start ∨ ∃ b ∈ bs, ∃ f, F b.start = some f ∧ f.controlEnd = n) :
    n < g.nodes.size := by
  rcases hn with rfl | ⟨b, hb, f, hf, rfl⟩
  · exact h.start_lt
  · exact (h.fragment_of_mem hb hf).sound.control_lt

/-- A member of the list with one more block is that block or an old one with its old fragment. -/
theorem mem_cases {b c : Block} {f f' : Fragment} (hb : ∀ c ∈ bs, c.start ≠ b.start)
    (hc : c ∈ bs ++ [b]) (hf : withFragment F b.start f c.start = some f') :
    (c = b ∧ f' = f) ∨ (c ∈ bs ∧ F c.start = some f') := by
  rcases List.mem_append.mp hc with hc | hc
  · rw [withFragment_of_ne _ (hb c hc)] at hf
    exact .inr ⟨hc, hf⟩
  · obtain rfl := List.mem_singleton.mp hc
    rw [withFragment_self] at hf
    exact .inl ⟨rfl, (Option.some.inj hf).symm⟩

theorem fragment_of_old {b c : Block} {f' : Fragment} (f : Fragment)
    (hb : ∀ c ∈ bs, c.start ≠ b.start) (hc : c ∈ bs) (hf : F c.start = some f') :
    withFragment F b.start f c.start = some f' := by
  rw [withFragment_of_ne _ (hb c hc)]
  exact hf

/-- Some fragment with a property is one of the old ones or that of the block that was added. -/
theorem exists_fragment_append {b : Block} {f : Fragment} {P : Fragment → Prop}
    (hb : ∀ c ∈ bs, c.start ≠ b.start) :
    (∃ c ∈ bs ++ [b], ∃ f', withFragment F b.start f c.start = some f' ∧ P f') ↔
      (∃ c ∈ bs, ∃ f', F c.start = some f' ∧ P f') ∨ P f := by
  constructor
  · rintro ⟨c, hc, f', hf', hP⟩
    rcases mem_cases hb hc hf' with ⟨-, rfl⟩ | ⟨hc, hf'⟩
    · exact .inr hP
    · exact .inl ⟨c, hc, f', hf', hP⟩
  · rintro (⟨c, hc, f', hf', hP⟩ | hP)
    · exact ⟨c, List.mem_append_left _ hc, f', fragment_of_old f hb hc hf', hP⟩
    · exact ⟨b, List.mem_append_right _ List.mem_cons_self, f, withFragment_self F b.start f, hP⟩

theorem addBlock (h : Assembled g F bs) {b : Block} (hb : ∀ c ∈ bs, c.start ≠ b.start) :
    Assembled (g.lower b.start b.live).2
      (withFragment F b.start (g.lower b.start b.live).1) (bs ++ [b]) := by
  have hm := models_lower h.consistent b
  have hl := loweredInto_lower h.consistent b
  generalize hf : (g.lower b.start b.live).1 = f at hm hl ⊢
  generalize hg : (g.lower b.start b.live).2 = g' at hm hl ⊢
  refine
    { models := ?_, region := ?_, chained := ?_, led := ?_, apart := ?_, start := ?_, finish := ?_
      root := hl.root.trans h.root, ops := ?_, whole := fun n => (hl.removed n).trans (h.whole n)
      vacant := hl.vacant h.vacant }
  · intro c hc
    rcases List.mem_append.mp hc with hc | hc
    · obtain ⟨f', hf', hm'⟩ := h.models hc
      exact ⟨f', fragment_of_old f hb hc hf', hm'.adds hl.adds⟩
    · obtain rfl := List.mem_singleton.mp hc
      exact ⟨f, withFragment_self F c.start f, hm⟩
  · intro n hop
    rw [exists_fragment_append hb]
    rcases hl.cases hop with ⟨-, hop⟩ | ⟨rfl, -⟩ | hpure | ⟨-, hchained, -⟩
    · obtain ⟨hin, hold⟩ := h.region hop
      exact ⟨(hl.adds.inputs h.consistent hop rfl).trans hin, .inl hold⟩
    · exact ⟨hl.inputs, .inr hl.region⟩
    · cases hpure
    · cases hchained
  · refine (hl.chained h.ends_lt h.chained).congr fun n => ?_
    rw [hl.start, exists_fragment_append hb, ← or_assoc, eq_comm (a := f.controlEnd)]
  · intro n op hop hchained
    rw [exists_fragment_append hb]
    rcases hl.cases hop with ⟨-, hop⟩ | ⟨-, rfl⟩ | hpure | ⟨-, -, hleads⟩
    · obtain ⟨c, hc, f', hf', hleads⟩ := h.led hop hchained
      obtain ⟨es, hgrow, -⟩ := hl.adds
      exact .inl ⟨c, hc, f', hf', hleads.grow hgrow h.consistent⟩
    · cases hchained
    · rw [Op.not_isChained_of_isPure hpure] at hchained
      cases hchained
    · exact .inr hleads
  · intro c d f₁ f₂ hc hd hf₁ hf₂ hne
    rcases mem_cases hb hc hf₁ with ⟨rfl, rfl⟩ | ⟨hc', hf₁'⟩ <;>
      rcases mem_cases hb hd hf₂ with ⟨rfl, rfl⟩ | ⟨hd', hf₂'⟩
    · exact absurd rfl hne
    · obtain ⟨hr, hcontrol, hneeds⟩ := hl.apart hm (h.fragment_of_mem hd' hf₂')
      exact ⟨hr.symm, hcontrol.symm, fun ha ha' => hneeds ha' ha⟩
    · exact hl.apart hm (h.fragment_of_mem hc' hf₁')
    · exact h.apart hc' hd' hf₁' hf₂' hne
  · rw [hl.start]
    exact ⟨h.start.1, hl.adds.op_some h.start.2⟩
  · rw [hl.finish]
    exact ⟨h.finish.1, hl.adds.op_some h.finish.2.1,
      (hl.adds.inputs h.consistent h.finish.2.1 rfl).trans h.finish.2.2⟩
  · intro n op hop
    rcases hl.cases hop with ⟨-, hop⟩ | ⟨-, rfl⟩ | hpure | ⟨-, hchained, -⟩
    · exact h.ops hop
    · exact .inr (.inr (.inl rfl))
    · exact .inr (.inr (.inr (.inl hpure)))
    · exact .inr (.inr (.inr (.inr hchained)))

end Assembled

namespace Assembly

/-- The fragment of the block at each start. -/
def table (a : Assembly) : Nat → Option Fragment := fun k => a.fragments[k]?

theorem table_insert (g : Graph) (m : Std.TreeMap Nat Fragment) (start : Nat) (f : Fragment) :
    Assembly.table ⟨g, m.insert start f⟩ = withFragment (fun k => m[k]?) start f := by
  funext k
  simp only [table, withFragment, Std.TreeMap.getElem?_insert, Std.LawfulEqOrd.compare_eq_iff_eq]
  exact if_congr eq_comm rfl rfl

/-- What lowering one more block keeps holds when all blocks have been lowered. -/
theorem ofBlocks_induct {P : List Block → Assembly → Prop} (h : P [] ⟨.initial, ∅⟩)
    (hadd : ∀ {done : List Block} {a : Assembly} {b : Block}, (∀ c ∈ done, c.start ≠ b.start) →
      P done a → P (done ++ [b]) (a.addBlock b))
    {bs : List Block} (hbs : (bs.map (·.start)).Nodup) : P bs (ofBlocks bs) := by
  suffices hgen : ∀ (rest done : List Block) (a : Assembly), P done a →
      ((done ++ rest).map (·.start)).Nodup → P (done ++ rest) (rest.foldl addBlock a) from
    hgen bs [] _ h hbs
  intro rest
  induction rest with
  | nil => exact fun done a h _ => by simpa using h
  | cons b rest ih =>
    intro done a h hnodup
    have hb : ∀ c ∈ done, c.start ≠ b.start := by
      intro c hc heq
      rw [List.map_append, List.map_cons] at hnodup
      exact List.disjoint_of_nodup_append hnodup (List.mem_map_of_mem hc)
        (heq ▸ List.mem_cons_self)
    have := ih (done ++ [b]) (a.addBlock b) (hadd hb h) (by simpa using hnodup)
    simpa using this

theorem table_empty (g : Graph) : Assembly.table ⟨g, ∅⟩ = fun _ => none := by
  funext k
  simp [table]

theorem assembled_ofBlocks {bs : List Block} (hbs : (bs.map (·.start)).Nodup) :
    Assembled (ofBlocks bs).graph (ofBlocks bs).table bs := by
  refine ofBlocks_induct (P := fun bs a => Assembled a.graph a.table bs) ?_ (fun hb h => ?_) hbs
  · rw [table_empty]
    exact assembled_initial
  · rw [addBlock, table_insert]
    exact h.addBlock hb

/-- Every fragment is that of one of the blocks. -/
theorem lower_of_table {rest : List Block} {a : Assembly} {k : Nat} {f : Fragment}
    (h : (rest.foldl addBlock a).table k = some f) :
    a.table k = some f ∨ ∃ b ∈ rest, ∃ g : Graph, f = (g.lower b.start b.live).1 ∧ k = b.start := by
  induction rest generalizing a with
  | nil => exact .inl h
  | cons b rest ih =>
    rcases ih h with h | ⟨c, hc, g, hf, hk⟩
    · rw [addBlock, table_insert] at h
      rcases withFragment_cases h with ⟨hk, rfl⟩ | ⟨-, h⟩
      · exact .inr ⟨b, List.mem_cons_self, a.graph, rfl, hk⟩
      · exact .inl h
    · exact .inr ⟨c, List.mem_cons_of_mem b hc, g, hf, hk⟩

/-- A block comes to read only locals that some block loads. -/
theorem mem_neededNames_ofBlocks {bs : List Block} {k : Nat} {f : Fragment}
    (h : (ofBlocks bs).table k = some f) {x : String} (hx : x ∈ f.neededNames) :
    ∃ b ∈ bs, .load x ∈ b.live := by
  rcases lower_of_table h with h | ⟨b, hb, g, rfl, -⟩
  · simp [table] at h
  · rcases Lowering.mem_neededNames_instrs.mp hx with hx | ⟨-, before, after, hlive, -⟩
    · simp [Lowering.atRegion] at hx
    · exact ⟨b, hb, by simp [hlive]⟩

end Assembly

end StackJit
