import StackJit.Proofs.Available
import StackJit.Proofs.Frames

/-!
# Executing a graph that realizes the graph of a method

The machine and the token go through a method side by side. Whenever the machine is before an
instruction, the nodes of its context stand for the values of its frame (`Execution.Stands`), and
the token has left the last node that control passed and that is still in the graph (`Graph.Past`).

Main statement: `Translation.reaches_of_run`.
-/

namespace StackJit

/-- A node of the built graph stands for a value: the node that it was replaced by, if it is still
there, evaluates to it. -/
def Execution.Stands (x : Execution) (σ : NodeId → NodeId) (store : NodeId → Option Value)
    (n : NodeId) (v : Value) : Prop :=
  ¬ x.graph.Gone (σ n) → ∃ d, x.value store d (σ n) = some v

namespace Graph

/-- The token is on the edge `i`, by which it left a node in a role. -/
structure Left (g c : Graph) (i : EdgeId) (x : NodeId) (ρ : Role) : Prop where
  lt : x < g.nodes.size
  live : ¬ c.Gone x
  exit : ∃ e, (i, e) ∈ c.exits x ∧ e.output = ρ

/-- The token on the edge `i` of `c` is on its way to the edge `j` of `g`. -/
def Heads (g c : Graph) (j i : EdgeId) : Prop :=
  ∃ x ρ, g.Left c i x ρ ∧ g.Arrives c.Gone x ρ j

/-- The token on the edge `i` of `c` has passed the node `y` of `g`. -/
def Past (g c : Graph) (y : NodeId) (i : EdgeId) : Prop :=
  g.Left c i y .control ∨
    c.Gone y ∧ ∃ j e, g.Heads c j i ∧ g.edge? j = some e ∧ e.target = y

variable {g c : Graph} {y : NodeId} {i j : EdgeId} {e : Edge}

theorem Past.heads (h : g.Past c y i) (hj : (j, e) ∈ g.exits y) (hrole : e.output = .control) :
    g.Heads c j i := by
  rcases h with hleft | ⟨hgone, j', e', ⟨x, ρ, hleft, harrives⟩, he', rfl⟩
  · exact ⟨y, .control, hleft, .exit hj hrole⟩
  · exact ⟨x, ρ, hleft, harrives.pass he' hgone hj⟩

theorem Heads.past (h : g.Heads c j i) (he : g.edge? j = some e) (hgone : c.Gone e.target) :
    g.Past c e.target i :=
  .inr ⟨hgone, j, e, h, he, rfl⟩

end Graph

namespace Execution

variable {x : Execution} {g : Graph} {σ : NodeId → NodeId} {store store' : NodeId → Option Value}
  {n m : NodeId} {v : Value}

theorem Stands.congr (h : x.Stands σ store n v)
    (hstore : ∀ l, x.graph.Reads (σ n) l → store l = store' l) : x.Stands σ store' n v := by
  intro hlive
  obtain ⟨d, hv⟩ := h hlive
  exact ⟨d, by rw [← value_congr hstore]; exact hv⟩

theorem Stands.of_eq (h : x.Stands σ store m v) (heq : σ m = σ n) : x.Stands σ store n v := by
  intro hlive
  rw [← heq] at hlive ⊢
  exact h hlive

/-- A placeholder stands for what its source stands for. -/
theorem Stands.input (h : x.Stands σ store m v) (hr : g.Realizes x.graph σ)
    (hop : g.op? n = some .input) (hsource : g.valueSources n = [m]) : x.Stands σ store n v := by
  by_cases hmoved : σ n = n
  · intro hlive
    rw [hmoved] at hlive ⊢
    have hsource' := hr.valueSources_eq hop (by simp) hlive hsource
    obtain ⟨d, hv⟩ := h (hr.live_of_source (hsource' ▸ List.mem_singleton_self _))
    refine ⟨d + 1, ?_⟩
    rw [value, hr.op hop]
    simp only [hsource', hv]
  · exact h.of_eq ((hr.moved hmoved).2 m (by simp [hsource]))

/-- What a node computes from its operands, it stands for. -/
theorem stands_of_computes {a : Activation} (hr : g.Realizes x.graph σ)
    (hreceiver : x.receiver = a.receiver) (hargs : x.args = a.args)
    (hlen : a.args.length ≤ 2 ^ 64) (h : a.Computes g (x.Stands σ store) n v) :
    x.Stands σ store n v := by
  cases h with
  | self label =>
    intro _
    rw [hr.fixed (Graph.op?_of_label? label) (by simp) (by simp)]
    refine ⟨1, ?_⟩
    rw [value, hr.op (Graph.op?_of_label? label), hreceiver]
  | @arg k v label given =>
    intro _
    rw [hr.fixed (Graph.op?_of_label? label) (by simp) (by simp)]
    have hk : k % 18446744073709551616 = k :=
      Nat.mod_eq_of_lt (Nat.lt_of_lt_of_le (List.getElem?_eq_some_iff.mp given).1 hlen)
    refine ⟨1, ?_⟩
    rw [value, hr.op (Graph.op?_of_label? label)]
    simp only [hr.prop label, hargs]
    simp [Value.ofNat, Value.int?, hk, given]
  | constant label =>
    intro _
    rw [hr.fixed (Graph.op?_of_label? label) (by simp) (by simp)]
    refine ⟨1, ?_⟩
    rw [value, hr.op (Graph.op?_of_label? label)]
    simp [hr.prop label]
  | @not m w label inputs operand =>
    intro hlive
    rw [hr.fixed (Graph.op?_of_label? label) (by simp) (by simp)] at hlive ⊢
    have hsource : g.valueSources n = [m] := by
      rw [Graph.valueSources, inputs]
      rfl
    have hsource' := hr.valueSources_eq (Graph.op?_of_label? label) (by simp) hlive hsource
    obtain ⟨d, hv⟩ := operand (hr.live_of_source (hsource' ▸ List.mem_singleton_self _))
    refine ⟨d + 1, ?_⟩
    rw [value, hr.op (Graph.op?_of_label? label)]
    simp only [hsource', hv, Option.map_some]

end Execution

namespace Translation

variable {code : Code} {g : Graph} {t : Translation code g} {x : Execution} {σ : NodeId → NodeId}
  {store : NodeId → Option Value} {i j : EdgeId} {e : Edge} {v : Value}

/-- A token that has left a node slides along new nodes to where control arrives. -/
theorem travels_of_arrives (t : Translation code g) (hr : g.Realizes x.graph σ) {y : NodeId}
    {ρ : Role} {i' : EdgeId} (hleft : g.Left x.graph i y ρ) (h : x.graph.Arrives g.New y ρ i') :
    x.Travels ⟨i, store⟩ ⟨i', store⟩ := by
  induction h with
  | @exit i' e' he' hrole =>
    obtain ⟨e, he, hout⟩ := hleft.exit
    have heq := hr.exit_unique hleft.lt hleft.live (t.exits_nodup y) he he' (hout.trans hrole.symm)
    rw [(Prod.mk.inj heq).1]
    exact .refl _
  | @pass i₁ i₂ e₁ e₂ h hi hP he ih =>
    obtain ⟨op, hop⟩ := Graph.op?_of_lt (hr.consistent.ends hi).2
    obtain ⟨hpass, p, hp⟩ := hr.inserted hP hop
    rw [hp, List.mem_singleton] at he
    refine ih.trans (Execution.travels_of_next (d := 0) (Execution.step_pass hi hop ?_ ?_))
    · rcases hpass with rfl | rfl
      · exact .inr (.inr (.inl rfl))
      · exact .inr (.inr (.inr rfl))
    · rw [Graph.exit?, hp, ← he]

/-- A token that heads for an edge of the built graph comes to the node at its end, if that node is
still there. -/
theorem reach (t : Translation code g) (hr : g.Realizes x.graph σ) (hheads : g.Heads x.graph j i)
    (he : g.edge? j = some e) (hlive : ¬ x.graph.Gone e.target) :
    ∃ y ρ i' e', x.graph.Arrives g.New y ρ i' ∧ g.Arrives x.graph.Gone y ρ j ∧
      x.graph.edge? i' = some e' ∧ e'.target = e.target ∧
      ∀ {store : NodeId → Option Value}, x.Travels ⟨i, store⟩ ⟨i', store⟩ := by
  obtain ⟨y, ρ, hleft, harrives⟩ := hheads
  obtain ⟨i', e', harrives', he', htarget⟩ := hr.follows hleft.live harrives he hlive
  exact ⟨y, ρ, i', e', harrives', harrives, he', htarget, t.travels_of_arrives hr hleft harrives'⟩

/-- Passing a node that only passes control on. -/
theorem pass_node (t : Translation code g) (hr : g.Realizes x.graph σ)
    (hheads : g.Heads x.graph j i) (he : g.edge? j = some e) {op : Op}
    (hop : g.op? e.target = some op) (hpass : op = .trace ∨ op = .jump) :
    ∃ i', g.Past x.graph e.target i' ∧
      ∀ {store : NodeId → Option Value}, x.Travels ⟨i, store⟩ ⟨i', store⟩ := by
  by_cases hgone : x.graph.Gone e.target
  · exact ⟨i, hheads.past he hgone, .refl _⟩
  · obtain ⟨-, -, i', e', -, -, he', htarget, htravels⟩ := t.reach hr hheads he hgone
    have hlt := Graph.op?_lt hop
    have hsingle := t.exits_roles hop (by rcases hpass with rfl | rfl <;> rfl)
      (by rcases hpass with rfl | rfl <;> simp) (by rcases hpass with rfl | rfl <;> simp)
    obtain ⟨i'', e'', hexit, hmem, hout⟩ := hr.exists_exit? hlt hgone hsingle
    have hop' : x.graph.op? e'.target = some op := htarget ▸ hr.op hop
    refine ⟨i'', .inl ⟨hlt, hgone, e'', hmem, hout⟩,
      htravels.trans (Execution.travels_of_next (d := 0) (Execution.step_pass he' hop' ?_ ?_))⟩
    · rcases hpass with rfl | rfl
      · exact .inl rfl
      · exact .inr (.inl rfl)
    · rw [htarget]
      exact hexit

/-- Passing a branch by the arm that the value of its condition selects. -/
theorem pass_branch (t : Translation code g) (hr : g.Realizes x.graph σ)
    (hheads : g.Heads x.graph j i) (he : g.edge? j = some e) (hop : g.op? e.target = some .branch)
    {n last : NodeId}
    (hinputs : g.inputs e.target = [.value n e.target .condition, .control last e.target])
    (hv : x.Stands σ store n v) {j' : EdgeId} {e' : Edge} (hj' : (j', e') ∈ g.exits e.target)
    (hout : e'.output = if v.truthy then .whenTrue else .whenFalse) :
    ∃ i', g.Heads x.graph j' i' ∧ x.Travels ⟨i, store⟩ ⟨i', store⟩ := by
  have hlt := Graph.op?_lt hop
  have hlive := hr.kept hop rfl
  obtain ⟨-, -, i₁, e₁, -, -, he₁, htarget, htravels⟩ := t.reach hr hheads he hlive
  obtain ⟨hsource, hcondition⟩ := hr.sourceFor?_eq hop (by simp) hlive
    (show Role.condition ≠ .control by simp)
    (e := .value n e.target .condition) (by rw [hinputs]; rfl)
  obtain ⟨depth, hvalue⟩ := hv hcondition
  have hrole : e'.output ∈ (g.exits e.target).map (·.2.output) :=
    List.mem_map.mpr ⟨(j', e'), hj', rfl⟩
  rw [hout] at hrole
  obtain ⟨i', e'', harm, hmem, hout'⟩ := hr.exists_arm? hlt hlive (t.exits_nodup _) hrole
  have hstep := Execution.step_branch (t := ⟨i₁, store⟩) he₁ (htarget ▸ hr.op hop)
    (htarget ▸ hsource) hvalue (htarget ▸ harm)
  exact ⟨i', ⟨e.target, _, ⟨hlt, hlive, e'', hmem, hout'⟩, .exit hj' hout⟩,
    htravels.trans (Execution.travels_of_next hstep)⟩

/-- The arms of the branch at the end of a block lead to its two successors. -/
theorem Has.exists_arm {b : Block} {fb : Fragment} (hb : t.Has b fb) {s u : Nat}
    (hs : b.succs = [s, u]) (c : Bool) :
    ∃ j e, (j, e) ∈ g.exits fb.controlEnd ∧
      e.output = (if c then .whenTrue else .whenFalse) ∧
      e.target = t.parts.regionAt (if c then s else u) := by
  cases c with
  | true =>
    obtain ⟨j, hj⟩ := hb.exists_exit (leaving_of_two hs ▸ List.mem_cons_self) rfl
    exact ⟨j, _, hj, rfl, rfl⟩
  | false =>
    obtain ⟨j, hj⟩ := hb.exists_exit
      (leaving_of_two hs ▸ List.mem_cons_of_mem _ (List.mem_singleton_self _)) rfl
    exact ⟨j, _, hj, rfl, rfl⟩

/-- Phis and placeholders have the same sources, one for each predecessor. -/
theorem feeds_of_phi (t : Translation code g) {d : Block} {fd : Fragment} (hd : t.Has d fd)
    {p : NodeId} (hp : p ∈ g.phis fd.region) :
    ∃ s n sources, Assembly.Feeds t.parts.table d fd s n sources ∧
      g.Decides fd.region n sources p := by
  obtain ⟨d', fd', s, n, sources, hd', hfeeds, hdecides⟩ := t.decides_of_phi (t.mem_phis.mp hp).1
  have hregion := t.region_of_decides hdecides hp
  obtain rfl := hd.eq_of_region hd' hregion
  obtain rfl := hd.unique hd'
  exact ⟨s, n, sources, hfeeds, hdecides⟩

theorem Has.exits_region {d : Block} {fd : Fragment} (hd : t.Has d fd) :
    (g.exits fd.region).map (·.2.output) = [.control] :=
  t.exits_roles hd.region_op rfl (by simp) (by simp)

/-- A region that a single edge enters passes its source to each placeholder. -/
theorem Has.direct_of_gone {d : Block} {fd : Fragment} (hd : t.Has d fd)
    (hr : g.Realizes x.graph σ) (hgone : x.graph.Gone fd.region) {s : Slot} {n m : NodeId}
    {sources : List NodeId} {l : Nat} (hfeeds : Assembly.Feeds t.parts.table d fd s n sources)
    (hsupplied : g.Supplied fd.region n sources) (hm : sources[l]? = some m) :
    g.valueSources n = [m] := by
  have hstart : d.start ≠ 0 := fun hstart => by
    have := hfeeds.needs
    simp [hd.slot_entry hstart] at this
  cases hsupplied with
  | @direct m' only inputs =>
    rw [only] at hm
    obtain rfl : m = m' := by simpa using List.mem_of_getElem? hm
    rw [Graph.valueSources, inputs]
    rfl
  | phi decides =>
    exfalso
    have hone := hr.merges hd.region_op hgone
    have hlen : (g.enters fd.region).length = sources.length := by
      rw [← hfeeds.sources.length_eq, (hd.inputs_region hstart).length_eq,
        ← hd.enters_region hstart, List.length_map]
    have := decides.several
    omega

/-- A single source is passed to its placeholder directly, and then the region has no phis. -/
theorem Has.not_phi_of_direct {d : Block} {fd : Fragment} (hd : t.Has d fd) {s : Slot}
    {n m : NodeId} {sources : List NodeId}
    (hfeeds : Assembly.Feeds t.parts.table d fd s n sources) (only : sources = [m]) (p : NodeId) :
    p ∉ g.phis fd.region := by
  intro hp
  obtain ⟨_, _, sources', hfeeds', hdecides⟩ := t.feeds_of_phi hd hp
  have hlen := hfeeds.sources.length_eq
  have hlen' := hfeeds'.sources.length_eq
  have := hdecides.several
  simp [only] at hlen
  omega

/-- Control enters a block. Its placeholders stand for what their sources for this entry stood
for. -/
theorem enter_block (t : Translation code g) (hr : g.Realizes x.graph σ) (hp : g.Pairs x.graph σ)
    {m₀ : Nat} {d : Block} {fd : Fragment} (hroute : t.Route m₀ d 0) (hd : t.Has d fd)
    (hheads : g.Heads x.graph j i) (he : g.edge? j = some e) (htarget : e.target = fd.region)
    {l : Nat} (hl : g.position? fd.region j = some l)
    (hsources : ∀ {s : Slot} {n : NodeId} {sources : List NodeId},
      Assembly.Feeds t.parts.table d fd s n sources →
        ∃ m w, sources[l]? = some m ∧ x.Stands σ store m w) :
    ∃ i' store', g.Past x.graph fd.region i' ∧
      x.Travels ⟨i, store⟩ ⟨i', store'⟩ ∧
      ∀ {s : Slot} {n m : NodeId} {sources : List NodeId} {w : Value},
        Assembly.Feeds t.parts.table d fd s n sources → g.Supplied fd.region n sources →
          sources[l]? = some m → x.Stands σ store m w → x.Stands σ store' n w := by
  have hinput : ∀ {s : Slot} {n : NodeId} {sources : List NodeId},
      Assembly.Feeds t.parts.table d fd s n sources → g.op? n = some .input := by
    intro s n sources hfeeds
    have hplace := hd.models.sound.placeholder (by rw [fd.needs_state]; exact hfeeds.needs)
    exact t.extends_parts.op_some hplace.2.1
  by_cases hgone : x.graph.Gone fd.region
  · refine ⟨i, store, htarget ▸ hheads.past he (htarget ▸ hgone), .refl _, ?_⟩
    intro s n m sources w hfeeds hsupplied hm hstands
    exact hstands.input hr (hinput hfeeds) (hd.direct_of_gone hr hgone hfeeds hsupplied hm)
  · obtain ⟨y, ρ, i', e', harrives, harrives₀, he', htarget', htravels⟩ :=
      t.reach hr hheads he (htarget ▸ hgone)
    rw [htarget] at htarget'
    obtain ⟨k, hk⟩ := Graph.exists_position (hr.consistent.mem_enters.mpr
      ⟨he', htarget', harrives.isControl hr.consistent he'⟩)
    -- what each phi chooses
    have hchosen : ∀ p ∈ x.graph.phis fd.region, ∀ {n : NodeId} {sources : List NodeId},
        g.Decides fd.region n sources p →
          ∀ {m : NodeId} {w : Value}, sources[l]? = some m → x.Stands σ store m w →
            (x.graph.valueSources p)[k]? = some (σ m) ∧ ∃ d, x.value store d (σ m) = some w := by
      intro p hphi n sources hdecides m w hm hstands
      have hpair := hp harrives harrives₀ hk hl p (.inl hphi)
      rw [(valueSources_of_decides hdecides).1, hm, Option.map_some] at hpair
      exact ⟨hpair, hstands (hr.live_of_source (List.mem_of_getElem? hpair))⟩
    obtain ⟨depth, store', henter, hother, hphis⟩ :=
      Execution.exists_enter (k := k) fun p hphi => by
      obtain ⟨s, n, sources, hfeeds, hdecides⟩ := t.feeds_of_phi hd (hr.phis.mp hphi).2
      obtain ⟨m, w, hm, hstands⟩ := hsources hfeeds
      obtain ⟨hsource, depth, hw⟩ := hchosen p hphi hdecides hm hstands
      exact ⟨depth, (p, w), by rw [Execution.choice, hsource, Option.bind_some, hw]; rfl⟩
    obtain ⟨i'', e'', hexit, hmem, hout⟩ :=
      hr.exists_exit? (Graph.op?_lt hd.region_op) hgone hd.exits_region
    have hop := hr.op hd.region_op
    rw [← htarget'] at hop hk henter hexit
    refine ⟨i'', store', .inl ⟨Graph.op?_lt hd.region_op, hgone, e'', hmem, hout⟩, htravels.trans
      (Execution.travels_of_next (Execution.step_region he' hop hk henter hexit)), ?_⟩
    intro s n m sources w hfeeds hsupplied hm hstands
    cases hsupplied with
    | @direct m' only inputs =>
      obtain rfl : m = m' := by
        rw [only] at hm
        simpa using List.mem_of_getElem? hm
      have hsame : x.Stands σ store' m w := hstands.congr fun l _ =>
        (hother l fun hl => hd.not_phi_of_direct hfeeds only l (hr.phis.mp hl).2).symm
      exact hsame.input hr (hinput hfeeds) (by rw [Graph.valueSources, inputs]; rfl)
    | @phi p decides =>
      obtain ⟨hps, hns⟩ := valueSources_of_decides decides
      refine Execution.Stands.input ?_ hr (hinput hfeeds) hns
      by_cases hmoved : σ p = p
      · intro hlive
        rw [hmoved] at hlive ⊢
        have hphi : p ∈ x.graph.phis fd.region := hr.phis.mpr ⟨hlive, t.mem_phis_of_decides decides⟩
        obtain ⟨hsource, depth, hw⟩ := hchosen p hphi decides hm hstands
        refine ⟨1, ?_⟩
        rw [Execution.value, hr.op decides.op]
        exact hphis p hphi hsource hw
      · have hsame : x.Stands σ store p w := hstands.of_eq ((hr.moved hmoved).2 m
          (hps ▸ List.mem_of_getElem? hm))
        refine hsame.congr fun l hreads => (hother l fun hl => ?_).symm
        exact not_reads_phi hr hroute hd hfeeds decides hmoved (hr.phis.mp hl).2 hreads

/-! ## Within a block -/

/-- The token goes along with the machine, which has the frame `f` before instruction `k` of `b`. -/
structure Tracks (t : Translation code g) (x : Execution) (σ : NodeId → NodeId)
    (b : Block) (k : Nat) (f : Frame) (tk : Token) : Prop where
  route : ∃ m, t.Route m b k
  holds : (t.context b k).Holds (x.Stands σ tk.store) f
  past : g.Past x.graph (t.context b k).control tk.edge

variable {a : Activation} {b : Block} {k : Nat} {f f' : Frame} {tk : Token}

/-- Control that has passed a node heads for the next one of its block. -/
theorem heads_next (t : Translation code g) {y n : NodeId} {op : Op} (hpast : g.Past x.graph y i)
    (hin : .control y n ∈ g.inputs n) (hop : g.op? n = some op) (hphi : op ≠ .phi) :
    ∃ j, g.edge? j = some (.control y n) ∧ g.Heads x.graph j i := by
  obtain ⟨-, j, hj⟩ := t.consistent.mem_inputs.mp hin
  refine ⟨j, hj, hpast.heads (t.consistent.mem_exits.mpr ⟨hj, rfl, rfl, ?_⟩) rfl⟩
  change g.op? n ≠ some .phi
  rw [hop]
  exact fun heq => hphi (Option.some.inj heq)

end Translation

namespace Context.Step

variable {g : Graph} {ip : Nat} {i : Instr} {s t : Context}

/-- Within a block, sends apart, control stays where it is or passes a trace. -/
theorem control_inner (h : Context.Step g ip i s t) (hends : i.endsBlock = false)
    (hsend : ∀ name argc, i ≠ .send name argc) :
    t.control = s.control ∨
      g.op? t.control = some .trace ∧ .control s.control t.control ∈ g.inputs t.control := by
  cases h with
  | trace label inputs after =>
    exact .inr ⟨Graph.op?_of_label? label, by simp [inputs]⟩
  | send => exact absurd rfl (hsend _ _)
  | jump => cases hends
  | branch => cases hends
  | ret => cases hends
  | _ => exact .inl rfl

theorem control_jump {target : Nat} (h : Context.Step g ip (.jump target) s t) :
    g.op? t.control = some .jump ∧ .control s.control t.control ∈ g.inputs t.control := by
  cases h with
  | jump label inputs after =>
    exact ⟨Graph.op?_of_label? label, by simp [inputs]⟩

end Context.Step

namespace Translation

variable {code : Code} {g : Graph} {t : Translation code g} {x : Execution} {σ : NodeId → NodeId}
  {store : NodeId → Option Value} {i j : EdgeId} {e : Edge} {v : Value} {a : Activation} {b : Block}
  {k : Nat} {f f' : Frame} {tk : Token}

/-- An instruction within a block, sends apart. -/
theorem Tracks.quiet (h : t.Tracks x σ b k f tk) (hat : t.At b k f) (hr : g.Realizes x.graph σ)
    (hreceiver : x.receiver = a.receiver) (hargs : x.args = a.args)
    (hlen : a.args.length ≤ 2 ^ 64) {instr : Instr} (hi : b.live[k]? = some instr)
    (hends : instr.endsBlock = false) (hsend : ∀ name argc, instr ≠ .send name argc)
    (hexec : a.execute f instr = .next f') :
    f'.ip = f.ip + 1 ∧ ∃ tk', t.Tracks x σ b (k + 1) f' tk' ∧ x.Travels tk tk' := by
  obtain ⟨instr', hi', -, hstep⟩ := hat.instr
  obtain rfl : instr = instr' := Option.some.inj (hi.symm.trans hi')
  rcases hstep.execute (a := a) h.holds hends hsend
    fun hc => Execution.stands_of_computes hr hreceiver hargs hlen hc with
    ⟨f'', heq, hip, hholds⟩ | ⟨e, heq, -⟩
  · rw [hexec] at heq
    cases heq
    obtain ⟨m, hroute⟩ := h.route
    have hroute' : ∃ m, t.Route m b (k + 1) := ⟨m + 1, hroute.next hat.lt⟩
    refine ⟨hip, ?_⟩
    rcases hstep.control_inner hends hsend with hcontrol | ⟨hop, hin⟩
    · exact ⟨tk, ⟨hroute', hholds, hcontrol ▸ h.past⟩, .refl tk⟩
    · obtain ⟨j, hj, hheads⟩ := t.heads_next h.past hin hop (by simp)
      obtain ⟨i', hpast, htravels⟩ := t.pass_node hr hheads hj hop (.inl rfl)
      exact ⟨⟨i', tk.store⟩, ⟨hroute', hholds, hpast⟩, htravels⟩
  · rw [hexec] at heq
    cases heq

end Translation

/-- What a message answers, it answers to at most one argument. -/
theorem Value.length_le_of_send {v w : Value} {name : String} {vs : List Value}
    (h : v.send name vs = .ok w) : vs.length ≤ 1 := by
  match vs, h with
  | [], _ => exact Nat.zero_le 1
  | [_], _ => exact Nat.le_refl 1
  | _ :: _ :: _, h =>
    exfalso
    unfold Value.send at h
    split at h
    · cases h
    · cases h
    · cases h
    · cases h
    · split at h
      · unfold Value.sendInt at h
        split at h
        · cases h
        · exact absurd h (by simp)
      · cases h

namespace Execution

variable {x : Execution} {σ : NodeId → NodeId} {store : NodeId → Option Value}

/-- One depth is enough for the values of a list of nodes. -/
theorem exists_values {ns : List NodeId} {vs : List Value}
    (h : List.Forall₂ (x.Stands σ store) ns vs) (hlive : ∀ n ∈ ns, ¬ x.graph.Gone (σ n)) :
    ∃ d, (ns.map σ).mapM (x.value store d) = some vs := by
  induction h with
  | nil => exact ⟨0, rfl⟩
  | @cons n v ns vs hn _ ih =>
    obtain ⟨d₀, hv⟩ := hn (hlive n List.mem_cons_self)
    obtain ⟨d₁, hvs⟩ := ih fun n' hn' => hlive n' (List.mem_cons_of_mem n hn')
    have hv' := value_of_le hv (Nat.le_max_left d₀ d₁)
    have hvs' := mapM_some_of_imp hvs fun _ _ _ h => value_of_le h (Nat.le_max_right d₀ d₁)
    refine ⟨max d₀ d₁, ?_⟩
    rw [List.map_cons, List.mapM_cons, hv', hvs']
    rfl

/-- A send answers what its receiver answers, if that takes at most one argument. -/
theorem dispatch_of_sends {g : Graph} (hr : g.Realizes x.graph σ) {n receiver control : NodeId}
    {name : String} {args : List NodeId} {v w : Value} {vs : List Value}
    (hs : g.Sends n name receiver args control) (hv : x.Stands σ store receiver v)
    (hvs : List.Forall₂ (x.Stands σ store) args vs) (hsend : v.send name vs = .ok w) :
    ∃ d, x.dispatch store d n = some (.ok w) := by
  obtain ⟨rest, hlabel⟩ := hs.label
  have hop := hs.op
  have hlt := Graph.op?_lt hop
  have hlive := hr.kept hop rfl
  have hvalues : (g.inputs n).filter (·.isValue) =
      .value receiver n .receiver :: args.map fun m => .value m n .args := by
    rw [hs.inputs, List.filter_append, List.filter_eq_self.mpr]
    · simp [List.filter, Edge.isValue, Edge.isControl, Edge.control]
    · intro e he
      rcases List.mem_cons.mp he with rfl | he
      · rfl
      · obtain ⟨m, -, rfl⟩ := List.mem_map.mp he
        rfl
  have hnone : (args.map fun m => Edge.value m n .args).filter (·.input == .receiver) = [] := by
    refine List.filter_eq_nil_iff.mpr fun e he => ?_
    obtain ⟨m, -, rfl⟩ := List.mem_map.mp he
    simp [Edge.value]
  have hall : (args.map fun m => Edge.value m n .args).filter (·.input == .args) =
      args.map fun m => Edge.value m n .args := by
    refine List.filter_eq_self.mpr fun e he => ?_
    obtain ⟨m, -, rfl⟩ := List.mem_map.mp he
    rfl
  obtain ⟨hsource, hliveReceiver⟩ := hr.sourceFor?_eq hop (by simp) hlive
    (show Role.receiver ≠ .control by simp)
    (e := .value receiver n .receiver) (by
      rw [hvalues, List.filter_cons_of_pos rfl, hnone])
  -- with at most one argument there is only one order
  have hargs : x.graph.argSources n = args.map σ := by
    have hperm := hr.argSources_perm hop (by simp) hlive
    rw [hvalues, List.filter_cons_of_neg (by simp [Edge.value]), hall, List.map_map] at hperm
    have hone : args.length ≤ 1 := hvs.length_eq ▸ Value.length_le_of_send hsend
    rcases args with _ | ⟨m, _ | ⟨m', rest⟩⟩
    · exact List.perm_nil.mp hperm
    · exact List.perm_singleton.mp hperm
    · simp at hone
  obtain ⟨d₀, hv⟩ := hv hliveReceiver
  obtain ⟨d₁, hvs⟩ := exists_values hvs fun m hm =>
    hr.live_of_arg (hargs ▸ List.mem_map_of_mem hm)
  have hv' := value_of_le hv (Nat.le_max_left d₀ d₁)
  have hvs' := mapM_some_of_imp hvs fun _ _ _ h => value_of_le h (Nat.le_max_right d₀ d₁)
  have hname : (x.graph.prop? n "name").bind (·.symbol?) = some name := by
    rw [hr.prop hlabel]
    rfl
  refine ⟨max d₀ d₁, ?_⟩
  simp only [dispatch, hname, hsource, hargs, Option.bind_eq_bind, Option.bind_some,
    Edge.value, hv', hvs', hsend]
  rfl

end Execution

namespace Translation

variable {code : Code} {g : Graph} {t : Translation code g} {x : Execution} {σ : NodeId → NodeId}
  {store : NodeId → Option Value} {i j : EdgeId} {e : Edge} {v : Value} {a : Activation} {b : Block}
  {k : Nat} {f f' : Frame} {tk : Token}

/-- A send that is answered. -/
theorem Tracks.send (h : t.Tracks x σ b k f tk) (hat : t.At b k f) (hr : g.Realizes x.graph σ)
    {name : String} {argc : Nat} (hi : b.live[k]? = some (.send name argc))
    (hexec : a.execute f (.send name argc) = .next f') :
    f'.ip = f.ip + 1 ∧ ∃ tk', t.Tracks x σ b (k + 1) f' tk' ∧ x.Travels tk tk' := by
  obtain ⟨instr, hi', -, hstep⟩ := hat.instr
  obtain rfl : .send name argc = instr := Option.some.inj (hi.symm.trans hi')
  obtain ⟨n, receiver, args, rest, v, vs, ws, hsends, htop, ht, hvs, hv, hrest, heq, -⟩ :=
    hstep.execute_send (a := a) h.holds
  rw [heq] at hexec
  cases hsend : v.send name vs with
  | error e =>
    rw [hsend] at hexec
    cases hexec
  | ok w =>
    rw [hsend] at hexec
    cases hexec
    have hop := hsends.op
    have hlt := Graph.op?_lt hop
    have hlive := hr.kept hop rfl
    have hin : .control (t.context b k).control n ∈ g.inputs n := by
      rw [hsends.inputs]
      exact List.mem_append_right _ (List.mem_singleton_self _)
    obtain ⟨m, hroute⟩ := h.route
    -- the token comes to the send and passes it
    obtain ⟨j, hj, hheads⟩ := t.heads_next h.past hin hop (by simp)
    obtain ⟨-, -, i', e', -, -, he', htarget, htravels⟩ := t.reach hr hheads hj hlive
    obtain ⟨d, hdispatch⟩ := Execution.dispatch_of_sends hr hsends hv hvs hsend
    obtain ⟨i'', e'', hexit, hmem, hout⟩ :=
      hr.exists_exit? hlt hlive (t.exits_roles hop rfl (by simp) (by simp))
    have htarget : e'.target = n := htarget
    have hstepped := Execution.step_send (t := ⟨i', tk.store⟩) he' (htarget ▸ hr.op hop)
      (htarget ▸ hdispatch) (htarget ▸ hexit)
    -- the answer is stored, which changes nothing else that is known
    have hkeep : ∀ {m : NodeId} {u : Value}, (t.context b k).Knows m → x.Stands σ tk.store m u →
        x.Stands σ (fun n' => if n' = e'.target then some w else tk.store n') m u := by
      intro m u hm hu
      refine hu.congr fun l hreads => (if_neg ?_).symm
      rintro rfl
      rw [htarget] at hreads
      exact not_reads_send hr hroute hat.lt hop (by rw [ht]) hsends.after hm hreads
    refine ⟨rfl, ⟨i'', _⟩, ⟨⟨m + 1, hroute.next hat.lt⟩, ?_, ?_⟩,
      htravels.trans (Execution.travels_of_next hstepped)⟩
    · rw [ht]
      have hrest' := hrest.mono fun {s m u} hs hu => hkeep ?_ hu
      · refine (hrest'.push (f.ip + 1) ?_).control (f.ip + 1) n
        intro _
        rw [hr.fixed hop (by simp) (by simp)]
        refine ⟨1, ?_⟩
        rw [Execution.value, hr.op hop]
        exact if_pos htarget.symm
      · refine Context.knows_iff.mpr ?_
        rcases Context.knows_iff.mp ⟨s, hs⟩ with hstack | hname
        · left
          rw [htop]
          exact List.mem_append_right _ (List.mem_cons_of_mem receiver hstack)
        · exact .inr hname
    · rw [ht]
      exact .inl ⟨hlt, hlive, e'', hmem, hout⟩

/-! ## From block to block -/

/-- Control goes over from the end of a block to a successor. -/
theorem cross (hr : g.Realizes x.graph σ) (hp : g.Pairs x.graph σ) {m : Nat} {d : Block}
    {fb fd : Fragment} (hb : t.Has b fb) (hd : t.Has d fd) (hroute : t.Route m b b.live.length)
    (hsucc : d.start ∈ b.succs) (hj : (j, e) ∈ g.exits fb.controlEnd)
    (htarget : e.target = fd.region) (hheads : g.Heads x.graph j i)
    (hholds : fb.exit.Holds (x.Stands σ store) f) :
    ∃ tk', t.Tracks x σ d 0 f tk' ∧ x.Travels ⟨i, store⟩ tk' := by
  obtain ⟨he, hsource, hctl, -⟩ := t.consistent.mem_exits.mp hj
  obtain ⟨l, hl⟩ := Graph.exists_position (t.consistent.mem_enters.mpr ⟨he, htarget, hctl⟩)
  have hroute' := hroute.enter hd.mem hsucc
  have hpred : d.start ≠ 0 → d.preds[l]? = some b.start := fun hstart =>
    pred_of_position hb hd hstart he hsource hl
  have hstart : ∀ {s : Slot} {n : NodeId}, fd.entry.slot s = some n → d.start ≠ 0 := by
    intro s n hn hzero
    rw [hd.slot_entry hzero] at hn
    cases hn
  have hsources : ∀ {s : Slot} {n : NodeId} {sources : List NodeId},
      Assembly.Feeds t.parts.table d fd s n sources →
        ∃ m w, sources[l]? = some m ∧ x.Stands σ store m w := by
    intro s n sources hfeeds
    obtain ⟨m, hm, hslot⟩ := hb.source_at hfeeds (hpred (hstart hfeeds.needs))
    obtain ⟨w, -, hw⟩ := hholds.slot hslot
    exact ⟨m, w, hm, hw⟩
  obtain ⟨i', store', hpast, htravels, hvalues⟩ :=
    t.enter_block hr hp hroute' hd hheads he htarget hl hsources
  refine ⟨⟨i', store'⟩, ⟨⟨m + 1, hroute'⟩, ?_, ?_⟩, htravels⟩
  · rw [hd.context_zero]
    by_cases hzero : d.start = 0
    · exact .of_slot fun hn => absurd hzero (hstart hn)
    · exact holds_enter hb hd (hpred hzero) hholds fun hfeeds hsupplied hm _ hstands =>
        hvalues hfeeds hsupplied hm hstands
  · rw [hd.context_zero]
    exact hpast

/-- A block with one successor leads there. -/
theorem Tracks.leave (h : t.Tracks x σ b b.live.length f tk) (hb : b ∈ t.blocks)
    (hr : g.Realizes x.graph σ) (hp : g.Pairs x.graph σ) (hs : b.succs = [f.ip]) :
    ∃ d tk', t.At d 0 f ∧ t.Tracks x σ d 0 f tk' ∧ x.Travels tk tk' := by
  obtain ⟨fb, hfb⟩ := t.exists_has hb
  obtain ⟨d, hat, hsucc⟩ := t.at_succ hb (hs ▸ List.mem_singleton_self f.ip)
  obtain ⟨fd, hfd⟩ := t.exists_has hat.mem
  obtain ⟨m, hroute⟩ := h.route
  obtain ⟨j, hj⟩ := hfb.exists_exit (leaving_of_one hs ▸ List.mem_singleton_self _) rfl
  have htarget : t.parts.regionAt f.ip = fd.region := by
    rw [hat.ip]
    exact hfd.regionAt
  have hpast := h.past
  have hholds := h.holds
  rw [hfb.context_end] at hpast hholds
  obtain ⟨tk', htracks, htravels⟩ :=
    cross hr hp hfb hfd hroute hsucc hj htarget (hpast.heads hj rfl) hholds
  exact ⟨d, tk', hat, htracks, htravels⟩

end Translation

/-- Control does not run past the end of a block, if it is not followed by another one. -/
def Block.Returns (size : Nat) (b : Block) : Prop :=
  (b.succs = [] → b.terminator? = some .ret) ∧
    (b.endsInBranch = true → b.start + b.live.length < size)

namespace Translation

variable {code : Code} {g : Graph} {t : Translation code g} {x : Execution} {σ : NodeId → NodeId}
  {store : NodeId → Option Value} {i j : EdgeId} {e : Edge} {v : Value} {a : Activation} {b : Block}
  {k : Nat} {f f' : Frame} {tk : Token}

/-- After an instruction that does not end its block control goes on to what follows the block. -/
theorem At.follows (h : t.At b k f) {instr : Instr} (hk : k + 1 = b.live.length)
    (hi : b.live[k]? = some instr) (hends : instr.endsBlock = false) :
    b.succs = (code.following (f.ip + 1)).toList := by
  obtain ⟨hsuccs, hlast⟩ := h.succs_eq hk hi
  rw [hsuccs, flowAfter, hlast]
  cases instr <;> first | rfl | cases hends

/-- A branch is followed by another block. -/
theorem At.follows_branch (h : t.At b k f) {target : Nat} (hk : k + 1 = b.live.length)
    (hi : b.live[k]? = some (.branch target))
    (hfollowed : b.endsInBranch = true → b.start + b.live.length < code.size) :
    b.succs = [target, f.ip + 1] := by
  have hlast := (h.succs_eq hk hi).2
  have hlt := hfollowed (by rw [Block.endsInBranch, Block.terminator?, hlast])
  rw [← hk, ← Nat.add_assoc, ← h.ip] at hlt
  rw [h.branches hk hi, Code.following, if_pos hlt]
  rfl

/-- The frame `f` is about to execute the live instruction `k` of the block `b`, or it has run past
the last one to the end of the body. -/
structure On (t : Translation code g) (b : Block) (k : Nat) (f : Frame) : Prop where
  mem : b ∈ t.blocks
  ip : f.ip = b.start + k
  place : k < b.live.length ∨ k = b.live.length ∧ f.ip = code.size ∧
    ∀ i, b.live.getLast? = some i → i.endsBlock = false

theorem At.on (h : t.At b k f) : t.On b k f := ⟨h.mem, h.ip, .inl h.lt⟩

/-- A block that control runs past has no successors. -/
theorem On.succs_eq_nil (h : t.On b k f) (hk : k = b.live.length) : b.succs = [] := by
  rcases h.place with hlt | ⟨-, hsize, hlast⟩
  · omega
  · have hnone : code.following (b.start + b.live.length) = none :=
      if_neg (by have := h.ip; omega)
    rw [(t.layout.fits b h.mem).succs_eq, flowAfter, hnone]
    split
    · next target hl => cases hlast _ hl
    · next target hl => cases hlast _ hl
    · rfl
    · rfl

theorem On.at (h : t.On b k f) (hreturns : b.Returns code.size) : t.At b k f := by
  rcases h.place with hlt | ⟨hk, -, hlast⟩
  · exact ⟨h.mem, hlt, h.ip⟩
  · have hret := hlast _ (hreturns.1 (h.succs_eq_nil hk))
    cases hret

/-- The token has followed the machine from instruction `k` of `b` to `f'`, which is before the next
instruction of the block or at the start of another one. -/
def Reached (t : Translation code g) (x : Execution) (σ : NodeId → NodeId) (b : Block) (k : Nat)
    (tk : Token) (f' : Frame) : Prop :=
  ∃ b' k' tk', t.On b' k' f' ∧ t.Tracks x σ b' k' f' tk' ∧ x.Travels tk tk' ∧
    (b' = b ∧ k' = k + 1 ∨ k' = 0)

theorem Tracks.reached_next (h : t.Tracks x σ b (k + 1) f' tk) (hat : t.At b k f)
    (hr : g.Realizes x.graph σ) (hp : g.Pairs x.graph σ) {instr : Instr}
    (hi : b.live[k]? = some instr) (hends : instr.endsBlock = false) (hip : f'.ip = f.ip + 1) :
    t.Reached x σ b k tk f' := by
  by_cases hlt : k + 1 < b.live.length
  · exact ⟨b, k + 1, tk, (hat.inner hlt hip).on, h, .refl tk, .inl ⟨rfl, rfl⟩⟩
  · have hk : k + 1 = b.live.length := Nat.le_antisymm hat.lt (Nat.le_of_not_lt hlt)
    have hsuccs := hat.follows hk hi hends
    by_cases hend : f.ip + 1 < code.size
    · rw [Code.following, if_pos hend, ← hip] at hsuccs
      rw [hk] at h
      obtain ⟨d, tk', hat', h', htravels⟩ := h.leave hat.mem hr hp hsuccs
      exact ⟨d, 0, tk', hat'.on, h', htravels, .inr rfl⟩
    · obtain ⟨_, -, hcode, -⟩ := hat.instr
      have hlt := (Array.getElem?_eq_some_iff.mp hcode).1
      refine ⟨b, k + 1, tk, ⟨hat.mem, by rw [hip, hat.ip, Nat.add_assoc], .inr ⟨hk, by omega, ?_⟩⟩,
        h, .refl tk, .inl ⟨rfl, rfl⟩⟩
      intro i hlast
      rw [(hat.succs_eq hk hi).2] at hlast
      exact Option.some.inj hlast ▸ hends

theorem Tracks.jump (h : t.Tracks x σ b k f tk) (hat : t.At b k f) (hr : g.Realizes x.graph σ)
    (hp : g.Pairs x.graph σ) {target : Nat} (hi : b.live[k]? = some (.jump target)) :
    t.Reached x σ b k tk { f with ip := target } := by
  obtain ⟨instr, hi', -, hstep⟩ := hat.instr
  obtain rfl : .jump target = instr := Option.some.inj (hi.symm.trans hi')
  have hk := hat.last_of_endsBlock hi rfl
  obtain ⟨m, hroute⟩ := h.route
  obtain ⟨hop, hin⟩ := hstep.control_jump
  obtain ⟨j, hj, hheads⟩ := t.heads_next h.past hin hop (by simp)
  obtain ⟨i', hpast, htravels⟩ := t.pass_node hr hheads hj hop (.inr rfl)
  have hafter : t.Tracks x σ b (k + 1) { f with ip := target } ⟨i', tk.store⟩ :=
    ⟨⟨m + 1, hroute.next hat.lt⟩, (hstep.execute_jump (a := ⟨code, .nil, []⟩) h.holds target).2,
      hpast⟩
  rw [hk] at hafter
  obtain ⟨d, tk', hat', h', htravels'⟩ := hafter.leave hat.mem hr hp (hat.jumps hk hi)
  exact ⟨d, 0, tk', hat'.on, h', htravels.trans htravels', .inr rfl⟩

/-- Control leaves a branch by the arm that its condition selects. -/
theorem Tracks.branch (h : t.Tracks x σ b k f tk) (hat : t.At b k f) (hr : g.Realizes x.graph σ)
    (hp : g.Pairs x.graph σ) {target : Nat} (hi : b.live[k]? = some (.branch target))
    (hfollowed : b.endsInBranch = true → b.start + b.live.length < code.size) :
    ∃ (v : Value) (ws : List Value), a.execute f (.branch target) =
        (if v.truthy then a.goto { f with stack := ws } target
        else .next { f with ip := f.ip + 1, stack := ws }) ∧
      t.Reached x σ b k tk
        { f with ip := if v.truthy then target else f.ip + 1, stack := ws } := by
  obtain ⟨instr, hi', -, hstep⟩ := hat.instr
  obtain rfl : .branch target = instr := Option.some.inj (hi.symm.trans hi')
  have hk := hat.last_of_endsBlock hi rfl
  have hs := hat.follows_branch hk hi hfollowed
  obtain ⟨fb, hfb⟩ := t.exists_has hat.mem
  obtain ⟨m, hroute⟩ := h.route
  have hroute' := hroute.next hat.lt
  obtain ⟨n, rest, v, ws, htop, hv, hexec, hholds, hlabel, hinputs⟩ :=
    hstep.execute_branch (a := a) h.holds (f.ip + 1)
  have hend : t.context b (k + 1) = fb.exit := by
    rw [hk]
    exact hfb.context_end
  rw [hend] at hlabel hinputs hholds
  refine ⟨v, ws, hexec, ?_⟩
  have hop : g.op? fb.controlEnd = some .branch := Graph.op?_of_label? hlabel
  -- the token comes to the branch and leaves it by the arm that leads to where the machine goes
  have hin : .control (t.context b k).control fb.controlEnd ∈ g.inputs fb.controlEnd := by
    rw [show g.inputs fb.controlEnd = _ from hinputs]
    exact List.mem_cons_of_mem _ (List.mem_singleton_self _)
  obtain ⟨j₀, hj₀, hheads₀⟩ := t.heads_next h.past hin hop (by simp)
  obtain ⟨j, e, hj, hout, htarget⟩ := hfb.exists_arm hs v.truthy
  obtain ⟨i', hheads, htravels⟩ := t.pass_branch hr hheads₀ hj₀ hop hinputs hv hj hout
  obtain ⟨d, hat', hsucc⟩ := t.at_succ (b := b)
    (f := { f with ip := if v.truthy then target else f.ip + 1, stack := ws }) hat.mem (by
      rw [hs]
      cases v.truthy <;> simp)
  obtain ⟨fd, hfd⟩ := t.exists_has hat'.mem
  have hregion : t.parts.regionAt (if v.truthy then target else f.ip + 1) = fd.region := by
    have hip : (if v.truthy then target else f.ip + 1) = d.start := hat'.ip
    rw [hip]
    exact hfd.regionAt
  rw [hk] at hroute'
  have hheld : fb.exit.Holds (x.Stands σ tk.store)
      { f with ip := if v.truthy then target else f.ip + 1, stack := ws } :=
        ⟨hholds.stack, hholds.names⟩
  obtain ⟨tk', htracks, htravels'⟩ :=
    cross hr hp hfb hfd hroute' hsucc hj (htarget.trans hregion) hheads hheld
  exact ⟨d, 0, tk', hat'.on, htracks, htravels.trans htravels', .inr rfl⟩

/-- A return brings the token to the finish node with the value that is returned. -/
theorem Tracks.ret (h : t.Tracks x σ b k f tk) (hat : t.At b k f) (hr : g.Realizes x.graph σ)
    (hp : g.Pairs x.graph σ) (hi : b.live[k]? = some .ret)
    (hreturns : ∀ b ∈ t.blocks, b.Returns code.size) :
    ∃ v, a.execute f .ret = .stop (.ok v) ∧ x.Ends tk v := by
  obtain ⟨instr, hi', -, hstep⟩ := hat.instr
  obtain rfl : .ret = instr := Option.some.inj (hi.symm.trans hi')
  have hk := hat.last_of_endsBlock hi rfl
  obtain ⟨fb, hfb⟩ := t.exists_has hat.mem
  obtain ⟨n, rest, v, htop, hsame, hv, hexec⟩ := hstep.execute_ret (a := a) h.holds
  rw [hk, hfb.context_end] at hsame
  rw [← hsame] at htop
  have hpast := h.past
  rw [← hsame] at hpast
  have hs : b.succs = [] := by
    obtain ⟨hsuccs, hlast⟩ := hat.succs_eq hk hi
    rw [hsuccs, flowAfter, hlast]
  obtain ⟨j, hj⟩ := hfb.exists_exit (leaving_of_nil hs) rfl
  have hfinish : t.parts.graph.finish = 1 := t.assembled.finish.1
  obtain ⟨he, -, hctl, -⟩ := t.consistent.mem_exits.mp hj
  obtain ⟨l, hl⟩ := Graph.exists_position (t.consistent.mem_enters.mpr ⟨he, hfinish, hctl⟩)
  obtain ⟨n', rest', htop', hreturned⟩ :=
    returned_of_position (fun b hb => (hreturns b hb).1) hfb he rfl hl
  obtain rfl : n' = n := (List.cons.inj (htop'.symm.trans htop)).1
  have hop := t.finish_eq.2
  obtain ⟨y, ρ, i', e', harrives, harrives₀, he', htarget, htravels⟩ :=
    t.reach hr (hpast.heads hj rfl) he (hfinish.symm ▸ hr.kept hop rfl)
  have htarget : e'.target = 1 := htarget.trans hfinish
  obtain ⟨p, hposition⟩ := Graph.exists_position (hr.consistent.mem_enters.mpr
    ⟨he', htarget, harrives.isControl hr.consistent he'⟩)
  have hpair := hp harrives harrives₀ hposition hl 1 (.inr ⟨rfl, t.finish_eq.1.symm⟩)
  rw [hreturned, Option.map_some] at hpair
  obtain ⟨depth, hvalue⟩ := hv (hr.live_of_source (List.mem_of_getElem? hpair))
  refine ⟨v, hexec, htravels.ends (Execution.ends_of_stop (d := depth) ?_)⟩
  rw [← htarget] at hposition hpair
  exact Execution.step_finish he' (htarget ▸ hr.op hop) hposition hpair hvalue

/-! ## Whole runs -/

/-- The machine and the execution are given the same values, and there are no more arguments than a
word can count. -/
structure SameInputs (x : Execution) (a : Activation) : Prop where
  receiver : x.receiver = a.receiver
  args : x.args = a.args
  bounded : a.args.length ≤ 2 ^ 64

theorem Reached.of_travels {tk' : Token} (h : t.Reached x σ b k tk' f')
    (htravels : x.Travels tk tk') : t.Reached x σ b k tk f' := by
  obtain ⟨b', k', tk'', hon, htracks, htravels', hplace⟩ := h
  exact ⟨b', k', tk'', hon, htracks, htravels.trans htravels', hplace⟩

/-- The token follows a step of the machine. -/
theorem Tracks.next (h : t.Tracks x σ b k f tk) (hat : t.At b k f) (hr : g.Realizes x.graph σ)
    (hp : g.Pairs x.graph σ) (hsame : SameInputs x a)
    (hfollowed : b.endsInBranch = true → b.start + b.live.length < code.size) {instr : Instr}
    (hi : b.live[k]? = some instr) (hexec : a.execute f instr = .next f') :
    t.Reached x σ b k tk f' := by
  have hgoto : ∀ {f₀ : Frame} {target : Nat}, a.goto f₀ target = .next f' →
      f' = { f₀ with ip := target } := by
    intro f₀ target hgoto
    unfold Activation.goto at hgoto
    split at hgoto
    · exact (Step.next.inj hgoto).symm
    · cases hgoto
  cases hends : instr.endsBlock with
  | false =>
    by_cases hsend : ∃ name argc, instr = .send name argc
    · obtain ⟨name, argc, rfl⟩ := hsend
      obtain ⟨hip, tk', htracks, htravels⟩ := h.send hat hr hi hexec
      exact (htracks.reached_next hat hr hp hi hends hip).of_travels htravels
    · obtain ⟨hip, tk', htracks, htravels⟩ := h.quiet hat hr hsame.receiver hsame.args hsame.bounded
        hi hends (fun name argc heq => hsend ⟨name, argc, heq⟩) hexec
      exact (htracks.reached_next hat hr hp hi hends hip).of_travels htravels
  | true =>
    cases instr with
    | jump target =>
      obtain rfl := hgoto hexec
      exact h.jump hat hr hp hi
    | branch target =>
      obtain ⟨v, ws, heq, hreached⟩ := h.branch (a := a) hat hr hp hi hfollowed
      rw [heq] at hexec
      cases hv : v.truthy with
      | true =>
        rw [hv] at hexec hreached
        obtain rfl := hgoto hexec
        exact hreached
      | false =>
        rw [hv] at hexec hreached
        cases hexec
        exact hreached
    | ret =>
      obtain ⟨instr, hi', -, hstep⟩ := hat.instr
      obtain rfl : .ret = instr := Option.some.inj (hi.symm.trans hi')
      obtain ⟨_, _, v, -, -, -, heq⟩ := hstep.execute_ret (a := a) h.holds
      rw [heq] at hexec
      cases hexec
    | _ => cases hends

end Translation

/-- Only a return answers. -/
theorem Activation.eq_ret_of_stop {a : Activation} {f : Frame} {instr : Instr} {v : Value}
    (h : a.execute f instr = .stop (.ok v)) : instr = .ret := by
  cases instr with
  | ret => rfl
  | _ =>
    exfalso
    unfold execute at h
    simp only [goto] at h
    repeat' split at h
    all_goals cases h

namespace Translation

variable {code : Code} {g : Graph} {t : Translation code g} {x : Execution} {σ : NodeId → NodeId}
  {v : Value} {a : Activation} {b : Block} {k : Nat} {f : Frame} {tk : Token}

/-- Along a run of the machine that ends with `v`, the token goes to the finish node with `v`. -/
theorem Tracks.ends (h : t.Tracks x σ b k f tk) (hat : t.At b k f) (hr : g.Realizes x.graph σ)
    (hp : g.Pairs x.graph σ) (hsame : SameInputs x a) (hcode : a.code = code)
    (hreturns : ∀ b ∈ t.blocks, b.Returns code.size) {budget : Nat}
    (hrun : a.run budget f = some (.ok v)) : x.Ends tk v := by
  induction budget generalizing b k f tk with
  | zero => cases hrun
  | succ budget ih =>
    obtain ⟨instr, hi, hcodei, -⟩ := hat.instr
    have hexec : a.step f = a.execute f instr := by
      rw [Activation.step, hcode, hcodei]
    rw [Activation.run, hexec] at hrun
    split at hrun
    · next f' hnext =>
      obtain ⟨b', k', tk', hon, htracks', htravels, -⟩ :=
        h.next hat hr hp hsame (hreturns b hat.mem).2 hi hnext
      exact htravels.ends (ih htracks' (hon.at (hreturns b' hon.mem)) hrun)
    · next result hstop =>
      obtain rfl := Option.some.inj hrun
      obtain rfl := Activation.eq_ret_of_stop hstop
      obtain ⟨w, heq, hends⟩ := h.ret (a := a) hat hr hp hi hreturns
      rw [heq] at hstop
      cases hstop
      exact hends

/-- The execution starts where the machine starts. -/
theorem tracks_start (t : Translation code g) (hr : g.Realizes x.graph σ) (hp : g.Pairs x.graph σ)
    (hpos : 0 < code.size) :
    ∃ start b tk, x.start? = some start ∧ t.At b 0 .entry ∧ t.Tracks x σ b 0 .entry tk ∧
      x.Travels start tk := by
  obtain ⟨b, hb, hstart⟩ := t.layout.entry hpos
  obtain ⟨fb, hfb⟩ := t.exists_has hb
  have hop := t.start_eq.2
  have hlt := Graph.op?_lt hop
  have hlive := hr.kept hop rfl
  obtain ⟨⟨j, e⟩, hexits, rfl⟩ := List.map_eq_singleton_iff.mp (hfb.exits_start hstart)
  have hj : (j, Edge.control 0 fb.region) ∈ g.exits 0 := by
    rw [hexits]
    exact List.mem_singleton_self _
  obtain ⟨he, -, hctl, -⟩ := t.consistent.mem_exits.mp hj
  obtain ⟨l, hl⟩ := Graph.exists_position (t.consistent.mem_enters.mpr ⟨he, rfl, hctl⟩)
  obtain ⟨i, e', hexit, hmem, hout⟩ := hr.exists_exit? hlt hlive (ρ := .control) (by
    rw [hexits]
    rfl)
  have hheads : g.Heads x.graph j i := ⟨0, .control, ⟨hlt, hlive, e', hmem, hout⟩, .exit hj rfl⟩
  -- the first block has no slots
  have hslot : ∀ {s : Slot} {n : NodeId}, fb.entry.slot s ≠ some n := by
    intro s n hn
    rw [hfb.slot_entry hstart] at hn
    cases hn
  have hsources : ∀ {s : Slot} {n : NodeId} {sources : List NodeId},
      Assembly.Feeds t.parts.table b fb s n sources →
        ∃ m w, sources[l]? = some m ∧ x.Stands σ (fun _ => none) m w :=
    fun hfeeds => absurd hfeeds.needs hslot
  obtain ⟨i', store', hpast, htravels, -⟩ :=
    t.enter_block hr hp (.start hb hstart) hfb hheads he rfl hl hsources
  refine ⟨⟨i, fun _ => none⟩, b, ⟨i', store'⟩, ?_, ?_, ⟨⟨0, .start hb hstart⟩, ?_, ?_⟩, htravels⟩
  · rw [Execution.start?, hr.start, t.start_eq.1, hexit]
    rfl
  · exact ⟨hb, List.length_pos_iff.mpr (t.layout.fits b hb).live_ne_nil, hstart.symm⟩
  · rw [hfb.context_zero]
    exact .of_slot fun hn => absurd hn hslot
  · rw [hfb.context_zero]
    exact hpast

/-- The answer of the machine is what the execution reaches. -/
theorem reaches_of_run (t : Translation code g) (hr : g.Realizes x.graph σ)
    (hp : g.Pairs x.graph σ) (hsame : SameInputs x a) (hcode : a.code = code) (hpos : 0 < code.size)
    (hreturns : ∀ b ∈ t.blocks, b.Returns code.size) {budget : Nat}
    (hrun : a.run budget .entry = some (.ok v)) : x.Reaches v := by
  obtain ⟨start, b, tk, hstart, hat, htracks, htravels⟩ := t.tracks_start hr hp hpos
  obtain ⟨d, budget', hend⟩ := htravels.ends (htracks.ends hat hr hp hsame hcode hreturns hrun)
  refine ⟨d, budget', ?_⟩
  rw [Execution.answer?, hstart]
  exact hend

end Translation

end StackJit
