import StackJit.Proofs.Built

/-!
# Running past the end of a body

A machine that runs past the last instruction answers the top of its stack, or nil. The graph ends
there too: control goes from the last block to the finish node, and the value that counts is the one
attached for that block (`Graph.attached?`), nil if there is none. That value is the latest node of
the block, which loads and stores leave as it is and a trace replaces by a node without a value. So
the graph yields what the last instruction made that is neither a load nor a store (`Code.maker?`).

Main statement: `Code.yields_of_past_end`. The two agree if the last instruction makes its value
itself; a store in that place makes them differ (`Code.yields_taken`).
-/

namespace StackJit

/-- Whether an instruction only moves a value between the stack and a local. -/
def Instr.moves : Instr → Bool
  | load _ | store _ => true
  | _ => false

/-- Whether an instruction makes a value and leaves it on top of the stack. -/
def Instr.makes : Instr → Bool
  | self | arg _ | push _ | send _ _ | not => true
  | _ => false

/-- The last instruction before `n` that does not only move a value, within the block of `n - 1`. -/
def Code.maker? (code : Code) : Nat → Option Nat
  | 0 => none
  | n + 1 =>
    if code[n]?.any Instr.moves then
      if code.isLeader n then none else code.maker? n
    else some n

/-- The source of the value that is attached to a node right after a control edge. -/
def Graph.attached? (g : Graph) (id : NodeId) (edge : EdgeId) : Option NodeId :=
  (((g.edgesInto id).dropWhile (·.1 != edge))[1]?.filter (·.2.isValue)).map (·.2.source)

namespace Execution

/-- The value with which a token comes to the finish node: the one attached for its edge, or nil. -/
def exitValue? (x : Execution) (depth : Nat) (t : Token) : Option Value :=
  match x.graph.edge? t.edge with
  | some e =>
    if x.graph.op? e.target = some .finish then
      (x.graph.attached? e.target t.edge).elim (some .nil) (x.value t.store depth)
    else none
  | none => none

/-- The token comes to the finish node, and the value there is `v`. -/
def Yields (x : Execution) (v : Value) : Prop :=
  ∃ start t depth, x.start? = some start ∧ x.Travels start t ∧ x.exitValue? depth t = some v

/-- The token is on an edge to the finish node. -/
def Arrived (x : Execution) (t : Token) : Prop :=
  ∃ e, x.graph.edge? t.edge = some e ∧ x.graph.op? e.target = some .finish

variable {x : Execution} {d d' : Nat} {t t' t'' : Token} {v w : Value}

theorem step_unique {m m' : Move} (h : x.step d t = some m) (h' : x.step d' t = some m') : m = m' :=
  Option.some.inj ((step_of_le h (Nat.le_max_left d d')).symm.trans
    (step_of_le h' (Nat.le_max_right d d')))

/-- The finish node passes no token on. -/
theorem Arrived.step_ne_next (h : x.Arrived t) : x.step d t ≠ some (.next t') := by
  obtain ⟨e, he, hop⟩ := h
  intro hstep
  rw [step, he, Option.bind_some, arrive, hop] at hstep
  obtain ⟨_, -, hstep⟩ := Option.bind_eq_some_iff.mp hstep
  obtain ⟨_, -, hstep⟩ := Option.bind_eq_some_iff.mp hstep
  cases hstep

/-- A token comes to the finish node in one way only. -/
theorem Travels.eq_of_arrived (h : x.Travels t t') (h' : x.Travels t t'') (ha : x.Arrived t')
    (ha' : x.Arrived t'') : t' = t'' := by
  induction h with
  | refl =>
    cases h' with
    | refl => rfl
    | step hstep _ => exact absurd hstep ha.step_ne_next
  | step hstep _ ih =>
    cases h' with
    | refl => exact absurd hstep ha'.step_ne_next
    | step hstep' h' =>
      cases step_unique hstep hstep'
      exact ih h' ha

theorem arrived_of_exitValue? (h : x.exitValue? d t = some v) : x.Arrived t := by
  unfold exitValue? at h
  split at h
  · next e he =>
    split at h
    · next hop => exact ⟨e, he, hop⟩
    · cases h
  · cases h

/-- What is yielded is the value of the one token that arrives. -/
theorem yields_iff {start : Token} (hstart : x.start? = some start) (h : x.Travels start t)
    (ha : x.Arrived t) : x.Yields v ↔ ∃ depth, x.exitValue? depth t = some v := by
  constructor
  · rintro ⟨start', t', depth, hstart', h', hv⟩
    obtain rfl : start = start' := Option.some.inj (hstart.symm.trans hstart')
    rw [h.eq_of_arrived h' ha (arrived_of_exitValue? hv)]
    exact ⟨depth, hv⟩
  · rintro ⟨depth, hv⟩
    exact ⟨start, t, depth, hstart, h, hv⟩

/-- A trace has no value. -/
theorem value_of_trace {store : NodeId → Option Value} {n : NodeId}
    (h : x.graph.op? n = some .trace) : x.value store d n = none := by
  cases d with
  | zero => rfl
  | succ d => rw [value, h]

theorem value_unique {store : NodeId → Option Value} {n : NodeId} (h : x.value store d n = some v)
    (h' : x.value store d' n = some w) : v = w :=
  Option.some.inj ((value_of_le h (Nat.le_max_left d d')).symm.trans
    (value_of_le h' (Nat.le_max_right d d')))

end Execution

/-! ## The value attached for a block -/

namespace Translation

variable {code : Code} {g : Graph} {t : Translation code g} {b : Block} {fb : Fragment}

/-- What leads from blocks to the finish node begins with control. -/
theorem isControl_of_head (t : Translation code g) {bs : List Block} (hbs : ∀ b ∈ bs, b ∈ t.blocks)
    {e : Edge}
    (h : (bs.flatMap fun b => (t.parts.spine b).filter (·.target == 1)).head? = some e) :
    e.isControl = true := by
  induction bs with
  | nil => cases h
  | cons b bs ih =>
    obtain ⟨fb, hfb⟩ := t.exists_has (hbs b List.mem_cons_self)
    rw [List.flatMap_cons, spine_to_finish hfb] at h
    split at h
    · rw [← Option.some.inj h]
      rfl
    · exact ih (fun b hb => hbs b (List.mem_cons_of_mem _ hb)) h

/-- Control goes from a node to the finish node by one edge at most. -/
theorem eq_of_edge_finish (t : Translation code g) {n : NodeId} {i j : EdgeId}
    (hi : g.edge? i = some (.control n 1)) (hj : g.edge? j = some (.control n 1)) : i = j := by
  have hmem : ∀ {k : EdgeId}, g.edge? k = some (.control n 1) → (k, .control n 1) ∈ g.exits n := by
    intro k hk
    refine t.consistent.mem_exits.mpr ⟨hk, rfl, rfl, ?_⟩
    change g.op? 1 ≠ some .phi
    rw [t.finish_eq.2]
    simp
  exact congrArg Prod.fst (List.inj_on_of_nodup_map (t.exits_nodup _) (hmem hi) (hmem hj) rfl)

/-- The latest node of a block without successors is attached for it. -/
theorem Has.attached_eq (hfb : t.Has b fb) (hs : b.succs = []) {i : EdgeId}
    (hi : g.edge? i = some (.control fb.controlEnd 1)) : g.attached? 1 i = fb.latest := by
  obtain ⟨before, after, hsplit⟩ := List.append_of_mem hfb.mem
  have hinputs := t.inputs_one
  rw [hsplit, List.flatMap_append, List.flatMap_cons, spine_to_finish hfb, if_pos hs,
    Graph.inputs] at hinputs
  obtain ⟨ps, rest, hall, -, hrest⟩ := List.map_eq_append_iff.mp hinputs
  rw [List.cons_append] at hrest
  obtain ⟨p, qs, rfl, hp, hqs⟩ := List.map_eq_cons_iff.mp hrest
  obtain ⟨values, others, rfl, hvalues, hothers⟩ := List.map_eq_append_iff.mp hqs
  -- the edge stands where its block does, and nowhere before
  have hmem : p ∈ g.edgesInto 1 := by simp [hall]
  obtain ⟨j, e⟩ := p
  obtain rfl : e = .control fb.controlEnd 1 := hp
  obtain rfl := t.eq_of_edge_finish hi (t.consistent.mem_edgesInto.mp hmem).1
  have hnodup : ((g.edgesInto 1).map (·.1)).Nodup := by
    rw [t.consistent.edgesInto_eq]
    exact g.live_nodup.sublist (List.filter_sublist.map _)
  have hbefore : ∀ q ∈ ps, (q.1 != i) = true := by
    intro q hq
    rw [hall, List.map_append] at hnodup
    rw [bne_iff_ne]
    rintro rfl
    exact (List.nodup_append.mp hnodup).2.2 _ (List.mem_map_of_mem hq) _ List.mem_cons_self rfl
  have hdrop : (g.edgesInto 1).dropWhile (·.1 != i) =
      (i, .control fb.controlEnd 1) :: (values ++ others) := by
    rw [hall, List.dropWhile_append_of_pos hbefore, List.dropWhile_cons_of_neg (by simp)]
  rw [Graph.attached?, hdrop, List.getElem?_cons_succ]
  cases hlatest : fb.latest with
  | some n =>
    rw [hlatest] at hvalues
    obtain ⟨q, rfl, hq⟩ := List.map_eq_singleton_iff.mp hvalues
    simp [hq, Edge.value, Edge.isValue, Edge.isControl, Option.filter]
  | none =>
    rw [hlatest] at hvalues
    obtain rfl := List.map_eq_nil_iff.mp hvalues
    rw [List.nil_append, ← List.head?_eq_getElem?]
    cases hhead : others.head? with
    | none => rfl
    | some q =>
      have hctl : q.2.isControl = true := by
        have hblocks : ∀ c ∈ after, c ∈ t.blocks := fun c hc => by simp [hsplit, hc]
        refine t.isControl_of_head hblocks ?_
        rw [← hothers, List.head?_map, hhead]
        rfl
      simp [Option.filter, Edge.isValue, hctl]

/-! ## The latest node of a block -/

theorem isLeader_start (hb : b ∈ t.blocks) : code.isLeader b.start = true := by
  obtain ⟨all, hall, hblocks⟩ := t.found
  rw [hblocks] at hb
  obtain ⟨b', hb', rfl⟩ := List.mem_map.mp hb
  exact StackJit.isLeader_start (b := b') hall (List.mem_filter.mp hb').1

theorem isLeader_inner (hb : b ∈ t.blocks) {i : Nat} (hlt : b.start < i)
    (hi : i < b.start + b.live.length) : code.isLeader i = false := by
  obtain ⟨all, hall, hblocks⟩ := t.found
  rw [hblocks] at hb
  obtain ⟨b', hb', rfl⟩ := List.mem_map.mp hb
  exact StackJit.isLeader_inner (b := b') hall (List.mem_filter.mp hb').1 hlt hi

end Translation

namespace Context.Step

variable {g : Graph} {ip : Nat} {i : Instr} {s t : Context}

/-- An instruction that only moves a value names no node and leaves control where it is. -/
theorem of_moves (h : Context.Step g ip i s t) (hi : i.moves = true) :
    t.named i = none ∧ t.control = s.control := by
  cases h with
  | load => exact ⟨rfl, rfl⟩
  | store => exact ⟨rfl, rfl⟩
  | _ => cases hi

theorem exists_named (h : Context.Step g ip i s t) (hi : i.moves = false) :
    ∃ n, t.named i = some n := by
  cases h with
  | load => cases hi
  | store => cases hi
  | ret top => exact ⟨_, by rw [named, top]; rfl⟩
  | _ => exact ⟨_, rfl⟩

/-- What an instruction makes is on top of the stack. -/
theorem stack_of_makes (h : Context.Step g ip i s t) (hi : i.makes = true) :
    ∃ n rest, t.stack = n :: rest ∧ t.named i = some n := by
  cases h with
  | self | arg | push | send | not => exact ⟨_, _, rfl, rfl⟩
  | _ => cases hi

/-- Within a block, what neither moves nor makes a value is a trace. -/
theorem op_of_not_makes (h : Context.Step g ip i s t) (hmoves : i.moves = false)
    (hmakes : i.makes = false) (hends : i.endsBlock = false) :
    ∃ n, t.named i = some n ∧ g.op? n = some .trace := by
  cases h with
  | trace label => exact ⟨_, rfl, Graph.op?_of_label? label⟩
  | load | store => cases hmoves
  | self | arg | push | send | not => cases hmakes
  | jump | branch | ret => cases hends

end Context.Step

namespace Translation

variable {code : Code} {g : Graph} {t : Translation code g} {b : Block} {fb : Fragment} {k : Nat}

/-- The latest node after instruction `k` of a block is what the instruction made that
`Code.maker?` finds, and control has not moved since. -/
theorem Has.latest_take (hfb : t.Has b fb) (hk : k < b.live.length) :
    (code.maker? (b.start + k + 1) = none ∧
      Context.latest (b.live.take (k + 1)) (t.context b) = none) ∨
    ∃ j i, j ≤ k ∧ code.maker? (b.start + k + 1) = some (b.start + j) ∧ b.live[j]? = some i ∧
      i.moves = false ∧
      Context.latest (b.live.take (k + 1)) (t.context b) = (t.context b (j + 1)).named i ∧
      (t.context b (k + 1)).control = (t.context b (j + 1)).control := by
  induction k using Nat.strongRecOn with
  | _ k ih =>
    obtain ⟨i, hi⟩ : ∃ i, b.live[k]? = some i := ⟨_, List.getElem?_eq_getElem hk⟩
    have hcode : code[b.start + k]? = some i :=
      ((t.layout.fits b hfb.mem).live_at k hk).symm.trans hi
    have hstep := hfb.trace.step hi
    have hlatest : Context.latest (b.live.take (k + 1)) (t.context b) =
        ((t.context b (k + 1)).named i).or (Context.latest (b.live.take k) (t.context b)) := by
      rw [List.take_add_one, hi, Option.toList_some, Context.latest_concat,
        List.length_take_of_le (Nat.le_of_lt hk)]
    rw [hlatest, Code.maker?, hcode]
    cases hmoves : i.moves with
    | false =>
      obtain ⟨n, hn⟩ := hstep.exists_named hmoves
      exact .inr ⟨k, i, Nat.le_refl k, by simp [hmoves], hi,
        hmoves, by rw [hn, Option.some_or], rfl⟩
    | true =>
      obtain ⟨hnone, hcontrol⟩ := hstep.of_moves hmoves
      rw [hnone, Option.none_or]
      cases k with
      | zero =>
        left
        simp [hmoves, isLeader_start hfb.mem, Context.latest]
      | succ k =>
        -- within the block the search goes on to the instruction before
        have hinner : code.isLeader (b.start + (k + 1)) = false :=
          isLeader_inner hfb.mem (by omega) (by omega)
        simp only [Option.any_some, hmoves, if_true, hinner, Bool.false_eq_true, if_false]
        rcases ih k (Nat.lt_succ_self k) (by omega) with hleft | ⟨j, i', hj, hright⟩
        · exact .inl hleft
        · obtain ⟨hmaker, hi', hmoves', hnamed, hcontrol'⟩ := hright
          exact .inr ⟨j, i', by omega, hmaker, hi', hmoves', hnamed, hcontrol.trans hcontrol'⟩

/-- The same for the latest node of a block that reaches to the end of the body. -/
theorem Has.latest_end (hfb : t.Has b fb) (hsize : b.start + b.live.length = code.size) :
    (code.maker? code.size = none ∧ fb.latest = none) ∨
    ∃ j i, j < b.live.length ∧ code.maker? code.size = some (b.start + j) ∧ b.live[j]? = some i ∧
      i.moves = false ∧ fb.latest = (t.context b (j + 1)).named i ∧
      fb.controlEnd = (t.context b (j + 1)).control := by
  have hpos := List.length_pos_iff.mpr (t.layout.fits b hfb.mem).live_ne_nil
  have hlen : b.live.length - 1 + 1 = b.live.length := by omega
  have htake := hfb.latest_take (k := b.live.length - 1) (by omega)
  rw [Nat.add_assoc, hlen, hsize, List.take_length, ← hfb.latest, hfb.context_end] at htake
  rcases htake with hleft | ⟨j, i, hj, hright⟩
  · exact .inl hleft
  · exact .inr ⟨j, i, by omega, hright⟩

/-! ## Following the machine to the end -/

variable {x : Execution} {a : Activation} {start : Token} {n : Nat} {f f' : Frame}

/-- The machine has come to `f` in `n` steps, the last `k` of them in the block `b`. The token has
followed it, and has been on its way at each instruction of the block. -/
structure Course (t : Translation code g) (x : Execution) (a : Activation) (start : Token) (n : Nat)
    (b : Block) (k : Nat) (f : Frame) : Prop where
  on : t.On b k f
  passed : ∀ {j d : Nat}, j + d = k → ∃ m f' tk, m + d = n ∧ a.after m .entry = some f' ∧
    f'.ip = b.start + j ∧ t.Tracks x id b j f' tk ∧ x.Travels start tk

/-- A block that ends in a branch is followed by another one, if the body does not end in one. -/
theorem followed_of_last (hb : b ∈ t.blocks)
    (hlast : ∀ target, code[code.size - 1]? ≠ some (.branch target))
    (hbranch : b.endsInBranch = true) : b.start + b.live.length < code.size := by
  have hfits := t.layout.fits b hb
  have hpos := List.length_pos_iff.mpr hfits.live_ne_nil
  have hat := hfits.live_at (b.live.length - 1) (by omega)
  rw [← List.getLast?_eq_getElem?] at hat
  unfold Block.endsInBranch Block.terminator? at hbranch
  split at hbranch
  · next target hterm =>
    rw [hterm] at hat
    have hlt := (Array.getElem?_eq_some_iff.mp hat.symm).1
    by_contra hge
    have hindex : b.start + (b.live.length - 1) = code.size - 1 := by omega
    exact hlast target (hindex ▸ hat.symm)
  · cases hbranch

theorem exists_course_entry (t : Translation code x.graph) (hpos : 0 < code.size) :
    ∃ start b, x.start? = some start ∧ t.Course x a start 0 b 0 .entry := by
  obtain ⟨start, b, tk, hstart, hat, htracks, htravels⟩ := t.tracks_start t.realizes t.pairs hpos
  refine ⟨start, b, hstart, hat.on, fun {j d} hjd => ?_⟩
  obtain ⟨rfl, rfl⟩ : j = 0 ∧ d = 0 := by omega
  exact ⟨0, .entry, tk, rfl, rfl, hat.ip, htracks, htravels⟩

/-- The token follows a step. -/
theorem Course.next {t : Translation code x.graph} (h : t.Course x a start n b k f)
    (hcode : a.code = code) (hsame : SameInputs x a)
    (hlast : ∀ target, code[code.size - 1]? ≠ some (.branch target))
    (hrun : a.after n .entry = some f) (hrun' : a.after (n + 1) .entry = some f')
    (hstep : a.step f = .next f') : ∃ b' k', t.Course x a start (n + 1) b' k' f' := by
  -- the machine has not come to the end yet
  have hat : t.At b k f := by
    rcases h.on.place with hlt | ⟨-, hend, -⟩
    · exact ⟨h.on.mem, hlt, h.on.ip⟩
    · rw [Activation.step, hcode, Array.getElem?_eq_none (Nat.le_of_eq hend.symm)] at hstep
      cases hstep
  obtain ⟨instr, hi, hcodei, -⟩ := hat.instr
  rw [Activation.step, hcode, hcodei] at hstep
  obtain ⟨m, f₀, tk, hm, hrun₀, -, htracks, htravels⟩ := h.passed (j := k) (d := 0) rfl
  obtain rfl : m = n := hm
  obtain rfl : f₀ = f := Option.some.inj (hrun₀.symm.trans hrun)
  obtain ⟨b', k', tk', hon, htracks', htravels', hplace⟩ :=
    htracks.next hat t.realizes t.pairs hsame (followed_of_last hat.mem hlast) hi hstep
  refine ⟨b', k', hon, fun {j d} hjd => ?_⟩
  rcases d with _ | d
  · obtain rfl : j = k' := hjd
    exact ⟨m + 1, f', tk', rfl, hrun', hon.ip, htracks', htravels.trans htravels'⟩
  · rcases hplace with ⟨rfl, rfl⟩ | rfl
    · obtain ⟨m', f'', tk'', hm', hpassed⟩ := h.passed (j := j) (d := d) (by omega)
      exact ⟨m', f'', tk'', by omega, hpassed⟩
    · omega

/-- The token follows a run. -/
theorem exists_course (t : Translation code x.graph) (hpos : 0 < code.size) (hcode : a.code = code)
    (hsame : SameInputs x a) (hlast : ∀ target, code[code.size - 1]? ≠ some (.branch target))
    (hrun : a.after n .entry = some f) :
    ∃ start b k, x.start? = some start ∧ t.Course x a start n b k f := by
  induction n generalizing f with
  | zero =>
    obtain rfl := Option.some.inj hrun
    obtain ⟨start, b, hstart, hcourse⟩ := exists_course_entry (a := a) t hpos
    exact ⟨start, b, 0, hstart, hcourse⟩
  | succ n ih =>
    obtain ⟨f₁, hrun₁, hstep⟩ := Activation.exists_last hrun
    obtain ⟨start, b, k, hstart, hcourse⟩ := ih hrun₁
    obtain ⟨b', k', hcourse'⟩ := hcourse.next hcode hsame hlast hrun₁ hrun hstep
    exact ⟨start, b', k', hstart, hcourse'⟩

/-! ## At the end of the body -/

/-- Control that has passed the end of a block without successors is on the edge to the finish
node. -/
theorem edge_of_past (hfb : t.Has b fb) (hs : b.succs = []) {i : EdgeId}
    (hpast : g.Past g fb.controlEnd i) : g.edge? i = some (.control fb.controlEnd 1) := by
  rcases hpast with hleft | ⟨hgone, -⟩
  · obtain ⟨e, he, -⟩ := hleft.exit
    have hmem : e ∈ (g.exits fb.controlEnd).map (·.2) := List.mem_map_of_mem (f := (·.2)) he
    rw [hfb.exits_end] at hmem
    obtain ⟨hmem, hctl⟩ := List.mem_filter.mp hmem
    simp only [Assembly.leaving, hs] at hmem
    rcases List.mem_cons.mp hmem with rfl | hmem
    · rw [(t.consistent.mem_exits.mp he).1, t.assembled.finish.1]
    · obtain ⟨m, -, rfl⟩ := List.mem_map.mp hmem
      cases hctl
  · exact absurd hgone (t.not_gone _)

/-- What a token yields at the end of a block without successors. -/
theorem exitValue_of_past {t : Translation code x.graph} (hfb : t.Has b fb) (hs : b.succs = [])
    {tk : Token} (hpast : x.graph.Past x.graph fb.controlEnd tk.edge) :
    x.Arrived tk ∧
      ∀ depth, x.exitValue? depth tk = fb.latest.elim (some .nil) (x.value tk.store depth) := by
  have he := edge_of_past hfb hs hpast
  have hop : x.graph.op? (Edge.control fb.controlEnd 1).target = some .finish := t.finish_eq.2
  refine ⟨⟨_, he, hop⟩, fun depth => ?_⟩
  have hattached : x.graph.attached? (Edge.control fb.controlEnd 1).target tk.edge = fb.latest :=
    hfb.attached_eq hs he
  simp only [Execution.exitValue?, he, hop, hattached, if_true]

/-- Where control ends that has run past the end of the body: in the last block, which has no
successors. -/
theorem Course.at_end {t : Translation code x.graph} (h : t.Course x a start n b k f)
    (hend : f.ip = code.size) :
    k = b.live.length ∧ b.succs = [] ∧ b.start + b.live.length = code.size ∧
      ∀ i, b.live.getLast? = some i → i.endsBlock = false := by
  rcases h.on.place with hlt | ⟨hk, -, hlast⟩
  · have hat : t.At b k f := ⟨h.on.mem, hlt, h.on.ip⟩
    obtain ⟨i, -, hi, -⟩ := hat.instr
    have hip := (Array.getElem?_eq_some_iff.mp hi).1
    omega
  · have hip := h.on.ip
    exact ⟨hk, h.on.succs_eq_nil hk, by omega, hlast⟩

/-- The instructions of the last block do not end it. -/
theorem Course.endsBlock_eq {t : Translation code x.graph} (h : t.Course x a start n b k f)
    (hend : f.ip = code.size) {j : Nat} {i : Instr} (hi : b.live[j]? = some i) :
    i.endsBlock = false := by
  have hj := (List.getElem?_eq_some_iff.mp hi).1
  by_cases hlt : j + 1 < b.live.length
  · exact (t.layout.fits b h.on.mem).inner hlt hi
  · have hlast : b.live.length - 1 = j := by omega
    refine (h.at_end hend).2.2.2 i ?_
    rw [List.getLast?_eq_getElem?, hlast]
    exact hi

/-- If the last block only moves values, nil is yielded. -/
theorem Course.yields_nil {t : Translation code x.graph} (h : t.Course x a start n b k f)
    (hstart : x.start? = some start) (hend : f.ip = code.size)
    (hmaker : code.maker? code.size = none) {v : Value} : x.Yields v ↔ v = .nil := by
  obtain ⟨hk, hs, hsize, -⟩ := h.at_end hend
  obtain ⟨fb, hfb⟩ := t.exists_has h.on.mem
  have hlatest : fb.latest = none := by
    rcases hfb.latest_end hsize with ⟨-, hlatest⟩ | ⟨j, i, -, hsome, -⟩
    · exact hlatest
    · rw [hmaker] at hsome
      cases hsome
  obtain ⟨m, f', tk, -, -, -, htracks, htravels⟩ := h.passed (j := k) (d := 0) rfl
  have hpast := htracks.past
  rw [hk, hfb.context_end] at hpast
  obtain ⟨harrived, hexit⟩ := exitValue_of_past hfb hs hpast
  rw [Execution.yields_iff hstart htravels harrived]
  simp [hexit, hlatest, eq_comm]

/-- Otherwise what the maker made is yielded: the value that the machine had on top of its stack
right after it, or nothing after a trace. -/
theorem Course.yields_made {t : Translation code x.graph} (h : t.Course x a start n b k f)
    (hstart : x.start? = some start) (hend : f.ip = code.size) {q : Nat}
    (hmaker : code.maker? code.size = some q) :
    ∃ i m f', code[q]? = some i ∧ m + (code.size - (q + 1)) = n ∧ a.after m .entry = some f' ∧
      f'.ip = q + 1 ∧
      (i.makes = true → ∃ v rest, f'.stack = v :: rest ∧ ∀ w, x.Yields w ↔ w = v) ∧
      (i.makes = false → ∀ w, ¬ x.Yields w) := by
  obtain ⟨hk, hs, hsize, -⟩ := h.at_end hend
  obtain ⟨fb, hfb⟩ := t.exists_has h.on.mem
  obtain ⟨j, i, hj, rfl, hi, hmoves, hlatest, hcontrol⟩ : ∃ j i, j < b.live.length ∧
      q = b.start + j ∧ b.live[j]? = some i ∧ i.moves = false ∧
      fb.latest = (t.context b (j + 1)).named i ∧
      fb.controlEnd = (t.context b (j + 1)).control := by
    rcases hfb.latest_end hsize with ⟨hnone, -⟩ | ⟨j, i, hj, hq, hrest⟩
    · rw [hmaker] at hnone
      cases hnone
    · exact ⟨j, i, hj, Option.some.inj (hmaker.symm.trans hq), hrest⟩
  have hcode : code[b.start + j]? = some i :=
    ((t.layout.fits b h.on.mem).live_at j hj).symm.trans hi
  have hstep := hfb.trace.step hi
  -- the token has been past the last control since the maker
  obtain ⟨m, f', tk, hm, hrun, hip, htracks, htravels⟩ :=
    h.passed (j := j + 1) (d := b.live.length - (j + 1)) (by omega)
  have hpast := htracks.past
  rw [← hcontrol] at hpast
  obtain ⟨harrived, hexit⟩ := exitValue_of_past hfb hs hpast
  refine ⟨i, m, f', hcode, by omega, hrun, by omega, fun hmakes => ?_, fun hmakes w hw => ?_⟩
  · obtain ⟨c, rest, hstack, hnamed⟩ := hstep.stack_of_makes hmakes
    obtain ⟨v, ws, hf', hstands, -⟩ := htracks.holds.pop hstack
    obtain ⟨depth, hv⟩ := hstands (t.not_gone _)
    have hv : x.value tk.store depth c = some v := hv
    refine ⟨v, ws, hf', fun w => ?_⟩
    rw [Execution.yields_iff hstart htravels harrived]
    simp only [hexit, hlatest, hnamed, Option.elim_some]
    exact ⟨fun ⟨_, hw⟩ => Execution.value_unique hw hv, fun hw => ⟨depth, hw ▸ hv⟩⟩
  · obtain ⟨depth, hw⟩ := (Execution.yields_iff hstart htravels harrived).mp hw
    obtain ⟨c, hnamed, hop⟩ := hstep.op_of_not_makes hmoves hmakes (h.endsBlock_eq hend hi)
    rw [hexit, hlatest, hnamed, Option.elim_some, Execution.value_of_trace hop] at hw
    cases hw

end Translation

/-- A machine that has run past the last instruction answers the top of its stack, or nil. -/
theorem Activation.resume_past_end {a : Activation} {n : Nat} {f : Frame}
    (hrun : a.after n .entry = some f) (hend : f.ip = a.code.size) :
    a.resume (n + 1) .entry = some (.ok (f.stack.headD .nil)) := by
  have hstep : a.step f = .stop (.ok (f.stack.headD .nil)) := by
    rw [step, Array.getElem?_eq_none (Nat.le_of_eq hend.symm)]
  rw [resume_entry, run_after hrun, run, hstep]

/-- If the last instruction is a maker, it is the one that counts. -/
theorem Code.maker?_of_makes {code : Code} {i : Instr} (hi : code[code.size - 1]? = some i)
    (hmakes : i.makes = true) : code.maker? code.size = some (code.size - 1) := by
  have hlt := (Array.getElem?_eq_some_iff.mp hi).1
  obtain ⟨n, hn⟩ : ∃ n, code.size = n + 1 := ⟨code.size - 1, by omega⟩
  rw [hn, Nat.add_sub_cancel] at hi ⊢
  have hmoves : i.moves = false := by cases i <;> first | rfl | cases hmakes
  simp [maker?, hi, hmoves]

/-- When the machine has run past the last instruction, it answers the top of the stack, and the
graph yields what the last instruction made that is neither a load nor a store: nil if the last
block has no other instructions, the top of the stack right after that instruction if it makes a
value, and nothing if it is a trace. So both give the same value if the last instruction
makes it. -/
theorem Code.yields_of_past_end {code : Code} {g : Graph} (h : code.graph = .ok g)
    (hpos : 0 < code.size) (hlast : ∀ target, code[code.size - 1]? ≠ some (.branch target))
    (receiver : Value) (args : List Value) (hargs : args.length ≤ 2 ^ 64) {n : Nat} {f : Frame}
    (hrun : (Activation.mk code receiver args).after n .entry = some f) (hend : f.ip = code.size) :
    (Activation.mk code receiver args).resume (n + 1) .entry = some (.ok (f.stack.headD .nil)) ∧
      (code.maker? code.size = none →
        ∀ v, (Execution.mk g receiver args).Yields v ↔ v = .nil) ∧
      (∀ q, code.maker? code.size = some q →
        ∃ i m f', code[q]? = some i ∧ m + (code.size - (q + 1)) = n ∧
          (Activation.mk code receiver args).after m .entry = some f' ∧ f'.ip = q + 1 ∧
          (i.makes = true →
            ∃ v rest, f'.stack = v :: rest ∧
              ∀ w, (Execution.mk g receiver args).Yields w ↔ w = v) ∧
          (i.makes = false → ∀ w, ¬ (Execution.mk g receiver args).Yields w)) ∧
      (∀ i, code[code.size - 1]? = some i → i.makes = true →
        (Execution.mk g receiver args).Yields (f.stack.headD .nil)) := by
  obtain ⟨t⟩ := Code.exists_translation h
  have hsame : Translation.SameInputs ⟨g, receiver, args⟩ ⟨code, receiver, args⟩ :=
    ⟨rfl, rfl, hargs⟩
  obtain ⟨start, b, k, hstart, hcourse⟩ :=
    Translation.exists_course (x := ⟨g, receiver, args⟩) t hpos rfl hsame hlast hrun
  refine ⟨Activation.resume_past_end hrun hend, fun hnone _ => hcourse.yields_nil hstart hend hnone,
    fun _ hsome => hcourse.yields_made hstart hend hsome, fun i hi hmakes => ?_⟩
  obtain ⟨i', m, f', hi', hm, hrun', -, hmade, -⟩ :=
    hcourse.yields_made hstart hend (maker?_of_makes hi hmakes)
  obtain rfl : i = i' := Option.some.inj (hi.symm.trans hi')
  obtain rfl : m = n := by omega
  obtain rfl : f' = f := Option.some.inj (hrun'.symm.trans hrun)
  obtain ⟨v, rest, hstack, hyields⟩ := hmade hmakes
  rw [hstack]
  exact (hyields v).mpr rfl

/-- Counts a local down to zero, and ends by storing one more than that. -/
def Code.drainPast : Code :=
  #[.arg 0, .store "x", .load "x", .push (.int 1), .send "-" 1, .store "x", .load "x",
    .push (.int 0), .send ">" 1, .branch 2, .load "x", .push (.int 1), .send "+" 1, .store "y"]

/-- After a loop the machine has an empty stack and answers nil, and the graph yields the sum that
was stored. -/
theorem Code.yields_of_past_end_drainPast :
    ∃ g f, Code.drainPast.graph = .ok g ∧
      (Activation.mk Code.drainPast .nil [.int 2]).after 22 .entry = some f ∧
      f.ip = Code.drainPast.size ∧
      (Activation.mk Code.drainPast .nil [.int 2]).resume 23 .entry = some (.ok .nil) ∧
      ∀ w, (Execution.mk g .nil [.int 2]).Yields w ↔ w = .int 1 := by
  obtain ⟨g, hg⟩ : ∃ g, Code.drainPast.graph = .ok g := Code.exists_graph (by decide +kernel)
  have hlast : ((Activation.mk Code.drainPast .nil [.int 2]).after 22 .entry).map
      (fun f => (f.ip, f.stack)) = some (14, []) := by decide +kernel
  obtain ⟨f, hrun, hf⟩ := Option.map_eq_some_iff.mp hlast
  obtain ⟨hip, hstack⟩ := Prod.mk.inj hf
  obtain ⟨hanswer, -, hmade, -⟩ := Code.yields_of_past_end hg (by decide)
    (by simp [Code.drainPast]) .nil [.int 2] (by decide) hrun hip
  rw [hstack] at hanswer
  obtain ⟨i, m, f', hi, hm, hrun', -, hmakes, -⟩ := hmade 12 (by decide +kernel)
  obtain rfl : m = 21 := by
    have hsize : Code.drainPast.size = 14 := rfl
    omega
  obtain rfl : .send "+" 1 = i := Option.some.inj hi
  obtain ⟨v, rest, htop, hyields⟩ := hmakes rfl
  have hsum : ((Activation.mk Code.drainPast .nil [.int 2]).after 21 .entry).map (·.stack) =
      some [.int 1] := by decide +kernel
  rw [hrun', Option.map_some, htop] at hsum
  obtain rfl : v = .int 1 := (List.cons.inj (Option.some.inj hsum)).1
  exact ⟨g, f, hg, hrun, hip, hanswer, hyields⟩

/-- Pushes two values and stores the second. -/
def Code.taken : Code := #[.push (.int 1), .push (.int 2), .store "x"]

/-- The machine answers the value that is left on the stack, the graph yields the one that was taken
from it. -/
theorem Code.yields_taken :
    ∃ g, Code.taken.graph = .ok g ∧
      (Activation.mk Code.taken .nil []).resume 4 .entry = some (.ok (.int 1)) ∧
      (Execution.mk g .nil []).Yields (.int 2) ∧ ¬ (Execution.mk g .nil []).Yields (.int 1) := by
  obtain ⟨g, hg⟩ : ∃ g, Code.taken.graph = .ok g := Code.exists_graph (by decide +kernel)
  obtain ⟨t⟩ := Code.exists_translation hg
  have hlast : ((Activation.mk Code.taken .nil []).after 3 .entry).map (·.ip) = some 3 := by
    decide +kernel
  obtain ⟨f, hrun, hip⟩ := Option.map_eq_some_iff.mp hlast
  obtain ⟨start, b, k, hstart, hcourse⟩ := Translation.exists_course
    (x := ⟨g, .nil, []⟩) t (by decide) rfl ⟨rfl, rfl, by decide⟩ (by simp [Code.taken]) hrun
  obtain ⟨i, m, f', hi, hm, hrun', -, hmade, -⟩ :=
    hcourse.yields_made hstart hip (q := 1) (by decide +kernel)
  obtain rfl : m = 2 := by
    have hsize : Code.taken.size = 3 := rfl
    omega
  obtain rfl : .push (.int 2) = i := Option.some.inj hi
  obtain ⟨v, rest, htop, hyields⟩ := hmade rfl
  obtain rfl := Option.some.inj hrun'
  obtain rfl : .int 2 = v := (List.cons.inj htop).1
  exact ⟨g, hg, by decide +kernel, (hyields _).mpr rfl, fun hone => by cases (hyields _).mp hone⟩

end StackJit
