import StackJit.Proofs.Coverage
import StackJit.Proofs.OperandOrder
import StackJit.Proofs.SendSites

/-!
# Guards and sends

`Graph.Guarded profile c` says that the guards of `c` are those of the sends at whose site the
profile met a single kind of receiver, one guard for each such send. The pass that places guards
brings that about (`Graph.Rewrites.guarded`): it puts a guard before each such send that has none,
and what it puts in for one send stays when it comes to the next. The passes that follow put in no
guard and leave those that are there in place (`Graph.SameGuards`), so it holds of compiled code.

Main statement: `Code.guards_match_sends`.
-/

namespace StackJit

namespace Graph

/-- The guard `w` leads to the send `s` and nowhere else, nothing else leads to the send, and the
guard checks the receiver of the send for a kind. -/
structure Checks (c : Graph) (w s : NodeId) (kind : Kind) (ip : Nat) : Prop where
  label : c.label? w = some (.guard, [("kind", .symbol kind.name), ("ip", .ofNat ip)])
  site : c.prop? s "ip" = some (.ofNat ip)
  entry : c.controlSources s = [w]
  exit : c.controlTargets w = [s]
  receiver : ∃ r, ((c.inputs s).filter (·.input == .receiver)).map (·.source) = [r] ∧
    c.valueSources w = [r]

/-! ## Sites -/

section Site

variable {c d : Graph} {s : NodeId} {ip : Nat}

theorem sendSite?_congr (h : d.label? s = c.label? s) : d.sendSite? s = c.sendSite? s := by
  rw [sendSite?, sendSite?, prop?_eq_label?, prop?_eq_label?, h]

/-- A site that is read back is the one that was stored. -/
theorem prop?_of_sendSite? (h : c.sendSite? s = some ip) : c.prop? s "ip" = some (.ofNat ip) := by
  unfold sendSite? at h
  split at h
  · next n hn =>
    obtain ⟨v, hv, hint⟩ := Option.bind_eq_some_iff.mp hn
    obtain rfl : v = .int n := by
      cases v <;> cases hint
      rfl
    split at h
    · next hnonneg =>
      have hcast : ((n.toInt.toNat : Nat) : Int) = n.toInt :=
        Int.toNat_of_nonneg (Int64.le_iff_toInt_le.mp hnonneg)
      rw [hv, ← Option.some.inj h, Value.ofNat, ← Int64.ofInt_eq_ofNat, hcast, Int64.ofInt_toInt]
    · cases h
  · cases h

end Site

/-! ## Sends -/

namespace Rewrites

variable {code : Code} {g c : Graph} {moves : Moves} {s : NodeId}

/-- Control enters a send by one edge. -/
theorem exists_enter (h : g.Rewrites c moves) (t : Translation code g)
    (hop : g.op? s = some .send) : ∃ i e, c.enters s = [(i, e)] := by
  obtain ⟨p, hp⟩ := t.enters_of_chained hop rfl
  have hlen := h.threads.enters (op?_lt hop) (h.threads.kept hop rfl) (by simp [hop])
  rw [hp, List.length_singleton] at hlen
  obtain ⟨q, hq⟩ := List.length_eq_one_iff.mp hlen
  exact ⟨q.1, q.2, hq⟩

/-- A send has one receiver. -/
theorem exists_receiver (h : g.Rewrites c moves) (t : Translation code g)
    (hop : g.op? s = some .send) : ∃ r, c.sourceFor? s .receiver = some r ∧
      (c.operands s).filter (·.input == .receiver) = [.value r s .receiver] := by
  have hrole : Role.receiver ≠ .control := by simp
  obtain ⟨i, hi⟩ := t.sendNode_of_op hop
  obtain ⟨name, r, args, control, -, -, hinputs⟩ := hi.exists_label
  have hfilter : (c.inputs s).filter (·.input == .receiver) =
      [.value (follow moves r) s .receiver] := by
    have hargs : (Role.args == .receiver) = false := rfl
    rw [h.filter_role_eq t hop hrole, hinputs, ← requeueAll_singleton]
    simp [Edge.value, Edge.control, List.filter_map, Function.comp_def, hargs]
  refine ⟨follow moves r, ?_, ?_⟩
  · rw [sourceFor?, ← List.head?_filter, hfilter]
    rfl
  · rw [← hfilter, (h.realizes t).filter_role hrole]
    rfl

end Rewrites

/-! ## Guards in place -/

/-- The guard `w`, for a kind and a site, leads to the send `s` of that site and has
its receiver. -/
structure Suits (c : Graph) (w s : NodeId) (kind : Kind) (ip : Nat) : Prop where
  label : c.label? w = some (.guard, guardProps kind ip)
  op : c.op? s = some .send
  site : c.sendSite? s = some ip
  next : ∀ p ∈ c.exits w, p.2.target = s
  receiver : ∃ r, (c.operands s).filter (·.input == .receiver) = [.value r s .receiver] ∧
    c.operands w = [.value r w .receiver]

/-- Each guard is there for the only kind met at the site of its send. -/
def Justified (profile : Profile) (c : Graph) : Prop :=
  ∀ ⦃w : NodeId⦄, c.op? w = some .guard →
    ∃ s kind ip, profile.monomorphic? ip = some kind ∧ c.Suits w s kind ip

/-- The send `s` has a guard if one kind was met at its site. -/
def Attended (profile : Profile) (c : Graph) (s : NodeId) : Prop :=
  ∀ ⦃kind : Kind⦄ ⦃ip : Nat⦄, c.sendSite? s = some ip → profile.monomorphic? ip = some kind →
    ∃ w, c.Suits w s kind ip

/-- The guards are those of the sends at whose site one kind was met. -/
structure Guarded (profile : Profile) (c : Graph) : Prop where
  guards : Justified profile c
  sends : ∀ {s : NodeId}, c.op? s = some .send → Attended profile c s

namespace Suits

variable {code : Code} {g c d : Graph} {moves : Moves} {w s : NodeId} {kind : Kind} {ip : Nat}

theorem op_guard (h : c.Suits w s kind ip) : c.op? w = some .guard :=
  op?_of_label? h.label

/-- Forwardings take the receiver of the send and that of the guard to the same node. -/
theorem keep (h : c.Suits w s kind ip) (hkeeps : c.KeepsGuards d) : d.Suits w s kind ip := by
  obtain ⟨moves, hmoves⟩ := hkeeps.operands
  obtain ⟨r, hs, hw⟩ := h.receiver
  refine ⟨(hkeeps.label (label?_lt h.label)).trans h.label, hkeeps.op h.op, ?_,
    hkeeps.next h.op_guard h.op h.next, follow moves r, ?_, ?_⟩
  · rw [sendSite?_congr (hkeeps.label (op?_lt h.op))]
    exact h.site
  · rw [hmoves h.op (.inr rfl), filter_requeueAll fun _ _ => rfl, hs, requeueAll_singleton]
  · rw [hmoves h.op_guard (.inl rfl), hw, requeueAll_singleton]

theorem checks (hs : c.Suits w s kind ip) (h : g.Rewrites c moves) (t : Translation code g) :
    c.Checks w s kind ip := by
  have hc := h.descends.consistent
  have hop := h.op_old hs.op (by simp) (by simp)
  obtain ⟨hnew, i, e, hexit⟩ := h.new_of_guard t hs.op_guard
  have hmem : (i, e) ∈ c.exits w := hexit ▸ List.mem_singleton_self _
  obtain ⟨hi, hsource, hctl, -⟩ := hc.mem_exits.mp hmem
  have htarget : e.target = s := hs.next _ hmem
  refine ⟨hs.label, prop?_of_sendSite? hs.site, ?_, ?_, ?_⟩
  · -- the guard is on the only edge by which control enters the send
    obtain ⟨i', e', henter⟩ := h.exists_enter t hop
    have hmem' : (i, e) ∈ c.enters s := hc.mem_enters.mpr ⟨hi, htarget, hctl⟩
    rw [henter, List.mem_singleton] at hmem'
    rw [Rewrites.controlSources_eq_enters, henter, ← hmem', List.map_singleton, hsource]
  · have hout : ((c.edgesOutOf w).filter (·.2.isControl)).map (·.2.target) = [s] := by
      rw [← hc.exits_of_no_phis (h.not_mem_phis_of_new t hnew), hexit, List.map_singleton, htarget]
    rw [controlTargets, outputs, List.filter_map, List.map_map]
    exact hout
  · obtain ⟨r, hreceiver, hoperand⟩ := hs.receiver
    have hrole : Role.receiver ≠ .control := by simp
    refine ⟨r, ?_, ?_⟩
    · rw [(h.realizes t).filter_role hrole]
      exact congrArg (List.map (·.source)) hreceiver
    · rw [valueSources_eq_operands, hoperand]
      rfl

end Suits

/-! ## Placing guards -/

/-- A send without a guard gets one. -/
theorem op?_of_guardSend?_eq_none {profile : Profile} {d : Graph} {s r : NodeId} {ip : Nat}
    {kind : Kind} {i : EdgeId} {e : Edge} (hnone : d.guardSend? profile s = none)
    (hsite : d.sendSite? s = some ip) (hkind : profile.monomorphic? ip = some kind)
    (henter : d.enters s = [(i, e)]) (hr : d.sourceFor? s .receiver = some r) :
    d.op? e.source = some .guard := by
  have henter' : (d.edgesInto s).filter (·.2.isControl) = [(i, e)] := henter
  by_contra hguard
  have hfalse : d.hasOp e.source .guard = false := by
    rw [Bool.eq_false_iff]
    exact fun htrue => hguard (hasOp_iff.mp htrue)
  simp [guardSend?, hsite, hkind, henter', hfalse, hr] at hnone

namespace Rewrites

variable {code : Code} {g c d d' : Graph} {moves : Moves} {s r : NodeId} {profile : Profile}

/-- A new guard suits its send. -/
theorem suits_guard (h : g.Rewrites c moves) (t : Translation code g) (hop : g.op? s = some .send)
    {i : EdgeId} {e : Edge} (henter : c.enters s = [(i, e)])
    (hr : c.sourceFor? s .receiver = some r) {ip : Nat} (hsite : c.sendSite? s = some ip)
    (kind : Kind) : (c.addGuard i r kind ip).Suits c.nodes.size s kind ip := by
  have hwatches := h.watches_guard hop henter hr kind ip
  obtain ⟨r', hr', hreceiver⟩ := h.exists_receiver t hop
  obtain rfl : r = r' := Option.some.inj (hr.symm.trans hr')
  obtain ⟨-, hm, hlabel, hoperands⟩ := h.mounted_guard hop henter hr kind ip
  have hs : s ≠ c.nodes.size := Nat.ne_of_lt (op?_lt (h.descends.op_some hop))
  refine ⟨hlabel, hwatches.op, ?_, hwatches.next, r, ?_, hoperands⟩
  · rw [sendSite?_congr (hm.label hs)]
    exact hsite
  · rw [hm.operands hs]
    exact hreceiver

end Rewrites

/-- A send that has a guard keeps it. -/
theorem Attended.keep {profile : Profile} {c d : Graph} {s : NodeId} (h : Attended profile c s)
    (hkeeps : c.KeepsGuards d) (hs : s < c.nodes.size) : Attended profile d s := by
  intro kind ip hsite hkind
  rw [sendSite?_congr (hkeeps.label hs)] at hsite
  obtain ⟨w, hw⟩ := h hsite hkind
  exact ⟨w, hw.keep hkeeps⟩

theorem Justified.keep {profile : Profile} {c d : Graph} (h : Justified profile c)
    (hsame : c.SameGuards d) : Justified profile d := by
  intro w hop
  obtain ⟨s, kind, ip, hkind, hw⟩ := h (hsame.guards hop)
  exact ⟨s, kind, ip, hkind, hw.keep hsame.toKeepsGuards⟩

namespace Rewrites

variable {code : Code} {g c d d' : Graph} {moves : Moves} {n s : NodeId} {profile : Profile}

/-- A send that gets no guard has one, or needs none. -/
theorem attended_of_none (h : g.Rewrites d moves) (t : Translation code g)
    (hop : g.op? s = some .send) (hguards : Justified profile d)
    (hnone : d.guardSend? profile s = none) : Attended profile d s := by
  intro kind ip hsite hkind
  obtain ⟨r, hr, -⟩ := h.exists_receiver t hop
  obtain ⟨i, e, henter⟩ := h.exists_enter t hop
  have hguard := op?_of_guardSend?_eq_none hnone hsite hkind henter hr
  obtain ⟨s', kind', ip', hkind', hw⟩ := hguards hguard
  -- the guard is there for this send, since it leads here
  obtain ⟨he, htarget, hctl, hphi⟩ := h.enter_send hop henter
  have hmem := h.descends.consistent.mem_exits.mpr ⟨he, rfl, hctl, hphi⟩
  obtain rfl : s = s' := htarget.symm.trans (hw.next _ hmem)
  obtain rfl : ip = ip' := Option.some.inj (hsite.symm.trans hw.site)
  obtain rfl : kind = kind' := Option.some.inj (hkind.symm.trans hkind')
  exact ⟨e.source, hw⟩

/-- A new guard is justified, its send is attended to, and what was in place stays there. -/
theorem guardSend_step (h : g.Rewrites d moves) (t : Translation code g)
    (hop : g.op? n = some .send) (hguards : Justified profile d)
    (hd : d.guardSend? profile n = some d') :
    Justified profile d' ∧ Attended profile d' n ∧ d.KeepsGuards d' := by
  obtain ⟨ip, kind, i, e, r, hsite, hkind, henter, hguard, hr, rfl⟩ := guarded_of_guardSend? hd
  have hkeeps := h.keepsGuards_guard hop henter hguard hr kind ip
  have hsuits := h.suits_guard t hop henter hr hsite kind
  refine ⟨fun w hw => ?_, fun kind' ip' hsite' hkind' => ?_, hkeeps⟩
  · by_cases hnew : w = d.nodes.size
    · exact ⟨n, kind, ip, hkind, hnew ▸ hsuits⟩
    · obtain ⟨-, hm, -, -⟩ := h.mounted_guard hop henter hr kind ip
      rw [op?_congr (hm.label hnew)] at hw
      obtain ⟨s, kind', ip', hkind', hs⟩ := hguards hw
      exact ⟨s, kind', ip', hkind', hs.keep hkeeps⟩
  · obtain rfl : ip = ip' := Option.some.inj (hsuits.site.symm.trans hsite')
    obtain rfl : kind = kind' := Option.some.inj (hkind.symm.trans hkind')
    exact ⟨_, hsuits⟩

/-- Placing guards achieves its aim. -/
theorem guarded (h : g.Rewrites c moves) (t : Translation code g)
    (hnone : ∀ w, c.op? w ≠ some .guard) (profile : Profile) :
    Guarded profile (c.placeGuards profile).graph := by
  have hids : ∀ {s : NodeId}, s ∈ c.nodesOf .send → g.op? s = some .send := fun hs =>
    h.op_old (mem_nodesOf.mp hs).2 (by simp) (by simp)
  have hinit : g.Rewrites c moves ∧ Justified profile c := ⟨h, fun w hw => absurd hw (hnone w)⟩
  obtain ⟨hplaced, hguards⟩ : g.Rewrites (c.placeGuards profile).graph moves ∧
      Justified profile (c.placeGuards profile).graph := by
    refine sweep_induct (P := fun d => g.Rewrites d moves ∧ Justified profile d) hinit ?_
    rintro d d' s hs ⟨hd, hguards⟩ hd'
    exact ⟨hd.guardSend t (hids hs) hd', (hd.guardSend_step t (hids hs) hguards hd').1⟩
  refine ⟨hguards, fun {s} hop => ?_⟩
  have hsend := hplaced.op_old hop (by simp) (by simp)
  have hmem : s ∈ c.nodesOf .send := (h.mem_sends_iff t).mpr (t.sendNode_of_op hsend)
  refine sweep_forall (P := fun d => g.Rewrites d moves ∧ Justified profile d)
    (Q := Attended profile) hinit ?_ ?_ s hmem
  · rintro d d' s hs ⟨hd, hguards⟩ hd'
    obtain ⟨hguards', hattended, hkeeps⟩ := hd.guardSend_step t (hids hs) hguards hd'
    refine ⟨⟨hd.guardSend t (hids hs) hd', hguards'⟩, hattended, fun m hm hold => ?_⟩
    exact hold.keep hkeeps (op?_lt (hd.descends.op_some (hids hm)))
  · rintro d s hs ⟨hd, hguards⟩ hnone
    exact hd.attended_of_none t (hids hs) hguards hnone

end Rewrites

/-- The passes that put in no guard keep the guards as they should be. -/
theorem Guarded.keep {profile : Profile} {g c d : Graph} (h : Guarded profile c)
    (hc : g.Rewritten c) (hd : g.Rewritten d) (hsame : c.SameGuards d) : Guarded profile d := by
  obtain ⟨moves, hc⟩ := hc
  obtain ⟨moves', hd⟩ := hd
  refine ⟨h.guards.keep hsame, fun {s} hop => ?_⟩
  have hop' := hc.descends.op_some (hd.op_old hop (by simp) (by simp))
  exact (h.sends hop').keep hsame.toKeepsGuards (op?_lt hop')

end Graph

namespace Translation

variable {code : Code} {g : Graph}

theorem guarded_placed (t : Translation code g) {o : CompileOptions} (ho : o.guards = true)
    (profile : Profile) : Graph.Guarded profile (o.guarded (some profile) g) := by
  obtain ⟨⟨moves, h⟩, hsame⟩ := Graph.Rewritten.dropPlaceholders t
  rw [CompileOptions.guarded, if_pos ho]
  refine h.guarded t (fun w hw => ?_) profile
  exact t.rewrites.not_guard t (hsame.guards hw) (hsame.guards hw)

/-- The passes leave each guard where it belongs, and leave out none. -/
theorem guarded_optimize (t : Translation code g) {o : CompileOptions} (ho : o.guards = true)
    (profile : Profile) : g.Rewritten (o.optimize (some profile) g) ∧
      Graph.Guarded profile (o.optimize (some profile) g) := by
  have hstep : ∀ {c d : Graph}, g.Rewritten d ∧ c.SameGuards d →
      g.Rewritten c ∧ Graph.Guarded profile c → g.Rewritten d ∧ Graph.Guarded profile d :=
    fun hd hc => ⟨hd.1, hc.2.keep hc.1 hd.1 hd.2⟩
  refine Schedule.iterateFrom_induct (P := fun c => g.Rewritten c ∧ Graph.Guarded profile c)
    (fun p hp c hc => ?_) ?_ 0 o.iterationLimit
  · rcases List.mem_cons.mp hp with rfl | hp
    · exact hstep (hc.1.dropDeadCode t) hc
    · rw [List.mem_singleton.mp hp]
      exact hstep (hc.1.dropPhis t) hc
  · rw [o.run_instrumentation]
    refine Schedule.runPasses_induct (P := fun c => g.Rewritten c ∧ Graph.Guarded profile c)
      (fun p hp c hc => ?_) ⟨t.rewritten_guarded o (some profile), t.guarded_placed ho profile⟩
    split at hp
    · rw [List.mem_singleton.mp hp]
      exact hstep (hc.1.placeSafepoints t) hc
    · cases hp

end Translation

/-- With guards on, compiled code has a guard right before each send at whose site one kind of
receiver was met, for that kind and that receiver, and has no other guards. -/
theorem Code.guards_match_sends {code : Code} {g : Graph} (hg : code.graph = .ok g)
    {o : CompileOptions} (ho : o.guards = true) (profile : Profile) :
    ∃ c, code.compile o (some profile) = .ok c ∧
      (∀ {s : NodeId} {kind : Kind} {ip : Nat}, c.op? s = some .send → c.sendSite? s = some ip →
        profile.monomorphic? ip = some kind → ∃ w, c.Checks w s kind ip) ∧
      ∀ {w : NodeId}, c.op? w = some .guard → ∃ s kind ip, c.op? s = some .send ∧
        c.sendSite? s = some ip ∧ profile.monomorphic? ip = some kind ∧ c.Checks w s kind ip := by
  obtain ⟨t⟩ := Code.exists_translation hg
  obtain ⟨⟨moves, h⟩, hguarded⟩ := t.guarded_optimize ho profile
  have hcompile := compile_of_graph hg o (some profile)
  generalize o.optimize (some profile) g = c at h hguarded hcompile
  refine ⟨c, hcompile, fun hop hsite hkind => ?_, fun hop => ?_⟩
  · obtain ⟨w, hw⟩ := hguarded.sends hop hsite hkind
    exact ⟨w, hw.checks h t⟩
  · obtain ⟨s, kind, ip, hkind, hw⟩ := hguarded.guards hop
    exact ⟨s, kind, ip, hw.op, hw.site, hkind, hw.checks h t⟩

/-- Asks its argument until the answer counts as false, and adds to it then. -/
def Code.poll : Code :=
  #[.arg 0, .store "x", .load "x", .push (.int 1), .send "<" 1, .branch 2, .load "x",
    .push (.int 2), .send "+" 1, .ret]

/-- One kind was met at the first send and two at the second. The last site is not that of
a send. -/
def Code.pollProfile : Profile := ⟨[(4, .int), (8, .int), (8, .symbol), (9, .int)]⟩

/-- The receiver of the first send is a phi until the phis without a choice are dropped; the guard
checks what took its place. -/
theorem Code.guards_match_sends_poll :
    ∃ c, Code.poll.compile {} (some Code.pollProfile) = .ok c ∧
      Code.pollProfile.monomorphic? 4 = some .int ∧ c.op? 7 = some .send ∧
      c.sendSite? 7 = some 4 ∧ c.Checks 14 7 .int 4 ∧ c.valueSources 14 = [3] ∧
      Code.pollProfile.monomorphic? 8 = none ∧ c.sendSite? 12 = some 8 ∧ c.nodesOf .guard = [14] ∧
      ∃ s kind ip, c.sendSite? s = some ip ∧ Code.pollProfile.monomorphic? ip = some kind ∧
        c.Checks 14 s kind ip := by
  obtain ⟨g, hg⟩ : ∃ g, Code.poll.graph = .ok g := Code.exists_graph (by decide +kernel)
  obtain ⟨c, hc, hsends, hguards⟩ := Code.guards_match_sends hg (o := {}) rfl Code.pollProfile
  have hfacts : (Code.poll.compile {} (some Code.pollProfile)).toOption.all (fun c =>
      c.op? 7 == some .send && c.sendSite? 7 == some 4 && c.sendSite? 12 == some 8 &&
        c.controlSources 7 == [14] && c.valueSources 14 == [3] && c.nodesOf .guard == [14]) =
      true := by
    decide +kernel
  rw [hc] at hfacts
  simp only [Except.toOption, Option.all_some, Bool.and_eq_true, beq_iff_eq] at hfacts
  obtain ⟨⟨⟨⟨⟨hop, hsite⟩, hsite'⟩, hentry⟩, hsource⟩, hnodes⟩ := hfacts
  have hkind : Code.pollProfile.monomorphic? 4 = some .int := by decide
  obtain ⟨w, hw⟩ := hsends hop hsite hkind
  obtain rfl : w = 14 := by
    have hsame := hw.entry.symm.trans hentry
    simpa using hsame
  have hguard : c.op? 14 = some .guard :=
    (Graph.mem_nodesOf.mp (hnodes ▸ List.mem_singleton_self 14)).2
  obtain ⟨s, kind, ip, -, hs⟩ := hguards hguard
  exact ⟨c, hc, hkind, hop, hsite, hw, hsource, by decide, hsite', hnodes, s, kind, ip, hs⟩

end StackJit
