import StackJit.Proofs.Thread

/-!
# The active bridge

Entering a bridge and calling a native function on it both make the bridge active, and both remember
which bridge was active before: the guard in one case, the call in the other. Nothing keeps the
order in which they were opened.

A run is well nested if they are closed in the opposite order (`Thread.nesting`). Then the bridge of
the innermost one that is open is active: it serves the raw calls, and no other bridge does. Closing
a construct makes the bridge active again that was so when it was opened
(`Thread.active_of_nesting`).
-/

namespace StackJit.Thread

/-- What makes a bridge active. -/
inductive Construct where
  | guard (index bridge : Nat)
  | call (bridge : Nat)
deriving DecidableEq

def Construct.bridge : Construct → Nat
  | guard _ b => b
  | call b => b

/-- The bridge of a native call. -/
def Construct.call? : Construct → Option Nat
  | guard _ _ => none
  | call b => some b

/-- The bridge of the innermost construct, which comes first. -/
def innermost (constructs : List Construct) : Option Nat := constructs.head?.map Construct.bridge

/-- The constructs that are open after an event; none if it closes another one than
the innermost. -/
def nest (constructs : List Construct) : Event → Option (List Construct)
  | .entered b g => some (.guard g b :: constructs)
  | .opened b => some (.call b :: constructs)
  | .left g =>
    match constructs with
    | .guard g' _ :: rest => if g' = g then some rest else none
    | _ => none
  | .completed _ _ _ =>
    match constructs with
    | .call _ :: rest => some rest
    | _ => none
  | _ => some constructs

/-- The constructs that are open after some events, in a well-nested history. -/
def nesting (constructs : List Construct) (history : List Event) : Option (List Construct) :=
  history.foldlM nest constructs

section Nesting

variable {constructs constructs' rest : List Construct} {e : Event} {history : List Event}

theorem nesting_append (history' : List Event) :
    nesting constructs (history ++ history') =
      (nesting constructs history).bind fun c => nesting c history' :=
  List.foldlM_append

theorem nesting_concat (h : nesting constructs (history ++ [e]) = some constructs') :
    ∃ c, nesting constructs history = some c ∧ nest c e = some constructs' := by
  rw [nesting_append] at h
  obtain ⟨c, hc, h⟩ := Option.bind_eq_some_iff.mp h
  exact ⟨c, hc, by simpa [nesting] using h⟩

theorem nest_left {g : Nat} (h : nest constructs (.left g) = some constructs') :
    ∃ b, constructs = .guard g b :: constructs' := by
  dsimp only [nest] at h
  split at h
  · split at h
    · next g' b rest hg =>
      cases h
      exact ⟨b, by rw [hg]⟩
    · cases h
  · cases h

theorem nest_completed {b : Nat} {answer : Except BridgeError Word} {outcome : Outcome}
    (h : nest constructs (.completed b answer outcome) = some constructs') :
    ∃ b', constructs = .call b' :: constructs' := by
  dsimp only [nest] at h
  split at h
  · next b' rest =>
    cases h
    exact ⟨b', rfl⟩
  · cases h

/-- What is open further out does not matter. -/
theorem nest_frame (h : nest constructs e = some constructs') (rest : List Construct) :
    nest (constructs ++ rest) e = some (constructs' ++ rest) := by
  cases e with
  | left g =>
    obtain ⟨b, rfl⟩ := nest_left h
    simp [nest]
  | completed b answer outcome =>
    obtain ⟨b', rfl⟩ := nest_completed h
    rfl
  | _ =>
    cases h
    rfl

theorem nesting_frame (h : nesting constructs history = some constructs') (rest : List Construct) :
    nesting (constructs ++ rest) history = some (constructs' ++ rest) := by
  induction history generalizing constructs with
  | nil =>
    cases h
    rfl
  | cons e history ih =>
    rw [nesting, List.foldlM_cons] at h ⊢
    obtain ⟨c, hc, h⟩ := Option.bind_eq_some_iff.mp h
    rw [nest_frame hc]
    exact ih h

end Nesting

/-! ## What open constructs remember -/

/-- Each open construct remembers the bridge of the next one further out. The guards are numbered in
the order in which they were made, below `n`. -/
inductive Remembers (guards : Array Guard) : Nat → List Construct → List Call → Prop where
  | nil {n : Nat} : Remembers guards n [] []
  | guard {n g b : Nat} {rest : List Construct} {calls : List Call} (hlt : g < n)
      (hguard : guards[g]? = some ⟨innermost rest, false⟩) (h : Remembers guards g rest calls) :
      Remembers guards n (.guard g b :: rest) calls
  | call {n b : Nat} {call : Call} {rest : List Construct} {calls : List Call}
      (hbridge : call.bridge = b) (hprevious : call.previous = innermost rest)
      (h : Remembers guards n rest calls) : Remembers guards n (.call b :: rest) (call :: calls)

variable {guards guards' : Array Guard} {n n' : Nat} {constructs constructs' : List Construct}
  {calls : List Call}

theorem Remembers.mono (h : Remembers guards n constructs calls) (hle : n ≤ n') :
    Remembers guards n' constructs calls := by
  induction h generalizing n' with
  | nil => exact .nil
  | guard hlt hguard h ih => exact .guard (Nat.lt_of_lt_of_le hlt hle) hguard h
  | call hbridge hprevious _ ih => exact .call hbridge hprevious (ih hle)

/-- Guards with other numbers do not matter. -/
theorem Remembers.congr (h : Remembers guards n constructs calls)
    (heq : ∀ i < n, guards'[i]? = guards[i]?) : Remembers guards' n constructs calls := by
  induction h with
  | nil => exact .nil
  | guard hlt hguard h ih =>
    exact .guard hlt ((heq _ hlt).trans hguard) (ih fun i hi => heq i (by omega))
  | call hbridge hprevious _ ih => exact .call hbridge hprevious (ih heq)

theorem Remembers.guard_of_mem (h : Remembers guards n constructs calls) {g b : Nat}
    (hmem : .guard g b ∈ constructs) : ∃ previous, guards[g]? = some ⟨previous, false⟩ := by
  induction h with
  | nil => cases hmem
  | guard hlt hguard _ ih =>
    rcases List.mem_cons.mp hmem with heq | hmem
    · cases heq
      exact ⟨_, hguard⟩
    · exact ih hmem
  | call _ _ _ ih =>
    rcases List.mem_cons.mp hmem with heq | hmem
    · cases heq
    · exact ih hmem

theorem Remembers.calls_eq (h : Remembers guards n constructs calls) :
    constructs.filterMap Construct.call? = calls.map (·.bridge) := by
  induction h with
  | nil => rfl
  | guard _ _ _ ih => exact ih
  | call hbridge _ _ ih => rw [List.map_cons, ← ih, hbridge]; rfl

/-- These constructs are open in a session, with these native calls running. -/
structure Nested (s : Session) (calls : List Call) (constructs : List Construct) : Prop where
  active : s.active = innermost constructs
  remembers : Remembers s.guards s.guards.size constructs calls
  /-- A guard that was not dropped belongs to an open construct. -/
  live : ∀ {g : Nat} {previous : Option Nat}, s.guards[g]? = some ⟨previous, false⟩ →
    ∃ b, .guard g b ∈ constructs
  bounded : ∀ c ∈ constructs, c.bridge < s.bridges.size

variable {t t' : Thread} {e : Event} {history : List Event} {s s' : Session}

/-- Constructs stay open while their bridges, the guards and the active bridge stay. -/
theorem Nested.congr (h : Nested s calls constructs) (hactive : s'.active = s.active)
    (hguards : s'.guards = s.guards) (hsize : s'.bridges.size = s.bridges.size) :
    Nested s' calls constructs where
  active := hactive.trans h.active
  remembers := hguards ▸ h.remembers
  live hlive := h.live (hguards ▸ hlive)
  bounded := hsize ▸ h.bounded

theorem Nested.enter (h : Nested s calls constructs) {index : Nat}
    (hindex : index < s.bridges.size) :
    Nested (s.enter index) calls (.guard s.guards.size index :: constructs) where
  active := rfl
  remembers := by
    refine .guard ?_ ?_ (h.remembers.congr fun i hi => ?_)
    · exact (Array.size_push _).symm ▸ Nat.lt_succ_self _
    · exact Array.getElem?_push_size.trans (by rw [h.active])
    · exact (Array.getElem?_push_lt hi).trans (Array.getElem?_eq_getElem hi).symm
  live {g previous} hlive := by
    by_cases hg : g = s.guards.size
    · exact ⟨index, by rw [hg]; exact List.mem_cons_self⟩
    · have hold : s.guards[g]? = some ⟨previous, false⟩ := by
        rw [← hlive, Session.enter, Array.getElem?_push, if_neg hg]
      obtain ⟨b, hb⟩ := h.live hold
      exact ⟨b, List.mem_cons_of_mem _ hb⟩
  bounded c hc := by
    rcases List.mem_cons.mp hc with rfl | hc
    · exact hindex
    · exact h.bounded c hc

theorem Nested.leave {g b : Nat} {previous : Option Nat}
    (h : Nested s calls (.guard g b :: constructs))
    (hguard : s.guards[g]? = some ⟨previous, false⟩) : Nested (s.leave g).2 calls constructs := by
  rw [Session.leave_of_live hguard]
  cases h.remembers with
  | guard hlt hremembered hrest =>
    rw [hguard] at hremembered
    cases hremembered
    refine ⟨rfl, ?_, fun {g' previous'} hlive => ?_, fun c hc => ?_⟩
    · refine (hrest.congr fun i hi => ?_).mono (by simpa using Nat.le_of_lt hlt)
      exact Array.getElem?_setIfInBounds_ne (Nat.ne_of_gt hi)
    · -- the guard itself is dropped now, the others are as they were
      by_cases hg : g = g'
      · subst hg
        rw [Array.getElem?_setIfInBounds_self_of_lt hlt] at hlive
        cases hlive
      · rw [Array.getElem?_setIfInBounds_ne hg] at hlive
        obtain ⟨b', hb'⟩ := h.live hlive
        rcases List.mem_cons.mp hb' with heq | hmem
        · cases heq
          exact absurd rfl hg
        · exact ⟨b', hmem⟩
    · exact h.bounded c (List.mem_cons_of_mem _ hc)

theorem Nested.effect {r : Reply} (h : Nested s calls constructs) (heffect : s.Effect e r)
    (hnest : nest constructs e = some constructs') : Nested r.session calls constructs' := by
  cases heffect with
  | entered hindex =>
    cases hnest
    exact h.enter hindex
  | left hguard =>
    obtain ⟨b, rfl⟩ := nest_left hnest
    exact h.leave hguard
  | idle =>
    cases hnest
    exact h
  | served | reset =>
    cases hnest
    exact h.congr rfl rfl (Session.size_setBridge s _ _)
  | other _ active guards size =>
    cases hnest
    exact h.congr active guards size

theorem Nested.opened (h : Nested s calls constructs) {index : Nat} {b b' : Bridge} {call : Call}
    (hb : s.bridges[index]? = some b) (hbridge : call.bridge = index)
    (hprevious : call.previous = s.active) :
    Nested { s.setBridge index b' with active := some index } (call :: calls)
      (.call index :: constructs) where
  active := rfl
  remembers := .call hbridge (hprevious.trans h.active) h.remembers
  live hlive := by
    obtain ⟨b, hb⟩ := h.live hlive
    exact ⟨b, List.mem_cons_of_mem _ hb⟩
  bounded c hc := by
    rw [Session.size_setBridge]
    rcases List.mem_cons.mp hc with rfl | hc
    · exact (Array.getElem?_eq_some_iff.mp hb).1
    · exact h.bounded c hc

theorem Nested.completed {index : Nat} {call : Call} {b : Bridge}
    (h : Nested s (call :: calls) (.call index :: constructs)) :
    Nested (Session.setBridge { s with active := call.previous } call.bridge b) calls
      constructs := by
  cases h.remembers with
  | call _ hprevious hrest =>
    refine ⟨hprevious, hrest, fun hlive => ?_, fun c hc => ?_⟩
    · obtain ⟨b, hb⟩ := h.live hlive
      rcases List.mem_cons.mp hb with heq | hmem
      · cases heq
      · exact ⟨b, hmem⟩
    · rw [Session.size_setBridge]
      exact h.bounded c (List.mem_cons_of_mem _ hc)

/-- A step that closes no construct but the innermost keeps the constructs nested. -/
theorem Nested.step (h : Nested t.session t.calls constructs) (hstep : t.step = some (e, t'))
    (hnest : nest constructs e = some constructs') : Nested t'.session t'.calls constructs' := by
  cases change_of_step hstep with
  | action effect => exact h.effect effect hnest
  | opened hb =>
    cases hnest
    exact h.opened hb rfl rfl
  | completed hcalls =>
    obtain ⟨b', rfl⟩ := nest_completed hnest
    rw [hcalls] at h
    exact h.completed

theorem Nested.run (h : Nested t.session t.calls constructs) (hrun : t.Runs history t')
    (hnest : nesting constructs history = some constructs') :
    Nested t'.session t'.calls constructs' := by
  induction hrun generalizing constructs' with
  | refl =>
    cases hnest
    exact h
  | step _ hstep ih =>
    obtain ⟨c, hc, hnest⟩ := nesting_concat hnest
    exact (ih hc).step hstep hnest

theorem nested_start (bridges : List Bridge) : Nested (.start bridges) [] [] :=
  ⟨rfl, .nil, fun hlive => by simp [Session.start] at hlive, fun c hc => by cases hc⟩

/-! ## Raw calls -/

/-- These constructs are open in the thread, and the innermost one decides which bridge
is active. -/
structure Disciplined (t : Thread) (constructs : List Construct) : Prop where
  /-- The native calls that have not ended are open, in their order. -/
  calls : constructs.filterMap Construct.call? = t.calls.map (·.bridge)
  /-- So are the guards that were not dropped, and no others. -/
  guards : ∀ g, (∃ b, .guard g b ∈ constructs) ↔
    ∃ previous, t.session.guards[g]? = some ⟨previous, false⟩
  active : t.session.active = innermost constructs
  exists_bridge : ∀ i, innermost constructs = some i → ∃ b, t.session.bridges[i]? = some b
  /-- Whatever raw call is made here gets the reply of the innermost bridge. -/
  raw : ∀ scope a c, a.rawCall? scope = some c →
    t.session.perform scope a = t.session.rawReply (innermost constructs) c
  /-- If a raw call is what the thread does next, this is the step. -/
  next : ∀ a rest c, t.todo = a :: rest → a.rawCall? t.scope = some c →
    t.step = (t.session.rawReply (innermost constructs) c).map fun r =>
      (.raw (t.session.served c) r.outcome.toWord, t.answered r.session r.outcome rest)
  others : ∀ served answer t', t.step = some (.raw served answer, t') →
    served.map (·.1) = innermost constructs ∧
      ∀ i, innermost constructs ≠ some i → t'.session.bridges[i]? = t.session.bridges[i]?
  /-- What is closed again leaves the bridge active that was active when it was opened. -/
  restores : ∀ during t', t.Runs during t' → nesting [] during = some [] →
    t'.session.active = t.session.active
  /-- Once everything is closed no bridge is active. -/
  closed : t.calls = [] → (∀ g ∈ t.session.guards, g.dropped = true) → t.session.active = none

theorem Nested.guards_iff (h : Nested s calls constructs) (g : Nat) :
    (∃ b, .guard g b ∈ constructs) ↔ ∃ previous, s.guards[g]? = some ⟨previous, false⟩ := by
  constructor
  · rintro ⟨b, hb⟩
    exact h.remembers.guard_of_mem hb
  · rintro ⟨previous, hlive⟩
    exact h.live hlive

theorem Nested.exists_bridge (h : Nested s calls constructs) {i : Nat}
    (hi : innermost constructs = some i) : ∃ b, s.bridges[i]? = some b := by
  obtain ⟨c, hc, rfl⟩ := Option.map_eq_some_iff.mp hi
  exact ⟨_, Array.getElem?_eq_getElem (h.bounded c (List.mem_of_mem_head? hc))⟩

theorem Nested.eq_nil (h : Nested s [] constructs) (hdropped : ∀ g ∈ s.guards, g.dropped = true) :
    constructs = [] := by
  cases constructs with
  | nil => rfl
  | cons c rest =>
    cases h.remembers with
    | guard _ hguard _ =>
      have hdropped := hdropped _ (Array.mem_of_getElem? hguard)
      cases hdropped

theorem Nested.disciplined (h : Nested t.session t.calls constructs) :
    t.Disciplined constructs where
  calls := h.remembers.calls_eq
  guards := h.guards_iff
  active := h.active
  exists_bridge _ hi := h.exists_bridge hi
  raw scope a c ha := by
    rw [← h.active]
    exact Session.perform_raw ha
  next a rest c htodo ha := by
    rw [← h.active]
    exact step_raw htodo ha
  others served answer t' hstep := by
    rw [← h.active]
    exact served_step hstep
  restores during t' hduring hclosed := by
    have hafter := h.run hduring (nesting_frame hclosed constructs)
    rw [hafter.active, h.active, List.nil_append]
  closed hcalls hdropped := by
    rw [hcalls] at h
    obtain rfl := h.eq_nil hdropped
    exact h.active

/-- Wherever a well-nested run has come to, the bridge of the innermost open construct is active and
serves the raw calls. The outcomes of the actions are those of a run. -/
theorem active_of_nesting (bridges : List Bridge) (actions : List Action) :
    (∀ replies scope s, Session.performAll (.outermost []) (.start bridges) actions =
        some (replies, scope, s) →
      ∃ history, (start (.start bridges) actions).Runs history ⟨s, scope, [], []⟩ ∧
        history.filterMap Event.outcome? = Reply.allOutcomes replies) ∧
    ∀ history t constructs, (start (.start bridges) actions).Runs history t →
      nesting [] history = some constructs → t.Disciplined constructs := by
  refine ⟨fun replies scope s h => ?_, fun history t constructs hrun hnest => ?_⟩
  · exact Session.performAll_iff_runs.mp ⟨replies, h, rfl⟩
  · exact ((nested_start bridges).run hrun hnest).disciplined

def twoBridges : List Bridge := [.new 100 false, .new 100 false]

/-- Code that has entered a bridge calls a native function on another one. The function enters the
first bridge again, has it add one to one, and answers its own argument. -/
def reentrant : List Action :=
  [.handleOf 0 (.int 1), .handleOf 0 (.symbol "+"), .enter 0,
    .invoke 1 [.int 7] none [.enter 0, .rawSend [.outer 0, .outer 1, .outer 0] none 1, .leave 1]
      (.arg 0),
    .leave 0]

theorem exists_replies_reentrant : ∃ replies scope s,
    Session.performAll (.outermost []) (.start twoBridges) reentrant = some (replies, scope, s) ∧
      .value (.int 7) ∈ Reply.allOutcomes replies := by
  have hcheck : (Session.performAll (.outermost []) (.start twoBridges) reentrant).any (fun p =>
      decide (.value (.int 7) ∈ Reply.allOutcomes p.1)) = true := by decide +kernel
  obtain ⟨⟨replies, scope, s⟩, hperform, hanswer⟩ := (Option.any_eq_true _ _).mp hcheck
  exact ⟨replies, scope, s, hperform, of_decide_eq_true hanswer⟩

/-- The word that a raw call has got from a bridge. -/
def Event.wordFrom? (bridge : Nat) : Event → Option Word
  | .raw (some (index, .ok w)) answer => if index = bridge ∧ answer = w then some w else none
  | _ => none

theorem Event.eq_raw_of_wordFrom? {bridge : Nat} {e : Event} {w : Word}
    (h : e.wordFrom? bridge = some w) : e = .raw (some (bridge, .ok w)) w := by
  unfold Event.wordFrom? at h
  split at h
  · split at h
    · next heq =>
      obtain ⟨rfl, rfl⟩ := heq
      cases h
      rfl
    · cases h
  · cases h

theorem exists_run_reentrant : ∃ before t₀ w t₁ after t₂,
    (start (.start twoBridges) reentrant).Runs before t₀ ∧
      nesting [] before = some [.guard 1 0, .call 1, .guard 0 0] ∧
      t₀.step = some (.raw (some (0, .ok w)) w, t₁) ∧ w ≠ 0 ∧ t₁.Runs after t₂ ∧
      nesting [] (before ++ [.raw (some (0, .ok w)) w] ++ after) = some [] := by
  have hcheck : ((start (.start twoBridges) reentrant).advance 5).any (fun p =>
      nesting [] p.1 == some [.guard 1 0, .call 1, .guard 0 0] && p.2.step.any fun q =>
        (q.1.wordFrom? 0).any fun w => w != 0 && (q.2.advance 3).any fun r =>
          nesting [] (p.1 ++ [q.1] ++ r.1) == some []) = true := by decide +kernel
  obtain ⟨⟨before, t₀⟩, hbefore, hcheck⟩ := (Option.any_eq_true _ _).mp hcheck
  obtain ⟨hnested, hcheck⟩ := (Bool.and_eq_true _ _).mp hcheck
  obtain ⟨⟨e, t₁⟩, hstep, hcheck⟩ := (Option.any_eq_true _ _).mp hcheck
  obtain ⟨w, hword, hcheck⟩ := (Option.any_eq_true _ _).mp hcheck
  obtain ⟨hne, hcheck⟩ := (Bool.and_eq_true _ _).mp hcheck
  obtain ⟨⟨after, t₂⟩, hafter, hclosed⟩ := (Option.any_eq_true _ _).mp hcheck
  obtain rfl := Event.eq_raw_of_wordFrom? hword
  exact ⟨before, t₀, w, t₁, after, t₂, runs_of_advance hbefore, beq_iff_eq.mp hnested, hstep,
    bne_iff_ne.mp hne, runs_of_advance hafter, beq_iff_eq.mp hclosed⟩

theorem active_of_nesting_reentered :
    (∃ replies scope s history,
      Session.performAll (.outermost []) (.start twoBridges) reentrant = some (replies, scope, s) ∧
        (start (.start twoBridges) reentrant).Runs history ⟨s, scope, [], []⟩ ∧
        .value (.int 7) ∈ history.filterMap Event.outcome?) ∧
    ∃ before t₀ c w t₁ after t₂,
      (start (.start twoBridges) reentrant).Runs before t₀ ∧
        nesting [] before = some [.guard 1 0, .call 1, .guard 0 0] ∧ t₀.session.active = some 0 ∧
        (Action.rawSend [.outer 0, .outer 1, .outer 0] none 1).rawCall? t₀.scope = some c ∧
        t₀.session.perform t₀.scope (.rawSend [.outer 0, .outer 1, .outer 0] none 1) =
          t₀.session.rawReply (some 0) c ∧
        t₀.step = some (.raw (some (0, .ok w)) w, t₁) ∧ w ≠ 0 ∧
        t₁.session.bridges[1]? = t₀.session.bridges[1]? ∧
        t₁.Runs after t₂ ∧ t₂.Disciplined [] ∧ t₂.session.active = none := by
  obtain ⟨hreplies, hall⟩ := active_of_nesting twoBridges reentrant
  constructor
  · obtain ⟨replies, scope, s, hperform, hanswer⟩ := exists_replies_reentrant
    obtain ⟨history, hrun, houtcomes⟩ := hreplies _ _ _ hperform
    exact ⟨replies, scope, s, history, hperform, hrun, houtcomes ▸ hanswer⟩
  · obtain ⟨before, t₀, w, t₁, after, t₂, hrun, hnest, hstep, hne, hafter, hclosed⟩ :=
      exists_run_reentrant
    have hopen := hall _ _ _ hrun hnest
    have hend := hall _ _ _ ((hrun.step hstep).trans hafter) hclosed
    exact ⟨before, t₀, _, w, t₁, after, t₂, hrun, hnest, hopen.active, rfl,
      hopen.raw _ _ _ rfl, hstep, hne, (hopen.others _ _ _ hstep).2 1 (by decide), hafter, hend,
      hend.active⟩

end StackJit.Thread
