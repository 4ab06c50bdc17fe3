import Mathlib.Data.List.DropRight
import StackJit.Proofs.Handles
import StackJit.Proofs.Thread

/-!
# Parked failures

Native code learns of a failed raw call only that the answer is zero; the failure is parked in the
bridge that was active. What is parked in a bridge can be read off the history of a run
(`Thread.parkedIn_eq_pending`): the first failure since the bridge was last reset or a native call
on it last ended. That is what the next native call to end on the bridge comes to, before anything
its function has answered (`Thread.failures_reported_once`).

The failure goes to the next call that ends, which need not be the call whose function has made the
raw call (`Thread.next_completed_fails`, `Session.inner_call_takes_failure`).
-/

namespace StackJit

/-! ## Answers of raw calls -/

namespace Bridge

variable {b : Bridge}

theorem handleOf_ne_zero {v : Value} {w : Word} (h : (b.handleOf v).1 = .ok w) : w ≠ 0 := by
  have hinsert : b.table.insert (.value v) = (.ok w, (b.handleOf v).2.table) := Prod.ext h rfl
  obtain ⟨r, hr, -⟩ := HandleTable.get_of_insert hinsert
  exact HandleTable.ne_zero_of_get hr

theorem send_ne_zero {words : List Word} {w : Word} (h : (b.send words).1 = .ok w) : w ≠ 0 := by
  unfold send at h
  split at h
  · cases h
  · split at h
    · cases h
    · exact handleOf_ne_zero h

theorem resume_ne_zero {frame : List Word} {map w : Word} {r : Resumed}
    (h : b.resume frame map = some r) (hr : r.result = .ok w) : w ≠ 0 := by
  unfold resume at h
  split at h
  · cases h
    cases hr
  · dsimp only at h
    split at h
    · cases h
    · cases h
      cases hr
    · cases h
      exact handleOf_ne_zero hr

/-- Zero tells native code that a raw call has failed, and nothing else. -/
theorem serve_ne_zero {c : RawCall} {w : Word} {r : Resumed} (h : b.serve c = some r)
    (hr : r.result = .ok w) : w ≠ 0 := by
  cases c with
  | send mem pointer argc =>
    rw [serve] at h
    split at h
    · cases h
      cases hr
    · cases h
      exact send_ne_zero hr
  | resume mem fp sp map =>
    rw [serve] at h
    split at h
    · cases h
      cases hr
    · exact resume_ne_zero h hr

end Bridge

/-! ## What is parked -/

namespace Thread

namespace Event

/-- The failure of a raw call that the bridge has served. -/
def failureIn (b : Nat) : Event → Option BridgeError
  | raw (some (i, .error e)) _ => if i = b then some e else none
  | _ => none

/-- Whether nothing is parked in the bridge any more. -/
def clears (b : Nat) : Event → Bool
  | reset i => i == b
  | completed i _ _ => i == b
  | _ => false

/-- What a native call on the bridge has come to. -/
def outcomeOn (b : Nat) : Event → Option Outcome
  | completed i _ outcome => if i = b then some outcome else none
  | _ => none

end Event

/-- The earliest failure of a raw call that the bridge has served since it was last reset or a
native call on it last ended. -/
def pending (b : Nat) (history : List Event) : Option BridgeError :=
  (history.rtakeWhile fun e => !e.clears b).findSome? (Event.failureIn b)

theorem pending_concat (b : Nat) (history : List Event) (e : Event) :
    pending b (history ++ [e]) =
      if e.clears b then none else (pending b history).or (e.failureIn b) := by
  rw [pending, List.rtakeWhile_concat]
  cases e.clears b with
  | true => rfl
  | false => simp [pending, List.findSome?_append]

variable {t t' : Thread} {e : Event}

theorem parkedIn_effect {s : Session} {r : Reply} (h : s.Effect e r) (b : Nat) :
    r.session.parkedIn b = if e.clears b then none else (s.parkedIn b).or (e.failureIn b) := by
  cases h with
  | idle => exact Option.or_none.symm
  | @served index bridge c res _ hb hr =>
    rw [Session.settle, Session.parkedIn_setBridge hb]
    split
    · next hi =>
      subst hi
      rw [Session.parkedIn_of_bridge hb, ← Bridge.parked_serve hr]
      cases res.result with
      | ok w => exact Option.or_none.symm
      | error err => simp [Bridge.park, Event.clears, Event.failureIn]
    · next hi => cases res.result <;> simp [Event.clears, Event.failureIn, hi]
  | @reset index bridge hb =>
    change (s.setBridge index bridge.reset).parkedIn b = _
    rw [Session.parkedIn_setBridge hb]
    simp [Event.clears, Event.failureIn, Bridge.reset]
  | entered => exact Option.or_none.symm
  | left hguard =>
    rw [Session.leave_of_live hguard]
    exact Option.or_none.symm
  | other _ _ _ _ parked =>
    rw [parked]
    exact Option.or_none.symm

/-- What a step does to what is parked in a bridge. -/
theorem parkedIn_step (h : t.step = some (e, t')) (b : Nat) :
    t'.session.parkedIn b =
      if e.clears b then none else (t.session.parkedIn b).or (e.failureIn b) := by
  cases change_of_step h with
  | action effect => exact parkedIn_effect effect b
  | opened hb parked =>
    refine (Session.parkedIn_setBridge_of_eq hb parked b).trans ?_
    exact Option.or_none.symm
  | @completed call calls bridge _ _ hb =>
    refine (Session.parkedIn_setBridge (s := { t.session with active := call.previous }) hb
      bridge.unpark.2 b).trans ?_
    simp only [Event.clears, beq_iff_eq, Bridge.unpark, Event.failureIn, Option.or_none]
    rfl

/-- What is parked in a bridge is the first failure since it was last cleared. -/
theorem parkedIn_eq_pending {bridges : List Bridge} (hnew : ∀ b ∈ bridges, b.parked = none)
    {actions : List Action} {history : List Event}
    (h : (start (.start bridges) actions).Runs history t) (b : Nat) :
    t.session.parkedIn b = pending b history := by
  induction h with
  | refl =>
    rw [start, Session.start, Session.parkedIn, List.getElem?_toArray]
    cases hb : bridges[b]? with
    | none => rfl
    | some bridge => exact hnew bridge (List.mem_of_getElem? hb)
  | step _ hstep ih => rw [parkedIn_step hstep, ih, pending_concat]

/-- A failure is parked by a raw call that the bridge has served when it was active. -/
theorem active_of_failureIn (h : t.step = some (e, t')) {b : Nat} {err : BridgeError}
    (hfail : e.failureIn b = some err) : t.session.active = some b := by
  unfold Event.failureIn at hfail
  split at hfail
  · split at hfail
    · next hi =>
      rw [← (served_step h).1, hi]
      rfl
    · cases hfail
  · cases hfail

/-! ## Reports -/

theorem refusesArity_step (h : t.step = some (e, t'))
    (hcalls : ∀ call ∈ t.calls, RefusesArity call.answer) :
    ∀ call ∈ t'.calls, RefusesArity call.answer := by
  cases change_of_step h with
  | action => exact hcalls
  | opened _ _ refusal =>
    intro call hcall
    rcases List.mem_cons.mp hcall with rfl | hcall
    · exact refusal
    · exact hcalls call hcall
  | completed heq =>
    intro call hcall
    exact hcalls call (heq ▸ List.mem_cons_of_mem _ hcall)

theorem refusesArity_run {s : Session} {actions : List Action} {history : List Event}
    (h : (start s actions).Runs history t) : ∀ call ∈ t.calls, RefusesArity call.answer := by
  induction h with
  | refl => exact fun call hcall => by cases hcall
  | step _ hstep ih => exact refusesArity_step hstep ih

/-- A step takes part in reporting each failure of a raw call once. -/
structure ReportsOnce (history : List Event) (t : Thread) (e : Event) (t' : Thread) : Prop where
  /-- A raw call goes to the active bridge; its answer is zero if there is none or it
  fails there. -/
  raw : ∀ served answer, e = .raw served answer →
    served.map (·.1) = t.session.active ∧
      (answer = 0 ↔ t.session.active = none ∨ ∃ b err, served = some (b, .error err))
  /-- What is parked in a bridge changes when it is cleared or when a raw call fails there. -/
  parks : ∀ b, t'.session.parkedIn b ≠ t.session.parkedIn b → e.clears b = true ∨
    t.session.active = some b ∧ ∃ err, e.failureIn b = some err ∧ t'.session.parkedIn b = some err
  /-- A native call comes to the first failure that is pending on its bridge, if there is one. -/
  completes : ∀ b answer outcome, e = .completed b answer outcome →
    t'.session.parkedIn b = none ∧
      RefusesArity answer ∧
      ∃ bridge, t.session.bridges[b]? = some bridge ∧
        outcome = bridge.callOutcome (pending b history) answer

theorem raw_eq_zero_iff {served : Option (Nat × Except BridgeError Word)} {answer : Word}
    (h : t.step = some (.raw served answer, t')) :
    answer = 0 ↔ t.session.active = none ∨ ∃ b err, served = some (b, .error err) := by
  cases change_of_step h with
  | action effect =>
    cases effect with
    | idle hactive => simp [hactive]
    | @served index _ _ r hactive hb hr =>
      rw [hactive]
      cases hresult : r.result with
      | ok w => simpa [Bridge.park] using Bridge.serve_ne_zero hr hresult
      | error err => simp [Bridge.park]

theorem parks_step (h : t.step = some (e, t')) (b : Nat)
    (hne : t'.session.parkedIn b ≠ t.session.parkedIn b) : e.clears b = true ∨
      t.session.active = some b ∧
        ∃ err, e.failureIn b = some err ∧ t'.session.parkedIn b = some err := by
  have hparked := parkedIn_step h b
  cases hclears : e.clears b with
  | true => exact .inl rfl
  | false =>
    rw [hclears, if_neg Bool.false_ne_true] at hparked
    rw [hparked] at hne ⊢
    cases hfail : e.failureIn b with
    | none =>
      rw [hfail] at hne
      exact absurd Option.or_none hne
    | some err =>
      cases hbefore : t.session.parkedIn b with
      | none => exact .inr ⟨active_of_failureIn h hfail, err, rfl, rfl⟩
      | some first =>
        rw [hbefore] at hne
        exact absurd rfl hne

theorem completed_step {b : Nat} {answer : Except BridgeError Word} {outcome : Outcome}
    (h : t.step = some (.completed b answer outcome, t')) :
    (∃ call ∈ t.calls, answer = call.answerIn t.scope) ∧
      ∃ bridge, t.session.bridges[b]? = some bridge ∧
        outcome = bridge.callOutcome (t.session.parkedIn b) answer := by
  cases change_of_step h with
  | action effect => cases effect
  | @completed call calls bridge _ hcalls hb houtcome =>
    refine ⟨⟨call, hcalls ▸ List.mem_cons_self, rfl⟩, bridge, hb, ?_⟩
    rw [Session.parkedIn_of_bridge hb, houtcome]

/-- A native function makes a raw call that fails, and then calls a native function on the same
bridge. -/
def nestedCalls : Action :=
  .invoke 0 [.int 1] none
    [.rawSend [.literal 0, .literal 0] none 0, .invoke 0 [.int 2] none [] (.arg 0)] (.arg 0)

theorem exists_run_nested : ∃ t₀ t₁ t₂ t₃ t₄ w w',
    (start (.start [.new 100 false]) [nestedCalls]).Runs [.opened 0] t₀ ∧
      t₀.step = some (.raw (some (0, .error (.unknownHandle 0))) 0, t₁) ∧
      t₁.step = some (.opened 0, t₂) ∧
      t₂.step = some (.completed 0 (.ok w) (.failed (.unknownHandle 0)), t₃) ∧
      t₃.step = some (.completed 0 (.ok w') (.value (.int 1)), t₄) ∧
      t₀.session.parkedIn 0 = none :=
  ⟨_, _, _, _, _, _, _, .single rfl, rfl, rfl, rfl, rfl, rfl⟩

/-- Failures of raw calls are reported once, in every run that some actions have on new bridges. The
outcomes of the actions are those of a run. -/
theorem failures_reported_once {bridges : List Bridge} (hnew : ∀ b ∈ bridges, b.parked = none)
    (actions : List Action) :
    (∀ replies scope s, Session.performAll (.outermost []) (.start bridges) actions =
        some (replies, scope, s) →
      ∃ history, (start (.start bridges) actions).Runs history ⟨s, scope, [], []⟩ ∧
        history.filterMap Event.outcome? = Reply.allOutcomes replies) ∧
    ∀ history t e t', (start (.start bridges) actions).Runs history t → t.step = some (e, t') →
      ReportsOnce history t e t' := by
  refine ⟨fun replies scope s h => ?_, fun history t e t' hrun hstep => ?_⟩
  · exact Session.performAll_iff_runs.mp ⟨replies, h, rfl⟩
  · refine ⟨fun served answer he => ?_, parks_step hstep, fun b answer outcome he => ?_⟩
    · subst he
      exact ⟨(served_step hstep).1, raw_eq_zero_iff hstep⟩
    · subst he
      obtain ⟨⟨call, hcall, rfl⟩, bridge, hb, houtcome⟩ := completed_step hstep
      rw [parkedIn_eq_pending hnew hrun] at houtcome
      refine ⟨?_, Call.refusesArity_answerIn (refusesArity_run hrun call hcall) _, bridge,
        hb, houtcome⟩
      rw [parkedIn_step hstep, Event.clears, beq_self_eq_true, if_pos rfl]

theorem failures_reported_once_nested : (∀ b ∈ [Bridge.new 100 false], b.parked = none) ∧
    ∃ (history : List Event) (t t' : Thread) (w : Word),
      (start (.start [.new 100 false]) [nestedCalls]).Runs history t ∧
        pending 0 history = some (.unknownHandle 0) ∧
        t.step = some (.completed 0 (.ok w) (.failed (.unknownHandle 0)), t') ∧
        ReportsOnce history t (.completed 0 (.ok w) (.failed (.unknownHandle 0))) t' := by
  have hnew : ∀ b ∈ [Bridge.new 100 false], b.parked = none := by
    intro b hb
    rw [List.mem_singleton.mp hb]
    rfl
  obtain ⟨t₀, t₁, t₂, t₃, t₄, w, w', hstart, hraw, hopened, hinner, -, -⟩ := exists_run_nested
  have hrun := (hstart.step hraw).step hopened
  exact ⟨hnew, _, t₂, t₃, w, hrun, rfl, hinner,
    (failures_reported_once hnew [nestedCalls]).2 _ _ _ _ hrun hinner⟩

/-! ## The call that reports -/

/-- Until the bridge is reset a parked failure stays parked or is what the first native call to end
on the bridge has come to. -/
theorem parked_or_reported {b : Nat} {err : BridgeError} {history : List Event}
    (hparked : t.session.parkedIn b = some err) (h : t.Runs history t')
    (hreset : .reset b ∉ history) :
    t'.session.parkedIn b = some err ∧ history.findSome? (Event.outcomeOn b) = none ∨
      history.findSome? (Event.outcomeOn b) = some (.failed err) := by
  induction h with
  | refl => exact .inl ⟨hparked, rfl⟩
  | @step history t' t'' e h hstep ih =>
    rw [List.mem_append, not_or] at hreset
    rw [List.findSome?_append]
    rcases ih hreset.1 with ⟨hstill, hnone⟩ | hreported
    · rw [hnone, Option.none_or]
      cases e with
      | completed i answer outcome =>
        by_cases hi : i = b
        · subst hi
          obtain ⟨-, bridge, -, houtcome⟩ := completed_step hstep
          rw [hstill] at houtcome
          exact .inr (by simp [Event.outcomeOn, houtcome, Bridge.callOutcome])
        · refine .inl ⟨?_, by simp [Event.outcomeOn, hi]⟩
          rw [parkedIn_step hstep, hstill]
          simp [Event.clears, hi]
      | reset i =>
        have hi : i ≠ b := fun hi => hreset.2 (by simp [hi])
        refine .inl ⟨?_, rfl⟩
        rw [parkedIn_step hstep, hstill]
        simp [Event.clears, hi]
      | _ =>
        refine .inl ⟨?_, rfl⟩
        rw [parkedIn_step hstep, hstill]
        rfl
    · rw [hreported]
      exact .inr rfl

/-- A raw call that fails makes the next native call fail that ends on its bridge, unless the bridge
is reset before. Calls on the bridge that end later may still succeed. -/
theorem next_completed_fails {b : Nat} {err : BridgeError} {w : Word} {t₀ t₁ t₂ t₃ : Thread}
    {during : List Event} {answer : Except BridgeError Word} {outcome : Outcome}
    (hraw : t₀.step = some (.raw (some (b, .error err)) w, t₁)) (hrun : t₁.Runs during t₂)
    (hreset : .reset b ∉ during) (hend : t₂.step = some (.completed b answer outcome, t₃)) :
    (during ++ [Event.completed b answer outcome]).findSome? (Event.outcomeOn b) =
        some (.failed ((t₀.session.parkedIn b).getD err)) ∧
      ((∀ e ∈ during, e.outcomeOn b = none) →
        outcome = .failed ((t₀.session.parkedIn b).getD err)) := by
  have hparked : t₁.session.parkedIn b = some ((t₀.session.parkedIn b).getD err) := by
    rw [parkedIn_step hraw]
    cases t₀.session.parkedIn b <;> simp [Event.clears, Event.failureIn]
  have hfirst : (during ++ [Event.completed b answer outcome]).findSome? (Event.outcomeOn b) =
      some (.failed ((t₀.session.parkedIn b).getD err)) := by
    rcases parked_or_reported hparked (hrun.step hend) (by simpa using hreset) with
      ⟨-, hnone⟩ | hreported
    · have hlast := List.findSome?_eq_none_iff.mp hnone (.completed b answer outcome) (by simp)
      simp [Event.outcomeOn] at hlast
    · exact hreported
  refine ⟨hfirst, fun hduring => ?_⟩
  rw [List.findSome?_append, List.findSome?_eq_none_iff.mpr hduring] at hfirst
  simpa [Event.outcomeOn] using hfirst

/-- Of two calls, one within the other, the inner one takes the failure, and it is the first
to end. -/
theorem next_completed_fails_nested : ∃ (t₀ t₁ t₂ t₃ t₄ : Thread)
    (answer answer' : Except BridgeError Word) (inner outer : Outcome),
    t₀.step = some (.raw (some (0, .error (.unknownHandle 0))) 0, t₁) ∧
      t₁.Runs [.opened 0] t₂ ∧ t₂.step = some (.completed 0 answer inner, t₃) ∧
      inner = .failed (.unknownHandle 0) ∧
      t₁.Runs [.opened 0, .completed 0 answer inner] t₃ ∧
      t₃.step = some (.completed 0 answer' outer, t₄) ∧
      [.opened 0, .completed 0 answer inner, .completed 0 answer' outer].findSome?
        (Event.outcomeOn 0) = some (.failed (.unknownHandle 0)) := by
  obtain ⟨t₀, t₁, t₂, t₃, t₄, w, w', -, hraw, hopened, hinner, houter, hnone⟩ := exists_run_nested
  have hrun := Runs.single hopened
  have hrun' := hrun.step hinner
  have htakes := (next_completed_fails hraw hrun (by simp) hinner).2 (by simp [Event.outcomeOn])
  have hfirst := (next_completed_fails hraw hrun' (by simp) houter).1
  rw [hnone] at htakes hfirst
  exact ⟨t₀, t₁, t₂, t₃, t₄, _, _, _, _, hraw, hrun, hinner, htakes, hrun', houter, hfirst⟩

end Thread

/-- The call whose function has made the failing raw call may succeed: a call that ends within it
takes the failure. -/
theorem Session.inner_call_takes_failure : ∃ r,
    (Session.start [.new 100 false]).perform (.outermost []) Thread.nestedCalls = some r ∧
      r.inner.map (·.outcome) = [.word 0, .failed (.unknownHandle 0)] ∧
      r.outcome = .value (.int 1) :=
  ⟨_, rfl, rfl, rfl⟩

end StackJit
