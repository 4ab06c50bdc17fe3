import StackJit.Native.Session

/-!
# Sessions, step by step

`Session.perform` answers a native call as a whole. A `Thread` performs the same actions one by one,
those of native bodies too, and keeps the native calls that have not ended. Each step is an `Event`,
and a run (`Thread.Runs`) has the list of its events as its history; it may stop anywhere, also
within a native body.

A run to the end is what `Session.performAll` does, outcome for outcome
(`Session.performAll_iff_runs`). What a single step does to the session is said once, by
`Thread.change_of_step`.
-/

namespace StackJit

/-! ## Raw entry points -/

/-- What native code passes to a raw entry point. -/
inductive RawCall where
  | send (mem : Memory) (pointer argc : Word)
  | resume (mem : Memory) (fp sp map : Word)

/-- What a bridge makes of a raw call, before a failure is parked. -/
def Bridge.serve (b : Bridge) : RawCall → Option Bridge.Resumed
  | .send mem pointer argc =>
    match mem.readMessage pointer argc with
    | .error e => some ⟨.error e, b, none⟩
    | .ok words => some ⟨(b.send words).1, (b.send words).2, none⟩
  | .resume mem fp sp map =>
    match mem.readFrame fp sp with
    | .error e => some ⟨.error e, b, none⟩
    | .ok frame => b.resume frame map

/-- The raw call that an action makes. -/
def Action.rawCall? (scope : Scope) : Action → Option RawCall
  | .rawSend words pointer argc =>
    some (.send (.holding Session.scratch (words.map scope.eval))
      (pointer.getD Session.scratch) argc)
  | .rawResume frame pointers map =>
    let words := frame.map scope.eval
    let ends := pointers.getD
      (Session.scratch + Memory.wordSize * UInt64.ofNat words.length, Session.scratch)
    some (.resume (.holding Session.scratch words) ends.1 ends.2 (scope.eval map))
  | _ => none

namespace Session

/-- The bridge that a raw call goes to, and what comes of it there. -/
def served (s : Session) (c : RawCall) : Option (Nat × Except BridgeError Word) := do
  let index ← s.active
  let b ← s.bridges[index]?
  let r ← b.serve c
  return (index, r.result)

/-- The session after a bridge has served a raw call. -/
def settle (s : Session) (index : Nat) (r : Bridge.Resumed) : Reply :=
  ⟨.word (r.bridge.park r.result).1, s.setBridge index (r.bridge.park r.result).2, r.notice, []⟩

/-- The reply to a raw call that the bridge `target` serves. Without a bridge the answer is zero,
and nothing is done. -/
def rawReply (s : Session) (target : Option Nat) (c : RawCall) : Option Reply :=
  match target with
  | none => some (s.reply (.word 0))
  | some index => s.bridges[index]?.bind fun b => (b.serve c).map (s.settle index)

/-- Without an active bridge a raw call answers zero and does nothing. -/
theorem perform_raw_of_none {s : Session} {scope : Scope} {a : Action} {c : RawCall}
    (h : a.rawCall? scope = some c) (hactive : s.active = none) :
    s.perform scope a = some (s.reply (.word 0)) := by
  cases a with
  | rawSend words pointer argc => rw [perform, rawSend, hactive]
  | rawResume frame pointers map =>
    rw [perform]
    dsimp only
    rw [rawResume, hactive]
  | _ => cases h

/-- A raw call is served by the active bridge. -/
theorem perform_raw_of_some {s : Session} {scope : Scope} {a : Action} {c : RawCall} {index : Nat}
    (h : a.rawCall? scope = some c) (hactive : s.active = some index) :
    s.perform scope a = s.bridges[index]?.bind fun b => (b.serve c).map (s.settle index) := by
  cases a with
  | rawSend words pointer argc =>
    cases h
    rw [perform, rawSend, hactive]
    refine Option.bind_congr fun b _ => ?_
    rw [Bridge.serve]
    cases (Memory.holding scratch (words.map scope.eval)).readMessage
      (pointer.getD scratch) argc <;> rfl
  | rawResume frame pointers map =>
    cases h
    rw [perform]
    dsimp only
    rw [rawResume, hactive]
    generalize pointers.getD _ = ends
    refine Option.bind_congr fun b _ => ?_
    rw [Bridge.serve]
    cases (Memory.holding scratch (frame.map scope.eval)).readFrame ends.1 ends.2 with
    | error e => rfl
    | ok words =>
      dsimp only
      cases b.resume words (scope.eval map) <;> rfl
  | _ => cases h

/-- The raw entry points act on the active bridge. -/
theorem perform_raw {s : Session} {scope : Scope} {a : Action} {c : RawCall}
    (h : a.rawCall? scope = some c) : s.perform scope a = s.rawReply s.active c := by
  cases hactive : s.active with
  | none => exact perform_raw_of_none h hactive
  | some index => exact perform_raw_of_some h hactive

end Session

/-! ## Threads -/

/-- A native call that has not ended. -/
structure Call where
  bridge : Nat
  /-- The bridge that was active before. -/
  previous : Option Nat
  /-- Where the function takes its answer from, or why it refuses the call. -/
  answer : Except BridgeError WordRef
  /-- The scope of the caller. -/
  scope : Scope
  /-- What the caller does after the call. -/
  rest : List Action

/-- If a native function refuses a call, it is for the number of arguments. -/
def RefusesArity {α : Type} (answer : Except BridgeError α) : Prop :=
  ∀ e, answer = .error e → ∃ expected given, expected ≠ given ∧ e = .nativeArity expected given

/-- What the native function of a call answers. -/
def Call.answerIn (c : Call) (scope : Scope) : Except BridgeError Word := c.answer.map scope.eval

theorem Call.refusesArity_answerIn {c : Call} (h : RefusesArity c.answer) (scope : Scope) :
    RefusesArity (c.answerIn scope) := by
  intro e he
  rw [answerIn] at he
  cases hanswer : c.answer with
  | ok ref =>
    rw [hanswer] at he
    cases he
  | error refusal =>
    rw [hanswer] at he
    cases he
    exact h _ hanswer

structure Thread where
  session : Session
  scope : Scope
  todo : List Action
  /-- The native calls that have not ended, the innermost first. -/
  calls : List Call

namespace Thread

/-- What happens in a step. -/
inductive Event where
  /-- A raw entry point answers. The active bridge has served the call, if there is one. -/
  | raw (served : Option (Nat × Except BridgeError Word)) (answer : Word)
  | reset (bridge : Nat)
  | entered (bridge guard : Nat)
  | left (guard : Nat)
  /-- A native function gets control, its arguments as words. -/
  | opened (bridge : Nat)
  /-- A native call ends; the function has answered this. -/
  | completed (bridge : Nat) (answer : Except BridgeError Word) (outcome : Outcome)
  | other (outcome : Outcome)

/-- The outcome of the action that ends with the event. -/
def Event.outcome? : Event → Option Outcome
  | raw _ answer => some (.word answer)
  | reset _ => some .done
  | entered _ guard => some (.guard guard)
  | left _ => some (.left true)
  | opened _ => none
  | completed _ _ outcome => some outcome
  | other outcome => some outcome

/-- Before the first of some actions of managed code. -/
def start (s : Session) (actions : List Action) : Thread := ⟨s, .outermost [], actions, []⟩

/-- What the event of an action is that calls no native function. -/
def eventOf (s : Session) (scope : Scope) (a : Action) (outcome : Outcome) : Event :=
  match a.rawCall? scope with
  | some c => .raw (s.served c) outcome.toWord
  | none =>
    match a with
    | .reset index => .reset index
    | .enter index => .entered index s.guards.size
    | .leave guard => if (s.leave guard).1 then .left guard else .other outcome
    | _ => .other outcome

/-- The thread after an action has been answered. -/
def answered (t : Thread) (s : Session) (outcome : Outcome) (rest : List Action) : Thread :=
  { t with session := s, scope := t.scope.answer outcome.toWord, todo := rest }

/-- Ends the innermost native call. -/
def endCall (t : Thread) : Option (Event × Thread) :=
  match t.calls with
  | [] => none
  | call :: calls =>
    (Session.finishCall { t.session with active := call.previous } call.bridge
      (call.answerIn t.scope)).map fun r =>
        (.completed call.bridge (call.answerIn t.scope) r.1,
          ⟨r.2, call.scope.answer r.1.toWord, call.rest, calls⟩)

/-- The native function of a call gets control; its arguments have become words. -/
def inside (t : Thread) (index : Nat) (b : Bridge) (words : List Word) (body : List Action)
    (answer : Except BridgeError WordRef) (rest : List Action) : Thread :=
  ⟨{ t.session.setBridge index b with active := some index }, .body t.scope.outer words [], body,
    ⟨index, t.session.active, answer, t.scope, rest⟩ :: t.calls⟩

/-- Calls a native function. One of another arity answers at once that it refuses the call. -/
def beginCall (t : Thread) (index : Nat) (args : List Value) (arity : Option Nat)
    (body : List Action) (result : WordRef) (rest : List Action) : Option (Event × Thread) :=
  t.session.bridges[index]?.map fun b =>
    match b.handlesOf args with
    | (.error e, b) =>
      (.other (.failed e), t.answered (t.session.setBridge index b) (.failed e) rest)
    | (.ok words, b) =>
      match arity.filter (· != args.length) with
      | some expected =>
        (.opened index, t.inside index b words [] (.error (.nativeArity expected args.length)) rest)
      | none => (.opened index, t.inside index b words body (.ok result) rest)

def step (t : Thread) : Option (Event × Thread) :=
  match t.todo with
  | [] => t.endCall
  | .invoke index args arity body result :: rest => t.beginCall index args arity body result rest
  | action :: rest =>
    (t.session.perform t.scope action).map fun r =>
      (eventOf t.session t.scope action r.outcome, t.answered r.session r.outcome rest)

/-- The thread comes from one state to another, with the events in order. -/
inductive Runs (t : Thread) : List Event → Thread → Prop where
  | refl : Runs t [] t
  | step {history : List Event} {t' t'' : Thread} {e : Event} (h : Runs t history t')
      (hstep : t'.step = some (e, t'')) : Runs t (history ++ [e]) t''

/-- The events of the next steps, and the thread after them. -/
def advance (t : Thread) : Nat → Option (List Event × Thread)
  | 0 => some ([], t)
  | steps + 1 => do
    let (history, t) ← t.advance steps
    let (e, t) ← t.step
    return (history ++ [e], t)

/-! ## Runs -/

section Runs

variable {t t' t'' : Thread} {history history' : List Event} {e : Event}

theorem Runs.trans (h : t.Runs history t') (h' : t'.Runs history' t'') :
    t.Runs (history ++ history') t'' := by
  induction h' with
  | refl => simpa using h
  | step _ hstep ih =>
    rw [← List.append_assoc]
    exact ih.step hstep

theorem Runs.single (h : t.step = some (e, t')) : t.Runs [e] t' := Runs.refl.step h

theorem runs_of_advance {steps : Nat} (h : t.advance steps = some (history, t')) :
    t.Runs history t' := by
  induction steps generalizing history t' with
  | zero =>
    cases h
    exact .refl
  | succ steps ih =>
    obtain ⟨⟨past, u⟩, hu, h⟩ := Option.bind_eq_some_iff.mp h
    obtain ⟨⟨e, u'⟩, hstep, h⟩ := Option.bind_eq_some_iff.mp h
    cases h
    exact (ih hu).step hstep

/-- The first step of a run. -/
theorem Runs.cases_head (h : t.Runs history t'') :
    history = [] ∧ t'' = t ∨
      ∃ e t' rest, t.step = some (e, t') ∧ history = e :: rest ∧ t'.Runs rest t'' := by
  induction h with
  | refl => exact .inl ⟨rfl, rfl⟩
  | step _ hstep ih =>
    rcases ih with ⟨rfl, rfl⟩ | ⟨e, t', rest, hfirst, rfl, hrest⟩
    · exact .inr ⟨_, _, [], hstep, rfl, .refl⟩
    · exact .inr ⟨e, t', _, hfirst, rfl, hrest.step hstep⟩

/-- A thread has one run to a state from which no step leads on. -/
theorem Runs.unique {u u' : Thread} (h : t.Runs history u) (h' : t.Runs history' u')
    (hu : u.step = none) (hu' : u'.step = none) : history = history' ∧ u = u' := by
  induction history generalizing t history' with
  | nil =>
    rcases h.cases_head with ⟨-, rfl⟩ | ⟨_, _, _, _, heq, _⟩
    · rcases h'.cases_head with ⟨rfl, rfl⟩ | ⟨e, t', rest, hstep, -, -⟩
      · exact ⟨rfl, rfl⟩
      · rw [hu] at hstep
        cases hstep
    · cases heq
  | cons e history ih =>
    rcases h.cases_head with ⟨heq, -⟩ | ⟨_, t', _, hstep, heq, hrest⟩
    · cases heq
    · cases heq
      rcases h'.cases_head with ⟨rfl, rfl⟩ | ⟨e', t₁, rest, hstep', rfl, hrest'⟩
      · rw [hstep] at hu'
        cases hu'
      · rw [hstep] at hstep'
        cases hstep'
        obtain ⟨rfl, rfl⟩ := ih hrest hrest'
        exact ⟨rfl, rfl⟩

end Runs

end Thread

/-! ## What a step does -/

namespace Bridge

variable {b : Bridge}

theorem parked_handleOf (b : Bridge) (v : Value) : (b.handleOf v).2.parked = b.parked := rfl

theorem parked_handlesOf (b : Bridge) (vs : List Value) : (b.handlesOf vs).2.parked = b.parked := by
  induction vs generalizing b with
  | nil => rfl
  | cons v rest ih =>
    rw [handlesOf]
    split
    · next b' h => exact (congrArg (·.2.parked) h).symm
    · next word b' h =>
      have hb : b'.parked = b.parked := (congrArg (·.2.parked) h).symm
      split
      · next b'' h' => rw [← hb, ← ih b', h']
      · next words b'' h' => rw [← hb, ← ih b', h']

theorem parked_send (b : Bridge) (words : List Word) : (b.send words).2.parked = b.parked := by
  unfold send
  split
  · rfl
  · split
    · rfl
    · rfl

theorem parked_resume {frame : List Word} {map : Word} {r : Resumed}
    (h : b.resume frame map = some r) : r.bridge.parked = b.parked := by
  unfold resume at h
  split at h
  · cases h
    rfl
  · dsimp only at h
    split at h
    · cases h
    · cases h
      rfl
    · cases h
      rfl

theorem parked_serve {c : RawCall} {r : Resumed} (h : b.serve c = some r) :
    r.bridge.parked = b.parked := by
  cases c with
  | send mem pointer argc =>
    rw [serve] at h
    split at h
    · cases h
      rfl
    · cases h
      exact parked_send b _
  | resume mem fp sp map =>
    rw [serve] at h
    split at h
    · cases h
      rfl
    · exact parked_resume h

end Bridge

namespace Session

variable {s s' : Session} {scope : Scope} {index : Nat} {b : Bridge}

/-- The failure that is parked in a bridge. -/
def parkedIn (s : Session) (index : Nat) : Option BridgeError := s.bridges[index]?.bind (·.parked)

theorem size_setBridge (s : Session) (index : Nat) (b : Bridge) :
    (s.setBridge index b).bridges.size = s.bridges.size :=
  Array.size_setIfInBounds

theorem parkedIn_of_bridge (h : s.bridges[index]? = some b) : s.parkedIn index = b.parked := by
  rw [parkedIn, h, Option.bind_some]

theorem parkedIn_setBridge (h : s.bridges[index]? = some b) (b' : Bridge) (i : Nat) :
    (s.setBridge index b').parkedIn i = if index = i then b'.parked else s.parkedIn i := by
  have hlt : index < s.bridges.size := (Array.getElem?_eq_some_iff.mp h).1
  rw [parkedIn, setBridge, Array.getElem?_setIfInBounds, if_pos hlt]
  split
  · rfl
  · rfl

/-- A bridge that keeps what is parked in it. -/
theorem parkedIn_setBridge_of_eq (h : s.bridges[index]? = some b) {b' : Bridge}
    (hb' : b'.parked = b.parked) (i : Nat) : (s.setBridge index b').parkedIn i = s.parkedIn i := by
  rw [parkedIn_setBridge h]
  split
  · next hi => rw [hb', ← hi, parkedIn_of_bridge h]
  · rfl

/-- What an action does that calls no native function. -/
inductive Effect (s : Session) : Thread.Event → Reply → Prop where
  | idle (hactive : s.active = none) : Effect s (.raw none 0) (s.reply (.word 0))
  | served {index : Nat} {b : Bridge} {c : RawCall} {r : Bridge.Resumed}
      (hactive : s.active = some index) (hb : s.bridges[index]? = some b)
      (hr : b.serve c = some r) :
      Effect s (.raw (some (index, r.result)) (r.bridge.park r.result).1) (s.settle index r)
  | reset {index : Nat} {b : Bridge} (hb : s.bridges[index]? = some b) :
      Effect s (.reset index) ((s.setBridge index b.reset).reply .done)
  | entered {index : Nat} (hindex : index < s.bridges.size) :
      Effect s (.entered index s.guards.size) ((s.enter index).reply (.guard s.guards.size))
  | left {guard : Nat} {previous : Option Nat}
      (hguard : s.guards[guard]? = some ⟨previous, false⟩) :
      Effect s (.left guard) ((s.leave guard).2.reply (.left true))
  | other {r : Reply} (inner : r.inner = []) (active : r.session.active = s.active)
      (guards : r.session.guards = s.guards) (size : r.session.bridges.size = s.bridges.size)
      (parked : ∀ i, r.session.parkedIn i = s.parkedIn i) : Effect s (.other r.outcome) r

/-- An action that only reads the session. -/
theorem Effect.reply (s : Session) (outcome : Outcome) :
    s.Effect (.other outcome) (s.reply outcome) :=
  .other (r := s.reply outcome) rfl rfl rfl rfl fun _ => rfl

/-- An action that changes a bridge, but not what is parked in it. -/
theorem Effect.update (h : s.bridges[index]? = some b) {b' : Bridge} (hb' : b'.parked = b.parked)
    (outcome : Outcome) : s.Effect (.other outcome) ((s.setBridge index b').reply outcome) :=
  .other (r := (s.setBridge index b').reply outcome) rfl rfl rfl (size_setBridge s index b')
    (parkedIn_setBridge_of_eq h hb')

theorem leave_of_live {guard : Nat} {previous : Option Nat}
    (h : s.guards[guard]? = some ⟨previous, false⟩) :
    s.leave guard = (true,
      { s with active := previous, guards := s.guards.setIfInBounds guard ⟨previous, true⟩ }) := by
  rw [leave, h]

/-- A guard can be dropped if it was not yet. -/
theorem leave_cases (s : Session) (guard : Nat) :
    (∃ previous, s.guards[guard]? = some ⟨previous, false⟩ ∧ (s.leave guard).1 = true) ∨
      s.leave guard = (false, s) := by
  unfold leave
  split
  · next previous h => exact .inl ⟨previous, h, rfl⟩
  · exact .inr rfl

end Session

def Action.isInvoke : Action → Bool
  | .invoke .. => true
  | _ => false

namespace Session

variable {s s' : Session} {scope scope' : Scope}

theorem effect_of_raw {a : Action} {c : RawCall} {r : Reply} (ha : a.rawCall? scope = some c)
    (h : s.perform scope a = some r) : s.Effect (Thread.eventOf s scope a r.outcome) r := by
  unfold Thread.eventOf
  rw [ha]
  dsimp only
  cases hactive : s.active with
  | none =>
    rw [perform_raw_of_none ha hactive] at h
    cases h
    rw [served, hactive]
    exact .idle hactive
  | some index =>
    rw [perform_raw_of_some ha hactive] at h
    obtain ⟨b, hb, h⟩ := Option.bind_eq_some_iff.mp h
    obtain ⟨res, hr, rfl⟩ := Option.map_eq_some_iff.mp h
    have hserved : s.served c = some (index, res.result) := by
      simp [served, hactive, hb, hr]
    rw [hserved]
    exact .served hactive hb hr

/-- What an action does that calls no native function. -/
theorem effect_of_perform {a : Action} {r : Reply} (ha : a.isInvoke = false)
    (h : s.perform scope a = some r) : s.Effect (Thread.eventOf s scope a r.outcome) r := by
  cases a with
  | invoke => cases ha
  | rawSend words pointer argc => exact effect_of_raw rfl h
  | rawResume frame pointers map => exact effect_of_raw rfl h
  | handleOf index v =>
    rw [perform] at h
    obtain ⟨b, hb, h⟩ := Option.bind_eq_some_iff.mp h
    have hr : (s.setBridge index (b.handleOf v).2).reply (.ofWord (b.handleOf v).1) = r :=
      Option.some.inj h
    rw [← hr]
    exact .update hb (Bridge.parked_handleOf b v) _
  | valueOf index word =>
    rw [perform] at h
    obtain ⟨b, hb, h⟩ := Option.bind_eq_some_iff.mp h
    obtain rfl := Option.some.inj h
    exact .reply s _
  | send index words =>
    rw [perform] at h
    obtain ⟨b, hb, h⟩ := Option.bind_eq_some_iff.mp h
    obtain rfl := Option.some.inj h
    exact .update hb (Bridge.parked_send b _) _
  | resume index frame map =>
    rw [perform] at h
    obtain ⟨b, hb, h⟩ := Option.bind_eq_some_iff.mp h
    obtain ⟨res, hr, h⟩ := Option.bind_eq_some_iff.mp h
    obtain rfl := Option.some.inj h
    exact .other rfl rfl rfl (size_setBridge s index res.bridge)
      (parkedIn_setBridge_of_eq hb (Bridge.parked_resume hr))
  | addMap index map =>
    rw [perform] at h
    obtain ⟨b, hb, h⟩ := Option.bind_eq_some_iff.mp h
    have hparked : (b.addMap map).2.parked = b.parked := rfl
    rcases hadd : b.addMap map with ⟨w | e, b'⟩
    all_goals
      rw [hadd] at h hparked
      cases h
      exact .update hb hparked _
  | enter index =>
    rw [perform] at h
    obtain ⟨b, hb, h⟩ := Option.bind_eq_some_iff.mp h
    obtain rfl := Option.some.inj h
    exact .entered (Array.getElem?_eq_some_iff.mp hb).1
  | leave guard =>
    rw [perform] at h
    have hr : (s.leave guard).2.reply (.left (s.leave guard).1) = r := Option.some.inj h
    rw [← hr]
    unfold Thread.eventOf
    dsimp only [Action.rawCall?]
    rcases s.leave_cases guard with ⟨previous, hguard, hdropped⟩ | hkept
    · rw [hdropped, if_pos rfl]
      exact .left hguard
    · rw [hkept]
      exact .reply s _
  | reset index =>
    rw [perform] at h
    obtain ⟨b, hb, h⟩ := Option.bind_eq_some_iff.mp h
    obtain rfl := Option.some.inj h
    exact .reset hb
  | describe index =>
    rw [perform] at h
    obtain ⟨b, hb, h⟩ := Option.bind_eq_some_iff.mp h
    obtain rfl := Option.some.inj h
    exact .reply s _
  | symbols =>
    rw [perform] at h
    obtain rfl := Option.some.inj h
    exact .reply s _

/-- The event of an action that calls no native function has its outcome, and nothing is done
within the action. -/
theorem Effect.outcome_eq {e : Thread.Event} {r : Reply} (h : s.Effect e r) :
    r.inner = [] ∧ e.outcome? = some r.outcome := by
  cases h with
  | other inner => exact ⟨inner, rfl⟩
  | _ => exact ⟨rfl, rfl⟩

section Invoke

variable {index : Nat} {args : List Value} {arity : Option Nat} {body : List Action}
  {result : WordRef} {b b' : Bridge} {words : List Word}

theorem perform_invoke_of_error {e : BridgeError} (hb : s.bridges[index]? = some b)
    (hargs : b.handlesOf args = (.error e, b')) :
    s.perform scope (.invoke index args arity body result) =
      some ((s.setBridge index b').reply (.failed e)) := by
  simp [perform, hb, hargs]

theorem perform_invoke_of_arity {expected : Nat} (hb : s.bridges[index]? = some b)
    (hargs : b.handlesOf args = (.ok words, b'))
    (harity : arity.filter (· != args.length) = some expected) :
    s.perform scope (.invoke index args arity body result) =
      (finishCall { s.setBridge index b' with active := s.active } index
        (.error (.nativeArity expected args.length))).map fun r => ⟨r.1, r.2, none, []⟩ := by
  simp only [perform, hb, Option.bind_eq_bind, Option.bind_some, hargs, harity, Option.map_eq_bind]
  rfl

theorem perform_invoke_of_body (hb : s.bridges[index]? = some b)
    (hargs : b.handlesOf args = (.ok words, b')) (harity : arity.filter (· != args.length) = none) :
    s.perform scope (.invoke index args arity body result) =
      (performAll (.body scope.outer words [])
        { s.setBridge index b' with active := some index } body).bind fun p =>
          (finishCall { p.2.2 with active := s.active } index
            (.ok (p.2.1.eval result))).map fun r => ⟨r.1, r.2, none, p.1⟩ := by
  simp only [perform, hb, Option.bind_eq_bind, Option.bind_some, hargs, harity, Option.map_eq_bind]
  rfl

theorem performAll_cons {a : Action} {rest : List Action} :
    s.performAll scope (a :: rest) = (s.perform scope a).bind fun r =>
      (r.session.performAll (scope.answer r.outcome.toWord) rest).map fun p => (r :: p.1, p.2) := by
  simp only [performAll, Option.bind_eq_bind, Option.map_eq_bind]
  rfl

end Invoke

end Session

/-! ## Changes -/

/-- What a native call comes to: a failure that is pending, before the function's own answer. -/
def Bridge.callOutcome (b : Bridge) (pending : Option BridgeError)
    (answer : Except BridgeError Word) : Outcome :=
  match pending with
  | some e => .failed e
  | none => .ofValue (answer.bind b.valueOf)

theorem Session.finishCall_eq (s : Session) (index : Nat) (answer : Except BridgeError Word) :
    s.finishCall index answer = s.bridges[index]?.map fun b =>
      (b.callOutcome b.parked answer, s.setBridge index b.unpark.2) := by
  rw [finishCall]
  cases s.bridges[index]? with
  | none => rfl
  | some b =>
    cases hparked : b.parked <;> cases answer <;>
      simp [Bridge.unpark, Bridge.callOutcome, hparked] <;> rfl

namespace Thread

variable {t t' : Thread} {e : Event}

/-- What a step does. -/
inductive Change (t : Thread) : Event → Thread → Prop where
  | action {e : Event} {r : Reply} {rest : List Action} (effect : t.session.Effect e r) :
      Change t e (t.answered r.session r.outcome rest)
  | opened {index : Nat} {b b' : Bridge} {words : List Word} {body rest : List Action}
      {answer : Except BridgeError WordRef} (hb : t.session.bridges[index]? = some b)
      (parked : b'.parked = b.parked)
      (refusal : RefusesArity answer) :
      Change t (.opened index) (t.inside index b' words body answer rest)
  | completed {call : Call} {calls : List Call} {b : Bridge} {outcome : Outcome}
      (hcalls : t.calls = call :: calls) (hb : t.session.bridges[call.bridge]? = some b)
      (houtcome : outcome = b.callOutcome b.parked (call.answerIn t.scope)) :
      Change t (.completed call.bridge (call.answerIn t.scope) outcome)
        ⟨Session.setBridge { t.session with active := call.previous } call.bridge b.unpark.2,
          call.scope.answer outcome.toWord, call.rest, calls⟩

theorem step_simple {s : Session} {scope : Scope} {a : Action} {rest : List Action}
    {calls : List Call} (ha : a.isInvoke = false) :
    step ⟨s, scope, a :: rest, calls⟩ = (s.perform scope a).map fun r =>
      (eventOf s scope a r.outcome, ⟨r.session, scope.answer r.outcome.toWord, rest, calls⟩) := by
  cases a with
  | invoke => cases ha
  | _ => rfl

/-- The step of a thread whose next action is a raw call. -/
theorem step_raw {a : Action} {rest : List Action} {c : RawCall} (htodo : t.todo = a :: rest)
    (ha : a.rawCall? t.scope = some c) :
    t.step = (t.session.rawReply t.session.active c).map fun r =>
      (.raw (t.session.served c) r.outcome.toWord, t.answered r.session r.outcome rest) := by
  obtain ⟨s, scope, todo, calls⟩ := t
  subst htodo
  have hinvoke : a.isInvoke = false := by
    cases a with
    | invoke => cases ha
    | _ => rfl
  rw [step_simple hinvoke, Session.perform_raw ha]
  simp only [eventOf, ha]
  rfl

theorem change_of_endCall (h : t.endCall = some (e, t')) : t.Change e t' := by
  unfold endCall at h
  split at h
  · cases h
  · next call calls hcalls =>
    rw [Session.finishCall_eq, Option.map_map] at h
    obtain ⟨b, hb, heq⟩ := Option.map_eq_some_iff.mp h
    cases heq
    exact .completed hcalls hb rfl

theorem change_of_beginCall {index : Nat} {args : List Value} {arity : Option Nat}
    {body rest : List Action} {result : WordRef}
    (h : t.beginCall index args arity body result rest = some (e, t')) : t.Change e t' := by
  obtain ⟨b, hb, h⟩ := Option.map_eq_some_iff.mp h
  have hparked := b.parked_handlesOf args
  rcases hargs : b.handlesOf args with ⟨err | words, b'⟩
  · rw [hargs] at h hparked
    cases h
    exact .action (.update hb hparked (.failed err))
  · rw [hargs] at h hparked
    dsimp only at h
    cases harity : arity.filter (· != args.length) with
    | some expected =>
      rw [harity] at h
      cases h
      refine .opened hb hparked fun e he => ⟨expected, args.length, ?_, ?_⟩
      · simpa using (Option.filter_eq_some_iff.mp harity).2
      · cases he
        rfl
    | none =>
      rw [harity] at h
      cases h
      exact .opened hb hparked fun e he => by cases he

/-- What a step does, said once for all that is proved about runs. -/
theorem change_of_step (h : t.step = some (e, t')) : t.Change e t' := by
  obtain ⟨s, scope, todo, calls⟩ := t
  cases todo with
  | nil => exact change_of_endCall h
  | cons a rest =>
    cases ha : a.isInvoke with
    | true =>
      cases a with
      | invoke index args arity body result => exact change_of_beginCall h
      | _ => cases ha
    | false =>
      rw [step_simple ha] at h
      obtain ⟨r, hr, heq⟩ := Option.map_eq_some_iff.mp h
      cases heq
      exact .action (Session.effect_of_perform ha hr)

/-- A raw call goes to the active bridge and leaves the others alone. -/
theorem served_step {served : Option (Nat × Except BridgeError Word)} {answer : Word}
    (h : t.step = some (.raw served answer, t')) :
    served.map (·.1) = t.session.active ∧
      ∀ i, t.session.active ≠ some i → t'.session.bridges[i]? = t.session.bridges[i]? := by
  cases change_of_step h with
  | action effect =>
    cases effect with
    | idle hactive => exact ⟨hactive.symm, fun i _ => rfl⟩
    | served hactive =>
      refine ⟨hactive.symm, fun i hi => Array.getElem?_setIfInBounds_ne fun heq => ?_⟩
      exact hi (heq ▸ hactive)

end Thread

/-! ## Threads against sessions -/

mutual

/-- The outcomes of an action and of the actions within it, in the order in which they end. -/
def Reply.outcomes : Reply → List Outcome
  | ⟨outcome, _, _, inner⟩ => Reply.allOutcomes inner ++ [outcome]

def Reply.allOutcomes : List Reply → List Outcome
  | [] => []
  | r :: rest => r.outcomes ++ Reply.allOutcomes rest

end

/-- Induction on actions: the body of a native call comes before what follows the call. -/
theorem Action.list_induction {P : List Action → Prop} (nil : P [])
    (simple : ∀ a rest, a.isInvoke = false → P rest → P (a :: rest))
    (invoke : ∀ index args arity body result rest, P body → P rest →
      P (.invoke index args arity body result :: rest)) : ∀ actions, P actions := by
  apply @Action.rec_1 (fun a => ∀ rest, P rest → P (a :: rest)) P
  case invoke =>
    intro index args arity body result hbody rest hrest
    exact invoke index args arity body result rest hbody hrest
  case nil => exact nil
  case cons =>
    intro a rest ha hrest
    exact ha rest hrest
  all_goals
    intros
    exact simple _ _ rfl ‹_›

namespace Thread

/-- There is nothing left to do. -/
def Ended (t : Thread) : Prop := t.todo = [] ∧ t.calls = []

/-- What the thread comes to: a state, after these outcomes, or to a standstill. -/
inductive Comes (t : Thread) : Option (List Outcome × Thread) → Prop where
  | state {history : List Event} {t' : Thread} (runs : t.Runs history t') :
      Comes t (some (history.filterMap Event.outcome?, t'))
  | standstill {history : List Event} {t' : Thread} (runs : t.Runs history t')
      (stuck : t'.step = none) (unfinished : ¬ t'.Ended) : Comes t none

theorem Comes.trans {outcomes : List Outcome} {t t' : Thread}
    {result : Option (List Outcome × Thread)} (h : t.Comes (some (outcomes, t')))
    (h' : t'.Comes result) : t.Comes (result.map fun p => (outcomes ++ p.1, p.2)) := by
  cases h with
  | state runs =>
    cases h' with
    | state runs' =>
      rw [Option.map_some, ← List.filterMap_append]
      exact .state (runs.trans runs')
    | standstill runs' stuck unfinished => exact .standstill (runs.trans runs') stuck unfinished

theorem comes_of_step {t t' : Thread} {e : Event} (h : t.step = some (e, t')) :
    t.Comes (some (e.outcome?.toList, t')) := by
  have hone : [e].filterMap Event.outcome? = e.outcome?.toList := by
    cases he : e.outcome? <;> simp [he]
  rw [← hone]
  exact .state (.single h)

theorem comes_of_stuck {t : Thread} (h : t.step = none) (hend : ¬ t.Ended) : t.Comes none :=
  .standstill .refl h hend

/-- A thread comes to one end at most. -/
theorem Comes.unique {t : Thread} {result result' : Option (List Outcome × Thread)}
    (h : t.Comes result) (h' : t.Comes result') (hend : ∀ p ∈ result, p.2.Ended)
    (hend' : ∀ p ∈ result', p.2.Ended) : result = result' := by
  have hstuck : ∀ {u : Thread}, u.Ended → u.step = none := fun hu => by
    rw [Thread.step, hu.1]
    dsimp only
    rw [endCall, hu.2]
  cases h with
  | state runs =>
    have hu := hend _ rfl
    cases h' with
    | state runs' =>
      obtain ⟨rfl, rfl⟩ := runs.unique runs' (hstuck hu) (hstuck (hend' _ rfl))
      rfl
    | standstill runs' stuck unfinished =>
      obtain ⟨-, rfl⟩ := runs.unique runs' (hstuck hu) stuck
      exact absurd hu unfinished
  | standstill runs stuck unfinished =>
    cases h' with
    | state runs' =>
      obtain ⟨-, rfl⟩ := runs.unique runs' stuck (hstuck (hend' _ rfl))
      exact absurd (hend' _ rfl) unfinished
    | standstill => rfl

theorem Comes.bind {α : Type} {t : Thread} {o : Option α} {outcomes : α → List Outcome}
    {next : α → Thread} {result : α → Option (List Outcome × Thread)}
    (h : t.Comes (o.map fun a => (outcomes a, next a))) (h' : ∀ a ∈ o, (next a).Comes (result a)) :
    t.Comes (o.bind fun a => (result a).map fun p => (outcomes a ++ p.1, p.2)) := by
  cases o with
  | none => exact h
  | some a => exact h.trans (h' a rfl)

section

variable {s : Session} {scope : Scope} {a : Action} {rest : List Action} {calls : List Call}

theorem comes_endCall (call : Call) :
    Comes ⟨s, scope, [], call :: calls⟩
      ((Session.finishCall { s with active := call.previous } call.bridge (call.answerIn scope)).map
        fun r => ([r.1], ⟨r.2, call.scope.answer r.1.toWord, call.rest, calls⟩)) := by
  cases h : Session.finishCall { s with active := call.previous } call.bridge
    (call.answerIn scope) with
  | none =>
    refine comes_of_stuck ?_ fun hend => by cases hend.2
    simp [step, endCall, h]
  | some r =>
    refine comes_of_step (e := .completed call.bridge (call.answerIn scope) r.1) ?_
    simp [step, endCall, h]

theorem comes_simple (ha : a.isInvoke = false) :
    Comes ⟨s, scope, a :: rest, calls⟩ ((s.perform scope a).map fun r =>
      (r.outcomes, ⟨r.session, scope.answer r.outcome.toWord, rest, calls⟩)) := by
  have hstep : step ⟨s, scope, a :: rest, calls⟩ = _ := step_simple ha
  cases h : s.perform scope a with
  | none =>
    rw [h] at hstep
    exact comes_of_stuck hstep fun hend => by cases hend.1
  | some r =>
    rw [h] at hstep
    obtain ⟨hinner, houtcome⟩ := (Session.effect_of_perform ha h).outcome_eq
    have houtcomes : r.outcomes = (eventOf s scope a r.outcome).outcome?.toList := by
      obtain ⟨outcome, session, notice, inner⟩ := r
      cases hinner
      rw [houtcome]
      rfl
    rw [Option.map_some, houtcomes]
    exact comes_of_step hstep

/-- Where actions of one level come to, when they are through. -/
def through (calls : List Call) (p : List Reply × Scope × Session) : List Outcome × Thread :=
  (Reply.allOutcomes p.1, ⟨p.2.2, p.2.1, [], calls⟩)

theorem comes_invoke {index : Nat} {args : List Value} {arity : Option Nat} {body : List Action}
    {result : WordRef}
    (ih : ∀ s scope calls,
      Comes ⟨s, scope, body, calls⟩ ((s.performAll scope body).map (through calls))) :
    Comes ⟨s, scope, .invoke index args arity body result :: rest, calls⟩
      ((s.perform scope (.invoke index args arity body result)).map fun r =>
        (r.outcomes, ⟨r.session, scope.answer r.outcome.toWord, rest, calls⟩)) := by
  let t : Thread := ⟨s, scope, .invoke index args arity body result :: rest, calls⟩
  cases hb : s.bridges[index]? with
  | none =>
    rw [Session.perform, hb]
    refine comes_of_stuck ?_ fun hend => by cases hend.1
    simp [step, beginCall, hb]
  | some b =>
    rcases hargs : b.handlesOf args with ⟨e | words, b'⟩
    · rw [Session.perform_invoke_of_error hb hargs]
      refine comes_of_step (e := .other (.failed e)) ?_
      simp [step, beginCall, hb, hargs, answered, Session.reply]
    · cases harity : arity.filter (· != args.length) with
      | some expected =>
        have hopened : t.step = some (.opened index,
            t.inside index b' words [] (.error (.nativeArity expected args.length)) rest) := by
          simp [t, step, beginCall, hb, hargs, harity]
        have hended := (comes_of_step hopened).trans (comes_endCall _)
        rw [Option.map_map] at hended
        rw [Session.perform_invoke_of_arity hb hargs harity, Option.map_map]
        exact hended
      | none =>
        have hopened : t.step = some (.opened index,
            t.inside index b' words body (.ok result) rest) := by
          simp [t, step, beginCall, hb, hargs, harity]
        have hended := (comes_of_step hopened).trans ((ih _ _ _).bind fun p _ => comes_endCall _)
        rw [Session.perform_invoke_of_body hb hargs harity]
        simp only [Option.map_bind, Function.comp_def, Option.map_map] at hended ⊢
        exact hended

/-- Performing actions at a stretch is performing them one by one. -/
theorem comes_performAll (actions : List Action) : ∀ s scope calls,
    Comes ⟨s, scope, actions, calls⟩ ((s.performAll scope actions).map (through calls)) := by
  have hcons {a : Action} {rest : List Action}
      (ha : ∀ s scope calls, Comes ⟨s, scope, a :: rest, calls⟩ ((s.perform scope a).map fun r =>
        (r.outcomes, ⟨r.session, scope.answer r.outcome.toWord, rest, calls⟩)))
      (hrest : ∀ s scope calls,
        Comes ⟨s, scope, rest, calls⟩ ((s.performAll scope rest).map (through calls)))
      (s : Session) (scope : Scope) (calls : List Call) :
      Comes ⟨s, scope, a :: rest, calls⟩
        ((s.performAll scope (a :: rest)).map (through calls)) := by
    have hboth := (ha s scope calls).bind fun r _ =>
      hrest r.session (scope.answer r.outcome.toWord) calls
    rw [Session.performAll_cons, Option.map_bind]
    simp only [Function.comp_def, Option.map_map] at hboth ⊢
    exact hboth
  induction actions using Action.list_induction with
  | nil => exact fun s scope calls => .state .refl
  | simple a rest ha ih => exact hcons (fun s scope calls => comes_simple ha) ih
  | invoke index args arity body result rest hbody ih =>
    exact hcons (fun s scope calls => comes_invoke hbody) ih

end

end Thread

/-- The replies to some actions, and the session after them, are what a run to the end gives. -/
theorem Session.performAll_iff_runs {s s' : Session} {scope : Scope} {actions : List Action}
    {outcomes : List Outcome} :
    (∃ replies, s.performAll (.outermost []) actions = some (replies, scope, s') ∧
        Reply.allOutcomes replies = outcomes) ↔
      ∃ history, (Thread.start s actions).Runs history ⟨s', scope, [], []⟩ ∧
        history.filterMap Thread.Event.outcome? = outcomes := by
  have hall := Thread.comes_performAll actions s (.outermost []) []
  constructor
  · rintro ⟨replies, hreplies, rfl⟩
    rw [hreplies] at hall
    generalize hresult : Option.map _ _ = result at hall
    cases hall with
    | state runs =>
      obtain ⟨houtcomes, rfl⟩ := Prod.mk.inj (Option.some.inj hresult)
      exact ⟨_, runs, houtcomes.symm⟩
    | standstill => cases hresult
  · rintro ⟨history, runs, rfl⟩
    have heq := hall.unique (.state runs) (fun p hp => by
      obtain ⟨q, -, rfl⟩ := Option.map_eq_some_iff.mp hp
      exact ⟨rfl, rfl⟩) (fun p hp => by
      cases hp
      exact ⟨rfl, rfl⟩)
    obtain ⟨⟨replies, scope', s''⟩, hreplies, heq⟩ := Option.map_eq_some_iff.mp heq
    obtain ⟨houtcomes, hthread⟩ := Prod.mk.inj heq
    cases hthread
    exact ⟨replies, hreplies, houtcomes⟩

end StackJit
