import StackJit.Instr
import StackJit.Profile
import StackJit.Value.Send
import Std.Data.TreeMap

/-!
# The stack machine

`Activation` is what a running method body reads and never changes, `Frame` what it changes.
`Activation.step` executes one instruction; `Activation.run` repeats it within a step budget and
answers `none` when the budget is used up, so a method that loops forever has no answer at any
budget. A body that runs past its last instruction answers the top of the stack, or nil.

`Activation.dispatch?` is the send that the next step would dispatch, and
`Activation.runProfiled` runs while recording those.

Main statements: a larger budget keeps an answer (`run_of_le`), and recording changes no answer
(`resumeProfiled_fst`).
-/

namespace StackJit

abbrev Locals := Std.TreeMap String Value

structure Activation where
  code : Code
  receiver : Value
  args : List Value

/-- The state of a running method body; the top of the stack comes first. -/
structure Frame where
  ip : Nat
  stack : List Value
  locals : Locals

namespace Frame

/-- Before the first instruction: nothing on the stack and no local assigned. -/
def entry : Frame := ⟨0, [], ∅⟩

/-- A frame about to execute the instruction at `ip`, its stack given deepest value first. -/
def resumeAt (ip : Nat) (stack : List Value) (locals : Locals) : Frame :=
  ⟨ip, stack.reverse, locals⟩

end Frame

inductive Step where
  | next (frame : Frame)
  | stop (result : Except RunError Value)

namespace Activation

/-- Continues at `target`, which may be the end of the body. -/
def goto (a : Activation) (f : Frame) (target : Nat) : Step :=
  if target ≤ a.code.size then .next { f with ip := target }
  else .stop (.error (.badIp target a.code.size))

/-- Executes `instr`, the instruction at `f.ip`. -/
def execute (a : Activation) (f : Frame) (instr : Instr) : Step :=
  match instr with
  | .trace _ => .next { f with ip := f.ip + 1 }
  | .self => .next { f with ip := f.ip + 1, stack := a.receiver :: f.stack }
  | .arg n =>
    match a.args[n]? with
    | some v => .next { f with ip := f.ip + 1, stack := v :: f.stack }
    | none => .stop (.error (.missingArgument n a.args.length))
  | .load name =>
    match f.locals[name]? with
    | some v => .next { f with ip := f.ip + 1, stack := v :: f.stack }
    | none => .stop (.error (.undefinedLocal name))
  | .store name =>
    match f.stack with
    | v :: rest => .next ⟨f.ip + 1, rest, f.locals.insert name v⟩
    | [] => .stop (.error (.stackUnderflow f.ip))
  | .push v => .next { f with ip := f.ip + 1, stack := v :: f.stack }
  | .send name argc =>
    match f.stack.drop argc with
    | receiver :: rest =>
      match receiver.send name (f.stack.take argc).reverse with
      | .ok v => .next { f with ip := f.ip + 1, stack := v :: rest }
      | .error e => .stop (.error e)
    | [] => .stop (.error (.stackUnderflow f.ip))
  | .not =>
    match f.stack with
    | v :: rest => .next { f with ip := f.ip + 1, stack := .bool (!v.truthy) :: rest }
    | [] => .stop (.error (.stackUnderflow f.ip))
  | .jump target => a.goto f target
  | .branch target =>
    match f.stack with
    | v :: rest =>
      if v.truthy then a.goto { f with stack := rest } target
      else .next { f with ip := f.ip + 1, stack := rest }
    | [] => .stop (.error (.stackUnderflow f.ip))
  | .ret =>
    match f.stack with
    | v :: _ => .stop (.ok v)
    | [] => .stop (.error (.stackUnderflow f.ip))

def step (a : Activation) (f : Frame) : Step :=
  match a.code[f.ip]? with
  | some instr => a.execute f instr
  | none => .stop (.ok (f.stack.headD .nil))

/-- The site and receiver kind of the send that the next step dispatches, whether or not the
receiver answers it. A send that lacks operands dispatches nothing. -/
def dispatch? (a : Activation) (f : Frame) : Option (Nat × Kind) :=
  match a.code[f.ip]? with
  | some (.send _ argc) => (f.stack.drop argc).head?.map fun receiver => (f.ip, receiver.kind)
  | _ => none

/-- Runs for at most `budget` steps. -/
def run (a : Activation) : Nat → Frame → Option (Except RunError Value)
  | 0, _ => none
  | budget + 1, f =>
    match a.step f with
    | .next f => run a budget f
    | .stop result => some result

/-- Runs for at most `budget` steps and adds every dispatched send to the profile. -/
def runProfiled (a : Activation) :
    Nat → Frame → Profile → Option (Except RunError Value) × Profile
  | 0, _, p => (none, p)
  | budget + 1, f, p =>
    let p :=
      match a.dispatch? f with
      | some (ip, kind) => p.record ip kind
      | none => p
    match a.step f with
    | .next f => runProfiled a budget f p
    | .stop result => (some result, p)

/-- Runs from an arbitrary frame, which may not stand past the end of the body. -/
def resume (a : Activation) (budget : Nat) (f : Frame) : Option (Except RunError Value) :=
  if f.ip ≤ a.code.size then a.run budget f else some (.error (.badIp f.ip a.code.size))

/-- `resume` with a profile. -/
def resumeProfiled (a : Activation) (budget : Nat) (f : Frame) (p : Profile) :
    Option (Except RunError Value) × Profile :=
  if f.ip ≤ a.code.size then a.runProfiled budget f p
  else (some (.error (.badIp f.ip a.code.size)), p)

/-- A larger budget keeps an answer. -/
theorem run_of_le {a : Activation} {m n : Nat} {f : Frame} {r : Except RunError Value}
    (h : a.run m f = some r) (hmn : m ≤ n) : a.run n f = some r := by
  induction m generalizing n f with
  | zero => simp [run] at h
  | succ m ih =>
    obtain ⟨n, rfl⟩ : ∃ k, n = k + 1 := ⟨n - 1, by omega⟩
    unfold run at h ⊢
    split at h
    · exact ih h (by omega)
    · exact h

theorem runProfiled_fst (a : Activation) (budget : Nat) (f : Frame) (p : Profile) :
    (a.runProfiled budget f p).1 = a.run budget f := by
  induction budget generalizing f p with
  | zero => rfl
  | succ budget ih =>
    unfold runProfiled run
    cases a.step f with
    | next f => exact ih f _
    | stop result => rfl

/-- Recording changes no answer. -/
theorem resumeProfiled_fst (a : Activation) (budget : Nat) (f : Frame) (p : Profile) :
    (a.resumeProfiled budget f p).1 = a.resume budget f := by
  unfold resumeProfiled resume
  split
  · exact a.runProfiled_fst budget f p
  · rfl

end Activation

end StackJit
