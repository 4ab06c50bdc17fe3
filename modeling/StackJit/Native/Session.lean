import StackJit.Native.Bridge
import StackJit.Native.Memory

/-!
# Sessions

A session is one thread that uses several bridges. At most one bridge is active, and the raw entry
points act on that one. `Action` is what managed code, or the body of a native function, can do;
calling a native function runs its body with the called bridge active and then makes the bridge
active that was so before.

`Session.perform` gives the reply to an action: its outcome, the session after it and, for a native
call, the replies to the actions of the body. There is no reply if an action names no bridge of the
session, or if a method that it runs does not come to an end.
-/

namespace StackJit

/-- A word as an action names it. Whatever is not there is zero. -/
inductive WordRef where
  | literal (w : Word)
  /-- The word that the outermost action of that number was answered with. -/
  | outer (index : Nat)
  /-- The word that this action of the same native body was answered with. -/
  | inner (index : Nat)
  /-- An argument of the running native function. -/
  | arg (index : Nat)
deriving DecidableEq, Repr

/-- The words that an action can refer to: at the outermost level those of earlier actions, in a
native body also its arguments and the words of the body's earlier actions. -/
inductive Scope where
  | outermost (answers : List Word)
  | body (outer args answers : List Word)
deriving DecidableEq, Repr

namespace Scope

def outer : Scope → List Word
  | outermost answers => answers
  | body outer _ _ => outer

def eval (s : Scope) : WordRef → Word
  | .literal w => w
  | .outer index => s.outer.getD index 0
  | .inner index =>
    match s with
    | outermost _ => 0
    | body _ _ answers => answers.getD index 0
  | .arg index =>
    match s with
    | outermost _ => 0
    | body _ args _ => args.getD index 0

/-- The scope after one more action was answered with a word. -/
def answer (s : Scope) (w : Word) : Scope :=
  match s with
  | outermost answers => outermost (answers ++ [w])
  | body outer args answers => body outer args (answers ++ [w])

end Scope

inductive Action where
  | handleOf (bridge : Nat) (value : Value)
  | valueOf (bridge : Nat) (word : WordRef)
  | send (bridge : Nat) (words : List WordRef)
  | resume (bridge : Nat) (frame : List WordRef) (map : WordRef)
  | addMap (bridge : Nat) (map : DeoptMap)
  /-- Sends a message from native code. The words lie in memory; the pointer is the address of the
  first of them unless one is given. -/
  | rawSend (words : List WordRef) (pointer : Option Word) (argc : Word)
  /-- Hands over a native frame. Its words lie in memory, between the stack pointer and the frame
  pointer, unless other pointers are given, the frame pointer first. -/
  | rawResume (frame : List WordRef) (pointers : Option (Word × Word)) (map : WordRef)
  | enter (bridge : Nat)
  | leave (guard : Nat)
  /-- Calls a native function. One of fixed arity refuses another number of arguments. -/
  | invoke (bridge : Nat) (args : List Value) (arity : Option Nat) (body : List Action)
      (result : WordRef)
  | reset (bridge : Nat)
  | describe (bridge : Nat)
  | symbols

/-- Remembers the bridge that was active when another one was entered. -/
structure Guard where
  previous : Option Nat
  dropped : Bool
deriving DecidableEq, Repr

structure Session where
  bridges : Array Bridge
  active : Option Nat
  guards : Array Guard

inductive Outcome where
  | done
  | word (w : Word)
  | value (v : Value)
  | failed (cause : BridgeError)
  /-- The word of a new deopt map, and the size of its frames. -/
  | addedMap (w : Word) (frameSize : Nat)
  | guard (index : Nat)
  /-- Whether the guard was still there to be dropped. -/
  | left (dropped : Bool)
  | text (s : String)
  | names (names : List String)
deriving DecidableEq, Repr

namespace Outcome

/-- The word that an outcome stands for in later actions. -/
def toWord : Outcome → Word
  | word w => w
  | addedMap w _ => w
  | _ => 0

def ofWord : Except BridgeError Word → Outcome
  | .ok w => word w
  | .error e => failed e

def ofValue : Except BridgeError Value → Outcome
  | .ok v => value v
  | .error e => failed e

end Outcome

structure Reply where
  outcome : Outcome
  session : Session
  /-- What an observer was told during the action itself. -/
  notice : Option Deopt
  inner : List Reply

namespace Session

/-- A session in which no bridge is active. -/
def start (bridges : List Bridge) : Session := ⟨bridges.toArray, none, #[]⟩

def setBridge (s : Session) (index : Nat) (b : Bridge) : Session :=
  { s with bridges := s.bridges.setIfInBounds index b }

def reply (s : Session) (outcome : Outcome) : Reply := ⟨outcome, s, none, []⟩

/-- Where the words that native code passes lie. -/
def scratch : Word := 4096

/-- Sends a message through the active bridge; zero if there is none. -/
def rawSend (s : Session) (mem : Memory) (pointer argc : Word) : Option Reply :=
  match s.active with
  | none => some (s.reply (.word 0))
  | some index => do
    let b ← s.bridges[index]?
    let (result, b) :=
      match mem.readMessage pointer argc with
      | .error e => (Except.error e, b)
      | .ok words => b.send words
    let (word, b) := b.park result
    return (s.setBridge index b).reply (.word word)

/-- Hands a frame to the interpreter of the active bridge; zero if there is none. -/
def rawResume (s : Session) (mem : Memory) (fp sp map : Word) : Option Reply :=
  match s.active with
  | none => some (s.reply (.word 0))
  | some index => do
    let b ← s.bridges[index]?
    let r ←
      match mem.readFrame fp sp with
      | .error e => some ⟨.error e, b, none⟩
      | .ok frame => b.resume frame map
    let (word, b) := r.bridge.park r.result
    return { (s.setBridge index b).reply (.word word) with notice := r.notice }

/-- Makes a bridge active until the guard is dropped. -/
def enter (s : Session) (index : Nat) : Session :=
  { s with active := some index, guards := s.guards.push ⟨s.active, false⟩ }

/-- Drops a guard: the bridge that was active when it was made becomes active again. -/
def leave (s : Session) (guard : Nat) : Bool × Session :=
  match s.guards[guard]? with
  | some ⟨previous, false⟩ =>
    (true, { s with active := previous, guards := s.guards.setIfInBounds guard ⟨previous, true⟩ })
  | _ => (false, s)

/-- Ends a native call on a bridge: a parked failure comes before the function's own result. -/
def finishCall (s : Session) (index : Nat) (result : Except BridgeError Word) :
    Option (Outcome × Session) := do
  let b ← s.bridges[index]?
  let (parked, b) := b.unpark
  let outcome :=
    match parked, result with
    | some e, _ => .failed e
    | none, .error e => .failed e
    | none, .ok word => .ofValue (b.valueOf word)
  return (outcome, s.setBridge index b)

mutual

def perform (scope : Scope) (s : Session) : Action → Option Reply
  | .handleOf index v => do
    let b ← s.bridges[index]?
    let (result, b) := b.handleOf v
    return (s.setBridge index b).reply (.ofWord result)
  | .valueOf index word => do
    let b ← s.bridges[index]?
    return s.reply (.ofValue (b.valueOf (scope.eval word)))
  | .send index words => do
    let b ← s.bridges[index]?
    let (result, b) := b.send (words.map scope.eval)
    return (s.setBridge index b).reply (.ofWord result)
  | .resume index frame map => do
    let b ← s.bridges[index]?
    let r ← b.resume (frame.map scope.eval) (scope.eval map)
    return { (s.setBridge index r.bridge).reply (.ofWord r.result) with notice := r.notice }
  | .addMap index map => do
    let b ← s.bridges[index]?
    match b.addMap map with
    | (.ok w, b) => return (s.setBridge index b).reply (.addedMap w map.frameSize)
    | (.error e, b) => return (s.setBridge index b).reply (.failed e)
  | .rawSend words pointer argc =>
    s.rawSend (.holding scratch (words.map scope.eval)) (pointer.getD scratch) argc
  | .rawResume frame pointers map =>
    let frame := frame.map scope.eval
    let (fp, sp) := pointers.getD (scratch + Memory.wordSize * UInt64.ofNat frame.length, scratch)
    s.rawResume (.holding scratch frame) fp sp (scope.eval map)
  | .enter index => do
    let _ ← s.bridges[index]?
    return (s.enter index).reply (.guard s.guards.size)
  | .leave guard =>
    let (dropped, s) := s.leave guard
    some (s.reply (.left dropped))
  | .invoke index args arity body result => do
    let b ← s.bridges[index]?
    match b.handlesOf args with
    | (.error e, b) => return (s.setBridge index b).reply (.failed e)
    | (.ok words, b) =>
      let called := { s.setBridge index b with active := some index }
      match arity.filter (· != args.length) with
      | some expected =>
        let (outcome, after) ← finishCall { called with active := s.active } index
          (.error (.nativeArity expected args.length))
        return ⟨outcome, after, none, []⟩
      | none =>
        let (inner, final, after) ← performAll (.body scope.outer words []) called body
        let (outcome, after) ← finishCall { after with active := s.active } index
          (.ok (final.eval result))
        return ⟨outcome, after, none, inner⟩
  | .reset index => do
    let b ← s.bridges[index]?
    return (s.setBridge index b.reset).reply .done
  | .describe index => do
    let b ← s.bridges[index]?
    return s.reply (.text b.describe)
  | .symbols => some (s.reply (.names Bridge.symbols))

/-- Performs actions one after the other; gives their replies, and scope and session at the end. -/
def performAll (scope : Scope) (s : Session) : List Action → Option (List Reply × Scope × Session)
  | [] => some ([], scope, s)
  | action :: rest => do
    let r ← perform scope s action
    let (replies, scope, s) ← performAll (scope.answer r.outcome.toWord) r.session rest
    return (r :: replies, scope, s)

end

/-- The replies to the actions of managed code. -/
def run (s : Session) (actions : List Action) : Option (List Reply) :=
  (performAll (.outermost []) s actions).map (·.1)

end Session

end StackJit
