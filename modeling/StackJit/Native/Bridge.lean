import StackJit.Native.Frame

/-!
# The bridge

A bridge owns the handle table through which native and managed code exchange values. Native code
may send a message (`Bridge.send`) or hand its frame to the interpreter and have the method finished
there (`Bridge.resume`). Every operation gives back the bridge, changed or not, whether it fails or
succeeds.

Through the raw entry points native code can be told of no failure, so a failure is parked in the
bridge (`Bridge.park`), the first one only, until managed code asks for it.
-/

namespace StackJit

/-- Finishes a method from some frame; `none` if it does not come to an end. -/
abbrev Interpreter := Activation → Frame → Option (Except RunError Value)

structure Bridge where
  table : HandleTable
  interpreter : Interpreter
  /-- Whether an observer is told about abandoned native code. -/
  observed : Bool
  parked : Option BridgeError
  /-- How many deopt maps were added. -/
  maps : Nat

namespace Bridge

/-- A bridge that has given out no handle. -/
def withInterpreter (interpreter : Interpreter) (observed : Bool) : Bridge :=
  { table := .empty, interpreter, observed, parked := none, maps := 0 }

/-- A bridge on the stack machine. -/
def new (budget : Nat) (observed : Bool) : Bridge :=
  withInterpreter (fun a f => a.resume budget f) observed

def describe (b : Bridge) : String :=
  s!"Bridge \x7b handles: {b.table.size}, observer: {b.observed} \x7d"

/-- The names of the raw entry points. -/
def symbols : List String := ["tendril_call_managed", "tendril_continue_in_interpreter"]

/-- The word for a value. -/
def handleOf (b : Bridge) (v : Value) : Except BridgeError Word × Bridge :=
  let (result, table) := b.table.insert (.value v)
  (result, { b with table })

/-- The words for values, up to the first that gets none. -/
def handlesOf (b : Bridge) : List Value → Except BridgeError (List Word) × Bridge
  | [] => (.ok [], b)
  | v :: rest =>
    match b.handleOf v with
    | (.error e, b) => (.error e, b)
    | (.ok word, b) =>
      match handlesOf b rest with
      | (.error e, b) => (.error e, b)
      | (.ok words, b) => (.ok (word :: words), b)

/-- The value that a word names. -/
def valueOf (b : Bridge) (word : Word) : Except BridgeError Value := b.table.value word

/-- The word for a new deopt map, an entry of its own. -/
def addMap (b : Bridge) (map : DeoptMap) : Except BridgeError Word × Bridge :=
  let (result, table) := b.table.insert (.deoptMap b.maps map)
  (result, { b with table, maps := b.maps + 1 })

/-- Forgets all handles and the parked failure. -/
def reset (b : Bridge) : Bridge := { b with table := b.table.reset, parked := none }

/-- The message that words spell: receiver, name, arguments. -/
def decodeMessage (b : Bridge) : List Word → Except BridgeError (Value × String × List Value)
  | receiver :: name :: args =>
    match b.valueOf receiver with
    | .error e => .error e
    | .ok receiver =>
      match b.valueOf name with
      | .error e => .error e
      | .ok (.symbol name) =>
        match b.table.values args with
        | .error e => .error e
        | .ok args => .ok (receiver, name, args)
      | .ok other => .error (.dispatch (.notASymbol other.kind))
  | words => .error (.truncatedCall words.length)

/-- Sends the message that words spell and answers the word for the result. -/
def send (b : Bridge) (words : List Word) : Except BridgeError Word × Bridge :=
  match b.decodeMessage words with
  | .error e => (.error e, b)
  | .ok (receiver, name, args) =>
    match receiver.send name args with
    | .error e => (.error (.dispatch e), b)
    | .ok v => b.handleOf v

/-- What a frame holds by the deopt map that a word names. -/
def decodeDeopt (b : Bridge) (frame : List Word) (map : Word) : Except BridgeError Deopt :=
  match b.table.deoptMap map with
  | .error e => .error e
  | .ok (_, map) =>
    match b.table.rebuild map frame with
    | .error e => .error e
    | .ok state => .ok ⟨map, state⟩

/-- What comes of handing a frame to the interpreter. -/
structure Resumed where
  result : Except BridgeError Word
  bridge : Bridge
  /-- What the observer was told. -/
  notice : Option Deopt

/-- Finishes the method of a native frame and answers the word for its result; no answer if the
method does not come to an end. -/
def resume (b : Bridge) (frame : List Word) (map : Word) : Option Resumed :=
  match b.decodeDeopt frame map with
  | .error e => some ⟨.error e, b, none⟩
  | .ok deopt =>
    let notice := if b.observed then some deopt else none
    match b.interpreter deopt.activation deopt.frame with
    | none => none
    | some (.error e) => some ⟨.error (.dispatch e), b, notice⟩
    | some (.ok v) =>
      let (result, b) := b.handleOf v
      some ⟨result, b, notice⟩

/-- What native code sees of a result: zero for a failure, which is parked unless one is. -/
def park (b : Bridge) : Except BridgeError Word → Word × Bridge
  | .ok word => (word, b)
  | .error e => (0, { b with parked := b.parked.or (some e) })

/-- The parked failure, which is then parked no longer. -/
def unpark (b : Bridge) : Option BridgeError × Bridge := (b.parked, { b with parked := none })

end Bridge

end StackJit
