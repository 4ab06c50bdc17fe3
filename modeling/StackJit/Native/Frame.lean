import StackJit.Machine
import StackJit.Native.Handle

/-!
# Native frames

A native frame is read from its lowest word upward, as a stack that grows downward leaves it: the
operands from the top of the stack down, the arguments from the last to the first, the receiver.
Words after these are of no concern.
-/

namespace StackJit

/-- The state of the machine as rebuilt from a native frame, operands deepest first. -/
structure RebuiltFrame where
  receiver : Value
  args : List Value
  stack : List Value
  locals : Locals

namespace RebuiltFrame

def activation (s : RebuiltFrame) (code : Code) : Activation := ⟨code, s.receiver, s.args⟩

/-- The frame in which the machine takes over at instruction `ip`. -/
def frame (s : RebuiltFrame) (ip : Nat) : Frame := .resumeAt ip s.stack s.locals

end RebuiltFrame

/-- Reads the state that a deopt map describes from a native frame. -/
def HandleTable.rebuild (t : HandleTable) (map : DeoptMap) (frame : List Word) :
    Except BridgeError RebuiltFrame :=
  if frame.length < map.frameSize then .error (.frameTooSmall map.frameSize frame.length)
  else
    match t.values (frame.take map.frameSize) with
    | .error e => .error e
    | .ok vs =>
      let rest := vs.drop map.stack.length
      .ok
        { receiver := (rest.drop map.args.length).headD .nil
          args := (rest.take map.args.length).reverse
          stack := (vs.take map.stack.length).reverse
          locals := ∅ }

/-- Native code that is abandoned: where its method stands, and in what state. -/
structure Deopt where
  map : DeoptMap
  state : RebuiltFrame

namespace Deopt

def activation (d : Deopt) : Activation := d.state.activation d.map.code

def frame (d : Deopt) : Frame := d.state.frame d.map.ip

end Deopt

end StackJit
