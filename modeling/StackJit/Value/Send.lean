import StackJit.RunError

/-!
# Messages and how values answer them

Four messages are answered by every value: `==`, `!=`, `!` and `nil?`. The others are the integer
operators. Sums, differences and products wrap around at 64 bits; quotients round toward negative
infinity, and a remainder has the sign of the divisor.
-/

namespace StackJit

/-- The binary operators that integers answer. -/
inductive IntOp where
  | add
  | sub
  | mul
  | div
  | mod
  | lt
  | le
  | gt
  | ge
deriving DecidableEq, Repr

namespace IntOp

def ofName? : String → Option IntOp
  | "+" => some add
  | "-" => some sub
  | "*" => some mul
  | "/" => some div
  | "%" => some mod
  | "<" => some lt
  | "<=" => some le
  | ">" => some gt
  | ">=" => some ge
  | _ => none

/-- Quotient of words rounded toward negative infinity. The word quotient rounds toward zero, so
it is one too large when it is inexact and the signs differ. -/
def floorDiv (a b : Int64) : Int64 :=
  if a % b ≠ 0 ∧ decide (a < 0) ≠ decide (b < 0) then a / b - 1 else a / b

/-- Remainder of words with the sign of the divisor. -/
def floorMod (a b : Int64) : Int64 :=
  if a % b ≠ 0 ∧ decide (a % b < 0) ≠ decide (b < 0) then a % b + b else a % b

def apply (op : IntOp) (a b : Int64) : Except RunError Value :=
  match op with
  | add => .ok (.int (a + b))
  | sub => .ok (.int (a - b))
  | mul => .ok (.int (a * b))
  | div => if b = 0 then .error .divisionByZero else .ok (.int (floorDiv a b))
  | mod => if b = 0 then .error .divisionByZero else .ok (.int (floorMod a b))
  | lt => .ok (.bool (a < b))
  | le => .ok (.bool (a ≤ b))
  | gt => .ok (.bool (b < a))
  | ge => .ok (.bool (b ≤ a))

end IntOp

namespace Value

/-- An integer looks up the operator first, then counts the arguments, then looks at the kind of
the only one. -/
def sendInt (a : Int64) (name : String) (args : List Value) : Except RunError Value :=
  match IntOp.ofName? name with
  | none => .error (.noMethod name .int)
  | some op =>
    match args with
    | [int b] => op.apply a b
    | [other] => .error (.typeMismatch name .int other.kind)
    | _ => .error (.arity name args.length 1)

def sendUnary (name : String) (args : List Value) (answer : Bool) : Except RunError Value :=
  match args with
  | [] => .ok (bool answer)
  | _ => .error (.arity name args.length 0)

def sendBinary (name : String) (args : List Value) (answer : Value → Bool) :
    Except RunError Value :=
  match args with
  | [other] => .ok (bool (answer other))
  | _ => .error (.arity name args.length 1)

/-- Sends the message `name` with `args` to a value. -/
def send (receiver : Value) (name : String) (args : List Value) : Except RunError Value :=
  match name with
  | "==" => sendBinary name args (receiver == ·)
  | "!=" => sendBinary name args (receiver != ·)
  | "!" => sendUnary name args (!receiver.truthy)
  | "nil?" => sendUnary name args (receiver == nil)
  | _ =>
    match receiver with
    | int a => sendInt a name args
    | other => .error (.noMethod name other.kind)

end Value

end StackJit
