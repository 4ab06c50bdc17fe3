import StackJit.Value

/-!
# Failures of a running method

The causes for which a message send or an instruction can fail, and the text that reports each.
-/

namespace StackJit

inductive RunError where
  /-- The receiver answers no such message. -/
  | noMethod (name : String) (receiver : Kind)
  | arity (name : String) (given expected : Nat)
  /-- An argument of the wrong kind. -/
  | typeMismatch (name : String) (expected got : Kind)
  | divisionByZero
  /-- The instruction at `ip` needs more operands than the stack holds. -/
  | stackUnderflow (ip : Nat)
  | missingArgument (n count : Nat)
  | undefinedLocal (name : String)
  /-- A resume point or jump target past the end of a method of `len` instructions. -/
  | badIp (ip len : Nat)
  | notASymbol (got : Kind)
deriving DecidableEq, Repr

def RunError.message : RunError → String
  | noMethod name receiver => s!"Undefined method `{name}` for {receiver.name}"
  | arity name given expected =>
    s!"Wrong number of arguments for `{name}` (given {given}, expected {expected})"
  | typeMismatch name expected got => s!"`{name}` expected {expected.name}, got {got.name}"
  | divisionByZero => "Divided by 0"
  | stackUnderflow ip => s!"Operand stack underflow at ip {ip}"
  | missingArgument n count => s!"Argument {n} out of range ({count} given)"
  | undefinedLocal name => s!"Local `{name}` read before assignment"
  | badIp ip len => s!"Instruction pointer {ip} outside method of {len} instructions"
  | notASymbol got => s!"Method name must be a symbol, got {got.name}"

end StackJit
