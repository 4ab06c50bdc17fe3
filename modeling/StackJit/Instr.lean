import StackJit.Value

/-!
# Instructions

A method body is an array of stack instructions. Operands are pushed and popped, `send` takes its
receiver from below its arguments, and jump targets are absolute indices into the body.
-/

namespace StackJit

inductive Instr where
  /-- Marks a source line; does nothing. -/
  | trace (line : UInt32)
  | self
  | arg (n : Nat)
  | load (name : String)
  | store (name : String)
  | push (value : Value)
  | send (name : String) (argc : Nat)
  | not
  | jump (target : Nat)
  /-- Jumps if the popped operand counts as true. -/
  | branch (target : Nat)
  | ret
deriving DecidableEq, Repr

/-- The body of a method. -/
abbrev Code := Array Instr

namespace Instr

def mnemonic : Instr → String
  | trace _ => "trace"
  | self => "self"
  | arg _ => "arg"
  | load _ => "load"
  | store _ => "store"
  | push _ => "push"
  | send _ _ => "send"
  | not => "not"
  | jump _ => "jump"
  | branch _ => "branch"
  | ret => "return"

/-- The mnemonic followed by the operands; a message name is written as a symbol. -/
def text : Instr → String
  | trace line => s!"trace {line.toNat}"
  | self => "self"
  | arg n => s!"arg {n}"
  | load name => s!"load {name}"
  | store name => s!"store {name}"
  | push value => s!"push {value.text}"
  | send name argc => s!"send :{name} {argc}"
  | not => "not"
  | jump target => s!"jump {target}"
  | branch target => s!"branch {target}"
  | ret => "return"

/-- Where a jump or branch may go. -/
def target? : Instr → Option Nat
  | jump target => some target
  | branch target => some target
  | _ => none

/-- Nothing in a basic block runs after such an instruction. -/
def endsBlock : Instr → Bool
  | jump _ => true
  | branch _ => true
  | ret => true
  | _ => false

end Instr

end StackJit
