/-!
# Methods that have no graph

The causes for which a method body is refused, and the text that reports each.
-/

namespace StackJit

inductive BuildError where
  /-- The instruction at `source` goes to an index outside the body of `len` instructions. -/
  | invalidTarget (source target len : Nat)
  | unsupportedControlFlow (block successors : Nat)
  /-- The block takes operands from a stack that may be empty. -/
  | stackUnderflow (block : Nat)
  /-- The block reads a local that may not be assigned. -/
  | undefinedName (name : String) (block : Nat)
deriving DecidableEq, Repr

def BuildError.message : BuildError → String
  | invalidTarget source target len =>
    s!"Instruction {source} jumps to {target}, outside method of {len} instructions"
  | unsupportedControlFlow block successors =>
    s!"Unsupported control flow: block at {block} has {successors} successors"
  | stackUnderflow block => s!"Operand stack underflow in entry block at {block}"
  | undefinedName name block =>
    s!"Local `{name}` may be read before assignment (block at {block})"

end StackJit
