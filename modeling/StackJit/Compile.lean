import StackJit.Build.Method
import StackJit.Graph.Check
import StackJit.Pass.Schedule

/-!
# Compiling a method

The graph of a method goes through the passes: placeholders are dropped, guards and safepoints are
placed, and dead code and phis without a choice are dropped until nothing changes or the iteration
limit is reached.
-/

namespace StackJit

structure CompileOptions where
  iterationLimit : Nat := 16
  safepoints : Bool := true
  guards : Bool := true
  /-- Whether the result must be well formed. -/
  check : Bool := true
deriving DecidableEq, Repr

inductive CompileError where
  | build (cause : BuildError)
  | malformed (cause : Violation)
deriving DecidableEq, Repr

def CompileError.message : CompileError → String
  | build cause => s!"Build error: {cause.message}"
  | malformed cause => s!"Graph invariant violated: {cause.message}"

namespace CompileOptions

/-- The passes that run once, after the placeholders are gone. -/
def instrumentation (o : CompileOptions) (profile : Option Profile) : Schedule Id :=
  ⟨(if o.guards then profile.toList.map Pass.guards else []) ++
    if o.safepoints then [Pass.safepoints] else []⟩

/-- The passes that are repeated until nothing changes. -/
def tidy : Schedule Id := ⟨[Pass.deadCode, Pass.phis]⟩

/-- What the passes make of the graph of a method. -/
def optimize (o : CompileOptions) (profile : Option Profile) (g : Graph) : Graph :=
  let g := g.dropPlaceholders.graph
  let g := ((o.instrumentation profile).run g).run.graph
  (tidy.iterate o.iterationLimit g).run.graph

end CompileOptions

/-- The optimized graph of a method body. -/
def Code.compile (code : Code) (o : CompileOptions) (profile : Option Profile) :
    Except CompileError Graph :=
  match code.graph with
  | .error e => .error (.build e)
  | .ok g =>
    let g := o.optimize profile g
    if o.check then
      match g.violation? with
      | some v => .error (.malformed v)
      | none => .ok g
    else .ok g

end StackJit
