import StackJit.Pass.DeadCode
import StackJit.Pass.Guards
import StackJit.Pass.Phis
import StackJit.Pass.Placeholders
import StackJit.Pass.Safepoints

/-!
# Schedules of passes

A pass has a name and changes a graph, possibly with effects of its own. A schedule runs its passes
in order, once or until a round changes nothing.
-/

namespace StackJit

structure Pass (m : Type → Type) where
  name : String
  run : Graph → m Swept

namespace Pass

variable {m : Type → Type}

section Passes

variable [Pure m]

def placeholders : Pass m := ⟨"post-build", fun g => pure g.dropPlaceholders⟩

def phis : Pass m := ⟨"no-choice-phis", fun g => pure g.dropPhis⟩

def deadCode : Pass m := ⟨"dead-code", fun g => pure g.dropDeadCode⟩

def safepoints : Pass m := ⟨"insert-safepoints", fun g => pure g.placeSafepoints⟩

def guards (profile : Profile) : Pass m := ⟨"inline-caching", fun g => pure (g.placeGuards profile)⟩

end Passes

end Pass

/-- How the repetition of a schedule ended. -/
structure Iterated where
  graph : Graph
  rounds : Nat
  /-- Whether the last round changed nothing. -/
  stable : Bool
deriving DecidableEq, Repr

structure Schedule (m : Type → Type) where
  passes : List (Pass m)

namespace Schedule

variable {m : Type → Type}

def names (s : Schedule m) : List String := s.passes.map (·.name)

def describe (s : Schedule m) : String :=
  let quoted := s.names.map fun name => "\"" ++ name ++ "\""
  "Runner \x7b passes: [" ++ ", ".intercalate quoted ++ "] \x7d"

def runPasses [Monad m] : List (Pass m) → Graph → m Swept
  | [], g => pure (.unchanged g)
  | p :: rest, g => do
    let r ← p.run g
    let s ← runPasses rest r.graph
    return ⟨s.graph, r.changed || s.changed⟩

/-- Runs every pass once. -/
def run [Monad m] (s : Schedule m) (g : Graph) : m Swept := runPasses s.passes g

/-- At most `limit` more rounds after `done`, ending with the first that changes nothing. -/
def iterateFrom [Monad m] (s : Schedule m) (done : Nat) : Nat → Graph → m Iterated
  | 0, g => return ⟨g, done, false⟩
  | limit + 1, g => do
    let r ← s.run g
    if r.changed then iterateFrom s (done + 1) limit r.graph else return ⟨r.graph, done + 1, true⟩

/-- Repeats the passes until a round changes nothing, at most `limit` times. -/
def iterate [Monad m] (s : Schedule m) (limit : Nat) (g : Graph) : m Iterated :=
  s.iterateFrom 0 limit g

end Schedule

end StackJit
