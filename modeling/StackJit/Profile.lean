import StackJit.Value

/-!
# Receiver profiles

A profile remembers, for each send site, the kinds of receiver that were met there.
-/

namespace StackJit

/-- The observations made so far: at which instruction a receiver of which kind was met. -/
structure Profile where
  observed : List (Nat × Kind)
deriving DecidableEq, Repr

namespace Profile

def empty : Profile := ⟨[]⟩

instance : Inhabited Profile := ⟨empty⟩

def record (p : Profile) (ip : Nat) (kind : Kind) : Profile := ⟨p.observed.insert (ip, kind)⟩

def isEmpty (p : Profile) : Bool := p.observed.isEmpty

/-- The kinds met at a site, in the order of `Kind.all`. -/
def kindsAt (p : Profile) (ip : Nat) : List Kind :=
  Kind.all.filter fun k => p.observed.contains (ip, k)

/-- The kind of a site at which exactly one was met. -/
def monomorphic? (p : Profile) (ip : Nat) : Option Kind :=
  match p.kindsAt ip with
  | [k] => some k
  | _ => none

@[simp]
theorem mem_kindsAt {p : Profile} {ip : Nat} {k : Kind} :
    k ∈ p.kindsAt ip ↔ (ip, k) ∈ p.observed := by
  simp [kindsAt, Kind.mem_all]

theorem mem_kindsAt_record {p : Profile} {ip site : Nat} {k kind : Kind} :
    k ∈ (p.record site kind).kindsAt ip ↔ (ip = site ∧ k = kind) ∨ k ∈ p.kindsAt ip := by
  simp [record]

end Profile

end StackJit
