import Mathlib.Data.List.Forall2
import StackJit.Proofs.Runs

/-!
# Runs that share a profile

What a method is run on, and where it is taken up, is a `Launch`. Several of them may be run one
after the other with one profile (`Code.Profiled`). A profile has no influence on a run
(`Profiled.yields`, `exists_profiled`), and what is in it afterwards is what was in it before and
the sends that were dispatched in one of the runs (`Profiled.mem_kindsAt`). So a profile depends on
which runs there were, not on their order, and it only grows.

Whether a send is dispatched is read off the stack (`Activation.Asks`): the operands have to be
there, and the receiver need not answer.

Main statement: `Code.profiling_exact`.
-/

namespace StackJit

/-! ## Profiles -/

namespace Profile

variable {p q : Profile} {ip : Nat}

/-- More than one kind was met at the site. -/
def Polymorphic (p : Profile) (ip : Nat) : Prop := 1 < (p.kindsAt ip).length

theorem kindsAt_congr (h : ∀ kind, kind ∈ p.kindsAt ip ↔ kind ∈ q.kindsAt ip) :
    p.kindsAt ip = q.kindsAt ip := by
  refine List.filter_congr fun kind _ => ?_
  have hkind := h kind
  simp only [mem_kindsAt] at hkind
  simp [hkind]

theorem monomorphic?_congr (h : p.kindsAt ip = q.kindsAt ip) :
    p.monomorphic? ip = q.monomorphic? ip := by
  rw [monomorphic?, h, monomorphic?]

theorem isEmpty_congr (h : ∀ ip, p.kindsAt ip = q.kindsAt ip) : p.isEmpty = q.isEmpty := by
  have hsites : ∀ site : Nat × Kind, site ∈ p.observed ↔ site ∈ q.observed := by
    intro site
    rw [← mem_kindsAt, h, mem_kindsAt]
  rw [Bool.eq_iff_iff, isEmpty, isEmpty, List.isEmpty_iff, List.isEmpty_iff,
    List.eq_nil_iff_forall_not_mem, List.eq_nil_iff_forall_not_mem]
  simp only [hsites]

theorem Polymorphic.mono (hp : p.Polymorphic ip) (h : ∀ kind ∈ p.kindsAt ip, kind ∈ q.kindsAt ip) :
    q.Polymorphic ip := by
  have hsub : (p.kindsAt ip).Sublist (q.kindsAt ip) := by
    refine List.monotone_filter_right _ fun kind hkind => ?_
    have hmem := h kind (mem_kindsAt.mpr (List.contains_iff_mem.mp hkind))
    exact List.contains_iff_mem.mpr (mem_kindsAt.mp hmem)
  exact Nat.lt_of_lt_of_le hp hsub.length_le

theorem Polymorphic.monomorphic? (hp : p.Polymorphic ip) : p.monomorphic? ip = none := by
  unfold Profile.monomorphic?
  split
  · next kind hkind =>
    rw [Polymorphic, hkind] at hp
    exact absurd hp (Nat.lt_irrefl 1)
  · rfl

end Profile

/-! ## Dispatched sends -/

namespace Activation

variable {a : Activation} {f : Frame} {ip : Nat} {kind : Kind}

/-- The machine is about to send the message of the instruction at `ip` to a receiver of that kind:
the arguments are on the stack, the last one on top, and the receiver below them. -/
def Asks (a : Activation) (f : Frame) (ip : Nat) (kind : Kind) : Prop :=
  f.ip = ip ∧ ∃ (name : String) (args rest : List Value) (receiver : Value),
    a.code[ip]? = some (.send name args.length) ∧ f.stack = args.reverse ++ receiver :: rest ∧
      receiver.kind = kind

theorem Asks.dispatch? (h : a.Asks f ip kind) : a.dispatch? f = some (ip, kind) := by
  obtain ⟨rfl, name, args, rest, receiver, hinstr, hstack, rfl⟩ := h
  have hdrop : f.stack.drop args.length = receiver :: rest := by
    rw [hstack, ← List.length_reverse, List.drop_left]
  simp only [Activation.dispatch?, hinstr, hdrop, List.head?_cons, Option.map_some]

theorem asks_of_dispatch? (h : a.dispatch? f = some (ip, kind)) : a.Asks f ip kind := by
  unfold Activation.dispatch? at h
  split at h
  · next name argc hinstr =>
    obtain ⟨receiver, hreceiver, heq⟩ := Option.map_eq_some_iff.mp h
    obtain ⟨rfl, rfl⟩ := Prod.mk.inj heq
    obtain ⟨rest, hrest⟩ := List.head?_eq_some_iff.mp hreceiver
    have hargc : argc ≤ f.stack.length := by
      refine Nat.le_of_not_lt fun hlt => ?_
      rw [List.drop_eq_nil_of_le (Nat.le_of_lt hlt)] at hrest
      cases hrest
    refine ⟨rfl, name, (f.stack.take argc).reverse, rest, receiver, ?_, ?_, rfl⟩
    · rw [List.length_reverse, List.length_take_of_le hargc, hinstr]
    · rw [List.reverse_reverse, ← hrest, List.take_append_drop]
  · cases h

/-- A frame that stands past the end of the body comes to no send. -/
theorem ip_le_of_asks {n : Nat} {f' : Frame} (hafter : a.after n f = some f')
    (h : a.Asks f' ip kind) : f.ip ≤ a.code.size := by
  refine Nat.le_of_not_lt fun hlt => ?_
  have hnone : a.code[f.ip]? = none := Array.getElem?_eq_none (Nat.le_of_lt hlt)
  cases n with
  | zero =>
    obtain rfl := Option.some.inj hafter
    obtain ⟨rfl, name, args, rest, receiver, hinstr, -⟩ := h
    rw [hnone] at hinstr
    cases hinstr
  | succ n =>
    rw [after, step, hnone] at hafter
    cases hafter

/-- A run that comes to an end leaves in the profile what was there and what it has dispatched. -/
theorem mem_kindsAt_resumeProfiled {budget : Nat} {p q : Profile} {r : Except RunError Value}
    (h : a.resumeProfiled budget f p = (some r, q)) : kind ∈ q.kindsAt ip ↔
      kind ∈ p.kindsAt ip ∨ ∃ n f', a.after n f = some f' ∧ a.Asks f' ip kind := by
  rw [resumeProfiled] at h
  split at h
  · have hrun : a.run budget f = some r := by rw [← runProfiled_fst a budget f p, h]
    have hq : (a.runProfiled budget f p).2 = q := by rw [h]
    rw [Profile.mem_kindsAt, ← hq, mem_observed_runProfiled, Profile.mem_kindsAt]
    refine or_congr_right (exists_congr fun n => ⟨?_, ?_⟩)
    · rintro ⟨-, f', hafter, hdispatch⟩
      exact ⟨f', hafter, asks_of_dispatch? hdispatch⟩
    · rintro ⟨f', hafter, hasks⟩
      exact ⟨lt_of_after hrun hafter, f', hafter, hasks.dispatch?⟩
  · next hip =>
    obtain ⟨-, rfl⟩ := Prod.mk.inj h
    refine (or_iff_left ?_).symm
    rintro ⟨n, f', hafter, hasks⟩
    exact hip (ip_le_of_asks hafter hasks)

end Activation

/-! ## Runs -/

/-- What a method is run on, and the frame in which it is taken up. -/
structure Launch where
  receiver : Value
  args : List Value
  frame : Frame

namespace Launch

def activation (l : Launch) (code : Code) : Activation := ⟨code, l.receiver, l.args⟩

/-- The run comes to an end, with that result. -/
def Yields (code : Code) (l : Launch) (r : Except RunError Value) : Prop :=
  ∃ budget, (l.activation code).resume budget l.frame = some r

/-- The run comes to an end with that result, and turns the profile `p` into `q`. -/
def Records (code : Code) (l : Launch) (p : Profile) (r : Except RunError Value) (q : Profile) :
    Prop :=
  ∃ budget, (l.activation code).resumeProfiled budget l.frame p = (some r, q)

/-- In the course of the run the send at `ip` is dispatched to a receiver of that kind. -/
def Dispatches (code : Code) (l : Launch) (ip : Nat) (kind : Kind) : Prop :=
  ∃ n f, (l.activation code).after n l.frame = some f ∧ (l.activation code).Asks f ip kind

variable {code : Code} {l : Launch} {p q : Profile} {r : Except RunError Value}

theorem Records.yields (h : l.Records code p r q) : l.Yields code r := by
  obtain ⟨budget, hrun⟩ := h
  refine ⟨budget, ?_⟩
  rw [← Activation.resumeProfiled_fst _ _ _ p, hrun]

theorem Yields.records (h : l.Yields code r) (p : Profile) : ∃ q, l.Records code p r q := by
  obtain ⟨budget, hrun⟩ := h
  rw [← Activation.resumeProfiled_fst _ _ _ p] at hrun
  exact ⟨_, budget, Prod.ext hrun rfl⟩

theorem Records.mem_kindsAt (h : l.Records code p r q) {ip : Nat} {kind : Kind} :
    kind ∈ q.kindsAt ip ↔ kind ∈ p.kindsAt ip ∨ l.Dispatches code ip kind := by
  obtain ⟨budget, hrun⟩ := h
  exact Activation.mem_kindsAt_resumeProfiled hrun

end Launch

namespace Code

/-- The runs come to an end one after the other, with these results, and turn the profile that they
share from the first into the second one. -/
inductive Profiled (code : Code) :
    Profile → List Launch → List (Except RunError Value) → Profile → Prop where
  | nil {p : Profile} : Profiled code p [] [] p
  | cons {p q q' : Profile} {l : Launch} {runs : List Launch} {r : Except RunError Value}
      {results : List (Except RunError Value)} (head : l.Records code p r q)
      (tail : Profiled code q runs results q') : Profiled code p (l :: runs) (r :: results) q'

variable {code : Code} {p q : Profile} {runs : List Launch} {results : List (Except RunError Value)}

theorem Profiled.yields (h : code.Profiled p runs results q) :
    List.Forall₂ (Launch.Yields code) runs results := by
  induction h with
  | nil => exact .nil
  | cons head _ ih => exact .cons head.yields ih

theorem exists_profiled (h : List.Forall₂ (Launch.Yields code) runs results) (p : Profile) :
    ∃ q, code.Profiled p runs results q := by
  induction h generalizing p with
  | nil => exact ⟨p, .nil⟩
  | cons head _ ih =>
    obtain ⟨q, hq⟩ := head.records p
    obtain ⟨q', hq'⟩ := ih q
    exact ⟨q', .cons hq hq'⟩

theorem Profiled.mem_kindsAt (h : code.Profiled p runs results q) {ip : Nat} {kind : Kind} :
    kind ∈ q.kindsAt ip ↔ kind ∈ p.kindsAt ip ∨ ∃ l ∈ runs, l.Dispatches code ip kind := by
  induction h with
  | nil => simp
  | cons head _ ih => rw [ih, head.mem_kindsAt, List.exists_mem_cons_iff, or_assoc]

theorem Profiled.kindsAt_of_perm {runs' : List Launch} {results' : List (Except RunError Value)}
    {q' : Profile} (h : code.Profiled p runs results q) (h' : code.Profiled p runs' results' q')
    (hperm : runs.Perm runs') (ip : Nat) : q.kindsAt ip = q'.kindsAt ip := by
  refine Profile.kindsAt_congr fun kind => ?_
  rw [h.mem_kindsAt, h'.mem_kindsAt]
  simp only [hperm.mem_iff]

/-- Runs that share a profile come to an end with the results that they have without one. Afterwards
the kinds at a site are those that were there and those of the receivers to which the send at that
site was dispatched in one of the runs, whether or not they answered it. So the order of the runs
does not matter, and a site with several kinds keeps them. -/
theorem profiling_exact (code : Code) (p : Profile) (runs : List Launch)
    (results : List (Except RunError Value)) :
    ((∃ q, code.Profiled p runs results q) ↔ List.Forall₂ (Launch.Yields code) runs results) ∧
    ∀ q, code.Profiled p runs results q →
      (∀ ip kind,
        kind ∈ q.kindsAt ip ↔ kind ∈ p.kindsAt ip ∨ ∃ l ∈ runs, l.Dispatches code ip kind) ∧
      (∀ runs' results' q', runs.Perm runs' → code.Profiled p runs' results' q' →
        (∀ ip, q.kindsAt ip = q'.kindsAt ip ∧ q.monomorphic? ip = q'.monomorphic? ip) ∧
          q.isEmpty = q'.isEmpty) ∧
      ∀ ip, p.Polymorphic ip → q.Polymorphic ip ∧ q.monomorphic? ip = none := by
  refine ⟨⟨fun ⟨q, hq⟩ => hq.yields, fun h => exists_profiled h p⟩, fun q hq => ⟨?_, ?_, ?_⟩⟩
  · intro ip kind
    exact hq.mem_kindsAt
  · intro runs' results' q' hperm hq'
    have hkinds := hq.kindsAt_of_perm hq' hperm
    exact ⟨fun ip => ⟨hkinds ip, Profile.monomorphic?_congr (hkinds ip)⟩,
      Profile.isEmpty_congr hkinds⟩
  · intro ip hp
    have hq := hp.mono fun kind hkind => hq.mem_kindsAt.mpr (.inl hkind)
    exact ⟨hq, hq.monomorphic?⟩

/-- Adds its argument to the receiver. -/
def plus : Code := #[.self, .arg 0, .send "+" 1, .ret]

/-- A sum, a receiver that does not know the message, and a send that lacks an operand. -/
def plusRuns : List Launch :=
  [⟨.int 1, [.int 2], .entry⟩, ⟨.nil, [.int 2], .entry⟩, ⟨.nil, [], .resumeAt 2 [.symbol "s"] ∅⟩]

/-- The send that fails is recorded, and the one that is not dispatched is not. The runs in another
order make the same profile. -/
theorem profiling_exact_plus : ∃ q,
    plus.Profiled .empty plusRuns
      [.ok (.int 3), .error (.noMethod "+" .nil), .error (.stackUnderflow 2)] q ∧
    q.kindsAt 2 = [.nil, .int] ∧ (∀ l ∈ plusRuns, ¬ l.Dispatches plus 2 .symbol) ∧
    ∃ results' q', plus.Profiled .empty plusRuns.reverse results' q' ∧
      q'.kindsAt 2 = [.nil, .int] ∧ q'.monomorphic? 2 = none := by
  have hq : plus.Profiled .empty plusRuns
      [.ok (.int 3), .error (.noMethod "+" .nil), .error (.stackUnderflow 2)]
      ⟨[(2, .nil), (2, .int)]⟩ :=
    .cons ⟨4, rfl⟩ (.cons ⟨4, rfl⟩ (.cons ⟨4, rfl⟩ .nil))
  have hyields := (profiling_exact plus .empty plusRuns _).1.mp ⟨_, hq⟩
  obtain ⟨hkinds, horder, -⟩ := (profiling_exact plus .empty plusRuns _).2 _ hq
  obtain ⟨q', hq'⟩ := (profiling_exact plus .empty plusRuns.reverse _).1.mpr
    (List.forall₂_reverse_iff.mpr hyields)
  obtain ⟨hsame, hmono⟩ := (horder _ _ q' (List.reverse_perm _).symm hq').1 2
  refine ⟨_, hq, by decide, fun l hl hsymbol => ?_, _, q', hq', ?_, ?_⟩
  · exact absurd ((hkinds 2 .symbol).mpr (.inr ⟨l, hl, hsymbol⟩)) (by decide)
  · rw [← hsame]
    decide
  · rw [← hmono]
    decide

end Code

end StackJit
