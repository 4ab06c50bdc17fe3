import StackJit.Machine

/-!
# Runs, step by step

`Activation.after n f` is the frame after `n` steps from `f`, if the run lasts that long. From there
the run goes on as a run of its own (`run_after`), and a profile gets the sends that are dispatched
at such frames and no others (`mem_observed_runProfiled`).
-/

namespace StackJit

/-- The profile with one more observation, if there is one. -/
def Profile.add (p : Profile) : Option (Nat × Kind) → Profile
  | some site => p.record site.1 site.2
  | none => p

theorem Profile.mem_observed_add {p : Profile} {site : Nat × Kind} {seen : Option (Nat × Kind)} :
    site ∈ (p.add seen).observed ↔ site ∈ p.observed ∨ seen = some site := by
  cases seen with
  | none => simp [add]
  | some seen => rw [add, record, List.mem_insert_iff, or_comm, Option.some.injEq, eq_comm]

namespace Activation

variable {a : Activation} {f f' : Frame} {n : Nat}

def after (a : Activation) : Nat → Frame → Option Frame
  | 0, f => some f
  | n + 1, f =>
    match a.step f with
    | .next f => a.after n f
    | .stop _ => none

/-- What every step keeps holds after any number of steps. -/
theorem after_induct {P : Frame → Prop}
    (hstep : ∀ {f f' : Frame}, P f → a.step f = .next f' → P f') (h : P f)
    (hafter : a.after n f = some f') : P f' := by
  induction n generalizing f with
  | zero => exact Option.some.inj hafter ▸ h
  | succ n ih =>
    unfold after at hafter
    split at hafter
    · next f₁ hf₁ => exact ih (hstep h hf₁) hafter
    · cases hafter

/-- The last step of a run. -/
theorem exists_last (h : a.after (n + 1) f = some f') :
    ∃ f₁, a.after n f = some f₁ ∧ a.step f₁ = .next f' := by
  induction n generalizing f with
  | zero =>
    unfold after at h
    split at h
    · next f₁ hstep =>
      obtain rfl := Option.some.inj h
      exact ⟨f, rfl, hstep⟩
    · cases h
  | succ n ih =>
    unfold after at h
    split at h
    · next f₁ hstep =>
      obtain ⟨f₂, hafter, hlast⟩ := ih h
      exact ⟨f₂, by rw [after, hstep]; exact hafter, hlast⟩
    · cases h

/-- A run that ends with an answer ends in a step that does. -/
theorem exists_stop {n : Nat} {r : Except RunError Value} (h : a.run n f = some r) :
    ∃ m < n, ∃ f', a.after m f = some f' ∧ a.step f' = .stop r := by
  induction n generalizing f with
  | zero => cases h
  | succ n ih =>
    rw [run] at h
    cases hstep : a.step f with
    | next f₁ =>
      rw [hstep] at h
      obtain ⟨m, hm, f', hafter, hstop⟩ := ih h
      refine ⟨m + 1, by omega, f', ?_, hstop⟩
      rw [after, hstep]
      exact hafter
    | stop r' =>
      rw [hstep] at h
      cases h
      exact ⟨0, by omega, f, rfl, hstep⟩

theorem run_after (h : a.after n f = some f') (budget : Nat) :
    a.run (n + budget) f = a.run budget f' := by
  induction n generalizing f with
  | zero =>
    obtain rfl := Option.some.inj h
    rw [Nat.zero_add]
  | succ n ih =>
    rw [Nat.add_right_comm, run]
    cases hstep : a.step f with
    | next f₁ =>
      rw [after, hstep] at h
      exact ih h
    | stop result =>
      rw [after, hstep] at h
      cases h

theorem ip_le_of_goto {target : Nat} (h : a.goto f target = .next f') : f'.ip ≤ a.code.size := by
  unfold goto at h
  split at h
  · next hle =>
    cases h
    exact hle
  · cases h

/-- A step does not lead past the end of the body. -/
theorem ip_le_of_step (h : a.step f = .next f') : f'.ip ≤ a.code.size := by
  unfold step at h
  split at h
  · next instr hinstr =>
    have hnext : f.ip + 1 ≤ a.code.size := (Array.getElem?_eq_some_iff.mp hinstr).1
    cases instr with
    | trace _ | self | push _ =>
      cases h
      exact hnext
    | arg _ | load _ | store _ | not =>
      simp only [execute] at h
      split at h <;> cases h
      exact hnext
    | send _ _ =>
      simp only [execute] at h
      split at h
      · split at h <;> cases h
        exact hnext
      · cases h
    | jump _ => exact ip_le_of_goto h
    | branch _ =>
      simp only [execute] at h
      split at h
      · split at h
        · exact ip_le_of_goto h
        · cases h
          exact hnext
      · cases h
    | ret =>
      simp only [execute] at h
      split at h <;> cases h
  · cases h

theorem ip_le_of_after (h : f.ip ≤ a.code.size) (hafter : a.after n f = some f') :
    f'.ip ≤ a.code.size :=
  after_induct (P := (·.ip ≤ a.code.size)) (fun _ hstep => ip_le_of_step hstep) h hafter

theorem resume_entry (a : Activation) (budget : Nat) :
    a.resume budget .entry = a.run budget .entry :=
  if_pos (Nat.zero_le _)

theorem resumeProfiled_entry (a : Activation) (budget : Nat) (p : Profile) :
    a.resumeProfiled budget .entry p = a.runProfiled budget .entry p :=
  if_pos (Nat.zero_le _)

/-- A step adds the send that it dispatches, if any, and the run goes on from there. -/
theorem runProfiled_succ (a : Activation) (budget : Nat) (f : Frame) (p : Profile) :
    a.runProfiled (budget + 1) f p =
      match a.step f with
      | .next f' => a.runProfiled budget f' (p.add (a.dispatch? f))
      | .stop r => (some r, p.add (a.dispatch? f)) := by
  rw [runProfiled]
  cases a.dispatch? f <;> rfl

/-- A profile gets the sends that a run dispatches within its budget. -/
theorem mem_observed_runProfiled {budget : Nat} {p : Profile} {site : Nat × Kind} :
    site ∈ (a.runProfiled budget f p).2.observed ↔
      site ∈ p.observed ∨ ∃ n < budget, ∃ f', a.after n f = some f' ∧
        a.dispatch? f' = some site := by
  induction budget generalizing f p with
  | zero => simp [runProfiled]
  | succ budget ih =>
    rw [runProfiled_succ, Nat.exists_lt_succ_left]
    cases hstep : a.step f with
    | next f₁ => simp [ih, after, hstep, Profile.mem_observed_add, or_assoc]
    | stop r => simp [after, hstep, Profile.mem_observed_add]

/-- A send is recorded only where a run comes to it. -/
theorem dispatched_of_observed {budget : Nat} {p : Profile} {site : Nat × Kind}
    (h : site ∈ (a.runProfiled budget f p).2.observed) :
    site ∈ p.observed ∨ ∃ n f', a.after n f = some f' ∧ a.dispatch? f' = some site := by
  rcases mem_observed_runProfiled.mp h with hp | ⟨n, -, f', hafter, hdispatch⟩
  · exact .inl hp
  · exact .inr ⟨n, f', hafter, hdispatch⟩

/-- A run that has come to an end does not go on. -/
theorem lt_of_after {budget : Nat} {r : Except RunError Value} (h : a.run budget f = some r)
    (hafter : a.after n f = some f') : n < budget := by
  refine Nat.lt_of_not_le fun hle => ?_
  have hrun := run_after hafter 0
  rw [Nat.add_zero, run_of_le h hle] at hrun
  cases hrun

end Activation

end StackJit
