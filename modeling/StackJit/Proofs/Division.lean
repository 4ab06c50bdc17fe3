import Mathlib.Algebra.Order.Ring.Int
import Mathlib.Tactic.Ring
import StackJit.Value.Send

/-!
# Division of words

Word division rounds toward zero, and `IntOp.floorDiv` and `IntOp.floorMod` correct its results.
That the corrected pair is the one that rounds down is a fact about integers
(`floors_of_overshoots`); the two functions test for it in different ways, by the sign of the
dividend and by that of the remainder (`overshoots_iff`, `overshoots_iff_mod`).

A quotient that needs a correction is inexact, so the divisor is neither one nor minus one and the
quotient is at most half as far from zero as the dividend. So the corrections stay within the words,
and the only quotient that wraps around is that of the least word by minus one, which is exact.

Main statement: `Value.send_division`.
-/

namespace StackJit

/-! ## Rounding down -/

/-- `q` and `r` are quotient and remainder of `x` by `y` for quotients that are rounded down. -/
structure Floors (x y q r : Int) : Prop where
  division : r + y * q = x
  magnitude : r.natAbs < y.natAbs
  sign : r = 0 ∨ (r < 0 ↔ y < 0)

/-- The quotient of `x` by `y` that is rounded toward zero is not rounded down. -/
def Overshoots (x y : Int) : Prop := x.tmod y ≠ 0 ∧ ¬ (x < 0 ↔ y < 0)

section Integers

variable {x y q r : Int}

theorem Floors.eq (h : Floors x y q r) : x.fdiv y = q ∧ x.fmod y = r := by
  obtain ⟨hdivision, hmagnitude, hsign⟩ := h
  rcases Int.lt_or_le y 0 with hy | hy
  · exact (Int.fdiv_fmod_unique' hy).mpr ⟨hdivision, by omega, by omega⟩
  · exact (Int.fdiv_fmod_unique (by omega)).mpr ⟨hdivision, by omega, by omega⟩

theorem natAbs_tmod_lt (x : Int) (hy : y ≠ 0) : (x.tmod y).natAbs < y.natAbs := by
  rw [Int.natAbs_tmod]
  exact Nat.mod_lt _ (Int.natAbs_pos.mpr hy)

/-- A remainder has the sign of the dividend. -/
theorem tmod_neg_iff (h : x.tmod y ≠ 0) : x.tmod y < 0 ↔ x < 0 := by
  rcases Int.lt_or_le x 0 with hx | hx
  · have hneg : 0 ≤ (-x).tmod y := Int.tmod_nonneg y (by omega)
    rw [Int.neg_tmod] at hneg
    omega
  · have hpos : 0 ≤ x.tmod y := Int.tmod_nonneg y hx
    omega

theorem floors_of_overshoots (hy : y ≠ 0) (h : Overshoots x y) :
    Floors x y (x.tdiv y - 1) (x.tmod y + y) := by
  obtain ⟨hne, hsigns⟩ := h
  have hlt := natAbs_tmod_lt x hy
  rw [← tmod_neg_iff hne] at hsigns
  refine ⟨?_, by omega, by omega⟩
  calc x.tmod y + y + y * (x.tdiv y - 1)
    _ = y * x.tdiv y + x.tmod y := by ring
    _ = x := Int.mul_tdiv_add_tmod x y

theorem floors_of_not_overshoots (hy : y ≠ 0) (h : ¬ Overshoots x y) :
    Floors x y (x.tdiv y) (x.tmod y) := by
  refine ⟨?_, natAbs_tmod_lt x hy, ?_⟩
  · rw [add_comm]
    exact Int.mul_tdiv_add_tmod x y
  · by_cases hne : x.tmod y = 0
    · exact .inl hne
    · rw [tmod_neg_iff hne]
      exact .inr (not_not.mp fun hsigns => h ⟨hne, hsigns⟩)

theorem floors_floor (x : Int) (hy : y ≠ 0) : Floors x y (x.fdiv y) (x.fmod y) := by
  by_cases h : Overshoots x y
  · have hfloors := floors_of_overshoots hy h
    rwa [← hfloors.eq.1, ← hfloors.eq.2] at hfloors
  · have hfloors := floors_of_not_overshoots hy h
    rwa [← hfloors.eq.1, ← hfloors.eq.2] at hfloors

/-- An inexact quotient is at most half as far from zero as the dividend. -/
theorem two_mul_natAbs_tdiv_le (hy : y ≠ 0) (h : x.tmod y ≠ 0) :
    2 * (x.tdiv y).natAbs ≤ x.natAbs := by
  have hne : y.natAbs ≠ 1 := by
    intro hone
    rw [← Int.natAbs_ne_zero, Int.natAbs_tmod, hone, Nat.mod_one] at h
    exact h rfl
  rw [Int.natAbs_tdiv]
  calc 2 * (x.natAbs / y.natAbs)
    _ ≤ y.natAbs * (x.natAbs / y.natAbs) := Nat.mul_le_mul_right _ (by omega)
    _ ≤ x.natAbs := Nat.mul_div_le _ _

end Integers

/-! ## Words -/

namespace IntOp

variable {a b : Int64}

theorem toInt_ne_zero (hb : b ≠ 0) : b.toInt ≠ 0 := fun h => hb (Int64.toInt_inj.mp h)

theorem mod_ne_zero_iff : a % b ≠ 0 ↔ a.toInt.tmod b.toInt ≠ 0 := by
  rw [← Int64.toInt_mod, Ne, ← Int64.toInt_inj]
  rfl

theorem signs_differ_iff :
    decide (a < 0) ≠ decide (b < 0) ↔ ¬ (a.toInt < 0 ↔ b.toInt < 0) := by
  rw [Ne, decide_eq_decide, Int64.lt_iff_toInt_lt, Int64.lt_iff_toInt_lt]
  rfl

/-- The test of the quotient. -/
theorem overshoots_iff :
    a % b ≠ 0 ∧ decide (a < 0) ≠ decide (b < 0) ↔ Overshoots a.toInt b.toInt := by
  rw [mod_ne_zero_iff, signs_differ_iff, Overshoots]

/-- The test of the remainder. -/
theorem overshoots_iff_mod :
    a % b ≠ 0 ∧ decide (a % b < 0) ≠ decide (b < 0) ↔ Overshoots a.toInt b.toInt := by
  rw [mod_ne_zero_iff, signs_differ_iff, Int64.toInt_mod]
  exact and_congr_right fun hne => by rw [tmod_neg_iff hne]

theorem div_eq_ofInt (a b : Int64) : a / b = .ofInt (a.toInt.tdiv b.toInt) := by
  rw [← Int64.toInt_inj, Int64.toInt_div, Int64.toInt_ofInt]

theorem sub_one_eq_ofInt (x : Int) : Int64.ofInt x - 1 = .ofInt (x - 1) :=
  (Int64.ofInt_sub x 1).symm

/-- A quotient that needs a correction is the integer one, and one less is a word too. -/
theorem toInt_div_of_overshoots (hb : b ≠ 0) (h : Overshoots a.toInt b.toInt) :
    (a / b).toInt = a.toInt.tdiv b.toInt ∧ (a / b - 1).toInt = a.toInt.tdiv b.toInt - 1 := by
  have hle := two_mul_natAbs_tdiv_le (toInt_ne_zero hb) h.1
  have hlower := a.le_toInt
  have hupper := a.toInt_lt
  rw [div_eq_ofInt, sub_one_eq_ofInt]
  exact ⟨Int64.toInt_ofInt_of_le (by omega) (by omega),
    Int64.toInt_ofInt_of_le (by omega) (by omega)⟩

/-- A remainder that needs a correction and the divisor have different signs, so their sum is
a word. -/
theorem toInt_mod_add_of_overshoots (h : Overshoots a.toInt b.toInt) :
    (a % b + b).toInt = a.toInt.tmod b.toInt + b.toInt := by
  obtain ⟨hne, hsigns⟩ := h
  rw [← tmod_neg_iff hne, ← Int64.toInt_mod] at hsigns
  have hlower := b.le_toInt
  have hupper := b.toInt_lt
  have hlower' := (a % b).le_toInt
  have hupper' := (a % b).toInt_lt
  rw [Int64.toInt_add, ← Int64.toInt_mod]
  exact Int.bmod_eq_of_le (by omega) (by omega)

/-! ## Rounded words -/

theorem toInt_floorMod (hb : b ≠ 0) : (floorMod a b).toInt = a.toInt.fmod b.toInt := by
  unfold floorMod
  split
  · next h =>
    rw [overshoots_iff_mod] at h
    rw [toInt_mod_add_of_overshoots h, (floors_of_overshoots (toInt_ne_zero hb) h).eq.2]
  · next h =>
    rw [overshoots_iff_mod] at h
    rw [Int64.toInt_mod, (floors_of_not_overshoots (toInt_ne_zero hb) h).eq.2]

theorem floorDiv_eq (hb : b ≠ 0) : floorDiv a b = .ofInt (a.toInt.fdiv b.toInt) := by
  unfold floorDiv
  split
  · next h =>
    rw [overshoots_iff] at h
    rw [div_eq_ofInt, sub_one_eq_ofInt, (floors_of_overshoots (toInt_ne_zero hb) h).eq.1]
  · next h =>
    rw [overshoots_iff] at h
    rw [div_eq_ofInt, (floors_of_not_overshoots (toInt_ne_zero hb) h).eq.1]

/-- An exact quotient above all words is that of the least word by minus one. -/
theorem eq_least_of_tdiv (hb : b ≠ 0) (hexact : a.toInt.tmod b.toInt = 0)
    (hquotient : a.toInt.tdiv b.toInt = 2 ^ 63) : a = .minValue ∧ b = -1 := by
  have hlower := a.le_toInt
  have hupper := a.toInt_lt
  have hne := toInt_ne_zero hb
  have hdivision := Int.mul_tdiv_add_tmod a.toInt b.toInt
  rw [hexact, hquotient] at hdivision
  have hmin : a.toInt = Int64.minValue.toInt := by
    rw [Int64.toInt_minValue]
    omega
  have hone : b.toInt = (-1 : Int64).toInt := by
    change _ = -1
    omega
  exact ⟨Int64.toInt_inj.mp hmin, Int64.toInt_inj.mp hone⟩

/-- A quotient is a word, unless it is that of the least word by minus one. -/
theorem fdiv_bounds (hb : b ≠ 0) : -2 ^ 63 ≤ a.toInt.fdiv b.toInt ∧
    (a.toInt.fdiv b.toInt < 2 ^ 63 ∨ a = .minValue ∧ b = -1) := by
  have hlower := a.le_toInt
  have hupper := a.toInt_lt
  by_cases hexact : a.toInt.tmod b.toInt = 0
  · have hle := Int.natAbs_tdiv_le_natAbs a.toInt b.toInt
    rw [(floors_of_not_overshoots (toInt_ne_zero hb) fun h => h.1 hexact).eq.1]
    refine ⟨by omega, ?_⟩
    by_cases hlt : a.toInt.tdiv b.toInt < 2 ^ 63
    · exact .inl hlt
    · exact .inr (eq_least_of_tdiv hb hexact (by omega))
  · -- half of the words is left for the correction
    have hle := two_mul_natAbs_tdiv_le (toInt_ne_zero hb) hexact
    by_cases hover : Overshoots a.toInt b.toInt
    · rw [(floors_of_overshoots (toInt_ne_zero hb) hover).eq.1]
      omega
    · rw [(floors_of_not_overshoots (toInt_ne_zero hb) hover).eq.1]
      omega

theorem wraps_iff (hb : b ≠ 0) :
    (floorDiv a b).toInt ≠ a.toInt.fdiv b.toInt ↔ a = .minValue ∧ b = -1 := by
  obtain ⟨hlower, hupper⟩ := fdiv_bounds (a := a) hb
  rw [floorDiv_eq hb]
  constructor
  · intro hne
    refine hupper.resolve_left fun hlt => hne ?_
    exact Int64.toInt_ofInt_of_le hlower hlt
  · rintro ⟨rfl, rfl⟩
    decide

/-- The words `q` and `r` are what `a` divided by `b` gives when quotients are rounded down. The
quotient wraps around if it is no word. The corrections by which both come from word division do
not, where they are made. -/
structure Floored (a b q r : Int64) : Prop where
  remainder : r.toInt = a.toInt.fmod b.toInt
  sign : r = 0 ∨ (r < 0 ↔ b < 0)
  magnitude : r.toInt.natAbs < b.toInt.natAbs
  dvd : b.toInt ∣ a.toInt - r.toInt
  quotient : q = .ofInt (a.toInt.fdiv b.toInt)
  wraps : q.toInt ≠ a.toInt.fdiv b.toInt ↔ a = .minValue ∧ b = -1
  division : q * b + r = a
  pred_exact : a % b ≠ 0 ∧ decide (a < 0) ≠ decide (b < 0) →
    (a / b - 1).toInt = (a / b).toInt - 1
  add_exact : a % b ≠ 0 ∧ decide (a % b < 0) ≠ decide (b < 0) →
    (a % b + b).toInt = (a % b).toInt + b.toInt

theorem floored (a : Int64) (hb : b ≠ 0) : Floored a b (floorDiv a b) (floorMod a b) := by
  have hfloors := floors_floor a.toInt (toInt_ne_zero hb)
  have hremainder := toInt_floorMod (a := a) hb
  refine ⟨hremainder, ?_, ?_, ?_, floorDiv_eq hb, wraps_iff hb, ?_, fun h => ?_, fun h => ?_⟩
  · have hsign := hfloors.sign
    rw [← hremainder] at hsign
    rw [← Int64.toInt_inj, Int64.lt_iff_toInt_lt, Int64.lt_iff_toInt_lt]
    exact hsign
  · rw [hremainder]
    exact hfloors.magnitude
  · refine ⟨a.toInt.fdiv b.toInt, ?_⟩
    rw [hremainder]
    exact sub_eq_of_eq_add' hfloors.division.symm
  · calc floorDiv a b * b + floorMod a b
      _ = .ofInt (a.toInt.fdiv b.toInt) * .ofInt b.toInt + .ofInt (a.toInt.fmod b.toInt) := by
        rw [floorDiv_eq hb, ← hremainder, Int64.ofInt_toInt, Int64.ofInt_toInt]
      _ = .ofInt (a.toInt.fmod b.toInt + b.toInt * a.toInt.fdiv b.toInt) := by
        rw [← Int64.ofInt_mul, ← Int64.ofInt_add, add_comm, mul_comm]
      _ = a := by rw [hfloors.division, Int64.ofInt_toInt]
  · obtain ⟨hquotient, hpred⟩ := toInt_div_of_overshoots hb (overshoots_iff.mp h)
    rw [hpred, hquotient]
  · rw [toInt_mod_add_of_overshoots (overshoots_iff_mod.mp h), Int64.toInt_mod]

end IntOp

namespace Value

theorem send_div (a b : Int64) : (int a).send "/" [int b] = IntOp.div.apply a b := rfl

theorem send_mod (a b : Int64) : (int a).send "%" [int b] = IntOp.mod.apply a b := rfl

/-- Integers divide as rounding down asks for, whatever the operands are; division by zero
is refused. -/
theorem send_division (a b : Int64) :
    (b = 0 → (int a).send "/" [int b] = .error .divisionByZero ∧
      (int a).send "%" [int b] = .error .divisionByZero) ∧
    (b ≠ 0 → ∃ q r, (int a).send "/" [int b] = .ok (int q) ∧
      (int a).send "%" [int b] = .ok (int r) ∧ IntOp.Floored a b q r) := by
  rw [send_div, send_mod, IntOp.apply, IntOp.apply]
  refine ⟨fun hb => ?_, fun hb => ⟨_, _, ?_, ?_, IntOp.floored a hb⟩⟩
  · rw [if_pos hb, if_pos hb]
    exact ⟨rfl, rfl⟩
  · rw [if_neg hb]
  · rw [if_neg hb]

/-- The quotient that wraps around, one that is corrected next to the least word, and one
by zero. -/
theorem send_division_least :
    (int .minValue).send "/" [int (-1)] = .ok (int .minValue) ∧
      (int .minValue).send "%" [int (-1)] = .ok (int 0) ∧
      IntOp.Floored .minValue (-1) .minValue 0 ∧
      (int (.minValue + 1)).send "/" [int 2] = .ok (int (-4611686018427387904)) ∧
      (int (.minValue + 1)).send "%" [int 2] = .ok (int 1) ∧
      IntOp.Floored (.minValue + 1) 2 (-4611686018427387904) 1 ∧
      (int .minValue).send "/" [int 0] = .error .divisionByZero := by
  obtain ⟨q, r, hq, hr, hfloored⟩ := (send_division .minValue (-1)).2 (by decide)
  obtain ⟨q', r', hq', hr', hfloored'⟩ := (send_division (.minValue + 1) 2).2 (by decide)
  obtain ⟨hzero, -⟩ := (send_division .minValue 0).1 rfl
  cases hq
  cases hr
  cases hq'
  cases hr'
  exact ⟨rfl, rfl, hfloored, rfl, rfl, hfloored', hzero⟩

end Value

end StackJit
