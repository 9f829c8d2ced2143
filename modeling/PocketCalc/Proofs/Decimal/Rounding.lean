import Mathlib.Algebra.Order.Floor.Ring
import Mathlib.Tactic.FieldSimp
import Mathlib.Tactic.Linarith
import Mathlib.Tactic.LinearCombination
import Mathlib.Tactic.Ring
import PocketCalc.Decimal.Rounding
import PocketCalc.Proofs.Decimal.Literal

/-! Rounding half away from zero, by its defining conditions.

The conditions leave one result (`isNearest_iff`). Rounding goes with the sign,
does nothing the second time and keeps the order (`eq_round_iff`), and a value in
range stays in range (`inRange_round`).
-/

set_option autoImplicit false

namespace PocketCalc.Decimal

/-- The nearest integer; of two equally near ones, the one of larger magnitude. -/
def NearestInt (value : Rat) (nearest : Int) : Prop :=
  |nearest - value| ≤ 1 / 2 ∧ (|nearest - value| = 1 / 2 → |value| < |(nearest : Rat)|)

/-- The nearest decimal with so many places; of two equally near ones, the one
of larger magnitude. -/
structure IsNearest (value : Rat) (places : Nat) (rounded : Rat) : Prop where
  multiple : ∃ units : Int, rounded = units / 10 ^ places
  close : |rounded - value| ≤ 1 / 2 / 10 ^ places
  away : |rounded - value| = 1 / 2 / 10 ^ places → |value| < |rounded|

theorem NearestInt.neg {value : Rat} {nearest : Int} (isNearest : NearestInt value nearest) :
    NearestInt (-value) (-nearest) := by
  have opposite : ((-nearest : Int) : Rat) - -value = -(nearest - value) := by push_cast; ring
  rw [NearestInt, opposite, abs_neg, abs_neg, Int.cast_neg, abs_neg]
  exact isNearest

theorem NearestInt.not_lt {value : Rat} {low high : Int} (isLow : NearestInt value low)
    (isHigh : NearestInt value high) : ¬ low < high := by
  intro less
  obtain ⟨closeLow, awayLow⟩ := isLow
  obtain ⟨closeHigh, awayHigh⟩ := isHigh
  have gap : (low : Rat) + 1 ≤ high := by exact_mod_cast less
  have lowBounds := abs_le.mp closeLow
  have highBounds := abs_le.mp closeHigh
  -- The value lies half way between the two, so one of them has the smaller magnitude.
  have middle : value = low + 1 / 2 := by linarith
  have next : (high : Rat) = low + 1 := by linarith
  have lowTie : |(low : Rat) - value| = 1 / 2 := by
    rw [middle, show (low : Rat) - (low + 1 / 2) = -(1 / 2) by ring, abs_neg, abs_of_pos (by norm_num)]
  have highTie : |(high : Rat) - value| = 1 / 2 := by
    rw [middle, next, show (low : Rat) + 1 - (low + 1 / 2) = 1 / 2 by ring, abs_of_pos (by norm_num)]
  rcases le_or_gt 0 low with nonneg | negative
  · have nonneg : (0 : Rat) ≤ low := by exact_mod_cast nonneg
    have smaller := awayLow lowTie
    rw [middle, abs_of_nonneg (by linarith), abs_of_nonneg nonneg] at smaller
    linarith
  · have negative : (low : Rat) + 1 ≤ 0 := by exact_mod_cast negative
    have smaller := awayHigh highTie
    rw [middle, next, abs_of_nonpos (by linarith), abs_of_nonpos negative] at smaller
    linarith

theorem NearestInt.unique {value : Rat} {first second : Int} (one : NearestInt value first)
    (other : NearestInt value second) : first = second :=
  le_antisymm (Int.not_lt.mp (other.not_lt one)) (Int.not_lt.mp (one.not_lt other))

theorem NearestInt.mono {low high : Rat} {first second : Int} (isFirst : NearestInt low first)
    (isSecond : NearestInt high second) (le : low ≤ high) : first ≤ second := by
  by_contra greater
  have less := not_le.mp greater
  have gap : (second : Rat) + 1 ≤ first := by exact_mod_cast less
  have below := abs_le.mp isFirst.1
  have above := abs_le.mp isSecond.1
  -- Both values lie half way between the two, so they are one value.
  have same : low = high := by linarith
  subst same
  exact isSecond.not_lt isFirst less

/-- Half a step leads closer to zero exactly when the whole step does not lead farther away. -/
theorem abs_add_half_lt_iff {count step : Int} (unit : step * step = 1) :
    |(count : Rat) + step / 2| < |(count : Rat)| ↔ |(count : Rat) + step| ≤ |(count : Rat)| := by
  have unit : (step : Rat) * step = 1 := by exact_mod_cast unit
  have half : ((count : Rat) + step / 2) ^ 2 = count ^ 2 + count * step + 1 / 4 := by
    linear_combination unit / 4
  have whole : ((count : Rat) + step) ^ 2 = count ^ 2 + 2 * (count * step) + 1 := by
    linear_combination unit
  rw [← sq_lt_sq, ← sq_le_sq, half, whole]
  constructor
  · intro shorter
    have negative : ((count * step : Int) : Rat) < 0 := by push_cast; linarith
    have product : count * step + 1 ≤ 0 := Int.cast_lt_zero.mp negative
    have product : (count : Rat) * step + 1 ≤ 0 := by exact_mod_cast product
    linarith
  · intro shorter
    linarith

theorem nearestInt_iff {value : Rat} {nearest : Int} :
    NearestInt value nearest ↔ |nearest - value| ≤ 1 / 2 ∧
      ∀ other : Int, |other - value| = |nearest - value| → |(other : Rat)| ≤ |(nearest : Rat)| := by
  refine and_congr_right fun close => ?_
  constructor
  · intro away other same
    rcases abs_eq_abs.mp same with equal | opposite
    · rw [show (other : Rat) = nearest by linarith]
    · -- The other one lies as far behind the value, so it is at most one step away.
      obtain ⟨step, rfl⟩ : ∃ step, other = nearest + step := ⟨other - nearest, by ring⟩
      push_cast at opposite ⊢
      have middle : value = nearest + step / 2 := by linarith
      have distance : |nearest - value| = |(step : Rat)| / 2 := by
        rw [middle, sub_add_cancel_left, abs_neg, abs_div, abs_two]
      rw [distance, div_le_div_iff_of_pos_right two_pos] at close
      rcases eq_or_ne step 0 with rfl | some
      · simp
      · have single : |step| = 1 := le_antisymm (by exact_mod_cast close) (Int.one_le_abs some)
        have unit : step * step = 1 := by rw [← abs_mul_abs_self, single, one_mul]
        have tie : |nearest - value| = 1 / 2 := by
          rw [distance, ← Int.cast_abs, single, Int.cast_one]
        exact (abs_add_half_lt_iff unit).mp (middle ▸ away tie)
  -- A tie lies half a step from both of its neighbours, so the other one is a whole step away.
  · intro largest tie
    obtain ⟨step, unit, middle⟩ : ∃ step : Int, step * step = 1 ∧ value = nearest + step / 2 := by
      rcases (abs_eq one_half_pos.le).mp tie with above | below
      · exact ⟨-1, by norm_num, by push_cast; linarith⟩
      · exact ⟨1, by norm_num, by push_cast; linarith⟩
    have ahead : ((nearest + step : Int) : Rat) - value = step / 2 := by push_cast; linarith
    have behind : nearest - value = -(step / 2) := by linarith
    have farther := largest (nearest + step) (by rw [ahead, behind, abs_neg])
    rw [Int.cast_add] at farther
    rw [middle]
    exact (abs_add_half_lt_iff unit).mpr farther

theorem nearestInt_of_nonneg {value : Rat} {nearest : Int} (nonneg : 0 ≤ value)
    (below : (nearest : Rat) ≤ value + 1 / 2) (above : value + 1 / 2 < nearest + 1) :
    NearestInt value nearest := by
  refine ⟨abs_le.mpr ⟨by linarith, by linarith⟩, fun tie => ?_⟩
  rcases abs_eq (by norm_num : (0 : Rat) ≤ 1 / 2) |>.mp tie with up | down
  · rw [abs_of_nonneg nonneg, abs_of_nonneg (by linarith)]
    linarith
  · linarith

theorem div_add_half (num : Nat) {den : Nat} (pos : 0 < den) :
    (2 * num + den) / (2 * den) = if den ≤ 2 * (num % den) then num / den + 1 else num / den := by
  have less := Nat.mod_lt num pos
  have split : 2 * num + den = 2 * (num % den) + den + 2 * den * (num / den) := by
    conv_lhs => rw [← Nat.mod_add_div num den]
    ring
  rw [split, Nat.add_mul_div_left _ _ (by omega), Nat.add_comm]
  -- The remainder decides whether the half that is added reaches the next multiple.
  split_ifs with half
  · have one : (2 * (num % den) + den) / (2 * den) = 1 :=
      Nat.div_eq_of_lt_le (by omega) (by omega)
    rw [one]
  · have none : (2 * (num % den) + den) / (2 * den) = 0 := Nat.div_eq_of_lt (by omega)
    rw [none, Nat.add_zero]

/-- Rounding takes the magnitude half up and keeps the sign. -/
theorem roundQuotient_eq (num : Int) {den : Nat} (pos : 0 < den) :
    roundQuotient num den = num.sign * ((2 * num.natAbs + den) / (2 * den) : Nat) := by
  simp only [roundQuotient, Int.natAbs_tmod, Int.natAbs_natCast, div_add_half num.natAbs pos]
  -- Truncated division leaves the quotient and the remainder of the magnitude, with the sign.
  rcases lt_trichotomy num 0 with negative | rfl | positive
  · obtain ⟨magnitude, rfl⟩ := Int.exists_eq_neg_ofNat negative.le
    rw [Int.sign_eq_neg_one_of_neg negative, if_pos negative, Int.neg_tdiv, Int.natAbs_neg, Int.natAbs_natCast, ← Int.ofNat_tdiv]
    split_ifs <;> push_cast <;> ring
  · simp [pos.ne']
  · obtain ⟨magnitude, rfl⟩ := Int.eq_ofNat_of_zero_le positive.le
    rw [Int.sign_eq_one_of_pos positive, if_neg positive.not_gt, Int.natAbs_natCast, ← Int.ofNat_tdiv]
    split_ifs <;> push_cast <;> ring

theorem roundQuotient_neg (num : Int) {den : Nat} (pos : 0 < den) :
    roundQuotient (-num) den = -roundQuotient num den := by
  rw [roundQuotient_eq _ pos, roundQuotient_eq _ pos, Int.sign_neg, Int.natAbs_neg, Int.neg_mul]

theorem roundQuotient_natCast (num : Nat) {den : Nat} (pos : 0 < den) :
    roundQuotient num den = ((2 * num + den) / (2 * den) : Nat) := by
  rw [roundQuotient_eq _ pos, Int.natAbs_natCast]
  cases num with
  | zero =>
      have small : (2 * 0 + den) / (2 * den) = 0 := Nat.div_eq_of_lt (by omega)
      rw [small]
      rfl
  | succ num => rw [Int.natCast_succ, Int.sign_natCast_add_one, Int.one_mul]

theorem nearestInt_roundQuotient_natCast (num : Nat) {den : Nat} (pos : 0 < den) :
    NearestInt (num / den) (roundQuotient num den) := by
  have denPos : (0 : Rat) < den := Nat.cast_pos.mpr pos
  have below : ((2 * num + den) / (2 * den) : Nat) * (2 * den) ≤ 2 * num + den :=
    Nat.div_mul_le_self _ _
  have above : 2 * num + den < ((2 * num + den) / (2 * den) + 1) * (2 * den) :=
    Nat.lt_mul_of_div_lt (Nat.lt_succ_self _) (by omega)
  have shifted : (num : Rat) / den + 1 / 2 = (2 * num + den) / (2 * den) := by
    field_simp
  rw [roundQuotient_natCast num pos]
  apply nearestInt_of_nonneg (by positivity)
  · rw [shifted, le_div_iff₀ (by linarith)]
    exact_mod_cast below
  · rw [shifted, div_lt_iff₀ (by linarith)]
    exact_mod_cast above

theorem nearestInt_roundQuotient (num : Int) {den : Nat} (pos : 0 < den) :
    NearestInt (num / den) (roundQuotient num den) := by
  obtain ⟨magnitude, rfl | rfl⟩ := num.eq_nat_or_neg
  · rw [Int.cast_natCast]
    exact nearestInt_roundQuotient_natCast magnitude pos
  · have opposite := (nearestInt_roundQuotient_natCast magnitude pos).neg
    rw [← roundQuotient_neg _ pos, ← neg_div] at opposite
    rwa [Int.cast_neg, Int.cast_natCast]

/-! ## Decimal places -/

theorem nearestInt_units (value : Rat) {places : Nat} (small : places < UInt32.size) :
    NearestInt (value * 10 ^ places) (units value places) := by
  have nearest := nearestInt_roundQuotient (value.num * scale places) value.den_pos
  have scaled : ((value.num * scale places : Int) : Rat) / value.den = value * 10 ^ places := by
    rw [Int.cast_mul, Int.cast_natCast, cast_scale small, mul_div_right_comm, Rat.num_div_den]
  rwa [scaled] at nearest

theorem round_eq (value : Rat) {places : Nat} (small : places < UInt32.size) :
    round value places = units value places / 10 ^ places := by
  rw [round, Rat.mkRat_eq_div, cast_scale small]

theorem abs_div_sub (count : Int) (value : Rat) (places : Nat) :
    |(count : Rat) / 10 ^ places - value| = |count - value * 10 ^ places| / 10 ^ places := by
  have pos : (0 : Rat) < 10 ^ places := by positivity
  have difference : (count : Rat) / 10 ^ places - value =
      (count - value * 10 ^ places) / 10 ^ places := by
    field_simp
  rw [difference, abs_div, abs_of_pos pos]

theorem isNearest_div_iff {value : Rat} {places : Nat} {count : Int} :
    IsNearest value places (count / 10 ^ places) ↔ NearestInt (value * 10 ^ places) count := by
  have pos : (0 : Rat) < 10 ^ places := by positivity
  have close : |(count : Rat) / 10 ^ places - value| ≤ 1 / 2 / 10 ^ places ↔
      |count - value * 10 ^ places| ≤ 1 / 2 := by
    rw [abs_div_sub, div_le_div_iff_of_pos_right pos]
  have tie : |(count : Rat) / 10 ^ places - value| = 1 / 2 / 10 ^ places ↔
      |count - value * 10 ^ places| = 1 / 2 := by
    rw [abs_div_sub, div_left_inj' pos.ne']
  have away : |value| < |(count : Rat) / 10 ^ places| ↔
      |value * 10 ^ places| < |(count : Rat)| := by
    rw [abs_div, abs_mul, abs_of_pos pos, lt_div_iff₀ pos]
  constructor
  · rintro ⟨_, isClose, isAway⟩
    exact ⟨close.mp isClose, fun same => away.mp (isAway (tie.mpr same))⟩
  · rintro ⟨isClose, isAway⟩
    exact ⟨⟨count, rfl⟩, close.mpr isClose, fun same => away.mpr (isAway (tie.mp same))⟩

theorem isNearest_iff {value rounded : Rat} {places : Nat} (small : places < UInt32.size) :
    IsNearest value places rounded ↔ rounded = round value places := by
  rw [round_eq value small]
  constructor
  · intro nearest
    obtain ⟨count, rfl⟩ := nearest.multiple
    rw [(isNearest_div_iff.mp nearest).unique (nearestInt_units value small)]
  · rintro rfl
    exact isNearest_div_iff.mpr (nearestInt_units value small)

theorem units_div (count : Int) {places : Nat} (small : places < UInt32.size) :
    units (count / 10 ^ places) places = count := by
  have nearest := nearestInt_units ((count : Rat) / 10 ^ places) small
  rw [div_mul_cancel₀ _ (by positivity)] at nearest
  exact nearest.unique ⟨by simp, by simp⟩

theorem isNearest_iff_largest {value rounded : Rat} {places : Nat} :
    IsNearest value places rounded ↔ (∃ units : Int, rounded = units / 10 ^ places) ∧
      |rounded - value| ≤ 1 / 2 / 10 ^ places ∧
      ∀ other : Int, |other / 10 ^ places - value| = |rounded - value| →
        |(other : Rat) / 10 ^ places| ≤ |rounded| := by
  have pos : (0 : Rat) < 10 ^ places := by positivity
  have scaled (other count : Int) :
      |(other : Rat) / 10 ^ places - value| = |count / 10 ^ places - value| ↔
        |other - value * 10 ^ places| = |count - value * 10 ^ places| := by
    rw [abs_div_sub, abs_div_sub, div_left_inj' pos.ne']
  have magnitude (other count : Int) :
      |(other : Rat) / 10 ^ places| ≤ |(count : Rat) / 10 ^ places| ↔ |(other : Rat)| ≤ |(count : Rat)| := by
    rw [abs_div, abs_div, div_le_div_iff_of_pos_right (abs_pos.mpr pos.ne')]
  constructor
  · intro nearest
    obtain ⟨count, rfl⟩ := nearest.multiple
    have largest := (nearestInt_iff.mp (isNearest_div_iff.mp nearest)).2
    exact ⟨⟨count, rfl⟩, nearest.close, fun other same =>
      (magnitude other count).mpr (largest other ((scaled other count).mp same))⟩
  · rintro ⟨⟨count, rfl⟩, close, largest⟩
    rw [abs_div_sub, div_le_div_iff_of_pos_right pos] at close
    exact isNearest_div_iff.mpr (nearestInt_iff.mpr ⟨close, fun other same =>
      (magnitude other count).mp (largest other ((scaled other count).mpr same))⟩)

theorem round_neg (value : Rat) (places : Nat) : round (-value) places = -round value places := by
  rw [round, round, units, units, Rat.neg_num, Rat.neg_den, Int.neg_mul, roundQuotient_neg _ value.den_pos,
    Rat.neg_mkRat]

theorem round_round (value : Rat) {places : Nat} (small : places < UInt32.size) :
    round (round value places) places = round value places := by
  rw [round_eq (round value places) small, round_eq value small, units_div _ small]

theorem round_mono {low high : Rat} {places : Nat} (small : places < UInt32.size) (le : low ≤ high) :
    round low places ≤ round high places := by
  have pos : (0 : Rat) < 10 ^ places := by positivity
  have units := (nearestInt_units low small).mono (nearestInt_units high small)
    (mul_le_mul_of_nonneg_right le pos.le)
  rw [round_eq low small, round_eq high small, div_le_div_iff_of_pos_right pos, Int.cast_le]
  exact units

/-- The rounded value is the one multiple of the last place within half of it that is no
smaller in magnitude than any other multiple as near. Rounding goes with the sign, does nothing
the second time and keeps the order. -/
theorem eq_round_iff {places : Nat} (small : places < UInt32.size) :
    (∀ value rounded : Rat, rounded = round value places ↔
      (∃ units : Int, rounded = units / 10 ^ places) ∧
        |rounded - value| ≤ 1 / 2 / 10 ^ places ∧
        ∀ other : Int, |other / 10 ^ places - value| = |rounded - value| →
          |(other : Rat) / 10 ^ places| ≤ |rounded|) ∧
    (∀ value : Rat, round (-value) places = -round value places) ∧
    (∀ value : Rat, round (round value places) places = round value places) ∧
    ∀ low high : Rat, low ≤ high → round low places ≤ round high places :=
  ⟨fun _ _ => (isNearest_iff small).symm.trans isNearest_iff_largest, fun value => round_neg value places,
    fun value => round_round value small, fun _ _ le => round_mono small le⟩

/-- Half a unit of the last place is rounded away from zero on either side. -/
theorem round_of_half_unit :
    12 < UInt32.size ∧ round (5 / 10 ^ 13) 12 = 1 / 10 ^ 12 ∧
      round (-(5 / 10 ^ 13)) 12 = -(1 / 10 ^ 12) ∧
      ∀ other : Int, |(other : Rat) / 10 ^ 12 - 5 / 10 ^ 13| = |(1 : Rat) / 10 ^ 12 - 5 / 10 ^ 13| →
        |(other : Rat) / 10 ^ 12| ≤ |(1 : Rat) / 10 ^ 12| := by
  have small : 12 < UInt32.size := by decide
  obtain ⟨nearest, odd, _, _⟩ := eq_round_iff small
  have rounded : round (5 / 10 ^ 13) 12 = 1 / 10 ^ 12 := by decide +kernel
  exact ⟨small, rounded, by rw [odd, rounded], ((nearest _ _).mp rounded.symm).2.2⟩

/-! ## Magnitudes in range -/

theorem largest_eq : largest = 2 ^ 1024 - 2 ^ 971 := by decide +kernel

theorem largest_num : (largest.num : Rat) = largest := by decide +kernel

theorem inRange_iff {value : Rat} : InRange value ↔ |value| ≤ largest := abs_le.symm

theorem NearestInt.abs_le {value : Rat} {nearest limit : Int} (isNearest : NearestInt value nearest)
    (bounded : |value| ≤ limit) : |(nearest : Rat)| ≤ limit := by
  have near : |(nearest : Rat)| < ((limit + 1 : Int) : Rat) := by
    have triangle := abs_sub_abs_le_abs_sub (nearest : Rat) value
    have close := isNearest.1
    push_cast
    linarith
  rw [← Int.cast_abs, Int.cast_lt] at near
  rw [← Int.cast_abs, Int.cast_le]
  exact Int.lt_add_one_iff.mp near

/-- The bound has no fractional digits, so rounding does not cross it. -/
theorem inRange_round {value : Rat} {places : Nat} (small : places < UInt32.size)
    (inRange : InRange value) : InRange (round value places) := by
  have pos : (0 : Rat) < 10 ^ places := by positivity
  rw [inRange_iff, ← largest_num] at inRange ⊢
  have scaled : |value * 10 ^ places| ≤ ((largest.num * 10 ^ places : Int) : Rat) := by
    push_cast
    rw [abs_mul, abs_of_pos pos]
    exact mul_le_mul_of_nonneg_right inRange pos.le
  have units := (nearestInt_units value small).abs_le scaled
  push_cast at units
  rwa [round_eq value small, abs_div, abs_of_pos pos, div_le_iff₀ pos]

end PocketCalc.Decimal
