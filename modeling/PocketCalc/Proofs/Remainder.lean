import Mathlib.Algebra.Order.Field.Rat
import Mathlib.Data.Rat.Floor
import Mathlib.Tactic.Linarith
import Mathlib.Tactic.FieldSimp
import Mathlib.Tactic.Ring
import PocketCalc.Operation

/-! The remainder of two rationals, by its defining conditions.

The integer part toward zero is the only integer within one of a value on the
side of zero, so the conditions leave one remainder (`isRemainder_iff`).
-/

set_option autoImplicit false

namespace PocketCalc

structure IsRemainder (dividend divisor remainder : Rat) : Prop where
  divisor_ne_zero : divisor ≠ 0
  smaller : |remainder| < |divisor|
  sign : remainder = 0 ∨ 0 < dividend * remainder
  multiple : ∃ count : Int, dividend - remainder = count * divisor

theorem truncate_of_nonneg {value : Rat} (nonneg : 0 ≤ value) : truncate value = ⌊value⌋ := by
  rw [truncate, Rat.floor_def', Int.tdiv_eq_ediv_of_nonneg (Rat.num_nonneg.mpr nonneg)]

theorem truncate_neg (value : Rat) : truncate (-value) = -truncate value := by
  rw [truncate, truncate, Rat.neg_num, Rat.neg_den, Int.neg_tdiv]

/-- The integer is within one of the value, on the side of zero. -/
def Truncates (value : Rat) (whole : Int) : Prop :=
  |value - whole| < 1 ∧ (value - whole = 0 ∨ 0 < value * (value - whole))

theorem Truncates.neg {value : Rat} {whole : Int} (truncates : Truncates value whole) :
    Truncates (-value) (-whole) := by
  obtain ⟨near, side⟩ := truncates
  have opposite : -value - ((-whole : Int) : Rat) = -(value - whole) := by push_cast; ring
  rw [Truncates, opposite, abs_neg, neg_eq_zero, neg_mul_neg]
  exact ⟨near, side⟩

theorem truncates_iff_of_nonneg {value : Rat} (nonneg : 0 ≤ value) (whole : Int) :
    Truncates value whole ↔ whole = ⌊value⌋ := by
  rw [eq_comm, Int.floor_eq_iff, Truncates, abs_lt]
  constructor
  · rintro ⟨⟨_, above⟩, same | side⟩
    · constructor <;> linarith
    · have below := pos_of_mul_pos_right side nonneg
      constructor <;> linarith
  · rintro ⟨below, above⟩
    refine ⟨⟨by linarith, by linarith⟩, ?_⟩
    rcases eq_or_lt_of_le below with same | less
    · exact .inl (by linarith)
    · have wholeNonneg : (0 : Rat) ≤ whole := by
        have : (0 : Rat) < (whole + 1 : Int) := by push_cast; linarith
        exact_mod_cast Int.lt_add_one_iff.mp (Int.cast_pos.mp this)
      exact .inr (mul_pos (by linarith) (by linarith))

theorem truncates_iff (value : Rat) (whole : Int) :
    Truncates value whole ↔ whole = truncate value := by
  rcases le_total 0 value with nonneg | nonpos
  · rw [truncates_iff_of_nonneg nonneg, truncate_of_nonneg nonneg]
  · have opposite := truncates_iff_of_nonneg (neg_nonneg.mpr nonpos) (-whole)
    rw [← truncate_of_nonneg (neg_nonneg.mpr nonpos), truncate_neg, neg_inj] at opposite
    rw [← opposite]
    exact ⟨Truncates.neg, fun truncates => by simpa using truncates.neg⟩

theorem truncates_quotient_iff {dividend divisor : Rat} (ne : divisor ≠ 0) (count : Int) :
    Truncates (dividend / divisor) count ↔
      |dividend - count * divisor| < |divisor| ∧
        (dividend - count * divisor = 0 ∨ 0 < dividend * (dividend - count * divisor)) := by
  have rest : dividend / divisor - count = (dividend - count * divisor) / divisor := by
    field_simp
  have product : dividend / divisor * ((dividend - count * divisor) / divisor) =
      dividend * (dividend - count * divisor) / (divisor * divisor) := by
    field_simp
  rw [Truncates, rest, product, abs_div, div_lt_one (abs_pos.mpr ne),
    div_pos_iff_of_pos_right (mul_self_pos.mpr ne), div_eq_zero_iff, or_iff_left ne]

theorem isRemainder_iff {dividend divisor remainder : Rat} :
    IsRemainder dividend divisor remainder ↔
      divisor ≠ 0 ∧ remainder = dividend - truncate (dividend / divisor) * divisor := by
  constructor
  · rintro ⟨ne, smaller, sign, count, multiple⟩
    have same : remainder = dividend - count * divisor := by linarith
    rw [same] at smaller sign
    have whole := (truncates_iff _ count).mp ((truncates_quotient_iff ne count).mpr ⟨smaller, sign⟩)
    exact ⟨ne, whole ▸ same⟩
  · rintro ⟨ne, rfl⟩
    obtain ⟨smaller, sign⟩ := (truncates_quotient_iff ne _).mp ((truncates_iff _ _).mpr rfl)
    exact ⟨ne, smaller, sign, _, sub_sub_cancel _ _⟩

/-- A divisor that is not zero leaves one remainder. -/
theorem existsUnique_isRemainder (dividend : Rat) {divisor : Rat} (ne : divisor ≠ 0) :
    ∃! remainder, IsRemainder dividend divisor remainder :=
  ⟨dividend - truncate (dividend / divisor) * divisor, isRemainder_iff.mpr ⟨ne, rfl⟩,
    fun _ isRemainder => (isRemainder_iff.mp isRemainder).2⟩

end PocketCalc
