import PocketCalc.Decimal.Scale

/-! Rounding to a number of decimal places, and the magnitudes that have an answer. -/

set_option autoImplicit false

namespace PocketCalc.Decimal

/-- The quotient cut off towards zero, or one step further from zero if the
remainder is half of the denominator or more. -/
def roundQuotient (num : Int) (den : Nat) : Int :=
  let cut := num.tdiv den
  let rest := num.tmod den
  if den ≤ 2 * rest.natAbs then if num < 0 then cut - 1 else cut + 1 else cut

/-- The value counted in units of the last place kept. -/
def units (value : Rat) (places : Nat) : Int := roundQuotient (value.num * scale places) value.den

def round (value : Rat) (places : Nat) : Rat := mkRat (units value places) (scale places)

def precision : Nat := 12

/-- The largest finite double. -/
def largest : Rat := mkRat (Nat.pow 2 1024 - Nat.pow 2 971 : Nat) 1

def InRange (value : Rat) : Prop := -largest ≤ value ∧ value ≤ largest

instance (value : Rat) : Decidable (InRange value) :=
  inferInstanceAs (Decidable (-largest ≤ value ∧ value ≤ largest))

end PocketCalc.Decimal
