import PocketCalc.Decimal.Rounding

/-! Plain decimal text: no exponent, no trailing zero, no trailing point. -/

set_option autoImplicit false

namespace PocketCalc.Decimal

def trimZeros (digits : List Char) : List Char :=
  (digits.reverse.dropWhile (· == '0')).reverse

/-- The text of `units` divided by the scale of `places`. -/
def text (units : Int) (places : Nat) : List Char :=
  let sign := if units < 0 then ['-'] else []
  let whole := Nat.toDigits 10 (units.natAbs / scale places)
  let part := units.natAbs % scale places
  if part = 0 then sign ++ whole
  else sign ++ whole ++ '.' :: trimZeros ((Nat.toDigits 10 part).leftpad places '0')

def answerText (value : Rat) : List Char := text (units value precision) precision

end PocketCalc.Decimal
