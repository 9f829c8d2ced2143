/-! Powers of ten that place a decimal point. -/

set_option autoImplicit false

namespace PocketCalc.Decimal

/-- Ten to the number of places. An exponent is a 32-bit word, so a larger
count wraps around. -/
def scale (places : Nat) : Nat := Nat.pow 10 (places % UInt32.size)

theorem scale_of_lt {places : Nat} (small : places < UInt32.size) :
    scale places = Nat.pow 10 places := by
  rw [scale, Nat.mod_eq_of_lt small]

theorem scale_pos (places : Nat) : 0 < scale places := Nat.pow_pos (by decide)

@[simp] theorem scale_zero : scale 0 = 1 := rfl

end PocketCalc.Decimal
