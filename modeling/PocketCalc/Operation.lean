import PocketCalc.Fault

/-! The operations of an expression: two signs and five binary operators over
exact rationals. Products bind tighter than sums. -/

set_option autoImplicit false

namespace PocketCalc

inductive Sign where
  | plus
  | minus
  deriving DecidableEq, Repr

def Sign.apply : Sign → Rat → Rat
  | .plus, value => value
  | .minus, value => -value

inductive BinaryOp where
  | add
  | sub
  | mul
  | div
  /-- The remainder that has the sign of the dividend. -/
  | rem
  deriving DecidableEq, Repr

namespace BinaryOp

/-- Sums are at level 0 and products at level 1, which binds tighter. -/
def level : BinaryOp → Nat
  | add | sub => 0
  | mul | div | rem => 1

/-- The sign written with the same symbol. -/
def sign? : BinaryOp → Option Sign
  | add => some .plus
  | sub => some .minus
  | mul | div | rem => none

end BinaryOp

/-- The integer part, toward zero. -/
def truncate (value : Rat) : Int := value.num.tdiv value.den

/-- Division and remainder by zero fail, each with its own cause. -/
def BinaryOp.apply : BinaryOp → Rat → Rat → Except Fault Rat
  | add, left, right => .ok (left + right)
  | sub, left, right => .ok (left - right)
  | mul, left, right => .ok (left * right)
  | div, left, right => if right = 0 then .error .divisionByZero else .ok (left / right)
  | rem, left, right =>
      if right = 0 then .error .notFinite else .ok (left - truncate (left / right) * right)

end PocketCalc
