import PocketCalc.Token

/-! Expression trees: their value, and their postfix form. -/

set_option autoImplicit false

namespace PocketCalc

inductive Tree where
  | num (value : Rat)
  | sign (sign : Sign) (operand : Tree)
  | op (op : BinaryOp) (left right : Tree)
  deriving DecidableEq, Repr

namespace Tree

/-- Left operand, right operand, then the operation: the first failure is the answer. -/
def value : Tree → Except Fault Rat
  | num value => .ok value
  | sign mark operand => do return mark.apply (← operand.value)
  | op operation left right => do
      let leftValue ← left.value
      let rightValue ← right.value
      operation.apply leftValue rightValue

/-- Operands before their operation, and no parentheses. -/
def toPostfix : Tree → List Token
  | num value => [.num value]
  | sign mark operand => operand.toPostfix ++ [.sign mark]
  | op operation left right => left.toPostfix ++ right.toPostfix ++ [.op operation]

end Tree

end PocketCalc
