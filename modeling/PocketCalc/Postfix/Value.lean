import PocketCalc.Token

/-! The value of a postfix token list, on a stack of exact rationals.

The list need not be the postfix form of anything; a missing or left-over
operand makes it malformed.
-/

set_option autoImplicit false

namespace PocketCalc.Postfix

/-- One token on a stack whose top is its head. Operands are counted before
the operation is tried. -/
def step (stack : List Rat) : Token → Except Fault (List Rat)
  | .num value => .ok (value :: stack)
  | .sign sign =>
      match stack with
      | operand :: rest => .ok (sign.apply operand :: rest)
      | [] => .error .malformedExpression
  | .op op =>
      match stack with
      | right :: left :: rest => do return (← op.apply left right) :: rest
      | _ => .error .malformedExpression
  | .openParen | .closeParen => .error .unexpectedClosing

def value (tokens : List Token) : Except Fault Rat := do
  match ← tokens.foldlM step [] with
  | [value] => .ok value
  | _ => .error .malformedExpression

end PocketCalc.Postfix
