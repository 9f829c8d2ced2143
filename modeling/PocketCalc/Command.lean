/-! Commands of the calculator, and the text typed for them. -/

set_option autoImplicit false

namespace PocketCalc

inductive Operator where
  | add
  | sub
  | mul
  | div
  deriving DecidableEq, Repr

namespace Operator

def symbol : Operator → Char
  | add => '+'
  | sub => '-'
  | mul => '*'
  | div => '/'

/-- The character on the key. -/
def label : Operator → Char
  | add => '+'
  | sub => '−'
  | mul => '×'
  | div => '÷'

/-- The signs for product and quotient are read as well as their symbols; the
minus sign of the key label is not. -/
def ofChar? : Char → Option Operator
  | '+' => some add
  | '-' => some sub
  | '*' | '×' => some mul
  | '/' | '÷' => some div
  | _ => none

theorem ofChar?_symbol (op : Operator) : ofChar? op.symbol = some op := by
  cases op <;> rfl

end Operator

inductive Command where
  /-- Any character may be sent; digits and the point are the ones that act. -/
  | digit (c : Char)
  | point
  | operator (op : Operator)
  /-- A percent sign behind the operand being entered. -/
  | percent
  | clear
  | backspace
  | equals
  deriving DecidableEq, Repr

namespace Command

def ofChar? (c : Char) : Option Command :=
  if c.isDigit then some (digit c)
  else match c with
    | '.' => some point
    | '%' => some percent
    | '=' => some equals
    | _ => (Operator.ofChar? c).map operator

def ofText? : List Char → Option Command
  | [c] => ofChar? c
  | _ => none

end Command

end PocketCalc
