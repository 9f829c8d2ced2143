import PocketCalc.Expression.Percent
import PocketCalc.Postfix.Conversion
import PocketCalc.Postfix.Value
import PocketCalc.Text.Pattern
import PocketCalc.Token.Lexeme

/-! Evaluation of an arithmetic line.

The value is exact until the end. It must be in range before it is rounded, and
its text is the text of the rounded value.
-/

set_option autoImplicit false

namespace PocketCalc.Expression

/-- The key labels for product and quotient stand for their symbols. -/
def plainChar : Char → Char
  | '×' => '*'
  | '÷' => '/'
  | c => c

def isAllowed (c : Char) : Bool :=
  c.isDigit || ['+', '-', '*', '/', '(', ')', '.', ' ', '%'].contains c

/-- The allowed characters once more, as a class of their own. -/
def allowedRanges : List (Char × Char) :=
  [('0', '9'), ('+', '+'), ('-', '-'), ('*', '*'), ('/', '/'), ('(', '('), (')', ')'), ('.', '.'),
   (' ', ' '), ('%', '%')]

def allowedPattern : Text.Pattern := [.plus (Text.inRanges allowedRanges), .finish]

/-- The text in plain symbols, if all of it fits the pattern. -/
def plainText (text : List Char) : Except Fault (List Char) :=
  let plain := text.map plainChar
  if allowedPattern.fits plain then .ok plain
  else match plain.find? (!isAllowed ·) with
    | some c => .error (.forbiddenChar c)
    | none => .error .emptyExpression

def exactValue (text : List Char) : Except Fault Rat := do
  let plain ← plainText text
  let tokens ← Token.ofText (Percent.expand plain)
  Postfix.value (← Postfix.ofTokens tokens)

structure Answer where
  /-- Rounded to `Decimal.precision` places. -/
  value : Rat
  text : List Char
  deriving DecidableEq, Repr

def evaluate (text : List Char) : Except Fault Answer := do
  let value ← exactValue text
  if Decimal.InRange value then
    return ⟨Decimal.round value Decimal.precision, Decimal.answerText value⟩
  else .error .notFinite

end PocketCalc.Expression
