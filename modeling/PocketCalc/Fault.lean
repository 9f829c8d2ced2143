/-! Why an expression has no answer, and the wording shown for each cause. -/

set_option autoImplicit false

namespace PocketCalc

inductive Fault where
  | emptyExpression
  /-- The first character outside the allowed ones. -/
  | forbiddenChar (c : Char)
  /-- A literal without a digit. -/
  | malformedNumber (literal : List Char)
  | unclosedParen
  | unexpectedClosing
  | malformedExpression
  | divisionByZero
  /-- A magnitude out of range, or a remainder by zero. -/
  | notFinite
  deriving DecidableEq, Repr

def Fault.message : Fault → String
  | .emptyExpression => "expression vide"
  | .forbiddenChar c => "caractère interdit: '" ++ String.singleton c ++ "'"
  | .malformedNumber literal => "nombre invalide: " ++ String.ofList literal
  | .unclosedParen => "parenthèses non fermées"
  | .unexpectedClosing => "parenthèse fermante inattendue"
  | .malformedExpression => "expression invalide"
  | .divisionByZero => "division par zéro"
  | .notFinite => "résultat non fini"

end PocketCalc
