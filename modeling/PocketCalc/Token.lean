import PocketCalc.Decimal.Text
import PocketCalc.Operation

/-! Tokens of an arithmetic line, in the order written or in postfix order. -/

set_option autoImplicit false

namespace PocketCalc

inductive Token where
  | num (value : Rat)
  | op (op : BinaryOp)
  /-- A sign in postfix order. A written sign is still an `op`. -/
  | sign (sign : Sign)
  | openParen
  | closeParen
  deriving DecidableEq, Repr

namespace Token

def ofSymbol? : Char → Option Token
  | '+' => some (.op .add)
  | '-' => some (.op .sub)
  | '*' => some (.op .mul)
  | '/' => some (.op .div)
  | '%' => some (.op .rem)
  | '(' => some .openParen
  | ')' => some .closeParen
  | _ => none

/-- A whole number is written without its denominator. -/
def text : Token → List Char
  | num value =>
      if value.den = 1 then Decimal.text value.num 0
      else Decimal.text value.num 0 ++ '/' :: Nat.toDigits 10 value.den
  | op .add => ['+']
  | op .sub => ['-']
  | op .mul => ['*']
  | op .div => ['/']
  | op .rem => ['%']
  | sign .minus => ['n', 'e', 'g']
  | sign .plus => ['p', 'o', 's']
  | openParen => ['(']
  | closeParen => [')']

/-- Tokens parted by single spaces. -/
def listText (tokens : List Token) : List Char := [' '].intercalate (tokens.map text)

theorem text_of_ofSymbol? {c : Char} {token : Token} (found : ofSymbol? c = some token) :
    token.text = [c] := by
  unfold ofSymbol? at found
  split at found <;> simp_all <;> subst token <;> rfl

end Token

end PocketCalc
