import PocketCalc.Decimal.Literal
import PocketCalc.Text.Blank
import PocketCalc.Token

/-! Text cut into lexemes, and the tokens they stand for.

Every text is cut, and its lexemes put together give the text again
(`Lexeme.flatMap_text_ofText`). A literal extends as far as it can. What is
wrong with a lexeme shows when its tokens are asked for.
-/

set_option autoImplicit false

namespace PocketCalc

inductive Lexeme where
  | blank (c : Char)
  | symbol (token : Token)
  | literal (number : Decimal.Literal)
  | stray (c : Char)
  deriving DecidableEq, Repr

namespace Lexeme

def text : Lexeme → List Char
  | blank c => [c]
  | symbol token => token.text
  | literal number => number.text
  | stray c => [c]

def ofChar (c : Char) : Lexeme :=
  if Text.isBlank c then blank c
  else match Token.ofSymbol? c with
    | some token => symbol token
    | none => stray c

@[simp] theorem text_ofChar (c : Char) : (ofChar c).text = [c] := by
  unfold ofChar
  split
  · rfl
  · split
    · next token found => exact Token.text_of_ofSymbol? found
    · rfl

def ofText : List Char → List Lexeme
  | [] => []
  | c :: rest =>
      if _ : c.isDigit = true ∨ c = '.' then
        literal (Decimal.Literal.split (c :: rest)).1 ::
          ofText (Decimal.Literal.split (c :: rest)).2
      else ofChar c :: ofText rest
termination_by text => text.length
decreasing_by
  · exact Decimal.Literal.split_shorter ‹c.isDigit = true ∨ c = '.'› rest
  · exact Nat.lt_succ_self _

@[simp] theorem ofText_nil : ofText [] = [] := by rw [ofText]

theorem ofText_of_literal {c : Char} (start : c.isDigit = true ∨ c = '.') (rest : List Char) :
    ofText (c :: rest) =
      literal (Decimal.Literal.split (c :: rest)).1 ::
        ofText (Decimal.Literal.split (c :: rest)).2 := by
  rw [ofText, dif_pos start]

theorem ofText_of_char {c : Char} (other : ¬ (c.isDigit = true ∨ c = '.')) (rest : List Char) :
    ofText (c :: rest) = ofChar c :: ofText rest := by
  rw [ofText, dif_neg other]

theorem flatMap_text_ofText (text : List Char) : (ofText text).flatMap Lexeme.text = text := by
  fun_induction ofText text with
  | case1 => rfl
  | case2 c rest start rest_eq =>
      rw [List.flatMap_cons, rest_eq]
      exact Decimal.Literal.text_split (c :: rest)
  | case3 c rest start rest_eq => simp [rest_eq]

/-- At most one token; none for a blank. -/
def tokens : Lexeme → Except Fault (List Token)
  | blank _ => .ok []
  | symbol token => .ok [token]
  | literal number => do return [.num (← number.value)]
  | stray c => .error (.forbiddenChar c)

end Lexeme

/-- The tokens of a text, or what is wrong with its first faulty lexeme. -/
def Token.ofText (text : List Char) : Except Fault (List Token) := do
  return (← (Lexeme.ofText text).mapM Lexeme.tokens).flatten

end PocketCalc
