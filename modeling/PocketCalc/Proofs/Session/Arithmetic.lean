import PocketCalc.Proofs.Expression.Precedence
import PocketCalc.Session

/-! The arithmetic of a session: what evaluation makes of decimals and percentages. -/

set_option autoImplicit false

namespace PocketCalc

open Decimal

/-- An entered operand that has a value by itself. -/
inductive Operand where
  | decimal (literal : Literal) (digits : ∀ c ∈ literal.whole ++ literal.fractionDigits, c.isDigit = true)
      (starts : literal.whole ≠ []) (short : literal.fractionDigits.length < UInt32.size)
  | percent (digits : List Char) (all : ∀ c ∈ digits, c.isDigit = true) (nonempty : digits ≠ [])

namespace Operand

def text : Operand → List Char
  | decimal literal _ _ _ => literal.text
  | percent digits _ _ => digits ++ ['%']

def value : Operand → Rat
  | decimal literal _ _ _ => literal.number
  | percent digits _ _ => Nat.ofDigitChars 10 digits 0 / 100

def tokens : Operand → List Token
  | decimal literal _ _ _ => [.num literal.number]
  | percent digits _ _ =>
      [.openParen, .num (Nat.ofDigitChars 10 digits 0), .op .div, .num 100, .closeParen]

def tree : Operand → Tree
  | decimal literal _ _ _ => .num literal.number
  | percent digits _ _ => .op .div (.num (Nat.ofDigitChars 10 digits 0)) (.num 100)

theorem isOperandChar_of_mem_text {operand : Operand} {c : Char} (member : c ∈ operand.text) :
    Line.IsOperandChar c := by
  cases operand with
  | decimal literal digits _ _ => exact .inl (Literal.isLiteralChar_of_mem_text digits member)
  | percent digits all _ =>
      rcases List.mem_append.mp member with digit | sign
      · exact .inl (.inl (all c digit))
      · exact .inr (List.mem_singleton.mp sign)

theorem ofText_expand (operand : Operand) :
    Token.ofText (Percent.expand operand.text) = .ok operand.tokens := by
  cases operand with
  | decimal literal digits starts short =>
      have wellFormed : literal.WellFormed :=
        ⟨digits, fun none => starts (List.append_eq_nil_iff.mp none).1⟩
      rw [text, Percent.expand_literal digits]
      exact Token.ofText_number wellFormed short
  | percent digits all nonempty =>
      have sign : Percent.sign? ['%'] = some [] := by decide
      rw [text, Percent.expand_percent nonempty all sign, Percent.expand_nil, List.append_nil]
      exact Percent.ofText_hundredths nonempty all

theorem reads (operand : Operand) : Tree.Reads 2 operand.tokens operand.tree := by
  cases operand with
  | decimal literal _ _ _ => exact .num literal.number
  | percent digits _ _ => exact Tree.reads_hundredth (Nat.ofDigitChars 10 digits 0)

theorem value_tree (operand : Operand) : operand.tree.value = .ok operand.value := by
  cases operand with
  | decimal _ _ _ _ => rfl
  | percent digits _ _ => exact (Tree.Denotes.div (.num _) (.num 100) (by decide)).value_eq

end Operand

theorem exactValue_operands (line : Line Operand) :
    Expression.exactValue (line.map Operand.text).text =
      if (.div, 0) ∈ (line.map Operand.value).rest then .error .divisionByZero
      else .ok (line.map Operand.value).value := by
  rw [Line.exactValue_text (fun operand _ c => Operand.isOperandChar_of_mem_text)
    (fun operand _ => operand.ofText_expand) (Line.reads_tree fun operand _ => operand.reads)]
  exact Line.value_tree fun operand _ => operand.value_tree

namespace Session

/-- Evaluation fails on a division by a zero operand and on a value out of range.
Otherwise it shows the value of the operands. -/
theorem equals_of_operands {s : Session} {line : Line Operand}
    (pending : s.pending? = some (line.map Operand.text).text) :
    s.step? .equals = some
      (if (.div, 0) ∈ (line.map Operand.value).rest ∨
          2 ^ 1024 - 2 ^ 971 < |(line.map Operand.value).value| then { failed := true }
        else
          { result := some (answerText (line.map Operand.value).value)
            expression := s.pending? }) := by
  have exact := exactValue_operands line
  rw [step?_equals_of_pending? pending, ← largest_eq, pending]
  congr 1
  by_cases zero : (.div, 0) ∈ (line.map Operand.value).rest
  · rw [if_pos zero] at exact
    rw [if_pos (.inl zero), Expression.evaluate_of_error exact]
    rfl
  · rw [if_neg zero] at exact
    rw [Expression.evaluate_of_exactValue exact]
    by_cases inRange : InRange (line.map Operand.value).value
    · rw [if_pos inRange, if_neg fun outside => outside.elim zero (inRange_iff.mp inRange).not_gt]
      rfl
    · rw [if_neg inRange, if_pos (.inr (not_le.mp fun bounded => inRange (inRange_iff.mpr bounded)))]
      rfl

/-- The keys 8 - 20 % × 5 ask for eight less one. -/
theorem equals_of_percent_product :
    (run {} [.digit '8', .operator .sub, .digit '2', .digit '0', .percent, .operator .mul,
        .digit '5']).step? .equals =
      some { result := some ['7'], expression := some ['8', '-', '2', '0', '%', '*', '5'] } := by
  let line : Line Operand :=
    ⟨false, .decimal ⟨['8'], none⟩ (by simp [Literal.fractionDigits]) (by decide) (by decide),
      [(.sub, .percent ['2', '0'] (by simp) (by decide)),
        (.mul, .decimal ⟨['5'], none⟩ (by simp [Literal.fractionDigits]) (by decide) (by decide))]⟩
  have pending : (run {} [.digit '8', .operator .sub, .digit '2', .digit '0', .percent,
      .operator .mul, .digit '5']).pending? = some (line.map Operand.text).text := by decide
  rw [equals_of_operands pending]
  decide +kernel

end Session

end PocketCalc
