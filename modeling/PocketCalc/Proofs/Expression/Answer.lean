import PocketCalc.Proofs.Expression.Line

/-! The text of an answer is an expression with the same answer. -/

set_option autoImplicit false

namespace PocketCalc.Expression

open Decimal

theorem exactValue_of_literal {literal : Literal} (wellFormed : literal.WellFormed)
    (short : literal.fractionDigits.length < UInt32.size) (negative : Bool) :
    exactValue ((if negative then ['-'] else []) ++ literal.text) =
      .ok (if negative then -literal.number else literal.number) := by
  have literals := fun c => Literal.isLiteralChar_of_mem_text wellFormed.digits (c := c)
  have read : Token.ofText (Percent.expand literal.text) = .ok [.num literal.number] := by
    rw [Percent.expand_literal wellFormed.digits]
    exact Token.ofText_number wellFormed short
  have evaluated (line : Line Literal) (single : line.operands = [literal]) (tree : Tree)
      (reads : Tree.Reads 0 (line.map fun literal => [.num literal.number]).tokens tree) :
      exactValue (line.map Literal.text).text = tree.value :=
    Line.exactValue_text
      (by simpa only [single, List.forall_mem_singleton] using fun c member => .inl (literals c member))
      (by simpa only [single, List.forall_mem_singleton] using read) reads
  have evaluated := evaluated ⟨negative, literal, []⟩ rfl
  simp only [Line.text, Line.tokens, Line.join, Line.map, List.map_nil, Line.tail_nil,
    List.append_nil] at evaluated
  cases negative with
  | false => exact evaluated (.num literal.number) (.lift (.lift (.num _)))
  | true => exact evaluated (.sign .minus (.num literal.number)) (.lift (.lift (.signed rfl (.num _))))

theorem exactValue_text (count : Int) {places : Nat} (small : places < UInt32.size) :
    exactValue (text count places) = .ok (count / 10 ^ places) := by
  obtain ⟨literal, canonical, number, short, same⟩ := exists_literal_text count small
  have read := exactValue_of_literal canonical.wellFormed (short.trans_lt small) (decide (count < 0))
  simp only [decide_eq_true_eq] at read
  rw [same, read, number, signed_natAbs]

theorem exactValue_answerText (value : Rat) :
    exactValue (answerText value) = .ok (round value precision) := by
  have small : precision < UInt32.size := by decide
  rw [round_eq value small]
  exact exactValue_text (units value precision) small

/-- The text of an answer is read back as the same answer. -/
theorem evaluate_text_of_evaluate {text : List Char} {answer : Answer}
    (evaluated : evaluate text = .ok answer) :
    evaluate answer.text = .ok answer ∧ IsText answer.text answer.value := by
  obtain ⟨value, _, inRange, rfl⟩ := exists_of_evaluate evaluated
  refine ⟨?_, isText_answerText value⟩
  have small : precision < UInt32.size := by decide
  have read := exactValue_text (units value precision) small
  rw [← round_eq value small] at read
  -- The rounded value counts its own units, so a second rounding finds the same count.
  have again : units (round value precision) precision = units value precision := by
    rw [round_eq value small, units_div _ small]
  change evaluate (Decimal.text (units value precision) precision) = _
  rw [evaluate_of_exactValue read, if_pos (inRange_round small inRange), round_eq _ small,
    answerText, again, ← round_eq value small, answerText]

theorem evaluate_text_of_negative_quotient :
    evaluate ['-', '2', '/', '3'] =
        .ok ⟨-666666666667 / 10 ^ 12,
          ['-', '0', '.', '6', '6', '6', '6', '6', '6', '6', '6', '6', '6', '6', '7']⟩ ∧
      evaluate ['-', '0', '.', '6', '6', '6', '6', '6', '6', '6', '6', '6', '6', '6', '7'] =
        .ok ⟨-666666666667 / 10 ^ 12,
          ['-', '0', '.', '6', '6', '6', '6', '6', '6', '6', '6', '6', '6', '6', '7']⟩ := by
  have evaluated : evaluate ['-', '2', '/', '3'] =
      .ok ⟨-666666666667 / 10 ^ 12,
        ['-', '0', '.', '6', '6', '6', '6', '6', '6', '6', '6', '6', '6', '6', '7']⟩ := by
    decide +kernel
  exact ⟨evaluated, (evaluate_text_of_evaluate evaluated).1⟩

end PocketCalc.Expression
