import PocketCalc.Proofs.Session.Answer
import PocketCalc.Proofs.Session.Arithmetic
import PocketCalc.Proofs.Session.Typing

/-! Calculations that go on with the result of the one before.

The result is carried as text, and the text is that of the rounded value
(`Decimal.exists_operand_answerText`). So each round calculates with the
rounded value and nothing is lost or gained in between (`Session.run_rounds`).
-/

set_option autoImplicit false

namespace PocketCalc

open Decimal

/-- An operator, a number typed key by key, and the evaluation. -/
structure Round where
  op : Operator
  keys : List Command
  types : ∀ key ∈ keys, ∃ c ∈ key.char?, IsLiteralChar c
  nonempty : keys ≠ []
  short : (Literal.ofKeys (keys.filterMap Command.char?)).fractionDigits.length < UInt32.size

namespace Round

def commands (round : Round) : List Command := .operator round.op :: (round.keys ++ [.equals])

def literal (round : Round) : Literal := .ofKeys (round.keys.filterMap Command.char?)

/-- The value of the round, exact, after one of this value. -/
def value (before : Rat) (round : Round) : Rat :=
  round.op.calculate (Decimal.round before 12) round.literal.number

def Fails (before : Rat) (round : Round) : Prop :=
  (round.op = .div ∧ round.literal.number = 0) ∨ 2 ^ 1024 - 2 ^ 971 < |round.value before|

instance (before : Rat) (round : Round) : Decidable (round.Fails before) :=
  inferInstanceAs (Decidable (_ ∨ _))

def Safe (before : Rat) : List Round → Prop
  | [] => True
  | next :: later => ¬ next.Fails before ∧ Safe (next.value before) later

def operand (next : Round) : Operand :=
  .decimal next.literal.plain (Literal.digits_plain (Literal.digits_ofKeys _))
    (Literal.withoutZeros_ne_nil _) next.short

theorem text_operand_ne_nil (next : Round) : next.operand.text ≠ [] :=
  Literal.text_ne_nil (Literal.wellFormed_plain (Literal.digits_ofKeys _))

theorem value_operand (next : Round) : next.operand.value = next.literal.number :=
  Literal.number_plain next.literal

theorem typedText_literal (next : Round) : next.literal.typedText = next.operand.text := by
  obtain ⟨key, member⟩ := List.exists_mem_of_ne_nil _ next.nonempty
  obtain ⟨c, found, literal⟩ := next.types key member
  exact Literal.typedText_ofKeys (List.mem_filterMap.mpr ⟨key, member, found⟩) literal

end Round

theorem exists_operand_answerText (value : Rat) :
    ∃ (negative : Bool) (operand : Operand),
      answerText value = (if negative then ['-'] else []) ++ operand.text ∧
      (if negative then -operand.value else operand.value) = Decimal.round value 12 := by
  have small : precision < UInt32.size := by decide
  obtain ⟨literal, canonical, number, short, same⟩ := exists_literal_text (units value precision) small
  have signed := signed_natAbs (units value precision) precision
  rw [← number, ← round_eq value small] at signed
  refine ⟨decide (units value precision < 0), .decimal literal canonical.digits canonical.whole
    (short.trans_lt small), ?_, ?_⟩
  · simp only [decide_eq_true_eq]
    exact same
  · simp only [decide_eq_true_eq]
    exact signed

namespace Round

def expression (before : Rat) (next : Round) : List Char :=
  answerText before ++ next.op.symbol :: next.operand.text

theorem exactValue_expression (before : Rat) (next : Round) :
    Expression.exactValue (next.expression before) =
      if next.op = .div ∧ next.literal.number = 0 then .error .divisionByZero
      else .ok (next.value before) := by
  obtain ⟨negative, operand, text, number⟩ := exists_operand_answerText before
  have exact := exactValue_operands ⟨negative, operand, [(next.op, next.operand)]⟩
  have whole : (Line.map Operand.text ⟨negative, operand, [(next.op, next.operand)]⟩).text =
      next.expression before := by
    rw [expression, text, List.append_assoc]
    simp [Line.text, Line.join, Line.map, Operator.symbol]
  have value : (Line.map Operand.value ⟨negative, operand, [(next.op, next.operand)]⟩).value =
      next.value before := by
    rw [Round.value, ← number, ← next.value_operand]
    cases same : next.op <;> simp [Line.map, Line.value, Line.combine, Operator.isSum]
  have divides : (.div, 0) ∈ (Line.map Operand.value ⟨negative, operand, [(next.op, next.operand)]⟩).rest ↔
      next.op = .div ∧ next.literal.number = 0 := by
    simp [Line.map, value_operand, eq_comm]
  rw [whole, value] at exact
  simpa only [divides] using exact

theorem evaluate_of_fails {before : Rat} {next : Round} (fails : next.Fails before) :
    ∃ fault, Expression.evaluate (next.expression before) = .error fault := by
  have exact := next.exactValue_expression before
  by_cases zero : next.op = .div ∧ next.literal.number = 0
  · rw [if_pos zero] at exact
    exact ⟨_, Expression.evaluate_of_error exact⟩
  · rw [if_neg zero] at exact
    have outside : ¬ InRange (next.value before) := by
      rw [inRange_iff, largest_eq, not_le]
      exact fails.resolve_left zero
    exact ⟨_, (Expression.evaluate_of_exactValue exact).trans (if_neg outside)⟩

theorem evaluate_of_not_fails {before : Rat} {next : Round} (safe : ¬ next.Fails before) :
    Expression.evaluate (next.expression before) =
      .ok ⟨Decimal.round (next.value before) precision, answerText (next.value before)⟩ := by
  obtain ⟨nonzero, inside⟩ := not_or.mp safe
  have exact := next.exactValue_expression before
  rw [if_neg nonzero] at exact
  rw [← largest_eq, not_lt] at inside
  exact (Expression.evaluate_of_exactValue exact).trans (if_pos (inRange_iff.mpr inside))

end Round

namespace Session

theorem run_round (before : Rat) (shown : Option (List Char)) (next : Round) :
    run { result := some (answerText before), expression := shown } next.commands =
      conclude (next.expression before) (Expression.evaluate (next.expression before)) := by
  have nonempty := next.text_operand_ne_nil
  have types : ∀ key ∈ next.keys, key.char? ≠ none := fun key member => by
    obtain ⟨c, found, _⟩ := next.types key member
    exact Option.ne_none_iff_exists'.mpr ⟨c, found⟩
  have typed : run { committed := answerText before ++ [next.op.symbol] } next.keys =
      { entry := next.operand.text, committed := answerText before ++ [next.op.symbol] } := by
    have keyed := run_of_types (s := { committed := answerText before ++ [next.op.symbol] }) rfl types
    have text := next.typedText_literal
    rw [Round.literal] at text
    rw [keyed, text, enter_of_ne_nil nonempty]
    rfl
  have pending : ({ entry := next.operand.text, committed := answerText before ++ [next.op.symbol] } :
      Session).pending? = some (next.expression before) := by
    simp [pending?, nonempty, Round.expression]
  -- The operator takes over the result, the keys enter the operand behind it.
  calc run { result := some (answerText before), expression := shown } next.commands
      = run { committed := answerText before ++ [next.op.symbol] } (next.keys ++ [.equals]) := rfl
    _ = ({ entry := next.operand.text, committed := answerText before ++ [next.op.symbol] } :
          Session).apply .equals := by rw [run_append, typed]; rfl
    _ = _ := apply_equals_of_pending? pending

/-! ## Rounds -/

/-- The value after some rounds, each of which calculates with the rounded value before it. -/
def chained (before : Rat) (rounds : List Round) : Rat := rounds.foldl Round.value before

theorem run_rounds {before : Rat} {rounds : List Round} (safe : Round.Safe before rounds)
    (shown : List Char) :
    ∃ expression, run { result := some (answerText before), expression := some shown }
        (rounds.flatMap Round.commands) =
      { result := some (answerText (chained before rounds)), expression := some expression } := by
  induction rounds generalizing before shown with
  | nil => exact ⟨shown, rfl⟩
  | cons next later ih =>
      obtain ⟨first, safe⟩ := safe
      obtain ⟨expression, rest⟩ := ih safe (next.expression before)
      refine ⟨expression, ?_⟩
      -- A round that does not fail ends in a result again, with which the later ones go on.
      rw [List.flatMap_cons, run_append, run_round, Round.evaluate_of_not_fails first]
      exact rest

/-- Rounds behind a shown result calculate with its rounded value, each with that of the
round before. The first one that divides by zero, or whose value is out of range, fails. -/
theorem chain_of_result {before : List Command} (shown : (run {} before).phase = .result) :
    ∃ expression answer, Expression.evaluate expression = .ok answer ∧
      run {} before = { result := some answer.text, expression := some expression } ∧
      ∀ rounds : List Round, Round.Safe answer.value rounds →
        ((run {} before).run (rounds.flatMap Round.commands)).phase = .result ∧
        ((run {} before).run (rounds.flatMap Round.commands)).result =
          some (answerText (chained answer.value rounds)) ∧
        ∀ last : Round, last.Fails (chained answer.value rounds) →
          (run {} before).run ((rounds ++ [last]).flatMap Round.commands) = { failed := true } := by
  obtain ⟨expression, answer, evaluated, same⟩ := (answered_run before).exists_answer shown
  have text : answer.text = answerText answer.value := by
    obtain ⟨value, _, _, rfl⟩ := Expression.exists_of_evaluate evaluated
    exact (answerText_round value).symm
  refine ⟨expression, answer, evaluated, same, fun rounds safe => ?_⟩
  obtain ⟨latest, ran⟩ := run_rounds safe expression
  rw [same, text, ran]
  refine ⟨rfl, rfl, fun last fails => ?_⟩
  obtain ⟨fault, failed⟩ := Round.evaluate_of_fails fails
  rw [List.flatMap_append, run_append, ran, List.flatMap_singleton, run_round, failed]
  rfl

/-- Minus one, a third of it, and three times that third as it is shown; then a division by zero. -/
theorem chain_of_minus_one :
    (run {} [.digit '2', .operator .sub, .digit '3', .equals]).phase = .result ∧
      (run {} [.digit '2', .operator .sub, .digit '3', .equals, .operator .div, .digit '3', .equals,
          .operator .mul, .digit '3', .equals]).result =
        some ['-', '0', '.', '9', '9', '9', '9', '9', '9', '9', '9', '9', '9', '9', '9'] ∧
      run {} [.digit '2', .operator .sub, .digit '3', .equals, .operator .div, .digit '3', .equals,
          .operator .mul, .digit '3', .equals, .operator .div, .point, .digit '0', .equals] =
        { failed := true } := by
  have shown : (run {} [.digit '2', .operator .sub, .digit '3', .equals]).phase = .result := by
    decide +kernel
  let third : Round := ⟨.div, [.digit '3'], by simp [Command.char?, IsLiteralChar], by simp, by decide⟩
  let thrice : Round := ⟨.mul, [.digit '3'], by simp [Command.char?, IsLiteralChar], by simp, by decide⟩
  let zero : Round :=
    ⟨.div, [.point, .digit '0'], by simp [Command.char?, IsLiteralChar], by simp, by decide⟩
  obtain ⟨expression, answer, evaluated, same, rounds⟩ := chain_of_result shown
  have evaluation : Expression.evaluate ['2', '-', '3'] = .ok ⟨-1, ['-', '1']⟩ := by decide +kernel
  have ended : run {} [.digit '2', .operator .sub, .digit '3', .equals] =
      { result := some ['-', '1'], expression := some ['2', '-', '3'] } := by decide +kernel
  rw [ended] at same
  cases congrArg Session.expression same
  rw [evaluation] at evaluated
  cases evaluated
  have safe : Round.Safe (-1) [third, thrice] := ⟨by decide +kernel, by decide +kernel, trivial⟩
  obtain ⟨_, result, fails⟩ := rounds [third, thrice] safe
  have text : answerText (chained (-1) [third, thrice]) =
      ['-', '0', '.', '9', '9', '9', '9', '9', '9', '9', '9', '9', '9', '9', '9'] := by decide +kernel
  exact ⟨shown, result.trans (congrArg some text), fails zero (by decide +kernel)⟩

end Session

end PocketCalc
