import PocketCalc.Proofs.Session.Shape
import PocketCalc.Session.Display

/-! Where a result comes from.

A step keeps the result with the expression beside it, drops it, or evaluates
(`Session.outcome_of_step?`). So a result is the text of the answer to the
expression kept beside it (`Session.answered_run`), an equation that is shown holds
(`Session.display_run`), and a result is in range (`Session.inRange_run`).
-/

set_option autoImplicit false

namespace PocketCalc.Session

theorem outcome_of_step? {s next : Session} {command : Command} (effect : s.step? command = some next) :
    (next.result = s.result ∧ next.expression = s.expression) ∨ next.result = none ∨
      ∃ expression, next = conclude expression (Expression.evaluate expression) := by
  have typed {c : Char} (effect : (Action.type c).next? s = some next) :
      (next.result = s.result ∧ next.expression = s.expression) ∨ next.result = none := by
    obtain ⟨operand, _, _, _, rfl⟩ | ⟨_, _, _, _, rfl⟩ := type_cases effect
    · exact .inr rfl
    · exact .inl ⟨rfl, rfl⟩
  cases command with
  | digit c => exact (typed effect).imp_right .inl
  | point => exact (typed effect).imp_right .inl
  | operator op =>
      obtain ⟨_, rfl⟩ | ⟨_, _, _, rfl⟩ | ⟨_, _, _, _, rfl⟩ := operator_cases effect
      · exact .inl ⟨rfl, rfl⟩
      · exact .inl ⟨rfl, rfl⟩
      · exact .inr (.inl rfl)
  | percent =>
      obtain ⟨_, rfl⟩ := percent_cases effect
      exact .inl ⟨rfl, rfl⟩
  | clear =>
      obtain ⟨_, rfl⟩ := clear_cases effect
      exact .inr (.inl rfl)
  | backspace =>
      obtain ⟨_, rfl⟩ := backspace_cases effect
      exact .inl ⟨rfl, rfl⟩
  | equals =>
      obtain ⟨expression, _, rfl⟩ := equals_cases effect
      exact .inr (.inr ⟨expression, rfl⟩)

/-- A result is the text of the answer to the expression beside it. -/
def Answered (s : Session) : Prop :=
  ∀ text ∈ s.result, ∃ expression answer,
    s.expression = some expression ∧ Expression.evaluate expression = .ok answer ∧ text = answer.text

namespace Answered

theorem initial : Answered {} := by
  intro text shown
  cases shown

theorem conclude (expression : List Char) :
    (conclude expression (Expression.evaluate expression)).Answered := by
  cases outcome : Expression.evaluate expression with
  | error fault => exact fun text shown => nomatch shown
  | ok answer =>
      intro text shown
      cases shown
      exact ⟨expression, answer, rfl, outcome, rfl⟩

theorem step {s next : Session} {command : Command} (answered : s.Answered)
    (effect : s.step? command = some next) : next.Answered := by
  rcases outcome_of_step? effect with ⟨result, kept⟩ | dropped | ⟨expression, rfl⟩
  · rw [Answered, result, kept]
    exact answered
  · intro text shown
    rw [dropped] at shown
    cases shown
  · exact conclude expression

end Answered

theorem answered_run (commands : List Command) : (run {} commands).Answered :=
  run_preserves Answered.step Answered.initial commands

theorem Answered.exists_answer {s : Session} (answered : s.Answered) (shown : s.phase = .result) :
    ∃ expression answer, Expression.evaluate expression = .ok answer ∧
      s = { result := some answer.text, expression := some expression } := by
  obtain ⟨failed, entry, committed, some⟩ := phase_eq_result_iff.mp shown
  obtain ⟨text, result⟩ := Option.isSome_iff_exists.mp some
  obtain ⟨expression, answer, kept, evaluated, rfl⟩ := answered text result
  refine ⟨expression, answer, evaluated, ?_⟩
  obtain ⟨_, _, _, _, _⟩ := s
  cases failed
  cases entry
  cases committed
  cases result
  cases kept
  rfl

/-! ## The number a result is the text of -/

/-- Rounding stays in range, although the range is tested before it. So an answer is in range,
and so is the number of a result that a session keeps. -/
theorem inRange_run :
    (∀ (value : Rat) (places : Nat), places < UInt32.size → Decimal.InRange value →
      Decimal.InRange (Decimal.round value places)) ∧
    (∀ (text : List Char) (answer : Expression.Answer), Expression.evaluate text = .ok answer →
      Decimal.InRange answer.value) ∧
    ∀ (commands : List Command), ∀ text ∈ (run {} commands).result,
      ∃ value, Decimal.IsText text value ∧ Decimal.InRange value := by
  refine ⟨fun _ _ small inRange => Decimal.inRange_round small inRange,
    fun _ _ evaluated => Expression.inRange_of_evaluate evaluated, fun commands text shown => ?_⟩
  obtain ⟨_, answer, _, evaluated, rfl⟩ := answered_run commands text shown
  exact ⟨answer.value, Expression.isText_of_evaluate evaluated, Expression.inRange_of_evaluate evaluated⟩

/-- A value just inside the range is rounded up to its end, and the keys 7 × 6 = leave the text
of a number in range. -/
theorem inRange_of_rounded_up :
    Decimal.round (Decimal.largest - 4 / 10 ^ 13) 12 = Decimal.largest ∧
      Decimal.InRange (Decimal.round (Decimal.largest - 4 / 10 ^ 13) 12) ∧
      (run {} [.digit '7', .operator .mul, .digit '6', .equals]).result = some ['4', '2'] ∧
      ∃ value, Decimal.IsText ['4', '2'] value ∧ Decimal.InRange value := by
  obtain ⟨rounded, _, shown⟩ := inRange_run
  have result : (run {} [.digit '7', .operator .mul, .digit '6', .equals]).result =
      some ['4', '2'] := by decide +kernel
  exact ⟨by decide +kernel, rounded _ _ (by decide) (by decide +kernel), result,
    shown _ _ (Option.mem_def.mpr result)⟩

/-! ## The lines shown -/

theorem Valid.result_eq_none_of_phase {s : Session} (valid : s.Valid) (other : s.phase ≠ .result) :
    s.result = none ∧ s.expression = none := by
  have none : s.result = .none := by
    by_contra some
    obtain ⟨entry, committed⟩ := valid.idle (.inl some)
    exact other (phase_eq_result_iff.mpr
      ⟨valid.failed_eq_false some, entry, committed, Option.isSome_iff_ne_none.mpr some⟩)
  exact ⟨none, valid.expression_eq_none none⟩

theorem Valid.history_of_no_result {s : Session} (valid : s.Valid) (none : s.result = none) :
    s.display.history = s.committed := by
  unfold display
  split
  · next failed => exact (valid.idle (.inr failed)).2.symm
  · by_cases committed : s.committed = [] <;> simp [historyLine, committed, none]

/-- The equation shown above a result is that of an expression and its answer, and the result
is the text of that answer. A session that shows none holds none, and shows the committed
operands above the others. -/
theorem display_run (commands : List Command) :
    ((run {} commands).phase = .result →
      ∃ expression answer, Expression.evaluate expression = .ok answer ∧
        (run {} commands).expression = some expression ∧
        (run {} commands).result = some answer.text ∧
        (run {} commands).display =
          ⟨expression ++ [' ', '=', ' '] ++ answer.text, answer.text⟩) ∧
      ((run {} commands).phase ≠ .result →
        (run {} commands).result = none ∧ (run {} commands).expression = none ∧
        (run {} commands).display.history = (run {} commands).committed) := by
  constructor
  · intro shown
    obtain ⟨expression, answer, evaluated, same⟩ := (answered_run commands).exists_answer shown
    rw [same]
    exact ⟨expression, answer, evaluated, rfl, rfl, rfl⟩
  · intro other
    have valid := valid_run commands
    obtain ⟨noResult, noExpression⟩ := valid.result_eq_none_of_phase other
    exact ⟨noResult, noExpression, valid.history_of_no_result noResult⟩

/-- The keys 1 - 3 = show the equation 1-3 = -2. The next operator takes the result from under
it, and an operand that is taken back does not bring it back. -/
theorem display_of_chained_difference :
    (run {} [.digit '1', .operator .sub, .digit '3', .equals]).phase = .result ∧
      (run {} [.digit '1', .operator .sub, .digit '3', .equals]).display =
        ⟨['1', '-', '3', ' ', '=', ' ', '-', '2'], ['-', '2']⟩ ∧
      (run {} [.digit '1', .operator .sub, .digit '3', .equals, .operator .mul, .digit '5',
        .backspace]).display.history = ['-', '2', '*'] := by
  have shown : (run {} [.digit '1', .operator .sub, .digit '3', .equals]).phase = .result := by
    decide +kernel
  obtain ⟨expression, answer, _, kept, result, equation⟩ := (display_run _).1 shown
  have ended : run {} [.digit '1', .operator .sub, .digit '3', .equals] =
      { result := some ['-', '2'], expression := some ['1', '-', '3'] } := by decide +kernel
  have isExpression := Option.some.inj (kept.symm.trans (congrArg Session.expression ended))
  have isText := Option.some.inj (result.symm.trans (congrArg Session.result ended))
  have pending : run {} [.digit '1', .operator .sub, .digit '3', .equals, .operator .mul, .digit '5',
      .backspace] = { committed := ['-', '2', '*'] } := by decide +kernel
  have chained := ((display_run [.digit '1', .operator .sub, .digit '3', .equals, .operator .mul,
    .digit '5', .backspace]).2 (by rw [pending]; decide)).2.2
  rw [isExpression, isText] at equation
  rw [pending] at chained
  exact ⟨shown, equation, by rw [pending]; exact chained⟩

end PocketCalc.Session
