import PocketCalc.Proofs.Expression.Fault
import PocketCalc.Proofs.Session.Arithmetic
import PocketCalc.Proofs.Session.Operands

/-! What an evaluation of a session can fail with.

The expression is a line of entered operands, so its characters are allowed and
its parentheses pair. Where no percent sign is entered the operands are
decimals, and then only the value can fail (`Line.Decimals.evaluate_eq_error_iff`).
-/

set_option autoImplicit false

namespace PocketCalc

open Decimal

/-! ## Lines of entered operands -/

namespace Line

/-- Digits in front of the point of each operand. -/
def Decimals (line : Line Literal) : Prop :=
  ∀ literal ∈ line.operands, literal.WellFormed ∧ literal.whole ≠ []

theorem Entered.exists_decimals {line : Line (List Char)} (entered : line.Entered)
    (none : '%' ∉ line.text) : ∃ decimals : Line Literal, decimals.Decimals ∧
      line = decimals.map Literal.text := by
  have each : ∀ operand ∈ line.operands, IsDecimal operand := fun operand member =>
    (entered operand member).isDecimal fun percent => none ((infix_join _ line operand member).mem percent)
  have : Nonempty Literal := ⟨⟨[], Option.none⟩⟩
  choose! literal wellFormed whole same using each
  refine ⟨line.map literal, ?_, ?_⟩
  · rw [Decimals, operands_map]
    exact List.forall_mem_map.mpr fun operand member => ⟨wellFormed operand member, whole operand member⟩
  · calc
      line = line.map id := line.map_id.symm
      _ = line.map (Literal.text ∘ literal) := map_congr same
      _ = (line.map literal).map Literal.text := (map_map _ _ _).symm

theorem Entered.unparenthesized {line : Line (List Char)} (entered : line.Entered) :
    ∀ c ∈ line.text, c ≠ '(' ∧ c ≠ ')' := by
  intro c member
  rcases exists_of_mem_join member with ⟨operand, isOperand, inOperand⟩ | ⟨op, rfl⟩
  · have char := (entered operand isOperand).chars c inOperand
    constructor <;> rintro rfl <;> exact absurd char (by decide)
  · cases op <;> decide

theorem Entered.written {line : Line (List Char)} (entered : line.Entered) :
    ∃ c ∈ line.text, Text.isBlank c = false := by
  have entry := entered line.first List.mem_cons_self
  obtain ⟨first, head, _⟩ := entry.starts
  have inFirst := List.mem_of_mem_head? head
  exact ⟨first, (infix_join _ line line.first List.mem_cons_self).mem inFirst,
    isBlank_of_isOperandChar (entry.chars first inFirst)⟩

theorem Entered.fault {line : Line (List Char)} (entered : line.Entered) {fault : Fault}
    (failed : Expression.evaluate line.text = .error fault) :
    fault = .malformedExpression ∨ fault = .malformedNumber ['.'] ∨ fault = .divisionByZero ∨
      fault = .notFinite := by
  obtain ⟨plain, allowed⟩ := plain_text fun operand member => (entered operand member).chars
  rw [← plain] at allowed
  cases exact : Expression.exactValue line.text with
  | error fault' =>
      rw [Expression.evaluate_of_error exact] at failed
      cases failed
      refine Expression.fault_of_unparenthesized allowed ?_ ?_ exact
      · rw [plain]
        exact entered.unparenthesized
      · rw [plain]
        exact entered.written
  | ok value =>
      rw [Expression.evaluate_of_exactValue exact] at failed
      split at failed <;> cases failed
      exact .inr (.inr (.inr rfl))

/-! ## Decimals -/

theorem Decimals.exactValue {line : Line Literal} (decimals : line.Decimals) :
    Expression.exactValue (line.map Literal.text).text =
      if (.div, 0) ∈ (line.map Literal.reading).rest then .error .divisionByZero
      else .ok (line.map Literal.reading).value := by
  have chars : ∀ literal ∈ line.operands, ∀ c ∈ literal.text, IsLiteralChar c :=
    fun literal member c => Literal.isLiteralChar_of_mem_text (decimals literal member).1.digits
  have each : ∀ literal ∈ line.operands,
      Token.ofText (Percent.expand literal.text) = .ok [.num literal.reading] := by
    intro literal member
    have wellFormed := (decimals literal member).1
    rw [Percent.expand_literal wellFormed.digits, Token.ofText_literal wellFormed,
      Literal.value_eq_reading wellFormed]
    rfl
  have reads : ∀ literal ∈ line.operands,
      Tree.Reads 2 [.num literal.reading] (.num literal.reading) := fun literal _ => .num literal.reading
  rw [exactValue_text (fun literal member c inText => .inl (chars literal member c inText)) each
    (reads_tree reads)]
  exact value_tree fun literal _ => rfl

theorem divides_by_zero_iff {line : Line Literal} :
    (Operator.div, (0 : Rat)) ∈ (line.map Literal.reading).rest ↔
      (.div, 0) ∈ (line.map Literal.number).rest := by
  simp [map, Literal.reading_eq_zero_iff]

theorem map_reading_eq_map_number {line : Line Literal}
    (short : ∀ literal ∈ line.operands, literal.fractionDigits.length < UInt32.size) :
    line.map Literal.reading = line.map Literal.number :=
  map_congr fun literal member => Literal.reading_eq_number (short literal member)

theorem Decimals.evaluate_eq_error_iff {line : Line Literal} (decimals : line.Decimals) {fault : Fault} :
    Expression.evaluate (line.map Literal.text).text = .error fault ↔
      fault = .divisionByZero ∧ (.div, 0) ∈ (line.map Literal.number).rest ∨
        fault = .notFinite ∧ ∃ value, Expression.exactValue (line.map Literal.text).text = .ok value ∧
          2 ^ 1024 - 2 ^ 971 < |value| := by
  have exact := decimals.exactValue
  simp only [divides_by_zero_iff] at exact
  rw [← largest_eq]
  by_cases zero : (.div, 0) ∈ (line.map Literal.number).rest
  · rw [if_pos zero] at exact
    rw [Expression.evaluate_of_error exact, exact]
    simp [zero, eq_comm]
  · rw [if_neg zero] at exact
    rw [Expression.evaluate_of_exactValue exact, exact]
    by_cases inRange : InRange (line.map Literal.reading).value
    · have bounded := inRange_iff.mp inRange
      simp [zero, inRange, bounded]
    · have outside := not_le.mp fun bounded => inRange (inRange_iff.mpr bounded)
      simp [zero, inRange, outside, eq_comm]

end Line

namespace Session

/-! ## Sessions without a percent sign -/

def WithoutPercent (s : Session) : Prop := '%' ∉ s.entry ∧ '%' ∉ s.committed

theorem percent_not_mem_of_isText {text : List Char} {value : Rat} (isText : IsText text value) :
    '%' ∉ text := by
  obtain ⟨literal, canonical, _, rfl⟩ := isText
  intro member
  rcases List.mem_append.mp member with sign | digit
  · split at sign <;> simp at sign
  · exact absurd (Literal.isLiteralChar_of_mem_text canonical.digits digit) (by decide)

namespace WithoutPercent

variable {s next : Session}

theorem type (without : s.WithoutPercent) {c : Char} (effect : (Action.type c).next? s = some next) :
    next.WithoutPercent := by
  rcases type_cases effect with ⟨operand, kind, _, _, rfl⟩ | ⟨_, literal, _, _, rfl⟩
  · refine ⟨?_, without.2⟩
    rcases kind with rfl | ⟨rfl, digit⟩
    · simp [Session.start]
    · intro member
      rw [← List.mem_singleton.mp member] at digit
      cases digit
  · refine ⟨fun member => ?_, without.2⟩
    rcases List.mem_append.mp member with before | last
    · exact without.1 before
    · rw [← List.mem_singleton.mp last] at literal
      exact absurd literal (by decide)

theorem operator (without : s.WithoutPercent) (valid : s.Valid) {op : Operator}
    (effect : (Action.operator op).next? s = some next) : next.WithoutPercent := by
  have symbol := op.symbol_apart.2.2.symm
  rcases operator_cases effect with ⟨_, rfl⟩ | ⟨entry, _, _, rfl⟩ | ⟨entry, _, result, shown, rfl⟩
  · exact ⟨by simp, by simp [without.1, without.2, symbol]⟩
  · have committed : '%' ∉ s.committed.dropLast := fun member => without.2 (List.mem_of_mem_dropLast member)
    exact ⟨by simp [entry], by simp [committed, symbol]⟩
  · obtain ⟨value, isText⟩ := valid.result result shown
    exact ⟨by simp [entry], by simp [percent_not_mem_of_isText isText, symbol]⟩

theorem step (without : s.WithoutPercent) (valid : s.Valid) {command : Command}
    (other : command ≠ .percent) (effect : s.step? command = some next) : next.WithoutPercent := by
  cases command with
  | digit c => exact without.type effect
  | point => exact without.type effect
  | operator op => exact without.operator valid effect
  | percent => exact absurd rfl other
  | clear =>
      obtain ⟨_, rfl⟩ := clear_cases effect
      exact ⟨by simp, by simp⟩
  | backspace =>
      obtain ⟨_, rfl⟩ := backspace_cases effect
      exact ⟨fun member => without.1 (List.mem_of_mem_dropLast member), without.2⟩
  | equals =>
      obtain ⟨expression, _, rfl⟩ := equals_cases effect
      simp [WithoutPercent]

theorem pending (without : s.WithoutPercent) {expression : List Char}
    (pending : s.pending? = some expression) : '%' ∉ expression := by
  unfold pending? at pending
  split at pending
  · cases pending
    simp [without.1, without.2]
  · split at pending
    · cases pending
      exact fun member => without.2 (List.mem_of_mem_dropLast member)
    · cases pending

end WithoutPercent

theorem withoutPercent_run {commands : List Command} (none : .percent ∉ commands) :
    (run {} commands).WithoutPercent := by
  -- The shape goes along, as it says that a result to go on with holds no percent sign.
  have step : ∀ {s next : Session} {command : Command}, command ∈ commands →
      s.Valid ∧ s.WithoutPercent → s.step? command = some next → next.Valid ∧ next.WithoutPercent := by
    rintro s next command member ⟨valid, without⟩ effect
    have other : command ≠ .percent := by
      rintro rfl
      exact none member
    exact ⟨valid.step effect, without.step valid other effect⟩
  exact (run_preserves_of_mem step ⟨Valid.initial, by simp, by simp⟩).2

/-- An evaluation of operands that commands enter never finds an empty expression, a forbidden
character or a parenthesis without its partner. Where they hold no percent sign they are
decimals, and only a division by a zero operand or a value out of range is a fault. A session
without the percent key holds none, and fails just where there is a fault. -/
theorem faults_run {commands : List Command} {expression : List Char}
    (pending : (run {} commands).pending? = some expression) :
    (Expression.evaluate expression ≠ .error .emptyExpression ∧
        (∀ c, Expression.evaluate expression ≠ .error (.forbiddenChar c)) ∧
        Expression.evaluate expression ≠ .error .unclosedParen ∧
        Expression.evaluate expression ≠ .error .unexpectedClosing) ∧
      ('%' ∉ expression → ∃ line : Line Literal, line.Decimals ∧
        expression = (line.map Literal.text).text ∧
        ((∀ literal ∈ line.operands, literal.fractionDigits.length < UInt32.size) →
          ∀ value, Expression.exactValue expression = .ok value → value = (line.map Literal.number).value) ∧
        ∀ fault, Expression.evaluate expression = .error fault ↔
          fault = .divisionByZero ∧ (.div, 0) ∈ (line.map Literal.number).rest ∨
            fault = .notFinite ∧ ∃ value, Expression.exactValue expression = .ok value ∧
              2 ^ 1024 - 2 ^ 971 < |value|) ∧
      (.percent ∉ commands → '%' ∉ expression) ∧
      (((run {} commands).apply .equals).failed = true ↔
        ∃ fault, Expression.evaluate expression = .error fault) := by
  obtain ⟨line, entered, rfl⟩ := (valid_run commands).line_of_pending pending
  refine ⟨⟨?_, ?_, ?_, ?_⟩, ?_, ?_, ?_⟩
  · exact fun failed => by simpa using entered.fault failed
  -- Of the four faults none is among those that entered operands can have.
  · exact fun c failed => by simpa using entered.fault failed
  · exact fun failed => by simpa using entered.fault failed
  · exact fun failed => by simpa using entered.fault failed
  · intro without
    obtain ⟨decimals, valid, rfl⟩ := entered.exists_decimals without
    refine ⟨decimals, valid, rfl, fun short value exact => ?_, fun fault => valid.evaluate_eq_error_iff⟩
    rw [valid.exactValue, Line.map_reading_eq_map_number short] at exact
    split at exact <;> cases exact
    rfl
  · exact fun none => (withoutPercent_run none).pending pending
  · rw [apply_equals_of_pending? pending]
    cases Expression.evaluate line.text <;> simp [conclude]

/-- Behind the keys . 0 ÷ 0 . 0 only the division can fail, and it does. -/
theorem faults_run_of_zero_quotient :
    (run {} [.point, .digit '0', .operator .div, .digit '0', .point, .digit '0']).pending? =
        some ['0', '.', '0', '/', '0', '.', '0'] ∧
      (∀ fault, Expression.evaluate ['0', '.', '0', '/', '0', '.', '0'] = .error fault →
        fault = .divisionByZero ∨ fault = .notFinite) ∧
      ((run {} [.point, .digit '0', .operator .div, .digit '0', .point, .digit '0']).apply
        .equals).failed = true := by
  have pending : (run {} [.point, .digit '0', .operator .div, .digit '0', .point, .digit '0']).pending? =
      some ['0', '.', '0', '/', '0', '.', '0'] := by decide
  have failed : Expression.evaluate ['0', '.', '0', '/', '0', '.', '0'] = .error .divisionByZero := by
    decide +kernel
  obtain ⟨_, decimals, without, fails⟩ := faults_run pending
  obtain ⟨line, _, _, _, faults⟩ := decimals (without (by decide))
  refine ⟨pending, fun fault isFault => ?_, fails.mpr ⟨_, failed⟩⟩
  exact ((faults fault).mp isFault).imp And.left And.left

end Session

end PocketCalc
