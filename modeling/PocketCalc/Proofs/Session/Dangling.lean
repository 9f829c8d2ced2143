import PocketCalc.Proofs.Expression.Answer
import PocketCalc.Proofs.Session.Phase

/-! Operators that no operand follows.

An operator is put behind the expression to evaluate, or else behind the result, in place of an
operator that is there already (`Session.Valid.apply_operator`). So of several operators the last
one stays (`Session.Valid.run_operators`), and an evaluation leaves it out again
(`Session.Valid.equals_of_operators`).
-/

set_option autoImplicit false

namespace PocketCalc.Session

open Decimal

/-- What an operator is put behind. -/
def carried? (s : Session) : Option (List Char) := s.pending?.or s.result

def dangling (text : List Char) (op : Operator) : Session := { committed := text ++ [op.symbol] }

theorem pending?_dangling (text : List Char) (op : Operator) :
    (dangling text op).pending? = some text := by
  simp [pending?, dangling]

theorem apply_operator_dangling (text : List Char) (first second : Operator) :
    (dangling text first).apply (.operator second) = dangling text second := by
  by_cases same : first.symbol = second.symbol
  · have idle : (dangling text first).Idle (.operator second) :=
      ⟨rfl, .inl (by simp [dangling, same])⟩
    rw [apply_of_step?_eq_none (step?_eq_none_iff.mpr idle), dangling, dangling, same]
  · rw [apply, perform, Action.outcome_operator]
    simp [dangling, same]

variable {s : Session}

theorem carried?_of_pending? {text : List Char} (pending : s.pending? = some text) :
    s.carried? = some text := by
  rw [carried?, pending, Option.some_or]

theorem carried?_eq_none_iff :
    s.carried? = none ↔ s.entry = [] ∧ s.committed = [] ∧ s.result = none := by
  rw [carried?, Option.or_eq_none_iff, pending?_eq_none_iff, and_assoc]

namespace Valid

theorem exists_dangling (valid : s.Valid) (entry : s.entry = []) (committed : s.committed ≠ []) :
    ∃ text op, s = dangling text op := by
  obtain ⟨line, op, _, same⟩ := valid.committed.resolve_left committed
  refine ⟨line.text, op, ?_⟩
  rw [valid.eq_of_text (.inr committed), entry, same]
  rfl

theorem apply_operator (valid : s.Valid) {text : List Char} (carried : s.carried? = some text)
    (op : Operator) : s.apply (.operator op) = dangling text op := by
  by_cases entry : s.entry = []
  · by_cases committed : s.committed = []
    · have none : s.pending? = .none := pending?_eq_none_iff.mpr ⟨entry, committed⟩
      rw [carried?, none, Option.none_or] at carried
      rw [apply, perform, Action.outcome_operator]
      simp [dangling, entry, committed, carried]
    · obtain ⟨other, last, rfl⟩ := valid.exists_dangling entry committed
      rw [carried?_of_pending? (pending?_dangling other last)] at carried
      cases carried
      exact apply_operator_dangling text last op
  · have alone := valid.eq_of_text (.inl entry)
    rw [alone] at carried ⊢
    have same : s.committed ++ s.entry = text := by simpa [carried?, pending?, entry] using carried
    rw [apply, perform, Action.outcome_operator]
    simp [dangling, entry, ← same]

theorem run_operators (valid : s.Valid) {text : List Char} (carried : s.carried? = some text)
    (earlier : List Operator) (last : Operator) :
    s.run ((earlier ++ [last]).map .operator) = dangling text last := by
  induction earlier using List.reverseRecOn generalizing last with
  | nil => exact valid.apply_operator carried last
  | append_singleton earlier op ih =>
      rw [List.map_append, run_append, ih op]
      exact apply_operator_dangling text op last

end Valid

theorem run_operators_of_carried?_eq_none (none : s.carried? = none) (ops : List Operator) :
    s.run (ops.map .operator) = s := by
  induction ops with
  | nil => rfl
  | cons op ops ih =>
      obtain ⟨entry, committed, result⟩ := carried?_eq_none_iff.mp none
      have idle : s.Idle (.operator op) := ⟨entry, .inr ⟨committed, result⟩⟩
      have stays : s.apply (.operator op) = s :=
        apply_of_step?_eq_none (step?_eq_none_iff.mpr idle)
      rw [List.map_cons, run, List.foldl_cons, stays]
      exact ih

/-- Behind any commands, several operators leave what the last of them alone would leave: its
symbol behind what is carried, or the session as it is if nothing is. -/
theorem run_operators_eq_apply_last (before : List Command) (earlier : List Operator)
    (last : Operator) :
    let s := run {} before
    s.run ((earlier ++ [last]).map .operator) = s.apply (.operator last) ∧
      s.apply (.operator last) = match s.carried? with
        | some text => { committed := text ++ [last.symbol] }
        | none => s := by
  intro s
  have valid : s.Valid := valid_run before
  cases carried : s.carried? with
  | some text =>
      have alone := valid.apply_operator carried last
      exact ⟨(valid.run_operators carried earlier last).trans alone.symm, alone⟩
  | none =>
      have alone : s.apply (.operator last) = s := run_operators_of_carried?_eq_none carried [last]
      exact ⟨(run_operators_of_carried?_eq_none carried _).trans alone.symm, alone⟩

/-- Behind 5 the operators + - × leave the last of them. -/
theorem run_of_three_operators :
    let s := run {} [.digit '5']
    s.run [.operator .add, .operator .sub, .operator .mul] = s.apply (.operator .mul) ∧
      s.apply (.operator .mul) = { committed := ['5', '*'] } := by
  intro s
  have carried : s.carried? = some ['5'] := rfl
  obtain ⟨same, alone⟩ := run_operators_eq_apply_last [.digit '5'] [.add, .sub] .mul
  rw [carried] at alone
  exact ⟨same, alone⟩

/-! ## Evaluation -/

namespace Valid

theorem carried?_of_phase (valid : s.Valid) (idle : s.phase = .blank ∨ s.phase = .failed) :
    s.carried? = none := by
  have other : ¬ (s.phase = .entry ∨ s.phase = .operandExpected) ∧ s.phase ≠ .result := by
    rcases idle with same | same <;> simp [same]
  rw [valid.phase_of_pending, ne_eq, ne_eq, valid.phase_of_result, not_not, not_not] at other
  rw [carried?, other.1, other.2, Option.none_or]

theorem equals_of_operators (valid : s.Valid) {text : List Char} (carried : s.carried? = some text)
    {ops : List Operator} (nonempty : ops ≠ []) :
    (s.run (ops.map .operator)).apply .equals =
      Session.conclude text (Expression.evaluate text) := by
  obtain ⟨earlier, last, rfl⟩ := (List.eq_nil_or_concat ops).resolve_left nonempty
  rw [List.concat_eq_append, valid.run_operators carried]
  exact apply_equals_of_pending? (pending?_dangling text last)

end Valid

theorem conclude_answerText {value : Rat} (inRange : InRange value) :
    conclude (answerText value) (Expression.evaluate (answerText value)) =
      { result := some (answerText value), expression := some (answerText value) } := by
  have evaluated := Expression.evaluate_of_exactValue (Expression.exactValue_answerText value)
  rw [if_pos (inRange_round (by decide) inRange), answerText_round] at evaluated
  rw [evaluated]
  rfl

/-- Operators do not change what an evaluation makes of the operands before them. Where there is
nothing to put them behind, neither they nor the evaluation has an effect, and a result that is
evaluated with an operator behind it stays the same. -/
theorem equals_run_operators (before : List Command) (ops : List Operator) :
    let s := run {} before
    let after := s.run (ops.map .operator)
    (s.phase = .entry ∨ s.phase = .operandExpected → after.apply .equals = s.apply .equals) ∧
      (s.phase = .blank ∨ s.phase = .failed → after = s ∧ after.apply .equals = s) ∧
      (s.phase = .result → ops ≠ [] →
        (after.apply .equals).phase = .result ∧ (after.apply .equals).result = s.result) := by
  intro s after
  have valid : s.Valid := valid_run before
  refine ⟨fun entered => ?_, fun idle => ?_, fun shown nonempty => ?_⟩
  · obtain ⟨text, pending⟩ := Option.ne_none_iff_exists'.mp (valid.phase_of_pending.mp entered)
    by_cases empty : ops = []
    · subst empty
      rfl
    -- The operators stand behind what is evaluated without them.
    · rw [apply_equals_of_pending? pending]
      exact valid.equals_of_operators (carried?_of_pending? pending) empty
  · have none := valid.carried?_of_phase idle
    have stays : after = s := run_operators_of_carried?_eq_none none ops
    obtain ⟨entry, committed, _⟩ := carried?_eq_none_iff.mp none
    rw [stays]
    exact ⟨rfl, apply_of_step?_eq_none (step?_eq_none_iff.mpr ⟨entry, committed⟩)⟩
  -- What goes on is the printed result, and that is evaluated to itself.
  · obtain ⟨expression, answer, evaluated, same⟩ := (answered_run before).exists_answer shown
    obtain ⟨value, _, inRange, rfl⟩ := Expression.exists_of_evaluate evaluated
    have carried : s.carried? = some (answerText value) := by
      rw [show s = _ from same]
      rfl
    have evaluated : after.apply .equals = _ := valid.equals_of_operators carried nonempty
    rw [evaluated, conclude_answerText inRange, show s = _ from same]
    exact ⟨rfl, rfl⟩

/-- Behind the keys 2 - 3 the keys + × = do what = alone does, which is to show minus one. The keys
÷ = behind that keep it, and at the start the keys + × = do nothing. -/
theorem equals_of_two_operators :
    let s := run {} [.digit '2', .operator .sub, .digit '3']
    (s.phase = .entry ∧
        (s.run [.operator .add, .operator .mul]).apply .equals = s.apply .equals) ∧
      ((s.apply .equals).phase = .result ∧
        (((s.apply .equals).run [.operator .div]).apply .equals).result = some ['-', '1']) ∧
      (({} : Session).phase = .blank ∧
        (run {} [.operator .add, .operator .mul]).apply .equals = {}) := by
  intro s
  have entering : s.phase = .entry := by decide
  have evaluated : s.apply .equals =
      { result := some ['-', '1'], expression := some ['2', '-', '3'] } := by decide +kernel
  have shown : (s.apply .equals).phase = .result := by rw [evaluated]; rfl
  obtain ⟨entered, _, _⟩ :=
    equals_run_operators [.digit '2', .operator .sub, .digit '3'] [.add, .mul]
  obtain ⟨_, _, kept⟩ :=
    equals_run_operators [.digit '2', .operator .sub, .digit '3', .equals] [.div]
  obtain ⟨_, blank, _⟩ := equals_run_operators [] [.add, .mul]
  exact ⟨⟨entering, entered (.inl entering)⟩,
    ⟨shown, (kept shown (by simp)).2.trans (congrArg Session.result evaluated)⟩,
    ⟨rfl, (blank (.inl rfl)).2⟩⟩

end PocketCalc.Session
