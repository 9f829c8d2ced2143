import PocketCalc.Proofs.Session.Answer
import PocketCalc.Proofs.Session.Restart

/-! The phases of a session, and the commands that lead from one to another.

`Session.Moves` is the machine: one rule for each way to go on. A session that
commands lead to follows it, and stays as it is where no rule applies
(`Session.Valid.moves_of_step?`, `Session.Valid.phase_of_moves`).
-/

set_option autoImplicit false

namespace PocketCalc.Session

open Decimal

/-- Where a command leads. -/
inductive Moves (s : Session) : Command → Phase → Prop where
  | type {command : Command} {c : Char} :
      command.char? = some c → IsLiteralChar c → Moves s command .entry
  | percent : s.phase = .entry → Moves s .percent .entry
  | operator {op : Operator} :
      s.phase = .entry ∨ s.phase = .operandExpected ∨ s.phase = .result →
      Moves s (.operator op) .operandExpected
  | shorten : s.phase = .entry → 2 ≤ s.entry.length → Moves s .backspace .entry
  | takeBack : s.phase = .entry → s.entry.length < 2 → s.committed ≠ [] →
      Moves s .backspace .operandExpected
  | empty : s.phase = .entry → s.entry.length < 2 → s.committed = [] → Moves s .backspace .blank
  | answer {expression : List Char} {answer : Expression.Answer} :
      s.phase = .entry ∨ s.phase = .operandExpected → s.pending? = some expression →
      Expression.evaluate expression = .ok answer → Moves s .equals .result
  | fail {expression : List Char} {fault : Fault} :
      s.phase = .entry ∨ s.phase = .operandExpected → s.pending? = some expression →
      Expression.evaluate expression = .error fault → Moves s .equals .failed
  | clear : Moves s .clear .blank

namespace Moves

variable {s : Session} {command : Command} {phase : Phase}

theorem eq_equals (moves : s.Moves command phase) (entered : phase = .result ∨ phase = .failed) :
    command = .equals := by
  rcases entered with rfl | rfl
  · cases moves with
    | answer _ _ _ => rfl
  · cases moves with
    | fail _ _ _ => rfl

theorem of_failed (moves : s.Moves command phase) (failed : s.phase = .failed) :
    command = .clear ∨ ∃ c ∈ command.char?, IsLiteralChar c := by
  cases moves with
  | type types literal => exact .inr ⟨_, types, literal⟩
  | clear => exact .inl rfl
  | operator accepts => simp [failed] at accepts
  | percent entering => simp [failed] at entering
  | shorten entering _ => simp [failed] at entering
  | takeBack entering _ _ => simp [failed] at entering
  | empty entering _ _ => simp [failed] at entering
  | answer entering _ _ => simp [failed] at entering
  | fail entering _ _ => simp [failed] at entering

end Moves

/-! ## Phases -/

variable {s next : Session}

theorem phase_of_entry (failed : s.failed = false) (entry : s.entry ≠ []) : s.phase = .entry := by
  simp [phase, failed, entry]

theorem phase_of_committed (failed : s.failed = false) (entry : s.entry = [])
    (committed : s.committed ≠ []) : s.phase = .operandExpected := by
  simp [phase, failed, entry, committed]

theorem phase_conclude (expression : List Char) (outcome : Except Fault Expression.Answer) :
    (conclude expression outcome).phase = match outcome with
      | .ok _ => .result
      | .error _ => .failed := by
  cases outcome <;> rfl

namespace Valid

theorem failed_of_text (valid : s.Valid) (text : s.entry ≠ [] ∨ s.committed ≠ []) :
    s.failed = false := by
  refine Bool.eq_false_iff.mpr fun failed => ?_
  obtain ⟨entry, committed⟩ := valid.idle (.inr failed)
  exact text.elim (· entry) (· committed)

theorem eq_of_text (valid : s.Valid) (text : s.entry ≠ [] ∨ s.committed ≠ []) :
    s = { entry := s.entry, committed := s.committed } := by
  have failed := valid.failed_of_text text
  have result : s.result = none := by
    by_contra some
    obtain ⟨entry, committed⟩ := valid.idle (.inl some)
    exact text.elim (· entry) (· committed)
  have expression := valid.expression_eq_none result
  obtain ⟨_, _, _, _, _⟩ := s
  cases failed
  cases result
  cases expression
  rfl

theorem phase_eq_entry_iff (valid : s.Valid) : s.phase = .entry ↔ s.entry ≠ [] := by
  constructor
  · intro same empty
    unfold phase at same
    split_ifs at same
    contradiction
  · exact fun entry => phase_of_entry (valid.failed_of_text (.inl entry)) entry

theorem phase_eq_operandExpected_iff (valid : s.Valid) :
    s.phase = .operandExpected ↔ s.entry = [] ∧ s.committed ≠ [] := by
  constructor
  · intro same
    unfold phase at same
    split_ifs at same with _ entry committed
    exact ⟨not_not.mp entry, committed⟩
  · exact fun ⟨entry, committed⟩ =>
      phase_of_committed (valid.failed_of_text (.inr committed)) entry committed

theorem phase_of_pending (valid : s.Valid) :
    s.phase = .entry ∨ s.phase = .operandExpected ↔ s.pending? ≠ none := by
  rw [valid.phase_eq_entry_iff, valid.phase_eq_operandExpected_iff, ne_eq (s.pending?),
    pending?_eq_none_iff]
  tauto

theorem phase_of_result (valid : s.Valid) : s.phase = .result ↔ s.result ≠ none := by
  rw [phase_eq_result_iff, ← Option.isSome_iff_ne_none]
  refine ⟨fun ⟨_, _, _, shown⟩ => shown, fun shown => ?_⟩
  have result := Option.isSome_iff_ne_none.mp shown
  obtain ⟨entry, committed⟩ := valid.idle (.inl result)
  exact ⟨valid.failed_eq_false result, entry, committed, shown⟩

/-! ## Moves -/

theorem phase_of_type (valid : s.Valid) {c : Char} (literal : IsLiteralChar c) :
    (s.apply (.digit c)).phase = .entry := by
  cases effect : s.step? (.digit c) with
  | none =>
      rw [apply_of_step?_eq_none effect]
      -- Only a second point or a second zero has no effect, and both are behind an entry.
      have idle : s.Idle (.digit c) := step?_eq_none_iff.mp effect
      refine valid.phase_eq_entry_iff.mpr fun empty => ?_
      rcases idle with other | ⟨_, point⟩ | ⟨_, zero⟩
      · exact other literal
      · simp [empty] at point
      · simp [empty] at zero
  | some next =>
      rw [apply_of_step? effect]
      rcases type_cases effect with ⟨operand, kind, _, _, rfl⟩ | ⟨_, _, _, _, rfl⟩
      · refine phase_of_entry rfl ?_
        rcases kind with rfl | ⟨rfl, _⟩ <;> simp [Session.start]
      · exact phase_of_entry rfl (by simp [Session.extend])

theorem phase_of_operator (valid : s.Valid) {op : Operator}
    (accepts : s.phase = .entry ∨ s.phase = .operandExpected ∨ s.phase = .result) :
    (s.apply (.operator op)).phase = .operandExpected := by
  cases effect : s.step? (.operator op) with
  | none =>
      rw [apply_of_step?_eq_none effect]
      obtain ⟨entry, last | ⟨committed, result⟩⟩ := operator_eq_none_iff.mp effect
      · refine valid.phase_eq_operandExpected_iff.mpr ⟨entry, ?_⟩
        intro empty
        simp [empty] at last
      · rw [valid.phase_eq_entry_iff, valid.phase_eq_operandExpected_iff, valid.phase_of_result] at accepts
        simp [entry, committed, result] at accepts
  | some next =>
      rw [apply_of_step? effect]
      rcases operator_cases effect with ⟨_, rfl⟩ | ⟨entry, _, _, rfl⟩ | ⟨entry, _, _, _, rfl⟩
      · exact phase_of_committed rfl rfl (by simp)
      · exact phase_of_committed rfl entry (by simp)
      · exact phase_of_committed rfl entry (by simp)

theorem phase_of_moves (valid : s.Valid) {command : Command} {phase : Phase}
    (moves : s.Moves command phase) : (s.apply command).phase = phase := by
  have shortened (entering : s.phase = .entry) :=
    apply_backspace_of_entry (valid.phase_eq_entry_iff.mp entering)
  -- Each rule names what the session holds, and with it what the command leaves there.
  cases moves with
  | type types literal =>
      rw [apply, perform_of_char? types]
      exact valid.phase_of_type literal
  | percent entering =>
      have nonempty := valid.phase_eq_entry_iff.mp entering
      rw [apply, perform, Action.outcome_percent, if_neg nonempty]
      exact phase_of_entry rfl (by simp [Session.extend])
  | operator accepts => exact valid.phase_of_operator accepts
  | shorten entering long =>
      rw [shortened entering]
      refine phase_of_entry rfl ?_
      rw [← List.length_pos_iff, List.length_dropLast]
      omega
  | takeBack entering short committed =>
      rw [shortened entering]
      refine phase_of_committed rfl ?_ committed
      rw [← List.length_eq_zero_iff, List.length_dropLast]
      omega
  | empty entering short committed =>
      have entry : s.entry.dropLast = [] := by
        rw [← List.length_eq_zero_iff, List.length_dropLast]
        omega
      have result := valid.result_eq_none (valid.phase_eq_entry_iff.mp entering)
      rw [shortened entering]
      simp [Session.phase, entry, committed, result]
  | answer _ pending outcome => rw [apply_equals_of_pending? pending, outcome, phase_conclude]
  | fail _ pending outcome => rw [apply_equals_of_pending? pending, outcome, phase_conclude]
  | clear =>
      rw [apply, perform, Action.outcome_clear]
      by_cases same : s = {}
      · rw [if_pos same, same]
        rfl
      · rw [if_neg same]
        rfl

theorem moves_of_step? (valid : s.Valid) {command : Command} (effect : s.step? command = some next) :
    s.Moves command next.phase := by
  -- It is enough to find the rule, as that one says what the phase is.
  suffices ∃ phase, s.Moves command phase by
    obtain ⟨phase, moves⟩ := this
    have same := valid.phase_of_moves moves
    rw [apply_of_step? effect] at same
    rwa [same]
  have acts : ¬ s.Idle command := fun idle => by
    rw [step?_eq_none_iff.mpr idle] at effect
    cases effect
  cases command with
  | digit c =>
      have literal : IsLiteralChar c := not_not.mp fun other => acts (.inl other)
      exact ⟨_, .type rfl literal⟩
  | point => exact ⟨_, .type rfl (.inr rfl)⟩
  | operator op =>
      refine ⟨_, .operator ?_⟩
      rw [valid.phase_eq_entry_iff, valid.phase_eq_operandExpected_iff, valid.phase_of_result]
      by_contra none
      push Not at none
      obtain ⟨entry, committed, result⟩ := none
      exact acts ⟨entry, .inr ⟨committed entry, result⟩⟩
  | percent => exact ⟨_, .percent (valid.phase_eq_entry_iff.mpr acts)⟩
  | clear => exact ⟨_, .clear⟩
  | backspace =>
      have entering := valid.phase_eq_entry_iff.mpr acts
      by_cases long : 2 ≤ s.entry.length
      · exact ⟨_, .shorten entering long⟩
      · by_cases committed : s.committed = []
        · exact ⟨_, .empty entering (Nat.lt_of_not_le long) committed⟩
        · exact ⟨_, .takeBack entering (Nat.lt_of_not_le long) committed⟩
  | equals =>
      obtain ⟨expression, pending, _⟩ := equals_cases effect
      have entering := valid.phase_of_pending.mpr (by rw [pending]; exact Option.some_ne_none _)
      cases outcome : Expression.evaluate expression with
      | ok answer => exact ⟨_, .answer entering pending outcome⟩
      | error fault => exact ⟨_, .fail entering pending outcome⟩

end Valid

/-- The sessions that commands lead to go from phase to phase by the rules, and stay as they
are where none applies. A result or a failure is entered only by an evaluation, a failure is
left only by what clears, or types a digit or a point, and behind an evaluation there is
nothing more to evaluate. -/
theorem moves_run (commands : List Command) :
    let s := run {} commands
    (∀ command phase, s.Moves command phase → (s.apply command).phase = phase) ∧
      (∀ command, (∀ phase, ¬ s.Moves command phase) → s.apply command = s) ∧
      (s.step? .percent ≠ none ↔ s.phase = .entry) ∧
      (s.step? .backspace ≠ none ↔ s.phase = .entry) ∧
      (s.step? .equals ≠ none ↔ s.phase = .entry ∨ s.phase = .operandExpected) ∧
      (∀ command next, s.step? command = some next → next.phase = .result ∨ next.phase = .failed →
        command = .equals ∧ ∃ expression, s.pending? = some expression ∧
          next = conclude expression (Expression.evaluate expression)) ∧
      (∀ command, s.phase = .failed → (s.apply command).phase ≠ .failed →
        command = .clear ∨ ∃ c ∈ command.char?, IsLiteralChar c) ∧
      (s.apply .equals).step? .equals = none := by
  intro s
  have valid : s.Valid := valid_run commands
  -- A command with no rule has no effect, as one with an effect follows a rule.
  have idle (command : Command) (none : ∀ phase, ¬ s.Moves command phase) : s.step? command = .none := by
    by_contra acts
    obtain ⟨next, effect⟩ := Option.ne_none_iff_exists'.mp acts
    exact none _ (valid.moves_of_step? effect)
  refine ⟨fun command phase => valid.phase_of_moves,
    fun command none => apply_of_step?_eq_none (idle command none), ?_, ?_, ?_, ?_, ?_, ?_⟩
  · rw [ne_eq, step?_eq_none_iff, valid.phase_eq_entry_iff]
    rfl
  · rw [ne_eq, step?_eq_none_iff, valid.phase_eq_entry_iff]
    rfl
  · rw [ne_eq, step?_eq_none_iff, valid.phase_of_pending, ne_eq, pending?_eq_none_iff]
    rfl
  · intro command next effect entered
    cases (valid.moves_of_step? effect).eq_equals entered
    exact ⟨rfl, equals_cases effect⟩
  · intro command failed left
    cases effect : s.step? command with
    | none =>
        rw [apply_of_step?_eq_none effect] at left
        exact absurd failed left
    | some next => exact (valid.moves_of_step? effect).of_failed failed
  · cases effect : s.step? .equals with
    | none => rw [apply_of_step?_eq_none effect, effect]
    | some next =>
        obtain ⟨expression, _, rfl⟩ := equals_cases effect
        rw [apply_of_step? effect]
        exact equals_eq_none_iff.mpr (pending?_eq_none_iff.mp (pending?_conclude expression _))

/-- The keys 5 ÷ 0 enter an operand. A backspace takes back all of it, an evaluation fails, and
an operator has no use for the failure. -/
theorem moves_run_of_division_by_zero :
    let s := run {} [.digit '5', .operator .div, .digit '0']
    s.phase = .entry ∧ (s.apply .backspace).phase = .operandExpected ∧
      (s.apply .equals).phase = .failed ∧ (s.apply .equals).apply (.operator .add) = s.apply .equals := by
  intro s
  have entering : s.phase = .entry := by decide
  have evaluated : Expression.evaluate ['5', '/', '0'] = .error .divisionByZero := by decide +kernel
  obtain ⟨leads, _⟩ := moves_run [.digit '5', .operator .div, .digit '0']
  obtain ⟨_, stays, _⟩ := moves_run [.digit '5', .operator .div, .digit '0', .equals]
  have failed : (s.apply .equals).phase = .failed :=
    leads .equals .failed (.fail (.inl entering) (show s.pending? = some ['5', '/', '0'] by decide) evaluated)
  refine ⟨entering, leads .backspace _ (.takeBack entering (by decide) (by decide)), failed,
    stays (.operator .add) fun phase moves => ?_⟩
  rcases moves.of_failed failed with cleared | ⟨c, types, _⟩
  · cases cleared
  · cases types

/-- A point that is sent as a digit is no digit, and still it is entered. -/
theorem not_all_others_ignored :
    ¬ ∀ (commands : List Command) (c : Char), c.isDigit = false →
      (run {} commands).apply (.digit c) = run {} commands :=
  fun ignored => absurd (ignored [] '.' rfl) (by decide)

end PocketCalc.Session
