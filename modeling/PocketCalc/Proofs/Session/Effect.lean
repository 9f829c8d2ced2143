import PocketCalc.Proofs.Decimal.Literal
import PocketCalc.Session.Display

/-! What a command does to a session where it has an effect, case by case.

In any session a command says that it had an effect exactly when it changed
something (`Session.fst_outcome_iff_differs`).
-/

set_option autoImplicit false

namespace PocketCalc.Session

open Decimal

variable {s next : Session}

/-- A digit or a point starts another operand, where there is none or a digit replaces a lone zero,
or goes on with one: the first point, or a digit behind anything but a lone zero. -/
theorem type_cases {c : Char} (effect : (Action.type c).next? s = some next) :
    (∃ operand, (operand = ['0', '.'] ∨ operand = [c] ∧ c.isDigit = true) ∧
        (s.entry ≠ [] → s.entry = ['0'] ∧ operand = [c] ∧ c.isDigit = true) ∧
        s.entry ≠ operand ∧ next = s.start operand) ∨
      (s.entry ≠ [] ∧ IsLiteralChar c ∧ (c = '.' → '.' ∉ s.entry) ∧
        (s.entry = ['0'] → c.isDigit = false) ∧ next = s.extend c) := by
  have outcome := Action.next?_eq_some_iff.mp effect
  rw [Action.outcome_type] at outcome
  -- The branches are those of the closed form: a point, a digit behind a lone zero, another digit.
  split at outcome
  · next point =>
      split at outcome
      · cases outcome
      · next first =>
          split at outcome
          · next empty =>
              cases outcome
              exact .inl ⟨_, .inl rfl, fun entered => absurd empty entered, by simp [empty], rfl⟩
          · next nonempty =>
              cases outcome
              exact .inr ⟨nonempty, .inr point, fun _ => first, fun _ => by rw [point]; rfl, rfl⟩
  · next other =>
      split at outcome
      · next digit =>
          split at outcome
          · next zero =>
              split at outcome
              · cases outcome
              · next other =>
                  cases outcome
                  exact .inl ⟨_, .inr ⟨rfl, digit⟩, fun _ => ⟨zero, rfl, digit⟩,
                    by simp [zero, eq_comm, other], rfl⟩
          · next more =>
              split at outcome
              · next empty =>
                  cases outcome
                  exact .inl ⟨_, .inr ⟨rfl, digit⟩, fun entered => absurd empty entered,
                    by simp [empty], rfl⟩
              · next nonempty =>
                  cases outcome
                  exact .inr ⟨nonempty, .inl digit, fun point => absurd point other,
                    fun zero => absurd zero more, rfl⟩
      · cases outcome

theorem percent_cases (effect : Action.percent.next? s = some next) :
    s.entry ≠ [] ∧ next = s.extend '%' :=
  (Action.next?_eq_some_iff_of_guard Action.outcome_percent).mp effect

theorem backspace_cases (effect : Action.backspace.next? s = some next) :
    s.entry ≠ [] ∧ next = { s with entry := s.entry.dropLast, failed := false } :=
  (Action.next?_eq_some_iff_of_guard Action.outcome_backspace).mp effect

theorem operator_cases {op : Operator} (effect : (Action.operator op).next? s = some next) :
    (s.entry ≠ [] ∧
        next = { s with
          entry := [], committed := s.committed ++ s.entry ++ [op.symbol], failed := false }) ∨
      (s.entry = [] ∧ s.committed ≠ [] ∧ s.committed.getLast? ≠ some op.symbol ∧
        next = { s with committed := s.committed.dropLast ++ [op.symbol], failed := false }) ∨
      (s.entry = [] ∧ s.committed = [] ∧ ∃ result, s.result = some result ∧
        next = { s with
          committed := result ++ [op.symbol], result := none, expression := none, failed := false }) := by
  have outcome := Action.next?_eq_some_iff.mp effect
  rw [Action.outcome_operator] at outcome
  -- An operator ends the operand, or else replaces the last one, or else goes on from the result.
  split at outcome
  · next nonempty =>
      cases outcome
      exact .inl ⟨nonempty, rfl⟩
  · next empty =>
      split at outcome
      · next nonempty =>
          split at outcome
          · cases outcome
          · next other =>
              cases outcome
              exact .inr (.inl ⟨not_not.mp empty, nonempty, other, rfl⟩)
      · next none =>
          split at outcome
          · next result found =>
              cases outcome
              exact .inr (.inr ⟨not_not.mp empty, not_not.mp none, result, found, rfl⟩)
          · cases outcome

theorem clear_cases (effect : Action.clear.next? s = some next) : s ≠ {} ∧ next = {} :=
  (Action.next?_eq_some_iff_of_guard Action.outcome_clear).mp effect

theorem equals_cases (effect : Action.equals.next? s = some next) :
    ∃ expression, s.pending? = some expression ∧
      next = conclude expression (Expression.evaluate expression) := by
  have outcome := Action.next?_eq_some_iff.mp effect
  rw [Action.outcome_equals] at outcome
  split at outcome
  · next expression pending =>
      cases outcome
      exact ⟨expression, pending, rfl⟩
  · cases outcome

theorem apply_backspace_of_entry (nonempty : s.entry ≠ []) :
    s.apply .backspace = { s with entry := s.entry.dropLast, failed := false } :=
  congrArg Prod.snd ((Action.outcome_backspace s).trans (if_neg nonempty))

theorem apply_equals_of_pending? {expression : List Char} (pending : s.pending? = some expression) :
    s.apply .equals = conclude expression (Expression.evaluate expression) :=
  apply_of_step? (step?_equals_of_pending? pending)

/-! ## No effect -/

/-- The commands that a session has no use for. -/
def Idle (s : Session) : Command → Prop
  | .digit c => ¬ IsLiteralChar c ∨ c = '.' ∧ '.' ∈ s.entry ∨ c = '0' ∧ s.entry = ['0']
  | .point => '.' ∈ s.entry
  | .operator op => s.entry = [] ∧
      (s.committed.getLast? = some op.symbol ∨ s.committed = [] ∧ s.result = none)
  | .percent | .backspace => s.entry = []
  | .clear => s = {}
  | .equals => s.entry = [] ∧ s.committed = []

theorem type_eq_none_iff {c : Char} : (Action.type c).next? s = none ↔ s.Idle (.digit c) := by
  rw [Action.next?_eq_none_iff, Action.outcome_type]
  by_cases point : c = '.'
  · by_cases second : '.' ∈ s.entry
    · simp [Idle, point, second]
    · by_cases empty : s.entry = [] <;> simp [Idle, point, second, empty]
  · by_cases digit : c.isDigit = true
    · by_cases lone : s.entry = ['0']
      · by_cases zero : c = '0' <;> simp [Idle, point, digit, lone, zero]
      · by_cases empty : s.entry = [] <;> simp [Idle, point, digit, lone, empty]
    · simp [Idle, point, digit]

theorem operator_eq_none_iff {op : Operator} :
    (Action.operator op).next? s = none ↔ s.Idle (.operator op) := by
  rw [Action.next?_eq_none_iff, Action.outcome_operator]
  by_cases entry : s.entry = []
  · by_cases committed : s.committed = []
    · cases result : s.result <;> simp [Idle, entry, committed, result]
    · by_cases last : s.committed.getLast? = some op.symbol <;> simp [Idle, entry, committed, last]
  · simp [Idle, entry]

theorem pending?_eq_none_iff : s.pending? = none ↔ s.entry = [] ∧ s.committed = [] := by
  by_cases entry : s.entry = []
  · by_cases committed : s.committed = [] <;> simp [pending?, entry, committed]
  · simp [pending?, entry]

theorem equals_eq_none_iff : Action.equals.next? s = none ↔ s.Idle .equals := by
  rw [Action.next?_eq_none_iff, Action.outcome_equals, Idle, ← pending?_eq_none_iff]
  cases s.pending? <;> simp

theorem step?_eq_none_iff {command : Command} : s.step? command = none ↔ s.Idle command := by
  cases command with
  | digit c => exact type_eq_none_iff
  | point => exact type_eq_none_iff.trans (by simp [Idle])
  | operator op => exact operator_eq_none_iff
  | percent => exact Action.next?_eq_none_iff_of_guard Action.outcome_percent
  | clear => exact Action.next?_eq_none_iff_of_guard Action.outcome_clear
  | backspace => exact Action.next?_eq_none_iff_of_guard Action.outcome_backspace
  | equals => exact equals_eq_none_iff

/-! ## Change -/

@[simp] theorem entry_conclude (expression : List Char) (outcome : Except Fault Expression.Answer) :
    (conclude expression outcome).entry = [] := by
  cases outcome <;> rfl

@[simp] theorem committed_conclude (expression : List Char)
    (outcome : Except Fault Expression.Answer) : (conclude expression outcome).committed = [] := by
  cases outcome <;> rfl

theorem pending?_conclude (expression : List Char) (outcome : Except Fault Expression.Answer) :
    (conclude expression outcome).pending? = none :=
  pending?_eq_none_iff.mpr ⟨entry_conclude expression outcome, committed_conclude expression outcome⟩

theorem ne_of_type {c : Char} (effect : (Action.type c).next? s = some next) : next ≠ s := by
  intro same
  rcases type_cases effect with ⟨operand, _, _, other, rfl⟩ | ⟨_, _, _, _, rfl⟩
  · exact other (congrArg entry same).symm
  · simpa [extend] using congrArg entry same

theorem ne_of_operator {op : Operator} (effect : (Action.operator op).next? s = some next) :
    next ≠ s := by
  intro same
  rcases operator_cases effect with
    ⟨nonempty, rfl⟩ | ⟨_, _, other, rfl⟩ | ⟨_, _, result, found, rfl⟩
  · exact nonempty (congrArg entry same).symm
  · refine other ?_
    rw [← congrArg committed same]
    exact List.getLast?_concat
  · have dropped : none = s.result := congrArg Session.result same
    rw [found] at dropped
    cases dropped

theorem ne_of_step? {command : Command} (effect : s.step? command = some next) : next ≠ s := by
  cases command with
  | digit c => exact ne_of_type effect
  | point => exact ne_of_type effect
  | operator op => exact ne_of_operator effect
  | percent =>
      obtain ⟨_, rfl⟩ := percent_cases effect
      exact fun same => by simpa [extend] using congrArg entry same
  | clear =>
      obtain ⟨other, rfl⟩ := clear_cases effect
      exact other.symm
  | backspace =>
      obtain ⟨nonempty, rfl⟩ := backspace_cases effect
      intro same
      have shorter := congrArg List.length (congrArg entry same)
      have pos := List.length_pos_iff.mpr nonempty
      simp only [List.length_dropLast] at shorter
      omega
  | equals =>
      obtain ⟨expression, pending, rfl⟩ := equals_cases effect
      rintro rfl
      rw [pending?_conclude] at pending
      cases pending

def Differs (s t : Session) : Prop :=
  s.entry ≠ t.entry ∨ s.committed ≠ t.committed ∨ s.result ≠ t.result ∨
    s.expression ≠ t.expression ∨ s.failed ≠ t.failed

theorem differs_iff {t : Session} : s.Differs t ↔ s ≠ t := by
  obtain ⟨entry, committed, result, expression, failed⟩ := s
  obtain ⟨entry', committed', result', expression', failed'⟩ := t
  simp only [Differs, ne_eq, mk.injEq]
  tauto

namespace Action

variable {action : Action}

/-- A frame, together with effects that change something, makes the answer true. -/
theorem Framed.fst_eq_true_iff (framed : action.Framed)
    (changes : ∀ {next}, action.next? s = some next → next ≠ s) :
    (action.outcome s).1 = true ↔ (action.outcome s).2.Differs s := by
  rw [differs_iff]
  cases answer : (action.outcome s).1 with
  | false => simp [framed s answer]
  | true => simpa using changes (next?_eq_some_iff.mpr (Prod.ext answer rfl))

end Action

/-- In any session a command answers that it had an effect exactly when it changed one of
the fields, and that it had none exactly when the session has no use for it. Then all of the
session is as before, and so are the lines shown. The same holds for a character typed. -/
theorem fst_outcome_iff_differs (s : Session) :
    (∀ command,
      (((perform command).outcome s).1 = true ↔ ((perform command).outcome s).2.Differs s) ∧
      (((perform command).outcome s).1 = false ↔ s.Idle command) ∧
      (((perform command).outcome s).1 = false → ((perform command).outcome s).2 = s ∧
        ((perform command).outcome s).2.display = s.display)) ∧
    ∀ c,
      (((Action.type c).outcome s).1 = true ↔ ((Action.type c).outcome s).2.Differs s) ∧
      (((Action.type c).outcome s).1 = false → ((Action.type c).outcome s).2 = s ∧
        ((Action.type c).outcome s).2.display = s.display) := by
  refine ⟨fun command => ⟨?_, ?_, fun idle => ?_⟩, fun c => ⟨?_, fun idle => ?_⟩⟩
  · exact (framed_perform command).fst_eq_true_iff fun effect => ne_of_step? effect
  · exact Action.next?_eq_none_iff.symm.trans step?_eq_none_iff
  · have same := framed_perform command s idle
    exact ⟨same, congrArg display same⟩
  · exact (Action.framed_type c).fst_eq_true_iff fun effect => ne_of_type effect
  · have same := Action.framed_type c s idle
    exact ⟨same, congrArg display same⟩

/-- A second zero behind a failure that came with a result: sessions that no commands lead to
keep their fields as well. -/
theorem outcome_of_second_zero :
    let s : Session := { entry := ['0'], result := some ['4'], failed := true }
    let zero := (perform (.digit '0')).outcome s
    let seven := (perform (.digit '7')).outcome s
    s.Idle (.digit '0') ∧ zero.1 = false ∧ zero.2 = s ∧ zero.2.display = s.display ∧
      seven.1 = true ∧ seven.2.Differs s := by
  intro s zero seven
  obtain ⟨performed, _⟩ := fst_outcome_iff_differs s
  obtain ⟨_, idle, stays⟩ := performed (.digit '0')
  have none : zero.1 = false := by decide
  have effect : seven.1 = true := by decide
  exact ⟨idle.mp none, none, (stays none).1, (stays none).2, effect,
    (performed (.digit '7')).1.mp effect⟩

end PocketCalc.Session
