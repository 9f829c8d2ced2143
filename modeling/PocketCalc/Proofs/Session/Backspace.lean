import PocketCalc.Proofs.Session.Phase

/-! What backspaces take back.

A backspace removes the last character of the operand and touches nothing else
(`Session.Valid.apply_backspace`). As nothing else stands beside an operand, it takes back a
character that was put behind one (`Session.Valid.backspace_extend`).
-/

set_option autoImplicit false

namespace PocketCalc.Session

variable {s next : Session}

/-- The command puts a digit in the place of a lone zero. -/
def ReplacesZero (s : Session) (command : Command) : Prop :=
  s.entry = ['0'] ∧ ∃ c, command = .digit c ∧ c.isDigit = true

theorem not_replacesZero {command : Command} (other : ∀ c, command ≠ .digit c) :
    ¬ s.ReplacesZero command :=
  fun ⟨_, c, same, _⟩ => other c same

theorem type_of_entry {c : Char} (nonempty : s.entry ≠ [])
    (effect : (Action.type c).next? s = some next) :
    (s.entry = ['0'] ∧ c.isDigit = true ∧ next = s.start [c]) ∨
      (¬ (s.entry = ['0'] ∧ c.isDigit = true) ∧ next = s.extend c) := by
  rcases type_cases effect with ⟨operand, _, replaced, _, rfl⟩ | ⟨_, _, _, zero, rfl⟩
  · obtain ⟨lone, rfl, digit⟩ := replaced nonempty
    exact .inl ⟨lone, digit, rfl⟩
  · refine .inr ⟨?_, rfl⟩
    rintro ⟨lone, digit⟩
    rw [zero lone] at digit
    cases digit

theorem step?_of_entry {command : Command} (nonempty : s.entry ≠ [])
    (types : command.char? ≠ none ∨ command = .percent) (effect : s.step? command = some next) :
    (s.ReplacesZero command ∧ ∃ c, next = s.start [c]) ∨
      (¬ s.ReplacesZero command ∧ ∃ c, next = s.extend c) := by
  cases command with
  | digit c =>
      rcases type_of_entry nonempty effect with ⟨lone, digit, rfl⟩ | ⟨other, rfl⟩
      · exact .inl ⟨⟨lone, c, rfl, digit⟩, c, rfl⟩
      · refine .inr ⟨?_, c, rfl⟩
        rintro ⟨lone, _, same, digit⟩
        cases same
        exact other ⟨lone, digit⟩
  | point =>
      rcases type_of_entry nonempty effect with ⟨_, digit, _⟩ | ⟨_, rfl⟩
      · cases digit
      · exact .inr ⟨not_replacesZero (by simp), '.', rfl⟩
  | percent =>
      obtain ⟨_, rfl⟩ := percent_cases effect
      exact .inr ⟨not_replacesZero (by simp), '%', rfl⟩
  | operator _ | clear | backspace | equals => simp [Command.char?] at types

namespace Valid

theorem apply_backspace (valid : s.Valid) :
    s.apply .backspace = { s with entry := s.entry.dropLast } := by
  by_cases empty : s.entry = []
  · have idle : s.Idle .backspace := empty
    rw [apply_of_step?_eq_none (step?_eq_none_iff.mpr idle), empty, List.dropLast_nil, ← empty]
  · rw [apply_backspace_of_entry empty, valid.failed_of_text (.inl empty)]

theorem backspace_extend (valid : s.Valid) (nonempty : s.entry ≠ []) (c : Char) :
    (s.extend c).apply .backspace = s := by
  rw [apply_backspace_of_entry (by simp [Session.extend]), Session.extend, List.dropLast_concat,
    ← valid.failed_of_text (.inl nonempty)]

theorem backspace_start (valid : s.Valid) (nonempty : s.entry ≠ []) (c : Char) :
    (s.start [c]).apply .backspace = { s with entry := [] } := by
  rw [apply_backspace_of_entry (by simp [Session.start]), valid.eq_of_text (.inl nonempty)]
  rfl

theorem run_backspaces (valid : s.Valid) (count : Nat) :
    s.run (List.replicate count .backspace) =
      { s with entry := s.entry.take (s.entry.length - count) } := by
  induction count with
  | zero => rw [Nat.sub_zero, List.take_length]; rfl
  | succ count ih =>
      have earlier := run_preserves Valid.step valid (List.replicate count .backspace)
      rw [ih] at earlier
      have shorter : (s.entry.take (s.entry.length - count)).dropLast =
          s.entry.take (s.entry.length - (count + 1)) := by
        rw [List.dropLast_eq_take, List.take_take, List.length_take]
        congr 1
        omega
      -- The last of them shortens what the others left.
      rw [List.replicate_succ', run_append, ih, ← shorter]
      exact earlier.apply_backspace

end Valid

/-- Where something is typed behind an operand a backspace leads back to the session before, and
where a digit replaced a lone zero to that session without an operand. Any number of backspaces
removes as many characters from the end of the operand, or all of them if there are fewer, and
changes nothing else. -/
theorem backspaces_run (before : List Command) :
    let s := run {} before
    (s.entry ≠ [] → ∀ (command : Command) (next : Session),
      command.char? ≠ none ∨ command = .percent → s.step? command = some next →
        (¬ s.ReplacesZero command → next.apply .backspace = s) ∧
          (s.ReplacesZero command → next.apply .backspace = { s with entry := [] })) ∧
      ∀ count : Nat, ∃ kept removed, s.entry = kept ++ removed ∧
        removed.length = min count s.entry.length ∧
        s.run (List.replicate count .backspace) = { s with entry := kept } := by
  intro s
  have valid : s.Valid := valid_run before
  refine ⟨fun nonempty command next types effect => ?_, fun count => ?_⟩
  · rcases step?_of_entry nonempty types effect with ⟨replaces, c, rfl⟩ | ⟨adds, c, rfl⟩
    · exact ⟨fun adds => absurd replaces adds, fun _ => valid.backspace_start nonempty c⟩
    · exact ⟨fun _ => valid.backspace_extend nonempty c, fun replaces => absurd replaces adds⟩
  · refine ⟨s.entry.take (s.entry.length - count), s.entry.drop (s.entry.length - count),
      (List.take_append_drop _ _).symm, ?_, valid.run_backspaces count⟩
    rw [List.length_drop]
    omega

/-- Behind the keys 4 + 0 a backspace takes back a point, and a seven but not the zero it replaced.
Three of them leave the 4 + alone. -/
theorem backspaces_of_lone_zero :
    let s := run {} [.digit '4', .operator .add, .digit '0']
    (s.apply .point).apply .backspace = s ∧
      s.ReplacesZero (.digit '7') ∧
      (s.apply (.digit '7')).apply .backspace = { s with entry := [] } ∧
      s.run [.backspace, .backspace, .backspace] = { s with entry := [] } := by
  intro s
  have lone : s.entry = ['0'] := by decide
  obtain ⟨undoes, removes⟩ := backspaces_run [.digit '4', .operator .add, .digit '0']
  have typed := undoes (by decide)
  have replaces : s.ReplacesZero (.digit '7') := ⟨lone, '7', rfl, rfl⟩
  obtain ⟨kept, removed, whole, length, left⟩ := removes 3
  have all : kept = [] := by
    have lengths := congrArg List.length whole
    rw [List.length_append, length, show (run {} _).entry = _ from lone] at lengths
    simpa using lengths
  rw [all] at left
  exact ⟨(typed .point _ (.inl (by decide)) (by decide)).1 (not_replacesZero (by simp)), replaces,
    (typed (.digit '7') _ (.inl (by decide)) (by decide)).2 replaces, left⟩

end PocketCalc.Session
