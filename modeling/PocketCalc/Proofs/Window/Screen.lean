import PocketCalc.Proofs.Session.Phase
import PocketCalc.Proofs.Window.Commands

/-! What the screen shows, phase by phase.

The lines and the colour are read from the fields of a session one by one. Behind
any inputs they belong together: one rule of `Window.Shows` applies, and it says
all that the session holds and all that is shown (`Window.shows_run_iff`).
-/

set_option autoImplicit false

namespace PocketCalc

open Decimal

/-- Digits, points and percent signs, perhaps with a minus sign in front. -/
def IsNumeral (text : List Char) : Prop :=
  ∃ sign rest, text = sign ++ rest ∧ (sign = [] ∨ sign = ['-']) ∧ rest ≠ [] ∧
    ∀ c ∈ rest, c.isDigit = true ∨ c = '.' ∨ c = '%'

theorem IsEntry.isNumeral {text : List Char} (entry : IsEntry text) : IsNumeral text :=
  ⟨[], text, rfl, .inl rfl, entry.ne_nil, fun c member => or_assoc.mp (entry.chars c member)⟩

theorem Decimal.IsText.isNumeral {text : List Char} {value : Rat} (isText : IsText text value) :
    IsNumeral text := by
  obtain ⟨literal, canonical, _, rfl⟩ := isText
  have entry := IsEntry.of_canonical canonical
  refine ⟨_, literal.text, rfl, ?_, entry.ne_nil, fun c member => or_assoc.mp (entry.chars c member)⟩
  by_cases negative : value < 0 <;> simp [negative]

theorem not_isNumeral_failureText : ¬ IsNumeral Session.failureText := by
  rintro ⟨sign, rest, same, rfl | rfl, _, chars⟩
  · have first := chars 'E' (by rw [← List.nil_append rest, ← same]; exact List.mem_cons_self)
    exact absurd first (by decide)
  · cases same

namespace Window

/-- What a session of each phase holds, and the screen for it. -/
inductive Shows : Session → Phase → Screen → Prop where
  | failed : Shows { failed := true } .failed ⟨[' '], Session.failureText, true⟩
  | entry {entry : List Char} (committed : List Char) : entry ≠ [] →
      Shows { entry, committed } .entry ⟨if committed = [] then [' '] else committed, entry, false⟩
  | operandExpected {committed : List Char} : committed ≠ [] →
      Shows { committed } .operandExpected ⟨committed, ['0'], false⟩
  | result (expression result : List Char) :
      Shows { result := some result, expression := some expression } .result
        ⟨expression ++ [' ', '=', ' '] ++ result, result, false⟩
  | blank : Shows {} .blank ⟨[' '], ['0'], false⟩

namespace Shows

variable {s : Session} {phase : Phase} {shown : Screen}

theorem eq (shows : Shows s phase shown) : s.phase = phase ∧ screen s = shown := by
  cases shows with
  | failed => exact ⟨rfl, rfl⟩
  | entry committed nonempty =>
      by_cases none : committed = [] <;>
        simp [Session.phase, screen, Session.display, Session.mainLine, Session.historyLine,
          nonempty, none]
  | operandExpected nonempty =>
      simp [Session.phase, screen, Session.display, Session.mainLine, Session.historyLine, nonempty]
  | result expression result =>
      simp [Session.phase, screen, Session.display, Session.mainLine, Session.historyLine,
        Session.equation]
  | blank => exact ⟨rfl, rfl⟩

end Shows

theorem exists_shows {s : Session} (valid : s.Valid) : ∃ phase shown, Shows s phase shown := by
  obtain ⟨entry, committed, result, expression, failed⟩ := s
  -- Without a result there is no expression, and beside text there is no result.
  have expressionless : result = none → expression = none := valid.expression_eq_none
  have alone : result ≠ none ∨ failed = true → entry = [] ∧ committed = [] := valid.idle
  cases failed with
  | true =>
      obtain ⟨rfl, rfl⟩ := alone (.inr rfl)
      obtain rfl : result = none := valid.exclusive rfl
      obtain rfl := expressionless rfl
      exact ⟨_, _, .failed⟩
  | false =>
      cases result with
      | some result =>
          obtain ⟨rfl, rfl⟩ := alone (.inl (Option.some_ne_none result))
          obtain ⟨expression, rfl⟩ := Option.isSome_iff_exists.mp valid.paired.symm
          exact ⟨_, _, .result expression result⟩
      | none =>
          obtain rfl := expressionless rfl
          by_cases nonempty : entry = []
          · subst nonempty
            by_cases nonempty : committed = []
            · subst nonempty
              exact ⟨_, _, .blank⟩
            · exact ⟨_, _, .operandExpected nonempty⟩
          · exact ⟨_, _, .entry committed nonempty⟩

theorem shows_iff {s : Session} (valid : s.Valid) {phase : Phase} {shown : Screen} :
    Shows s phase shown ↔ s.phase = phase ∧ screen s = shown := by
  refine ⟨Shows.eq, ?_⟩
  rintro ⟨rfl, rfl⟩
  obtain ⟨phase, shown, shows⟩ := exists_shows valid
  obtain ⟨samePhase, same⟩ := shows.eq
  rwa [samePhase, same]

theorem Shows.isNumeral {s : Session} {phase : Phase} {shown : Screen} (shows : Shows s phase shown)
    (valid : s.Valid) (other : phase ≠ .failed) : IsNumeral shown.main := by
  have zero : IsNumeral ['0'] := (IsEntry.of_digit rfl).isNumeral
  cases shows with
  | failed => exact absurd rfl other
  | entry committed nonempty => exact (valid.entry.resolve_left nonempty).isNumeral
  | operandExpected _ => exact zero
  | result expression result =>
      obtain ⟨value, isText⟩ := valid.result result rfl
      exact isText.isNumeral
  | blank => exact zero

theorem Shows.main_eq_failureText_iff {s : Session} {phase : Phase} {shown : Screen}
    (shows : Shows s phase shown) (valid : s.Valid) :
    shown.main = Session.failureText ↔ phase = .failed := by
  constructor
  · intro failure
    by_contra other
    exact not_isNumeral_failureText (failure ▸ shows.isNumeral valid other)
  · rintro rfl
    cases shows
    rfl

theorem valid_run (inputs : List Input) : (run inputs).Valid := by
  rw [run, foldl_update]
  exact Session.valid_run _

/-- Behind any inputs the session has the form of one phase, and its screen is the one for that.
The failure text is shown exactly in the colour of errors, and that exactly behind a failure; any
other main line is a numeral. -/
theorem shows_run_iff (inputs : List Input) :
    let s := run inputs
    (∀ phase shown, Shows s phase shown ↔ s.phase = phase ∧ screen s = shown) ∧
      ((screen s).main = Session.failureText ↔ (screen s).alert = true) ∧
      ((screen s).alert = true ↔ s.phase = .failed) ∧
      (s.phase ≠ .failed → IsNumeral (screen s).main) := by
  intro s
  have valid := valid_run inputs
  have rule (phase : Phase) (shown : Screen) : Shows s phase shown ↔ s.phase = phase ∧ screen s = shown :=
    shows_iff valid
  have shows := (rule s.phase (screen s)).mpr ⟨rfl, rfl⟩
  have alert : (screen s).alert = true ↔ s.phase = .failed := decide_eq_true_iff
  exact ⟨rule, (shows.main_eq_failureText_iff valid).trans alert.symm, alert, shows.isNumeral valid⟩

/-- A negative result of typed operands and a click, and a failure to divide it. -/
theorem shows_run_of_negative_result :
    let shown : List Input := [.frame [.text ['1'], .text ['-'], .text ['3']], .click ⟨.equals, by decide⟩]
    let failed : List Input := shown ++ [.frame [.text ['÷'], .text ['0'], .key .enter true false]]
    Shows (run shown) .result ⟨['1', '-', '3', ' ', '=', ' ', '-', '2'], ['-', '2'], false⟩ ∧
      IsNumeral ['-', '2'] ∧ (screen (run failed)).main = Session.failureText ∧
      (screen (run failed)).alert = true := by
  intro shown failed
  obtain ⟨rule, _, _, numeral⟩ := shows_run_iff shown
  obtain ⟨_, text, alert, _⟩ := shows_run_iff failed
  have drawn : screen (run shown) = ⟨['1', '-', '3', ' ', '=', ' ', '-', '2'], ['-', '2'], false⟩ := by
    decide +kernel
  have result : (run shown).phase = .result := by decide +kernel
  have failure : (run failed).phase = .failed := by decide +kernel
  have isNumeral := numeral (by rw [result]; decide)
  rw [drawn] at isNumeral
  exact ⟨(rule _ _).mpr ⟨result, drawn⟩, isNumeral, text.mpr (alert.mpr failure), alert.mpr failure⟩

end Window

end PocketCalc
