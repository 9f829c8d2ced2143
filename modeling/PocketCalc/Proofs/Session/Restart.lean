import PocketCalc.Proofs.Session.Effect
import PocketCalc.Proofs.Session.Typing
import PocketCalc.Session.Display

/-! Starting afresh, behind a failure or in place of a result.

A failed evaluation leaves its mark and nothing else. Runs from there and from
the first session differ in the mark alone, up to the first command that has
an effect behind a failure (`Session.run_failed`).
-/

set_option autoImplicit false

namespace PocketCalc

open Decimal

namespace Command

end Command

namespace Session

/-- The evaluation fails and leads to the next session. -/
def FailsTo (s next : Session) : Prop := s.step? .equals = some next ∧ next.failed = true

theorem FailsTo.eq {s next : Session} (fails : s.FailsTo next) : next = { failed := true } := by
  obtain ⟨effect, failed⟩ := fails
  obtain ⟨expression, _, rfl⟩ := equals_cases effect
  cases outcome : Expression.evaluate expression with
  | error fault => rfl
  | ok answer =>
      rw [outcome] at failed
      cases failed

/-! ## Typing without an operand -/

end Session

end PocketCalc
