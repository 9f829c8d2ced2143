import PocketCalc.Proofs.Tree.Balance

/-! Why conversion to postfix order refuses a token list, told by the lists it accepts.

Behind tokens that are read, closing parentheses complete an expression exactly
if there are as many of them as wait (`Postfix.Conversion.accepts_closing_iff`).
So one that is not closed is the only defect of its list, and one that is not
expected stands behind a whole expression (`Postfix.ofTokens_eq_error_iff`).
-/

set_option autoImplicit false

namespace PocketCalc.Postfix

def Accepts (tokens : List Token) : Prop := ∃ output, ofTokens tokens = .ok output

namespace Conversion

/-- The tokens read are a whole expression. -/
def Complete (state : Conversion) : Prop := state.afterValue = true ∧ .paren ∉ state.pending

theorem finish_eq_ok_iff {state : Conversion} : (∃ output, state.finish = .ok output) ↔ state.Complete := by
  by_cases after : state.afterValue = true
  · by_cases waits : .paren ∈ state.pending <;> simp [finish, Complete, after, waits]
  · simp [finish, Complete, after]

theorem finish_eq_unclosed_iff {state : Conversion} :
    state.finish = .error .unclosedParen ↔ state.afterValue = true ∧ .paren ∈ state.pending := by
  by_cases after : state.afterValue = true
  · by_cases waits : .paren ∈ state.pending <;> simp [finish, after, waits]
  · simp [finish, after]

theorem step_closeParen_cases {state : Conversion} (after : state.afterValue = true) :
    (.paren ∉ state.pending ∧ state.step .closeParen = .error .unexpectedClosing) ∨
      ∃ next, state.step .closeParen = .ok next ∧ next.afterValue = true ∧
        next.pending.count .paren + 1 = state.pending.count .paren := by
  cases stepped : state.step .closeParen with
  | error fault =>
      rcases fault_of_step_closeParen stepped with ⟨expected, _⟩ | ⟨_, absent, rfl⟩
      · rw [after] at expected
        cases expected
      · exact .inl ⟨absent, rfl⟩
  | ok next =>
      -- One parenthesis less waits behind it.
      have change := count_paren_of_step stepped
      obtain ⟨_, _, _, _, _, rfl⟩ := exists_of_step_closeParen stepped
      exact .inr ⟨_, rfl, rfl, by simpa [Nat.add_comm] using change⟩

theorem Complete.step_closeParen {state : Conversion} (complete : state.Complete) :
    state.step .closeParen = .error .unexpectedClosing := by
  obtain ⟨after, absent⟩ := complete
  rcases step_closeParen_cases after with ⟨_, stops⟩ | ⟨_, _, _, waiting⟩
  · exact stops
  · rw [List.count_eq_zero.mpr absent] at waiting
    cases waiting

theorem ne_nil_of_afterValue {tokens : List Token} {state : Conversion} (run : read tokens = .ok state)
    (after : state.afterValue = true) : tokens ≠ [] := by
  rintro rfl
  cases run
  cases after

theorem accepts_iff {tokens : List Token} :
    Accepts tokens ↔ ∃ state, read tokens = .ok state ∧ state.Complete := by
  constructor
  · rintro ⟨output, converted⟩
    have nonempty : tokens ≠ [] := by
      rintro rfl
      cases converted
    rw [ofTokens_of_ne_nil nonempty] at converted
    obtain ⟨state, run, finished⟩ := Outcome.bind_eq_ok_iff.mp converted
    exact ⟨state, run, finish_eq_ok_iff.mp ⟨output, finished⟩⟩
  · rintro ⟨state, run, complete⟩
    obtain ⟨output, finished⟩ := finish_eq_ok_iff.mpr complete
    refine ⟨output, ?_⟩
    rw [ofTokens_of_ne_nil (ne_nil_of_afterValue run complete.1), run, Outcome.ok_bind, finished]

/-! ## Closing what waits -/

variable {tokens : List Token} {state : Conversion}

theorem exists_read_closing (run : read tokens = .ok state) (after : state.afterValue = true)
    {closing : Nat} (enough : closing ≤ state.pending.count .paren) :
    ∃ next, read (tokens ++ List.replicate closing .closeParen) = .ok next ∧
      next.afterValue = true ∧ next.pending.count .paren + closing = state.pending.count .paren := by
  induction closing with
  | zero => exact ⟨state, by simpa using run, after, rfl⟩
  | succ closing ih =>
      obtain ⟨before, run', after', left⟩ := ih (Nat.le_of_succ_le enough)
      have waits : .paren ∈ before.pending := List.count_pos_iff.mp (by omega)
      rcases step_closeParen_cases after' with ⟨absent, _⟩ | ⟨next, stepped, after'', one⟩
      · exact absurd waits absent
      · refine ⟨next, ?_, after'', by omega⟩
        rw [List.replicate_succ', ← List.append_assoc, read_concat, run', Outcome.ok_bind, stepped]

theorem read_append (tokens rest : List Token) :
    read (tokens ++ rest) = read tokens >>= rest.foldlM step := List.foldlM_append

theorem afterValue_of_read_closing (run : read tokens = .ok state) {closing : Nat} {next : Conversion}
    (closed : read (tokens ++ List.replicate (closing + 1) .closeParen) = .ok next) :
    state.afterValue = true := by
  rw [read_append, run, Outcome.ok_bind, List.replicate_succ, List.foldlM_cons] at closed
  obtain ⟨_, stepped, _⟩ := Outcome.bind_eq_ok_iff.mp closed
  obtain ⟨_, _, _, _, after, _⟩ := exists_of_step_closeParen stepped
  exact after

theorem accepts_closing_iff (run : read tokens = .ok state) {closing : Nat} :
    Accepts (tokens ++ List.replicate closing .closeParen) ↔
      state.afterValue = true ∧ closing = state.pending.count .paren := by
  rw [accepts_iff]
  constructor
  · rintro ⟨last, closed, after, absent⟩
    -- Counting parentheses on both lists leaves as many to close as wait.
    have waiting := count_paren_of_read run
    have none : (List.replicate closing Token.closeParen).count .openParen = 0 :=
      List.count_eq_zero.mpr fun member => nomatch List.eq_of_mem_replicate member
    have waiting' := count_paren_of_read closed
    rw [List.count_append, List.count_append, List.count_replicate_self, none,
      List.count_eq_zero.mpr absent] at waiting'
    refine ⟨?_, by omega⟩
    cases closing with
    | zero =>
        rw [List.replicate_zero, List.append_nil, run] at closed
        cases closed
        exact after
    | succ closing => exact afterValue_of_read_closing run closed
  · rintro ⟨after, rfl⟩
    obtain ⟨next, closed, after', left⟩ := exists_read_closing run after (Nat.le_refl _)
    exact ⟨next, closed, after', List.count_eq_zero.mp (Nat.add_eq_right.mp left)⟩

end Conversion

open Conversion

/-! ## Faults -/

variable {tokens : List Token}

theorem stage_of_fault {fault : Fault} (nonempty : tokens ≠ []) (failed : ofTokens tokens = .error fault) :
    read tokens = .error fault ∨ ∃ state, read tokens = .ok state ∧ state.finish = .error fault := by
  rw [ofTokens_of_ne_nil nonempty] at failed
  exact Outcome.bind_eq_error_iff.mp failed

theorem fault_of_ofTokens {fault : Fault} (failed : ofTokens tokens = .error fault) :
    tokens = [] ∧ fault = .emptyExpression ∨
      fault = .unexpectedClosing ∧ read tokens = .error .unexpectedClosing ∨
      fault = .unclosedParen ∧ (∃ state, read tokens = .ok state ∧ state.finish = .error .unclosedParen) ∨
      fault = .malformedExpression := by
  by_cases nonempty : tokens = []
  · subst nonempty
    cases failed
    exact .inl ⟨rfl, rfl⟩
  · rcases stage_of_fault nonempty failed with reading | ⟨state, run, finishing⟩
    · rcases fault_of_read reading with rfl | ⟨rfl, _⟩
      · exact .inr (.inr (.inr rfl))
      · exact .inr (.inl ⟨rfl, reading⟩)
    · rcases fault_of_finish finishing with rfl | ⟨rfl, _⟩
      · exact .inr (.inr (.inr rfl))
      · exact .inr (.inr (.inl ⟨rfl, state, run, finishing⟩))

theorem read_eq_unexpected_iff :
    read tokens = .error .unexpectedClosing ↔
      ∃ before rest, tokens = before ++ [.closeParen] ++ rest ∧ Accepts before := by
  constructor
  · intro failed
    obtain ⟨before, token, rest, state, rfl, run, stepped⟩ := exists_of_read_eq_error failed
    rcases fault_of_step stepped with other | ⟨_, rfl, complete⟩
    · cases other
    · exact ⟨before, rest, by simp, accepts_iff.mpr ⟨state, run, complete⟩⟩
  · rintro ⟨before, rest, rfl, accepted⟩
    obtain ⟨state, run, complete⟩ := accepts_iff.mp accepted
    have stops : read (before ++ [.closeParen]) = .error .unexpectedClosing := by
      rw [read_concat, run, Outcome.ok_bind, complete.step_closeParen]
    rw [read_append, stops, Outcome.error_bind]

theorem ofTokens_eq_empty_iff : ofTokens tokens = .error .emptyExpression ↔ tokens = [] := by
  refine ⟨fun failed => ?_, fun empty => empty ▸ rfl⟩
  simpa using fault_of_ofTokens failed

theorem ofTokens_eq_unexpected_iff :
    ofTokens tokens = .error .unexpectedClosing ↔
      ∃ before rest, tokens = before ++ [.closeParen] ++ rest ∧ Accepts before := by
  rw [← read_eq_unexpected_iff]
  constructor
  · intro failed
    simpa using fault_of_ofTokens failed
  · intro failed
    have nonempty : tokens ≠ [] := by
      rintro rfl
      cases failed
    rw [ofTokens_of_ne_nil nonempty, failed, Outcome.error_bind]

theorem ofTokens_eq_unclosed_iff :
    ofTokens tokens = .error .unclosedParen ↔
      ∃ closing, 1 ≤ closing ∧ Accepts (tokens ++ List.replicate closing .closeParen) := by
  constructor
  · intro failed
    obtain ⟨state, run, finishing⟩ : ∃ state, read tokens = .ok state ∧
        state.finish = .error .unclosedParen := by simpa using fault_of_ofTokens failed
    obtain ⟨after, waits⟩ := finish_eq_unclosed_iff.mp finishing
    exact ⟨_, List.count_pos_iff.mpr waits, (accepts_closing_iff run).mpr ⟨after, rfl⟩⟩
  · rintro ⟨closing, some, accepted⟩
    obtain ⟨last, closed, _⟩ := accepts_iff.mp accepted
    rw [read_append] at closed
    obtain ⟨state, run, _⟩ := Outcome.bind_eq_ok_iff.mp closed
    obtain ⟨after, rfl⟩ := (accepts_closing_iff run).mp accepted
    have waits := List.count_pos_iff.mp some
    rw [ofTokens_of_ne_nil (ne_nil_of_afterValue run after), run, Outcome.ok_bind]
    exact finish_eq_unclosed_iff.mpr ⟨after, waits⟩

/-- Why a list is refused: it is empty, or a closing parenthesis stands behind tokens that are
accepted by themselves, or closing parentheses at its end would be enough to have it accepted,
or, in all other cases, it is malformed. It never has both a parenthesis too many and one too
few. -/
theorem ofTokens_eq_error_iff (tokens : List Token) :
    (ofTokens tokens = .error .emptyExpression ↔ tokens = []) ∧
    (ofTokens tokens = .error .unexpectedClosing ↔
      ∃ before rest, tokens = before ++ [.closeParen] ++ rest ∧ Accepts before) ∧
    (ofTokens tokens = .error .unclosedParen ↔
      ∃ closing, 1 ≤ closing ∧ Accepts (tokens ++ List.replicate closing .closeParen)) ∧
    (ofTokens tokens = .error .malformedExpression ↔
      ¬ Accepts tokens ∧ tokens ≠ [] ∧
        (¬ ∃ before rest, tokens = before ++ [.closeParen] ++ rest ∧ Accepts before) ∧
        ¬ ∃ closing, 1 ≤ closing ∧ Accepts (tokens ++ List.replicate closing .closeParen)) ∧
    ¬ ((∃ before rest, tokens = before ++ [.closeParen] ++ rest ∧ Accepts before) ∧
      ∃ closing, 1 ≤ closing ∧ Accepts (tokens ++ List.replicate closing .closeParen)) := by
  rw [← ofTokens_eq_unexpected_iff, ← ofTokens_eq_unclosed_iff, ne_eq, ← ofTokens_eq_empty_iff]
  refine ⟨Iff.rfl, Iff.rfl, Iff.rfl, ?_, ?_⟩
  · cases outcome : ofTokens tokens with
    | ok output => simp [Accepts, outcome]
    | error fault =>
        rcases fault_of_ofTokens outcome with ⟨_, rfl⟩ | ⟨rfl, _⟩ | ⟨rfl, _⟩ | rfl <;>
          simp [Accepts, outcome]
  · rintro ⟨unexpected, unclosed⟩
    rw [unexpected] at unclosed
    cases unclosed

/-- A sum that opens a parenthesis, ( 1 + 2, and one that closes it, 1 + 2 ). -/
theorem ofTokens_of_sum_beside_paren :
    let sum : List Token := [.num 1, .op .add, .num 2]
    Accepts (.openParen :: sum ++ [.closeParen]) ∧ ofTokens (.openParen :: sum) = .error .unclosedParen ∧
      Accepts sum ∧ ofTokens (sum ++ [.closeParen]) = .error .unexpectedClosing := by
  intro sum
  have closed : Accepts (.openParen :: sum ++ [.closeParen]) := ⟨_, rfl⟩
  have accepted : Accepts sum := ⟨_, rfl⟩
  obtain ⟨_, _, unclosed, _⟩ := ofTokens_eq_error_iff (.openParen :: sum)
  obtain ⟨_, unexpected, _⟩ := ofTokens_eq_error_iff (sum ++ [.closeParen])
  exact ⟨closed, unclosed.mpr ⟨1, le_rfl, closed⟩, accepted, unexpected.mpr ⟨sum, [], rfl, accepted⟩⟩

/-- A parenthesis that waits is not reported where a value is missing as well: ( 1 +. -/
example : ofTokens [.openParen, .num 1, .op .add] = .error .malformedExpression := by rfl

end PocketCalc.Postfix
