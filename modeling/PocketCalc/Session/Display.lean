import PocketCalc.Session

/-! What a session shows: its phase and two lines of text. -/

set_option autoImplicit false

namespace PocketCalc

inductive Phase where
  | blank
  /-- A result is shown, and an operator may carry on with it. -/
  | result
  | entry
  | operandExpected
  | failed
  deriving DecidableEq, Repr

structure Display where
  history : List Char
  main : List Char
  deriving DecidableEq, Repr

namespace Session

def phase (s : Session) : Phase :=
  if s.failed then .failed
  else if s.entry ≠ [] then .entry
  else if s.committed ≠ [] then .operandExpected
  else if s.result.isSome then .result
  else .blank

theorem phase_eq_result_iff {s : Session} :
    s.phase = .result ↔
      s.failed = false ∧ s.entry = [] ∧ s.committed = [] ∧ s.result.isSome = true := by
  by_cases failed : s.failed = true
  · simp [phase, failed]
  by_cases entry : s.entry = []
  · by_cases committed : s.committed = []
    · by_cases result : s.result.isSome = true <;> simp [phase, failed, entry, committed, result]
    · simp [phase, failed, entry, committed]
  · simp [phase, failed, entry]

def failureText : List Char := ['E', 'r', 'r', 'o', 'r']

/-- The last expression with its result. -/
def equation (expression result : List Char) : List Char := expression ++ [' ', '=', ' '] ++ result

def mainLine (s : Session) : List Char :=
  if s.entry ≠ [] then s.entry else s.result.getD ['0']

def historyLine (s : Session) : List Char :=
  if s.committed ≠ [] then s.committed
  else match s.expression, s.result with
    | some expression, some result => equation expression result
    | _, _ => []

def display (s : Session) : Display :=
  if s.failed then ⟨[], failureText⟩ else ⟨s.historyLine, s.mainLine⟩

end Session

end PocketCalc
