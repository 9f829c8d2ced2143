import PocketCalc.Command
import PocketCalc.Expression

/-! A session: commands build an expression operand by operand, and evaluate it.

An operation changes the session step by step, and says at its end whether it had
an effect. Where it had none the session is as it was (`Session.framed_perform`).
A failed evaluation forgets everything but the failure.
-/

set_option autoImplicit false

namespace PocketCalc

structure Session where
  /-- The operand being entered. -/
  entry : List Char := []
  /-- Operands already entered, each with the operator behind it. -/
  committed : List Char := []
  result : Option (List Char) := none
  /-- The expression that gave the result. -/
  expression : Option (List Char) := none
  /-- Whether the last evaluation failed. -/
  failed : Bool := false
  deriving DecidableEq, Repr

namespace Session

/-- The expression to evaluate: an operator without a right operand is left out. -/
def pending? (s : Session) : Option (List Char) :=
  if s.entry ≠ [] then some (s.committed ++ s.entry)
  else if s.committed ≠ [] then some s.committed.dropLast
  else none

def conclude (expression : List Char) : Except Fault Expression.Answer → Session
  | .ok answer => { result := some answer.text, expression := some expression }
  | .error _ => { failed := true }

/-! ## Operations -/

/-- It changes the session and answers whether it had an effect. -/
abbrev Action := StateM Session Bool

namespace Action

def type (c : Char) : Action := do
  if ¬ c.isDigit ∧ c ≠ '.' then return false
  if c = '.' then
    if '.' ∈ (← get).entry then return false
  else if (← get).entry = ['0'] then
    if c = '0' then return false
    modify ({ · with entry := [] })
  -- Another number does away with the last result.
  if (← get).entry = [] then
    modify ({ · with result := none, expression := none })
  if c = '.' ∧ (← get).entry = [] then
    modify fun s => { s with entry := s.entry ++ ['0', '.'] }
  else
    modify fun s => { s with entry := s.entry ++ [c] }
  modify ({ · with failed := false })
  return true

/-- A percent sign needs an operand, and may follow any. -/
def percent : Action := do
  if (← get).entry = [] then return false
  modify fun s => { s with entry := s.entry ++ ['%'] }
  modify ({ · with failed := false })
  return true

/-- The operand is committed with the operator behind it. Without an operand
the last operator is replaced, or the last result becomes the operand. -/
def operator (op : Operator) : Action := do
  if (← get).entry = [] ∧ (← get).committed = [] then
    let taken ← modifyGet fun s => (s.result, { s with result := none })
    let some result := taken | return false
    modify ({ · with expression := none })
    modify ({ · with committed := result })
    modify fun s => { s with committed := s.committed ++ [op.symbol] }
    modify ({ · with failed := false })
    return true
  if (← get).entry ≠ [] then
    modify fun s => { s with committed := s.committed ++ s.entry }
    modify fun s => { s with committed := s.committed ++ [op.symbol] }
    modify ({ · with entry := [] })
  else
    if (← get).committed.getLast? = some op.symbol then return false
    modify fun s => { s with committed := s.committed.dropLast }
    modify fun s => { s with committed := s.committed ++ [op.symbol] }
  modify ({ · with failed := false })
  return true

def backspace : Action := do
  let popped ← modifyGet fun s => (s.entry.getLast?, { s with entry := s.entry.dropLast })
  if popped = none then return false
  modify ({ · with failed := false })
  return true

def clear : Action := do
  if (← get) = {} then return false
  set ({} : Session)
  return true

def equals : Action := do
  let some expression := (← get).pending? | return false
  set (conclude expression (Expression.evaluate expression))
  return true

/-- Whether there was an effect, and the session as it is left. -/
def outcome (action : Action) (s : Session) : Bool × Session := (StateT.run action s).run

def next? (action : Action) (s : Session) : Option Session :=
  if (action.outcome s).1 then some (action.outcome s).2 else none

/-- Without an effect the session is left as it was. -/
def Framed (action : Action) : Prop :=
  ∀ s, (action.outcome s).1 = false → (action.outcome s).2 = s

end Action

/-! ## Commands -/

def perform : Command → Action
  | .digit c => Action.type c
  | .point => Action.type '.'
  | .operator op => Action.operator op
  | .percent => Action.percent
  | .clear => Action.clear
  | .backspace => Action.backspace
  | .equals => Action.equals

def apply (s : Session) (command : Command) : Session := ((perform command).outcome s).2

def step? (s : Session) (command : Command) : Option Session := (perform command).next? s

def run (s : Session) (commands : List Command) : Session := commands.foldl apply s

/-! ## What an operation does -/

def start (s : Session) (operand : List Char) : Session :=
  { s with entry := operand, result := none, expression := none, failed := false }

def extend (s : Session) (c : Char) : Session := { s with entry := s.entry ++ [c], failed := false }

namespace Action

theorem outcome_type (s : Session) (c : Char) :
    (type c).outcome s =
      if c = '.' then
        if '.' ∈ s.entry then (false, s)
        else if s.entry = [] then (true, s.start ['0', '.']) else (true, s.extend c)
      else if c.isDigit then
        if s.entry = ['0'] then if c = '0' then (false, s) else (true, s.start [c])
        else if s.entry = [] then (true, s.start [c]) else (true, s.extend c)
      else (false, s) := by
  by_cases point : c = '.'
  · by_cases second : '.' ∈ s.entry
    · simp [outcome, type, point, second]
    · by_cases empty : s.entry = []
      · simp [outcome, type, point, empty, start]
      · simp [outcome, type, point, second, empty, extend]
  · by_cases digit : c.isDigit
    · by_cases lone : s.entry = ['0']
      · by_cases zero : c = '0'
        · simp [outcome, type, zero, lone]
        · simp [outcome, type, point, digit, lone, zero, start]
      · by_cases empty : s.entry = []
        · simp [outcome, type, point, digit, empty, start]
        · simp [outcome, type, point, digit, lone, empty, extend]
    · simp [outcome, type, point, digit]

theorem outcome_percent (s : Session) :
    percent.outcome s = if s.entry = [] then (false, s) else (true, s.extend '%') := by
  by_cases empty : s.entry = []
  · simp [outcome, percent, empty]
  · simp [outcome, percent, empty, extend]

theorem outcome_operator (s : Session) (op : Operator) :
    (operator op).outcome s =
      if s.entry ≠ [] then
        (true, { s with
          entry := [], committed := s.committed ++ s.entry ++ [op.symbol], failed := false })
      else if s.committed ≠ [] then
        if s.committed.getLast? = some op.symbol then (false, s)
        else (true, { s with committed := s.committed.dropLast ++ [op.symbol], failed := false })
      else match s.result with
        | some result =>
            (true, { s with
              committed := result ++ [op.symbol], result := none, expression := none, failed := false })
        | none => (false, s) := by
  by_cases entry : s.entry = []
  · by_cases committed : s.committed = []
    · cases result : s.result with
      | none =>
          -- The result is taken before it turns out that there is none.
          have taken : ({ expression := s.expression, failed := s.failed } : Session) = s := by
            cases s
            simp_all
          simp [outcome, operator, entry, committed, result, taken]
      | some text => simp [outcome, operator, entry, committed, result]
    · by_cases last : s.committed.getLast? = some op.symbol
      · simp [outcome, operator, entry, committed, last]
      · simp [outcome, operator, entry, committed, last]
  · simp [outcome, operator, entry]

theorem outcome_backspace (s : Session) :
    backspace.outcome s =
      if s.entry = [] then (false, s)
      else (true, { s with entry := s.entry.dropLast, failed := false }) := by
  by_cases empty : s.entry = []
  · have dropped : { s with entry := [] } = s := by rw [← empty]
    simp [outcome, backspace, empty, dropped]
  · simp [outcome, backspace, empty]

theorem outcome_clear (s : Session) : clear.outcome s = if s = {} then (false, s) else (true, {}) := by
  by_cases first : s = {}
  · simp [outcome, clear, first]
  · simp [outcome, clear, first]

theorem outcome_equals (s : Session) :
    equals.outcome s = match s.pending? with
      | some expression => (true, conclude expression (Expression.evaluate expression))
      | none => (false, s) := by
  cases pending : s.pending? with
  | none => simp [outcome, equals, pending]
  | some expression => simp [outcome, equals, pending]

end Action

/-! ## Frame -/

namespace Action

variable {action : Action} {s next : Session}

theorem next?_eq_some_iff : action.next? s = some next ↔ action.outcome s = (true, next) := by
  simp [next?, Prod.ext_iff]

theorem next?_eq_none_iff : action.next? s = none ↔ (action.outcome s).1 = false := by
  simp [next?]

-- An operation that has its effect unless a guard holds.
section
variable {guard : Session → Prop} [DecidablePred guard] {after : Session → Session}

theorem framed_of_guard (does : ∀ s, action.outcome s = if guard s then (false, s) else (true, after s)) :
    action.Framed := by
  intro s
  rw [does s]
  split <;> simp

theorem next?_eq_none_iff_of_guard
    (does : ∀ s, action.outcome s = if guard s then (false, s) else (true, after s)) :
    action.next? s = none ↔ guard s := by
  rw [next?_eq_none_iff, does s]
  split <;> simp [*]

theorem next?_eq_some_iff_of_guard
    (does : ∀ s, action.outcome s = if guard s then (false, s) else (true, after s)) :
    action.next? s = some next ↔ ¬ guard s ∧ next = after s := by
  rw [next?_eq_some_iff, does s]
  split <;> simp [*, eq_comm]

end

theorem framed_type (c : Char) : (type c).Framed := by
  intro s
  rw [outcome_type]
  repeat' split
  all_goals simp

theorem framed_percent : percent.Framed := framed_of_guard outcome_percent

theorem framed_operator (op : Operator) : (operator op).Framed := by
  intro s
  rw [outcome_operator]
  repeat' split
  all_goals simp

theorem framed_backspace : backspace.Framed := framed_of_guard outcome_backspace

theorem framed_clear : clear.Framed := framed_of_guard outcome_clear

theorem framed_equals : equals.Framed := by
  intro s
  rw [outcome_equals]
  split <;> simp

end Action

/-- A command without effect changes nothing. -/
theorem framed_perform : ∀ command, (perform command).Framed
  | .digit c => Action.framed_type c
  | .point => Action.framed_type '.'
  | .operator op => Action.framed_operator op
  | .percent => Action.framed_percent
  | .clear => Action.framed_clear
  | .backspace => Action.framed_backspace
  | .equals => Action.framed_equals

theorem apply_of_step? {s next : Session} {command : Command}
    (effect : s.step? command = some next) : s.apply command = next :=
  congrArg Prod.snd (Action.next?_eq_some_iff.mp effect)

theorem apply_of_step?_eq_none {s : Session} {command : Command} (idle : s.step? command = none) :
    s.apply command = s :=
  framed_perform command s (Action.next?_eq_none_iff.mp idle)

theorem step?_equals_of_pending? {s : Session} {expression : List Char}
    (pending : s.pending? = some expression) :
    s.step? .equals = some (conclude expression (Expression.evaluate expression)) :=
  Action.next?_eq_some_iff.mpr (by rw [perform, Action.outcome_equals, pending])

/-! ## Runs -/

theorem run_append (s : Session) (first second : List Command) :
    s.run (first ++ second) = (s.run first).run second := List.foldl_append

theorem run_preserves_of_mem {holds : Session → Prop} {commands : List Command}
    (step : ∀ {s next : Session} {command : Command},
      command ∈ commands → holds s → s.step? command = some next → holds next)
    {s : Session} (start : holds s) : holds (s.run commands) := by
  induction commands generalizing s with
  | nil => exact start
  | cons command commands ih =>
      refine ih (fun member => step (List.mem_cons_of_mem command member)) ?_
      cases effect : s.step? command with
      | none => rwa [apply_of_step?_eq_none effect]
      | some next =>
          rw [apply_of_step? effect]
          exact step List.mem_cons_self start effect

theorem run_preserves {holds : Session → Prop}
    (step : ∀ {s next : Session} {command : Command},
      holds s → s.step? command = some next → holds next)
    {s : Session} (start : holds s) (commands : List Command) : holds (s.run commands) :=
  run_preserves_of_mem (fun _ => step) start

end Session

end PocketCalc
